import Demars.Blockchain.Store
import Demars.Consensus.State
import Demars.Types.Readers

/-!
# The consensus reactor

`consensus/reactor.go`: what a peer tells about its own state (`PeerState`), the handler of its messages
(`receive`) and one round of each of the routines that send to it what it lacks. Message fields are as they were
decoded; nothing has checked them. What the handlers read of the node itself is an `Own`, and what they hand on is
kept in `out`. Bit arrays are pointers that several fields share, so they are `Ref`s.
-/

namespace Demars.Consensus

open Handler Machine Blockchain

/-- `types.Heartbeat`, without its signature. -/
structure Heartbeat where
  validatorAddress : Bytes
  validatorIndex : Int
  height : Int
  round : Int
  sequence : Int

/-- `ConsensusMessage`. -/
inductive PeerMsg
  | newRoundStep (height round : Int) (step : UInt8) (lastCommitRound : Int)
  | commitStep (height : Int) (blockPartsHeader : PartSetHeader) (blockParts : Option RawBitArray)
  | proposal (proposal : Option Proposal)
  | proposalPOL (height proposalPOLRound : Int) (proposalPOL : Option RawBitArray)
  | blockPart (height round : Int) (part : Option Part)
  | vote (vote : Option Vote)
  | hasVote (height round : Int) (type_ : UInt8) (index : Int)
  | voteSetMaj23 (height round : Int) (type_ : UInt8) (blockID : BlockID)
  | voteSetBits (height round : Int) (type_ : UInt8) (blockID : BlockID) (votes : Option RawBitArray)
  | proposalHeartbeat (heartbeat : Option Heartbeat)
  | unknown

def stateChannel : UInt8 := 0x20

def dataChannel : UInt8 := 0x21

def voteChannel : UInt8 := 0x22

def voteSetBitsChannel : UInt8 := 0x23

def blocksToContributeToBecomeGoodPeer : Int := 10000

/-- What the reactor does with a message besides keeping track of the peer. -/
inductive Output
  | queue (msg : Msg)
  | send (chID : UInt8) (msg : PeerMsg)
  | stopPeer
  | markPeerAsGood

abbrev Bits := Option (Ref RawBitArray)

structure PeerState where
  height : Int
  round : Int
  step : UInt8
  proposal : Bool
  proposalBlockPartsHeader : PartSetHeader
  proposalBlockParts : Bits
  proposalPOLRound : Int
  proposalPOL : Bits
  prevotes : Bits
  precommits : Bits
  lastCommitRound : Int
  lastCommit : Bits
  catchupCommitRound : Int
  catchupCommit : Bits
  lastVoteHeight : Int
  votes : Int
  lastBlockPartHeight : Int
  blockParts : Int
  nextRef : Nat
  out : List Output

def newPeerState : PeerState where
  height := 0
  round := -1
  step := 0
  proposal := false
  proposalBlockPartsHeader := PartSetHeader.empty
  proposalBlockParts := none
  proposalPOLRound := -1
  proposalPOL := none
  prevotes := none
  precommits := none
  lastCommitRound := -1
  lastCommit := none
  catchupCommitRound := -1
  catchupCommit := none
  lastVoteHeight := 0
  votes := 0
  lastBlockPartHeight := 0
  blockParts := 0
  nextRef := 0
  out := []

structure Own where
  cs : ConsensusState
  store : BlockStore
  running : Bool
  fastSync : Bool
  sent : Nat → Bool
  rand : Nat → Random

abbrev PeerM := Handler PeerState

def compareHRS (h1 r1 : Int) (s1 : UInt8) (h2 r2 : Int) (s2 : UInt8) : Int :=
  if h1 < h2 then -1 else if h1 > h2 then 1
  else if r1 < r2 then -1 else if r1 > r2 then 1
  else if s1 < s2 then -1 else if s1 > s2 then 1
  else 0

/-! ## The state of a peer -/

namespace PeerState

def write (addr : Nat) (bA : RawBitArray) (ps : PeerState) : PeerState :=
  { ps with
    proposalBlockParts := ps.proposalBlockParts.map (Ref.write addr bA)
    proposalPOL := ps.proposalPOL.map (Ref.write addr bA)
    prevotes := ps.prevotes.map (Ref.write addr bA)
    precommits := ps.precommits.map (Ref.write addr bA)
    lastCommit := ps.lastCommit.map (Ref.write addr bA)
    catchupCommit := ps.catchupCommit.map (Ref.write addr bA) }

def getVoteBitArray (ps : PeerState) (height round : Int) (type_ : UInt8) : Bits :=
  if isVoteTypeValid type_ = false then none
  else if ps.height = height then
    if ps.round = round then if type_ = voteTypePrevote then ps.prevotes else ps.precommits
    else if ps.catchupCommitRound = round then if type_ = voteTypePrevote then none else ps.catchupCommit
    else if ps.proposalPOLRound = round then if type_ = voteTypePrevote then ps.proposalPOL else none
    else none
  else if ps.height = wrap64 (height + 1) then
    if ps.lastCommitRound = round then if type_ = voteTypePrevote then none else ps.lastCommit else none
  else none

end PeerState

def emit (o : Output) : PeerM Unit := modify fun ps => { ps with out := ps.out ++ [o] }

def alloc (bA : Option RawBitArray) : PeerM Bits := do
  let ps ← get
  modify fun ps => { ps with nextRef := ps.nextRef + 1 }
  pure (bA.map (Ref.mk ps.nextRef))

/-- A pointer to what `NewBitArray` gives. -/
def newArray (bits : Int) : PeerM Bits := do
  let bA ← ofOption (RawBitArray.newBitArray bits)
  alloc bA

/-- `SetIndex(index, true)` through a pointer. -/
def setBit (bits : Bits) (index : Int) : PeerM Unit :=
  match bits with
  | none => pure ()
  | some ref => do
    let bA ← ofOption (ref.val.setIndex index true)
    modify (PeerState.write ref.addr bA)

/-- `SetHasProposal`, of a pointer that is not `nil`. -/
def setHasProposal (proposal : Proposal) : PeerM Unit := do
  let ps ← get
  if ps.height ≠ proposal.height ∨ ps.round ≠ proposal.round then pure ()
  else if ps.proposal = true then pure ()
  else do
    modify fun ps => { ps with proposal := true, proposalBlockPartsHeader := proposal.blockPartsHeader }
    let parts ← newArray proposal.blockPartsHeader.total
    modify fun ps => { ps with
      proposalBlockParts := parts, proposalPOLRound := proposal.polRound, proposalPOL := none }

def initProposalBlockParts (partsHeader : PartSetHeader) : PeerM Unit := do
  let ps ← get
  if ps.proposalBlockParts.isSome = true then pure ()
  else do
    modify fun ps => { ps with proposalBlockPartsHeader := partsHeader }
    let parts ← newArray partsHeader.total
    modify fun ps => { ps with proposalBlockParts := parts }

def setHasProposalBlockPart (height round index : Int) : PeerM Unit := do
  let ps ← get
  if ps.height ≠ height ∨ ps.round ≠ round then pure ()
  else setBit ps.proposalBlockParts index

def ensureCatchupCommitRound (height round numValidators : Int) : PeerM Unit := do
  let ps ← get
  if ps.height ≠ height then pure ()
  else if ps.catchupCommitRound = round then pure ()
  else do
    modify fun ps => { ps with catchupCommitRound := round }
    if round = ps.round then modify fun ps => { ps with catchupCommit := ps.precommits }
    else do
      let commit ← newArray numValidators
      modify fun ps => { ps with catchupCommit := commit }

def ensureArray (bits : Bits) (numValidators : Int) (put : Bits → PeerState → PeerState) : PeerM Unit :=
  when (bits.isNone = true) do
    let new ← newArray numValidators
    modify (put new)

def ensureVoteBitArrays (height numValidators : Int) : PeerM Unit := do
  let ps ← get
  if ps.height = height then do
    ensureArray ps.prevotes numValidators fun new ps => { ps with prevotes := new }
    ensureArray ps.precommits numValidators fun new ps => { ps with precommits := new }
    ensureArray ps.catchupCommit numValidators fun new ps => { ps with catchupCommit := new }
    ensureArray ps.proposalPOL numValidators fun new ps => { ps with proposalPOL := new }
  else
    when (ps.height = wrap64 (height + 1)) (ensureArray ps.lastCommit numValidators fun new ps =>
      { ps with lastCommit := new })

/-- `RecordVote`, and what `Receive` does with its answer. -/
def recordVote (vote : Vote) : PeerM Unit := do
  modify fun ps => if ps.lastVoteHeight ≥ vote.height then ps
    else { ps with lastVoteHeight := vote.height, votes := ps.votes + 1 }
  let ps ← get
  when (ps.votes.tmod blocksToContributeToBecomeGoodPeer = 0) (emit .markPeerAsGood)

/-- `RecordBlockPart`, and what `Receive` does with its answer. -/
def recordBlockPart (height : Int) : PeerM Unit := do
  modify fun ps => if ps.lastBlockPartHeight ≥ height then ps
    else { ps with lastBlockPartHeight := height, blockParts := ps.blockParts + 1 }
  let ps ← get
  when (ps.blockParts.tmod blocksToContributeToBecomeGoodPeer = 0) (emit .markPeerAsGood)

def setHasVote (height round : Int) (type_ : UInt8) (index : Int) : PeerM Unit := do
  let ps ← get
  setBit (ps.getVoteBitArray height round type_) index

def applyNewRoundStep (height round : Int) (step : UInt8) (lastCommitRound : Int) : PeerM Unit := do
  let ps ← get
  if compareHRS height round step ps.height ps.round ps.step ≤ 0 then pure ()
  else do
    modify fun ps => { ps with height, round, step }
    when (ps.height ≠ height ∨ ps.round ≠ round) (modify fun ps => { ps with
      proposal := false, proposalBlockPartsHeader := PartSetHeader.empty, proposalBlockParts := none
      proposalPOLRound := -1, proposalPOL := none, prevotes := none, precommits := none })
    when (ps.height = height ∧ ps.round ≠ round ∧ round = ps.catchupCommitRound)
      (modify fun ps' => { ps' with precommits := ps.catchupCommit })
    -- the precommits were reset above, so it is `nil` that is shifted
    when (ps.height ≠ height) (modify fun ps' => { ps' with
      lastCommitRound
      lastCommit := if wrap64 (ps.height + 1) = height ∧ ps.round = lastCommitRound then ps'.precommits else none
      catchupCommitRound := -1
      catchupCommit := none })

def applyCommitStep (height : Int) (blockPartsHeader : PartSetHeader) (blockParts : Option RawBitArray) :
    PeerM Unit := do
  let ps ← get
  if ps.height ≠ height then pure ()
  else do
    let parts ← alloc blockParts
    modify fun ps => { ps with proposalBlockPartsHeader := blockPartsHeader, proposalBlockParts := parts }

def applyProposalPOL (height proposalPOLRound : Int) (proposalPOL : Option RawBitArray) : PeerM Unit := do
  let ps ← get
  if ps.height ≠ height then pure ()
  else if ps.proposalPOLRound ≠ proposalPOLRound then pure ()
  else do
    let pol ← alloc proposalPOL
    modify fun ps => { ps with proposalPOL := pol }

def applyHasVote (height round : Int) (type_ : UInt8) (index : Int) : PeerM Unit := do
  let ps ← get
  if ps.height ≠ height then pure () else setHasVote height round type_ index

/-- `Update` through a pointer. -/
def updateBits (ref : Ref RawBitArray) (o : Option RawBitArray) : PeerM Unit :=
  match o with
  | none => pure ()
  | some o => modify (PeerState.write ref.addr (ref.val.update o))

def applyVoteSetBits (height round : Int) (type_ : UInt8) (msgVotes ourVotes : Option RawBitArray) : PeerM Unit := do
  let ps ← get
  match ps.getVoteBitArray height round type_ with
  | none => pure ()
  | some votes =>
    match ourVotes with
    | none => updateBits votes msgVotes
    | some ourVotes => do
      let otherVotes ← ofOption (votes.val.sub ourVotes)
      let hasVotes ← ofOption (RawBitArray.orOf (some otherVotes) msgVotes)
      updateBits votes hasVotes

/-! ## Receive -/

section

variable (L : Platform) (C : StoreCodec) (O : Own) (peerID : Bytes)

/-- The answer to a claim of a majority; a peer that claims twice is stopped. -/
def replyMaj23 (height round : Int) (type_ : UInt8) (blockID : BlockID) : PeerM Unit :=
  if O.cs.height ≠ height then pure ()
  else if isVoteTypeValid type_ = false ∨
      (O.cs.votes.getVoteSet round type_).any (fun voteSet => (voteSet.setPeerMaj23 L.amino peerID blockID).2) =
        true then
    emit .stopPeer
  else
    let votes := O.cs.votes.setPeerMaj23 L.amino round type_ peerID blockID
    emit (.send voteSetBitsChannel (.voteSetBits height round type_ blockID
      (VoteSet.bitArrayByBlockID L.amino (votes.getVoteSet round type_) blockID)))

def receiveState (msg : PeerMsg) : PeerM Unit :=
  match msg with
  | .newRoundStep height round step lastCommitRound => applyNewRoundStep height round step lastCommitRound
  | .commitStep height blockPartsHeader blockParts => applyCommitStep height blockPartsHeader blockParts
  | .hasVote height round type_ index => applyHasVote height round type_ index
  | .voteSetMaj23 height round type_ blockID => replyMaj23 L O peerID height round type_ blockID
  | .proposalHeartbeat heartbeat => do
    -- its fields are read for the log
    let _ ← ofOption heartbeat
    pure ()
  | _ => pure ()

def receiveData (msg : PeerMsg) : PeerM Unit :=
  match msg with
  | .proposal proposal => do
    let p ← ofOption proposal
    setHasProposal p
    emit (.queue (.proposal proposal))
  | .proposalPOL height proposalPOLRound proposalPOL => applyProposalPOL height proposalPOLRound proposalPOL
  | .blockPart height round part => do
    let p ← ofOption part
    setHasProposalBlockPart height round p.index
    recordBlockPart height
    emit (.queue (.blockPart height round part))
  | _ => pure ()

def receiveVote (msg : PeerMsg) : PeerM Unit :=
  match msg with
  | .vote vote => do
    ensureVoteBitArrays O.cs.height O.cs.validators.size
    ensureVoteBitArrays (wrap64 (O.cs.height - 1)) (VoteSet.reader O.cs.lastCommit).size
    let v ← ofOption vote
    setHasVote v.height v.round v.type_ v.validatorIndex
    recordVote v
    emit (.queue (.vote vote))
  | _ => pure ()

def receiveBits (msg : PeerMsg) : PeerM Unit :=
  match msg with
  | .voteSetBits height round type_ blockID votes =>
    if O.cs.height = height then
      when (isVoteTypeValid type_ = true) (applyVoteSetBits height round type_ votes
        (VoteSet.bitArrayByBlockID L.amino (O.cs.votes.getVoteSet round type_) blockID))
    else applyVoteSetBits height round type_ votes none
  | _ => pure ()

/-- `Receive` of a decoded message, from a peer that has a state. -/
def receive (chID : UInt8) (msg : PeerMsg) : PeerM Unit :=
  if chID = stateChannel then receiveState L O peerID msg
  else if chID = dataChannel then when (O.fastSync = false) (receiveData msg)
  else if chID = voteChannel then when (O.fastSync = false) (receiveVote O msg)
  else when (chID = voteSetBitsChannel ∧ O.fastSync = false) (receiveBits L O msg)

/-! ## Gossip -/

def pickVoteToSend (votes : VoteSetReader) (rand : Random) : PeerM (Option (Option Vote)) :=
  if votes.size = 0 then pure none
  else do
    when (votes.isCommit = true) (ensureCatchupCommitRound votes.height votes.round votes.size)
    ensureVoteBitArrays votes.height votes.size
    let ps ← get
    match ps.getVoteBitArray votes.height votes.round votes.type_ with
    | none => pure none
    | some psVotes => do
      let diff ← ofOption (RawBitArray.subOf votes.bitArray (some psVotes.val))
      let index ← ofOption (RawBitArray.pickRandom diff rand)
      match index with
      | none => pure none
      | some index => do
        setHasVote votes.height votes.round votes.type_ index
        let vote ← ofOption (votes.votes[index]?)
        pure (some vote)

/-- `PickSendVote`, the `k`th in its round of the routine. -/
def pickSendVote (votes : VoteSetReader) (k : Nat) : PeerM Bool := do
  let vote ← pickVoteToSend votes (O.rand k)
  match vote with
  | none => pure false
  | some vote => do
    when (O.sent k = true) (emit (.send voteChannel (.vote vote)))
    pure (O.sent k)

def sendIf (due : Prop) [Decidable due] (votes : VoteSetReader) (k : Nat) : PeerM Bool :=
  if due then pickSendVote O votes k else pure false

/-- Votes to send, each under a condition, until something is sent. -/
def sendFirst : List (Bool × VoteSetReader) → Nat → PeerM Bool
  | [], _ => pure false
  | (due, votes) :: rest, k => do
    let sent ← sendIf O (due = true) votes k
    if sent = true then pure true else sendFirst rest (k + 1)

/-- The votes of `gossipVotesForHeight` in their order. -/
def votesForHeight (prs : PeerState) : List (Bool × VoteSetReader) :=
  let rs := O.cs
  let current : Bool := decide (prs.round ≠ -1 ∧ prs.round ≤ rs.round)
  let pol := rs.votes.prevotes prs.proposalPOLRound
  [ (decide (prs.step = 1), VoteSet.reader rs.lastCommit),
    (decide (prs.step ≤ 3) && current && decide (prs.proposalPOLRound ≠ -1) && pol.isSome, VoteSet.reader pol),
    (decide (prs.step ≤ 5) && current, VoteSet.reader (rs.votes.prevotes prs.round)),
    (decide (prs.step ≤ 7) && current, VoteSet.reader (rs.votes.precommits prs.round)),
    (current, VoteSet.reader (rs.votes.prevotes prs.round)),
    (decide (prs.proposalPOLRound ≠ -1) && pol.isSome, VoteSet.reader pol) ]

def gossipVotesForHeight (prs : PeerState) : PeerM Bool :=
  if O.cs.height = prs.height then sendFirst O (votesForHeight O prs) 0 else pure false

/-- One round of `gossipVotesRoutine`. -/
def gossipVotes : PeerM Unit := do
  let prs ← get
  let sent ← gossipVotesForHeight O prs
  if sent = true then pure ()
  else do
    let sent ← sendIf O (prs.height ≠ 0 ∧ O.cs.height = wrap64 (prs.height + 1)) (VoteSet.reader O.cs.lastCommit) 6
    if sent = true then pure ()
    else when (prs.height ≠ 0 ∧ O.cs.height ≥ wrap64 (prs.height + 2)) do
      let commit ← ofOption (loadBlockCommit C O.store.db prs.height)
      let _ ← pickSendVote O (Commit.reader commit) 7
      pure ()

/-- The part picked is sent, and kept track of if the send succeeds. -/
def sendPart (prs : PeerState) (height round : Int) (index : Nat) (part : Option Part) : PeerM Unit :=
  when (O.sent 0 = true) do
    emit (.send dataChannel (.blockPart height round part))
    setHasProposalBlockPart prs.height prs.round index

def gossipDataForCatchup (prs : PeerState) : PeerM Unit := do
  let index ← ofOption (RawBitArray.pickRandom (prs.proposalBlockParts.map fun parts => parts.val.not) (O.rand 1))
  match index with
  | none => pure ()
  | some index => do
    let blockMeta ← ofOption (loadBlockMeta C O.store.db prs.height)
    match blockMeta with
    | none => pure ()
    | some blockMeta =>
      if blockMeta.blockID.partsHeader ≠ prs.proposalBlockPartsHeader then pure ()
      else do
        let part ← ofOption (loadBlockPart C O.store.db prs.height index)
        match part with
        | none => pure ()
        | some part => sendPart O prs prs.height prs.round index (some part)

/-- The round of `gossipDataRoutine` after the parts of the proposal. -/
def gossipRest (prs : PeerState) : PeerM Unit :=
  if 0 < prs.height ∧ prs.height < O.cs.height then
    match prs.proposalBlockParts with
    | none => do
      -- a block that is not in the store is a panic here
      let blockMeta ← ofOption (loadBlockMeta C O.store.db prs.height)
      let blockMeta ← ofOption blockMeta
      initProposalBlockParts blockMeta.blockID.partsHeader
    | some _ => gossipDataForCatchup C O prs
  else if O.cs.height ≠ prs.height ∨ O.cs.round ≠ prs.round then pure ()
  else match O.cs.proposal with
    | none => pure ()
    | some proposal => when (prs.proposal = false) do
      when (O.sent 0 = true) do
        emit (.send dataChannel (.proposal (some proposal)))
        setHasProposal proposal
      when (0 ≤ proposal.polRound ∧ O.sent 1 = true)
        (emit (.send dataChannel (.proposalPOL O.cs.height proposal.polRound
        (VoteSet.reader (O.cs.votes.prevotes proposal.polRound)).bitArray)))

def gossipData : PeerM Unit := do
  let prs ← get
  match O.cs.proposalBlockParts with
  | none => gossipRest C O prs
  | some parts =>
    if parts.val.header ≠ prs.proposalBlockPartsHeader then gossipRest C O prs
    else do
      let diff ← ofOption (RawBitArray.subOf (parts.val.bitArray.map BitArray.raw) (prs.proposalBlockParts.map Ref.val))
      let index ← ofOption (RawBitArray.pickRandom diff (O.rand 0))
      match index with
      | none => gossipRest C O prs
      | some index => do
        let part ← ofOption (parts.val.parts[index]?)
        sendPart O prs O.cs.height O.cs.round index part

def loadCommit (height : Int) : Option (Option Commit) :=
  if height = O.store.height then loadSeenCommit C O.store.db height else loadBlockCommit C O.store.db height

def tellMaj23 (prs : PeerState) (round : Int) (type_ : UInt8) : PeerM Unit :=
  match O.cs.votes.majority round type_ with
  | none => pure ()
  | some blockID => emit (.send stateChannel (.voteSetMaj23 prs.height round type_ blockID))

def queryMaj23 : PeerM Unit := do
  let prs ← get
  when (O.cs.height = prs.height) do
    tellMaj23 O prs prs.round voteTypePrevote
    tellMaj23 O prs prs.round voteTypePrecommit
    when (0 ≤ prs.proposalPOLRound) (tellMaj23 O prs prs.proposalPOLRound voteTypePrevote)
  when (prs.catchupCommitRound ≠ -1 ∧ 0 < prs.height ∧ prs.height ≤ O.store.height) do
    let commit ← ofOption (loadCommit C O prs.height)
    let commit ← ofOption commit
    emit (.send stateChannel (.voteSetMaj23 prs.height commit.round voteTypePrecommit commit.blockID))

/-! ## Runs of the reactor -/

inductive PeerEvent
  | addPeer
  | receive (chID : UInt8) (msg : PeerMsg)
  | gossipData
  | gossipVotes
  | queryMaj23

end

/-- A call of the reactor for a peer, and what it reads of the node. -/
structure PeerInput where
  own : Own
  peerID : Bytes
  event : PeerEvent

/-- The states of the peers; a peer has none before `AddPeer`. -/
abbrev Peers := Bytes → Option PeerState

def PeerInput.handler (L : Platform) (C : StoreCodec) (x : PeerInput) : PeerM Unit :=
  match x.event with
  | .addPeer => pure ()
  | .receive chID msg => receive L x.own x.peerID chID msg
  | .gossipData => gossipData C x.own
  | .gossipVotes => gossipVotes C x.own
  | .queryMaj23 => queryMaj23 C x.own

/-- One event; `none` is a panic, also for a peer without a state. -/
def reactorStep (L : Platform) (C : StoreCodec) (peers : Option Peers) (x : PeerInput) : Option Peers :=
  peers.bind fun peers =>
    if x.own.running = false then some peers
    else match x.event, peers x.peerID with
      | .addPeer, _ => some (Function.update peers x.peerID (some newPeerState))
      | .receive _ _, none => none
      | _, none => some peers
      | _, some ps =>
        let res := exec (x.handler L C) ps
        if res.2 = true then some (Function.update peers x.peerID (some res.1)) else none

end Demars.Consensus
