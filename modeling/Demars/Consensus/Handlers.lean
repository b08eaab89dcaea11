import Demars.Consensus.State

/-!
# The handlers of the consensus state machine

`consensus/state.go` from `enterNewRound` to `addVote`, and `handleMsg`, `handleTimeout` and `handleTxsAvailable`
on top of them. A `defer` of the source is a `Handler.defer`. Logging, events, metrics and the write-ahead log are
left out, and so is saving the block.
-/

namespace Demars.Consensus

open Handler
open ConsensusState (blockHash hashesTo partsHeader startHeight startRound unlock newProposalParts writeParts)

section

variable (L : Platform) (N : Node) (O : Outside)

/-! ## Prevotes -/

def doPrevote : M Unit := do
  let cs ← get
  match cs.lockedBlock, cs.proposalBlock with
  | some locked, _ => signAddVote L N O voteTypePrevote ⟨blockHash L locked, partsHeader cs.lockedBlockParts⟩
  | none, none => signAddVote L N O voteTypePrevote BlockID.empty
  | none, some block => do
    let valid ← ofOption (cs.state.validateBlock L.prims L.amino L.blocks (some block.val))
    match valid with
    | .error _ => signAddVote L N O voteTypePrevote BlockID.empty
    | .ok _ => signAddVote L N O voteTypePrevote ⟨blockHash L block, partsHeader cs.proposalBlockParts⟩

def enterPrevote (height round : Int) : M Unit := do
  let cs ← get
  if cs.height ≠ height ∨ round < cs.round ∨ (cs.round = round ∧ RoundStep.prevote.ord ≤ cs.step.ord) then pure ()
  else defer (updateRoundStep round .prevote) (doPrevote L N O)

def enterPrevoteWait (height round : Int) : M Unit := do
  let cs ← get
  if cs.height ≠ height ∨ round < cs.round ∨ (cs.round = round ∧ RoundStep.prevoteWait.ord ≤ cs.step.ord) then pure ()
  else if (cs.votes.prevotes round).any VoteSet.hasTwoThirdsAny = false then panic
  else defer (updateRoundStep round .prevoteWait) (scheduleTimeout height round .prevoteWait)

/-! ## Proposals -/

/-- The body of `enterPropose`. -/
def doPropose (height round : Int) : M Unit := do
  scheduleTimeout height round .propose
  let cs ← get
  when (cs.pv.isSome = true ∧ cs.validators.hasAddress N.address = true) do
    let proposer ← ofOption cs.validators.getProposer
    when (proposer.address = N.address) (decideProposal L N O height round)

def proposed (height round : Int) : M Unit := do
  updateRoundStep round .propose
  let cs ← get
  when (cs.isProposalComplete = true) (enterPrevote L N O height cs.round)

def enterPropose (height round : Int) : M Unit := do
  let cs ← get
  if cs.height ≠ height ∨ round < cs.round ∨ (cs.round = round ∧ RoundStep.propose.ord ≤ cs.step.ord) then pure ()
  else defer (proposed L N O height round) (doPropose L N O height round)

/-- `needProofBlock`; the block before is there. -/
def needProofBlock (cs : ConsensusState) (height : Int) : Option Bool :=
  if height = 1 then some true else (O.lastAppHash (height - 1)).map fun appHash => decide (cs.state.appHash ≠ appHash)

/-- Whether `enterNewRound` waits for transactions. -/
def waitsForTxs (cs : ConsensusState) (height round : Int) : Option Bool :=
  if N.waitForTxs = true ∧ round = 0 then (needProofBlock O cs height).map (!·) else some false

/-- The end of `enterNewRound`: propose, or wait for transactions. -/
def proposeOrWait (height round : Int) : M Unit := do
  let cs ← get
  let waitForTxs ← ofOption (waitsForTxs N O cs height round)
  if waitForTxs = true then when (N.emptyBlocksInterval = true) (scheduleTimeout height round .newRound)
  else enterPropose L N O height round

/-- The validators of a round that `enterNewRound` starts. -/
def roundValidators (cs : ConsensusState) (round : Int) : Option ValidatorSet :=
  if cs.round < round then cs.validators.incrementAccum (round - cs.round) else some cs.validators

def enterNewRound (height round : Int) : M Unit := do
  let cs ← get
  if cs.height ≠ height ∨ round < cs.round ∨ (cs.round = round ∧ cs.step ≠ .newHeight) then pure ()
  else do
    let validators ← ofOption (roundValidators cs round)
    modify (startRound round validators)
    let cs ← get
    let votes ← ofOption (cs.votes.setRound (round + 1))
    modify fun cs => { cs with votes }
    proposeOrWait L N O height round

/-! ## Precommits -/

/-- The branch of `enterPrecommit` for a polka of a block that the node does not have. -/
def unlockAndFetch (blockID : BlockID) : M Unit := do
  modify unlock
  let cs ← get
  when (PartSet.hasHeader (cs.proposalBlockParts.map Ref.val) blockID.partsHeader = false) do
    modify fun cs => { cs with proposalBlock := none }
    let parts ← ofOption (PartSet.newPartSetFromHeader blockID.partsHeader)
    modify (newProposalParts parts)
  signAddVote L N O voteTypePrecommit BlockID.empty

/-- The branch of `enterPrecommit` for a polka of the proposal block. -/
def lockProposal (round : Int) (blockID : BlockID) : M Unit := do
  let cs ← get
  let valid ← ofOption (cs.state.validateBlock L.prims L.amino L.blocks (cs.proposalBlock.map Ref.val))
  match valid with
  | .error _ => panic
  | .ok _ => do
    modify fun cs => { cs with
      lockedRound := round, lockedBlock := cs.proposalBlock, lockedBlockParts := cs.proposalBlockParts }
    signAddVote L N O voteTypePrecommit blockID

/-- The body of `enterPrecommit`. -/
def doPrecommit (round : Int) : M Unit := do
  let cs ← get
  match cs.votes.majority round voteTypePrevote with
  | none => signAddVote L N O voteTypePrecommit BlockID.empty
  | some blockID =>
    if cs.votes.polInfo.1 < round then panic
    else if blockID.hash = [] then do
      when (cs.lockedBlock.isSome = true) (modify unlock)
      signAddVote L N O voteTypePrecommit BlockID.empty
    else if hashesTo L cs.lockedBlock blockID.hash = true then do
      modify fun cs => { cs with lockedRound := round }
      signAddVote L N O voteTypePrecommit blockID
    else if hashesTo L cs.proposalBlock blockID.hash = true then lockProposal L N O round blockID
    else unlockAndFetch L N O blockID

def enterPrecommit (height round : Int) : M Unit := do
  let cs ← get
  if cs.height ≠ height ∨ round < cs.round ∨ (cs.round = round ∧ RoundStep.precommit.ord ≤ cs.step.ord) then pure ()
  else defer (updateRoundStep round .precommit) (doPrecommit L N O round)

def enterPrecommitWait (height round : Int) : M Unit := do
  let cs ← get
  if cs.height ≠ height ∨ round < cs.round ∨ (cs.round = round ∧ RoundStep.precommitWait.ord ≤ cs.step.ord) then pure ()
  else if (cs.votes.precommits round).any VoteSet.hasTwoThirdsAny = false then panic
  else defer (updateRoundStep round .precommitWait) (scheduleTimeout height round .precommitWait)

/-! ## Commits -/

/-- The precommits that `updateToState` keeps: those that committed the block. -/
def lastPrecommits (cs : ConsensusState) : Option (Option VoteSet) :=
  if cs.commitRound > -1 then
    match cs.votes.precommits cs.commitRound with
    | none => none
    | some precommits => if precommits.hasTwoThirdsMajority = true then some (some precommits) else none
  else some none

def updateToState (state : ChainState) : M Unit := do
  let cs ← get
  if cs.commitRound > -1 ∧ 0 < cs.height ∧ cs.height ≠ state.lastBlockHeight then panic
  else if cs.state.lastBlockHeight + 1 ≠ cs.height then panic
  else if state.lastBlockHeight ≤ cs.state.lastBlockHeight then pure ()
  else do
    let lastCommit ← ofOption (lastPrecommits cs)
    let votes ← ofOption
      (HeightVoteSet.newHeightVoteSet state.chainID (state.lastBlockHeight + 1) state.validators)
    modify (startHeight state votes lastCommit)

/-- `finalizeCommit` after its checks; an error of `ApplyBlock` kills the process. -/
def applyAndUpdate (blockID : BlockID) (block : Block) : M Unit := do
  let cs ← get
  let applied ← ofOption (O.applyBlock cs.state blockID block)
  match applied with
  | none => pure ()
  | some state => do
    updateToState state
    let cs ← get
    scheduleTimeout cs.height 0 .newHeight

def finalizeCommit (height : Int) : M Unit := do
  let cs ← get
  if cs.height ≠ height ∨ cs.step ≠ .commit then pure ()
  else do
    let blockID ← ofOption (cs.votes.majority cs.commitRound voteTypePrecommit)
    modify fun cs => { cs with
      finalized := cs.finalized ++ [cs.call blockID] }
    if PartSet.hasHeader (cs.proposalBlockParts.map Ref.val) blockID.partsHeader = false then panic
    else if hashesTo L cs.proposalBlock blockID.hash = false then panic
    else do
      let block ← ofOption cs.proposalBlock
      let valid ← ofOption (cs.state.validateBlock L.prims L.amino L.blocks (some block.val))
      match valid with
      | .error _ => panic
      | .ok _ => applyAndUpdate O ⟨blockHash L block, partsHeader cs.proposalBlockParts⟩ block.val

def tryFinalizeCommit (height : Int) : M Unit := do
  let cs ← get
  if cs.height ≠ height then panic
  else match cs.votes.majority cs.commitRound voteTypePrecommit with
    | none => pure ()
    | some blockID =>
      if blockID.hash = [] ∨ hashesTo L cs.proposalBlock blockID.hash = false then pure ()
      else finalizeCommit L O height

/-- The body of `enterCommit`. -/
def adoptCommit (commitRound : Int) : M Unit := do
  let cs ← get
  let blockID ← ofOption (cs.votes.majority commitRound voteTypePrecommit)
  when (hashesTo L cs.lockedBlock blockID.hash = true)
    (modify fun cs => { cs with proposalBlock := cs.lockedBlock, proposalBlockParts := cs.lockedBlockParts })
  let cs ← get
  when (hashesTo L cs.proposalBlock blockID.hash = false ∧
      PartSet.hasHeader (cs.proposalBlockParts.map Ref.val) blockID.partsHeader = false) do
    modify fun cs => { cs with proposalBlock := none }
    let parts ← ofOption (PartSet.newPartSetFromHeader blockID.partsHeader)
    modify (newProposalParts parts)

/-- What `enterCommit` defers. -/
def committed (height commitRound : Int) : M Unit := do
  modify fun cs => { cs with step := .commit, commitRound }
  tryFinalizeCommit L O height

def enterCommit (height commitRound : Int) : M Unit := do
  let cs ← get
  if cs.height ≠ height ∨ RoundStep.commit.ord ≤ cs.step.ord then pure ()
  else defer (committed L O height commitRound) (adoptCommit L commitRound)

/-! ## Messages -/

/-- `defaultSetProposal`; the check of the signature is commented out in the source. -/
def setProposal (proposal : Proposal) : M Unit := do
  let cs ← get
  if cs.proposal.isSome = true then pure ()
  else if proposal.height ≠ cs.height ∨ proposal.round ≠ cs.round then pure ()
  else if RoundStep.commit.ord ≤ cs.step.ord then pure ()
  else if proposal.polRound ≠ -1 ∧ (proposal.polRound < 0 ∨ proposal.round ≤ proposal.polRound) then pure ()
  else do
    modify fun cs => { cs with proposal := some proposal }
    let parts ← ofOption (PartSet.newPartSetFromHeader proposal.blockPartsHeader)
    modify (newProposalParts parts)

def setValid (round : Int) (cs : ConsensusState) : ConsensusState :=
  { cs with validRound := round, validBlock := cs.proposalBlock, validBlockParts := cs.proposalBlockParts }

/-- The block that decoding the parts leaves, with its header filled in by its hash. -/
def decodeBlock (cs : ConsensusState) (parts : PartSet) : Option Block × Bool :=
  match L.blocks.unmarshalBlock cs.state.consensusParams.blockMaxBytes (cs.proposalBlock.map Ref.val) parts.data with
  | (block, true) => (block.map (Block.fillHeader L.prims), true)
  | (block, false) => (block, false)

/-- The update of `Valid*` in `addProposalBlockPart`. -/
def seeBlock : M Unit := do
  let cs ← get
  match cs.votes.majority cs.round voteTypePrevote with
  | none => pure ()
  | some blockID =>
    when (blockID.isZero = false ∧ cs.validRound < cs.round ∧ hashesTo L cs.proposalBlock blockID.hash = true)
      (modify (setValid cs.round))

/-- The part of `addProposalBlockPart` after the block was decoded. -/
def blockCompleted (height : Int) : M Unit := do
  let cs ← get
  -- the log line reads the height of the block
  let block ← ofOption cs.proposalBlock
  let _ ← ofOption block.val.header
  seeBlock L
  if cs.step.ord ≤ RoundStep.propose.ord ∧ cs.isProposalComplete = true then enterPrevote L N O height cs.round
  else when (cs.step = .commit) (tryFinalizeCommit L O height)

def addProposalBlockPart (height : Int) (part : Option Part) : M Unit := do
  let cs ← get
  if cs.height ≠ height then pure ()
  else do
    -- in both of the remaining cases the index of the part is read
    let part ← ofOption part
    match cs.proposalBlockParts with
    | none => pure ()
    | some parts => do
      let res ← ofOption (parts.val.addPart L.prims part)
      if res.2.1 = true ∧ res.1.isComplete = true then do
        let decoded := decodeBlock L cs res.1
        modify fun cs => (cs.writeParts parts.addr res.1).setProposalBlock decoded.1
        when (decoded.2 = true) (blockCompleted L N O height)
      else modify (writeParts parts.addr res.1)

/-- What `addVote` does with a polka of a round: release the lock, update the valid block. -/
def seePolka (round : Int) (polka : Option BlockID) : M Unit :=
  match polka with
  | none => pure ()
  | some blockID => do
    let cs ← get
    when (cs.lockedBlock.isSome = true ∧ cs.lockedRound < round ∧ round ≤ cs.round ∧
      hashesTo L cs.lockedBlock blockID.hash = false) (modify unlock)
    let cs ← get
    when (blockID.isZero = false ∧ cs.validRound < round ∧ round ≤ cs.round ∧
      hashesTo L cs.proposalBlock blockID.hash = true) (modify (setValid round))

/-- The case of a prevote in `addVote`. -/
def addedPrevote (round : Int) : M Unit := do
  let cs ← get
  let prevotes ← ofOption (cs.votes.prevotes round)
  seePolka L round prevotes.twoThirdsMajority
  let cs ← get
  if cs.round ≤ round ∧ prevotes.hasTwoThirdsAny = true then do
    enterNewRound L N O cs.height round
    if prevotes.hasTwoThirdsMajority = true then enterPrecommit L N O cs.height round
    else do
      enterPrevote L N O cs.height round
      enterPrevoteWait cs.height round
  else when (cs.proposal.any (fun proposal => decide (0 ≤ proposal.polRound) && decide (proposal.polRound = round)) =
    true ∧ cs.isProposalComplete = true) (enterPrevote L N O cs.height cs.round)

/-- The case of a precommit in `addVote`. -/
def addedPrecommit (round : Int) : M Unit := do
  let cs ← get
  let precommits ← ofOption (cs.votes.precommits round)
  match precommits.twoThirdsMajority with
  | some blockID =>
    if blockID.hash = [] then enterNewRound L N O cs.height (round + 1)
    else do
      enterNewRound L N O cs.height round
      enterPrecommit L N O cs.height round
      enterCommit L O cs.height round
      when (N.skipTimeoutCommit = true ∧ precommits.hasAll = true) do
        let cs ← get
        enterNewRound L N O cs.height 0
  | none => when (cs.round ≤ round ∧ precommits.hasTwoThirdsAny = true) do
      enterNewRound L N O cs.height round
      enterPrecommit L N O cs.height round
      enterPrecommitWait cs.height round

/-- The case of a late precommit for the height before in `addVote`. -/
def addLastCommit (vote : Vote) : M (Option AddVoteError) := do
  let cs ← get
  let lastCommit ← ofOption cs.lastCommit
  let res ← ofOption (lastCommit.addVote L.prims L.amino (some vote))
  modify fun cs => { cs with lastCommit := some res.1 }
  when (res.2.1 = true ∧ N.skipTimeoutCommit = true ∧ res.1.hasAll = true) (enterNewRound L N O cs.height 0)
  pure (res.2.2.map .vote)

def addVote (vote : Vote) (peerID : Bytes) : M (Option AddVoteError) := do
  let cs ← get
  if vote.height + 1 = cs.height then
    if cs.step = .newHeight ∧ vote.type_ = voteTypePrecommit then addLastCommit L N O vote
    else pure (some .heightMismatch)
  else if vote.height ≠ cs.height then pure (some .heightMismatch)
  else do
    let res ← ofOption (cs.votes.addVote L.prims L.amino vote peerID)
    modify fun cs => { cs with votes := res.1 }
    when (res.2.1 = true)
      (if vote.type_ = voteTypePrevote then addedPrevote L N O vote.round else addedPrecommit L N O vote.round)
    pure res.2.2

/-- `tryAddVote`: evidence of a conflict goes to a pool that is never set. -/
def tryAddVote (vote : Vote) (peerID : Bytes) : M Unit := do
  let err ← addVote L N O vote peerID
  match err with
  | some (.vote (.conflictingVotes _ _ _)) => do
    let cs ← get
    when (cs.pv = none ∨ vote.validatorAddress ≠ N.address) panic
  | _ => pure ()

/-- `handleMsg`: a `nil` payload is read and panics. -/
def handleMsg (msg : Msg) (peerID : Bytes) : M Unit :=
  match msg with
  | .proposal proposal => do
    let cs ← get
    -- a proposal that is there already is not compared with the new one
    if cs.proposal.isSome = true then pure ()
    else do
      let proposal ← ofOption proposal
      setProposal proposal
  | .blockPart height _ part => addProposalBlockPart L N O height part
  | .vote vote => do
    let vote ← ofOption vote
    tryAddVote L N O vote peerID

def handleTimeout (ti : TimeoutInfo) : M Unit := do
  let cs ← get
  if ti.height ≠ cs.height ∨ ti.round < cs.round ∨ (ti.round = cs.round ∧ ti.step.ord < cs.step.ord) then pure ()
  else match ti.step with
    | .newHeight => enterNewRound L N O ti.height 0
    | .newRound => enterPropose L N O ti.height 0
    | .propose => enterPrevote L N O ti.height ti.round
    | .prevoteWait => enterPrecommit L N O ti.height ti.round
    | .precommitWait => enterNewRound L N O ti.height (ti.round + 1)
    | _ => panic

/-! ## Runs of a node -/

inductive Event
  | msg (msg : Msg) (peerID : Bytes)
  | timeout (ti : TimeoutInfo)
  | txsAvailable (height : Int)
  | peerMaj23 (height round : Int) (type_ : UInt8) (peerID : Bytes) (blockID : BlockID)

/-- The handler of an event; the ticker fires only timeouts that were scheduled. -/
def handle (event : Event) : M Unit :=
  match event with
  | .msg msg peerID => handleMsg L N O msg peerID
  | .timeout ti => do
    let cs ← get
    when (ti ∈ cs.timeouts) (handleTimeout L N O ti)
  | .txsAvailable height => enterPropose L N O height 0
  | .peerMaj23 height round type_ peerID blockID => do
    let cs ← get
    when (cs.height = height)
      (modify fun cs => { cs with votes := cs.votes.setPeerMaj23 L.amino round type_ peerID blockID })

end

/-- The state of a node, and whether its routine still runs. -/
structure NodeState where
  cs : ConsensusState
  running : Bool

def NodeState.step (L : Platform) (N : Node) (n : NodeState) (input : Outside × Event) : NodeState :=
  if n.running then
    let res := exec (handle L N input.1 input.2) n.cs
    ⟨res.1, res.2⟩
  else n

def NodeState.run (L : Platform) (N : Node) (n : NodeState) (inputs : List (Outside × Event)) : NodeState :=
  inputs.foldl (NodeState.step L N) n

end Demars.Consensus
