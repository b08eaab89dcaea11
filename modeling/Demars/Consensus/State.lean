import Demars.Consensus.HeightVoteSet
import Demars.Consensus.Snapshot
import Demars.Lib.Handler
import Demars.Privval.FilePV

/-!
# The consensus state

The state of `consensus.ConsensusState` and what its handlers use to change it. Blocks and part sets are pointers
that several fields share: a `Ref` is such a pointer with the value it points to, and `writeBlock` and `writeParts`
change the value behind all fields that hold it. `signed` and `finalized` are a record of the run that the code
itself does not keep.
-/

namespace Demars

inductive RoundStep
  | newHeight
  | newRound
  | propose
  | prevote
  | prevoteWait
  | precommit
  | precommitWait
  | commit
deriving DecidableEq

def RoundStep.ord : RoundStep → Nat
  | .newHeight => 1
  | .newRound => 2
  | .propose => 3
  | .prevote => 4
  | .prevoteWait => 5
  | .precommit => 6
  | .precommitWait => 7
  | .commit => 8

structure Ref (α : Type) where
  addr : Nat
  val : α

/-- The pointer after a write to an address. -/
def Ref.write {α : Type} (addr : Nat) (val : α) (ref : Ref α) : Ref α :=
  if ref.addr = addr then { ref with val } else ref

/-- `timeoutInfo`, without its duration. -/
structure TimeoutInfo where
  height : Int
  round : Int
  step : RoundStep
deriving DecidableEq

/-- The consensus messages that the state machine handles; the payload is a pointer. -/
inductive Msg
  | proposal (proposal : Option Proposal)
  | blockPart (height round : Int) (part : Option Part)
  | vote (vote : Option Vote)

/-- A signed vote, with the votes received, and the height and round, at that moment. -/
structure SignedVote where
  vote : Vote
  votes : HeightVoteSet
  height : Int
  round : Int
deriving DecidableEq

/-- A call of `finalizeCommit`, with the votes, the proposal block and the chain state. -/
structure Finalized where
  height : Int
  commitRound : Int
  blockID : BlockID
  votes : HeightVoteSet
  block : Option (Ref Block)
  parts : Option (Ref PartSet)
  state : ChainState

/-- `ConsensusState`: the round state, the chain state and the signer, with the timeouts handed to the ticker and the
internal queue. -/
structure ConsensusState where
  height : Int
  round : Int
  step : RoundStep
  validators : ValidatorSet
  proposal : Option Proposal
  proposalBlock : Option (Ref Block)
  proposalBlockParts : Option (Ref PartSet)
  lockedRound : Int
  lockedBlock : Option (Ref Block)
  lockedBlockParts : Option (Ref PartSet)
  validRound : Int
  validBlock : Option (Ref Block)
  validBlockParts : Option (Ref PartSet)
  votes : HeightVoteSet
  commitRound : Int
  lastCommit : Option VoteSet
  state : ChainState
  pv : Option FilePV
  nextRef : Nat
  timeouts : List TimeoutInfo
  queue : List Msg
  signed : List SignedVote
  finalized : List Finalized

/-- The record of a call of `finalizeCommit` in this state. -/
abbrev ConsensusState.call (cs : ConsensusState) (blockID : BlockID) : Finalized :=
  ⟨cs.height, cs.commitRound, blockID, cs.votes, cs.proposalBlock, cs.proposalBlockParts, cs.state⟩

/-- The external code that a node runs on. -/
structure Platform where
  prims : Primitives
  amino : Amino
  blocks : BlockCodec
  json : Coin.Json
  txJson : TxJson

def Platform.plain : Platform := ⟨.checked, .plain, .plain, .faithful, .plain⟩

structure Node where
  waitForTxs : Bool
  emptyBlocksInterval : Bool
  skipTimeoutCommit : Bool
  address : Bytes
  sign : Bytes → Option Signature

/-- What a handler reads from elsewhere. `applyBlock` is `BlockExecutor.ApplyBlock`: a panic, an error, or the next
chain state. -/
structure Outside where
  now : Int
  store : Coin.Store
  reaped : List Bytes
  lastAppHash : Int → Option Bytes
  applyBlock : ChainState → BlockID → Block → Option (Option ChainState)

namespace ConsensusState

/-- `Block.Hash` of what a pointer points to. -/
def blockHash (L : Platform) (block : Ref Block) : Bytes := Block.hash L.prims L.blocks (some block.val)

/-- `Block.HashesTo` of a pointer that may be `nil`. -/
def hashesTo (L : Platform) (block : Option (Ref Block)) (hash : Bytes) : Bool :=
  Block.hashesTo L.prims L.blocks (block.map Ref.val) hash

/-- `PartSet.Header` of a pointer that may be `nil`. -/
def partsHeader (parts : Option (Ref PartSet)) : PartSetHeader :=
  (parts.map fun parts => parts.val.header).getD PartSetHeader.empty

def writeBlock (addr : Nat) (block : Block) (cs : ConsensusState) : ConsensusState :=
  { cs with
    proposalBlock := cs.proposalBlock.map (Ref.write addr block)
    lockedBlock := cs.lockedBlock.map (Ref.write addr block)
    validBlock := cs.validBlock.map (Ref.write addr block) }

def writeParts (addr : Nat) (parts : PartSet) (cs : ConsensusState) : ConsensusState :=
  { cs with
    proposalBlockParts := cs.proposalBlockParts.map (Ref.write addr parts)
    lockedBlockParts := cs.lockedBlockParts.map (Ref.write addr parts)
    validBlockParts := cs.validBlockParts.map (Ref.write addr parts) }

/-- Decoding into `&cs.ProposalBlock`: a block that is there is overwritten. -/
def setProposalBlock (block : Option Block) (cs : ConsensusState) : ConsensusState :=
  match block, cs.proposalBlock with
  | none, _ => { cs with proposalBlock := none }
  | some block, some ref => cs.writeBlock ref.addr block
  | some block, none => { cs with proposalBlock := some ⟨cs.nextRef, block⟩, nextRef := cs.nextRef + 1 }

def newProposalParts (parts : PartSet) (cs : ConsensusState) : ConsensusState :=
  { cs with proposalBlockParts := some ⟨cs.nextRef, parts⟩, nextRef := cs.nextRef + 1 }

/-- The assignments that release the lock. -/
def unlock (cs : ConsensusState) : ConsensusState :=
  { cs with lockedRound := 0, lockedBlock := none, lockedBlockParts := none }

/-- The fields of the round state that `updateToState` sets for the height after `state`. -/
def startHeight (state : ChainState) (votes : HeightVoteSet) (lastCommit : Option VoteSet) (cs : ConsensusState) :
    ConsensusState :=
  { cs with
    height := state.lastBlockHeight + 1
    round := 0
    step := .newHeight
    validators := state.validators
    proposal := none
    proposalBlock := none
    proposalBlockParts := none
    lockedRound := 0
    lockedBlock := none
    lockedBlockParts := none
    validRound := 0
    validBlock := none
    validBlockParts := none
    votes
    commitRound := -1
    lastCommit
    state }

section

variable (round : Int) (validators : ValidatorSet) (cs : ConsensusState)

/-- What `enterNewRound` sets; the proposal of round 0 may have come before. -/
def startRound : ConsensusState :=
  if round ≠ 0 then
    { cs with
      round, step := .newRound, validators, proposal := none, proposalBlock := none, proposalBlockParts := none }
  else { cs with round, step := .newRound, validators }

@[simp] theorem startRound_height : (startRound round validators cs).height = cs.height := by
  unfold startRound
  split_ifs <;> rfl

@[simp] theorem startRound_round : (startRound round validators cs).round = round := by
  unfold startRound
  split_ifs <;> rfl

@[simp] theorem startRound_step : (startRound round validators cs).step = .newRound := by
  unfold startRound
  split_ifs <;> rfl

end

def isProposalComplete (cs : ConsensusState) : Bool :=
  match cs.proposal, cs.proposalBlock with
  | some proposal, some _ =>
    decide (proposal.polRound < 0) || (cs.votes.prevotes proposal.polRound).any VoteSet.hasTwoThirdsMajority
  | _, _ => false

/-- The state after `NewConsensusState`; `lastCommit` is what `reconstructLastCommit` rebuilds. -/
def newConsensusState (state : ChainState) (lastCommit : Option VoteSet) (pv : Option FilePV) : Option ConsensusState :=
  (HeightVoteSet.newHeightVoteSet state.chainID (state.lastBlockHeight + 1) state.validators).map fun votes =>
    { height := state.lastBlockHeight + 1
      round := 0
      step := .newHeight
      validators := state.validators
      proposal := none
      proposalBlock := none
      proposalBlockParts := none
      lockedRound := 0
      lockedBlock := none
      lockedBlockParts := none
      validRound := 0
      validBlock := none
      validBlockParts := none
      votes
      commitRound := -1
      lastCommit
      state
      pv
      nextRef := 0
      timeouts := [⟨state.lastBlockHeight + 1, 0, .newHeight⟩]
      queue := []
      signed := []
      finalized := [] }

end ConsensusState

/-! ## Signing and scheduling -/

namespace Consensus

open Handler ConsensusState

abbrev M := Handler ConsensusState

def updateRoundStep (round : Int) (step : RoundStep) : M Unit := modify fun cs => { cs with round, step }

def scheduleTimeout (height round : Int) (step : RoundStep) : M Unit :=
  modify fun cs => { cs with timeouts := ⟨height, round, step⟩ :: cs.timeouts }

section

variable (L : Platform) (N : Node) (O : Outside)

def voteToSign (cs : ConsensusState) (type_ : UInt8) (blockID : BlockID) : Vote where
  validatorAddress := N.address
  validatorIndex := ((cs.validators.getByAddress N.address).map fun p => (p.1 : Int)).getD (-1)
  height := cs.height
  round := cs.round
  timestamp := O.now
  type_ := type_
  blockID := blockID
  signature := none

/-- The part of `signAddVote` after the signer has answered. -/
def sentVote (res : Except SignError Message) : M Unit :=
  match res with
  | .ok (.vote vote) =>
    modify fun cs => { cs with
      queue := cs.queue ++ [.vote (some vote)], signed := cs.signed ++ [⟨vote, cs.votes, cs.height, cs.round⟩] }
  | _ => pure ()

def signAddVote (type_ : UInt8) (blockID : BlockID) : M Unit := do
  let cs ← get
  match cs.pv with
  | none => pure ()
  | some pv => when (cs.validators.hasAddress N.address = true) do
    let res ← ofOption (pv.signVote L.amino N.sign O.now cs.state.chainID (voteToSign N O cs type_ blockID))
    modify fun cs => { cs with pv := some res.1 }
    sentVote res.2

/-- The messages that `defaultDecideProposal` sends to the node itself. -/
def sentProposal (parts : Option PartSet) (res : Except SignError Message) : M Unit :=
  match res with
  | .ok (.proposal proposal) =>
    modify fun cs => { cs with queue := cs.queue ++ .proposal (some proposal) ::
      ((parts.map PartSet.parts).getD []).map fun part => .blockPart cs.height cs.round part }
  | _ => pure ()

/-- The parts that `defaultDecideProposal` proposes: of the locked block, of the valid one, or of a new one. -/
def partsToPropose (cs : ConsensusState) : Option (Option (Option PartSet)) :=
  match cs.lockedBlock, cs.validBlock with
  | some _, _ => some (some (cs.lockedBlockParts.map Ref.val))
  | none, some _ => some (some (cs.validBlockParts.map Ref.val))
  | none, none =>
    (createProposalBlock L.prims L.blocks L.json L.txJson O.store cs.state cs.lastCommit O.reaped O.now cs.height).map
      fun block => block.map fun p => some p.2

/-- `defaultDecideProposal`. -/
def decideProposal (height round : Int) : M Unit := do
  let cs ← get
  let choice ← ofOption (partsToPropose L O cs)
  match choice with
  | none => pure ()
  | some parts => do
    let proposal : Proposal := {
      height, round, timestamp := O.now
      blockPartsHeader := (parts.map PartSet.header).getD PartSetHeader.empty
      polRound := cs.votes.polInfo.1
      polBlockID := cs.votes.polInfo.2
      signature := none }
    let pv ← ofOption cs.pv
    let res ← ofOption (pv.signProposal L.amino N.sign O.now cs.state.chainID proposal)
    modify fun cs => { cs with pv := some res.1 }
    sentProposal parts res.2

end

end Consensus

end Demars
