import Demars.Consensus.Handlers

/-!
# What a handler can do

Every handler is a chain of transitions, which `Trans` lists with what the handler has checked before
(`handle_moves`). An invariant is proved for `Trans`, and holds in every state a run can be left in. What comes
from outside of the node is limited by an `Env`.
-/

namespace Demars.Consensus

open Handler Relation Option
open ConsensusState (blockHash hashesTo partsHeader startHeight startRound unlock newProposalParts writeParts)

/-- What a node may be handed: votes, proposals, completed part sets, decoded blocks, and the next chain state. -/
structure Env where
  vote : Vote → Prop
  proposal : ConsensusState → Proposal → Prop
  parts : ConsensusState → PartSet → Prop
  block : PartSetHeader → Block → Prop
  applied : ChainState → BlockID → Block → ChainState → Prop

def Env.any : Env := ⟨fun _ => True, fun _ _ => True, fun _ _ => True, fun _ _ => True, fun _ _ _ _ => True⟩

def Event.votes : Event → List Vote
  | .msg (.vote (some vote)) _ => [vote]
  | _ => []

def Event.proposals : Event → List Proposal
  | .msg (.proposal (some proposal)) _ => [proposal]
  | _ => []

def completes (L : Platform) (cs : ConsensusState) : Event → Option PartSet
  | .msg (.blockPart height _ (some part)) _ =>
    if cs.height ≠ height then none
    else cs.proposalBlockParts.bind fun parts => (parts.val.addPart L.prims part).bind fun res =>
      if res.2.1 = true ∧ res.1.isComplete = true then some res.1 else none
  | _ => none

def decodes (L : Platform) (cs : ConsensusState) : Event → Option (PartSetHeader × Block)
  | .msg (.blockPart height _ (some part)) _ =>
    if cs.height ≠ height then none
    else cs.proposalBlockParts.bind fun parts => (parts.val.addPart L.prims part).bind fun res =>
      if res.2.1 = true ∧ res.1.isComplete = true then (decodeBlock L cs res.1).1.map fun block => (res.1.header, block)
      else none
  | _ => none

/-- An event that hands the node only what it may be handed. -/
structure Env.Admits (E : Env) (L : Platform) (cs : ConsensusState) (event : Event) : Prop where
  votes : ∀ vote ∈ event.votes, E.vote vote
  proposals : ∀ proposal ∈ event.proposals, E.proposal cs proposal
  parts : ∀ parts, completes L cs event = some parts → E.parts cs parts
  block : ∀ header block, decodes L cs event = some (header, block) → E.block header block

/-! ## Transitions -/

/-- Steps without a signature, a lock or a new round. -/
inductive Idle (cs : ConsensusState) : ConsensusState → Prop
  | quiet (pv : Option FilePV) (queue : List Msg) : Idle cs { cs with pv, queue }
  | late {P : Primitives} {A : Amino} {lastCommit : VoteSet} {vote : Vote} {res : VoteSet × Bool × Option VoteError}
      (last : cs.lastCommit = some lastCommit) (h : lastCommit.addVote P A (some vote) = some res) :
      Idle cs { cs with lastCommit := some res.1 }
  | valid (round : Int) : Idle cs (setValid round cs)
  | schedule (ti : TimeoutInfo) (height : ti.height = cs.height) (round : ti.round ≤ cs.round ∨ ti.round = 0) :
      Idle cs { cs with timeouts := ti :: cs.timeouts }

/-- What `signAddVote` can do: it signs the vote it was asked for, or none. -/
def Signed (type_ : UInt8) (blockID : BlockID) (cs cs' : ConsensusState) : Prop :=
  ∃ pv queue l, cs' = { cs with pv, queue, signed := cs.signed ++ l } ∧
    (l = [] ∨ ∃ vote : Vote, l = [⟨vote, cs.votes, cs.height, cs.round⟩] ∧ vote.height = cs.height ∧
      vote.round = cs.round ∧ vote.type_ = type_ ∧ vote.blockID = blockID)

/-- What `doPrevote` votes for: the lock, or else the proposal if it is valid, or nothing. -/
def PrevoteFor (L : Platform) (cs : ConsensusState) (blockID : BlockID) : Prop :=
  match cs.lockedBlock with
  | some locked => blockID = ⟨blockHash L locked, partsHeader cs.lockedBlockParts⟩
  | none => blockID = BlockID.empty ∨
      ∃ block, cs.proposalBlock = some block ∧ blockID = ⟨blockHash L block, partsHeader cs.proposalBlockParts⟩ ∧
        cs.state.validateBlock L.prims L.amino L.blocks (some block.val) = some (.ok ())

/-- The proposal block dropped for parts to come; a negative total panics. -/
def Refetches (header : PartSetHeader) (cs cs' : ConsensusState) : Prop :=
  cs' = { cs with proposalBlock := none } ∨
    ∃ parts, PartSet.newPartSetFromHeader header = some parts ∧
      cs' = newProposalParts parts { cs with proposalBlock := none }

/-- The ways to leave `doPrecommit`. -/
inductive Precommits (L : Platform) (cs cs' : ConsensusState) : Prop
  | nil (h : Signed voteTypePrecommit BlockID.empty cs cs')
  | release {blockID : BlockID} {cs₁ : ConsensusState}
      (polka : cs.votes.majority cs.round voteTypePrevote = some blockID)
      (other : hashesTo L cs.lockedBlock blockID.hash = false)
      (unlocked : cs₁ = cs.unlock ∨ Refetches blockID.partsHeader cs.unlock cs₁)
      (h : Signed voteTypePrecommit BlockID.empty cs₁ cs')
  | relock {blockID : BlockID} (polka : cs.votes.majority cs.round voteTypePrevote = some blockID)
      (locked : hashesTo L cs.lockedBlock blockID.hash = true)
      (h : Signed voteTypePrecommit blockID { cs with lockedRound := cs.round } cs')
  | lock {blockID : BlockID} (polka : cs.votes.majority cs.round voteTypePrevote = some blockID)
      (proposed : hashesTo L cs.proposalBlock blockID.hash = true)
      (h : Signed voteTypePrecommit blockID { cs with
        lockedRound := cs.round, lockedBlock := cs.proposalBlock, lockedBlockParts := cs.proposalBlockParts } cs')
      (valid : cs.state.validateBlock L.prims L.amino L.blocks (cs.proposalBlock.map Ref.val) = some (.ok ()))

/-- What the body of `enterCommit` can do. -/
inductive Adopts (cs : ConsensusState) : ConsensusState → Prop
  | none : Adopts cs cs
  | locked (h : cs.lockedBlock.isSome = true) :
      Adopts cs { cs with proposalBlock := cs.lockedBlock, proposalBlockParts := cs.lockedBlockParts }
  | refetch {cs' : ConsensusState} (header : PartSetHeader) (h : Refetches header cs cs') : Adopts cs cs'

/-- One step of a handler. -/
inductive Trans (L : Platform) (E : Env) (cs : ConsensusState) : ConsensusState → Prop
  | idle {cs' : ConsensusState} (h : Idle cs cs') : Trans L E cs cs'
  | newRound {round : Int} {validators : ValidatorSet} (later : cs.round < round ∨ cs.round = round ∧
      cs.step = .newHeight)
      (turn : roundValidators cs round = some validators) :
      Trans L E cs (startRound round validators cs)
  | enter {step : RoundStep} (later : cs.step.ord < step.ord)
      (kind : step = .propose ∨ step = .prevoteWait ∨ step = .precommitWait) : Trans L E cs { cs with step }
  | votes {votes : HeightVoteSet} (h : HeightVoteSet.VotesStep L.prims L.amino E.vote
      (fun round => round = cs.round + 1 ∧ cs.step ≠ .newHeight) cs.votes votes) : Trans L E cs { cs with votes }
  | prevote {blockID : BlockID} {cs' : ConsensusState} (later : cs.step.ord < RoundStep.prevote.ord)
      (choice : PrevoteFor L cs blockID) (h : Signed voteTypePrevote blockID cs cs') :
      Trans L E cs { cs' with round := cs.round, step := .prevote }
  | precommit {cs' : ConsensusState} (later : cs.step.ord < RoundStep.precommit.ord) (h : Precommits L cs cs') :
      Trans L E cs { cs' with round := cs.round, step := .precommit }
  | unlock {round : Int} {blockID : BlockID} (locked : cs.lockedBlock.isSome = true)
      (polka : cs.votes.majority round voteTypePrevote = some blockID) (later : cs.lockedRound < round)
      (known : round ≤ cs.round) (other : hashesTo L cs.lockedBlock blockID.hash = false) : Trans L E cs cs.unlock
  | commit {commitRound : Int} {cs' : ConsensusState} (later : cs.step.ord < RoundStep.commit.ord) (h : Adopts cs cs') :
      Trans L E cs { cs' with step := .commit, commitRound }
  | finalize {blockID : BlockID} (quorum : cs.votes.majority cs.commitRound voteTypePrecommit = some blockID)
      (block : blockID.hash ≠ []) (known : hashesTo L cs.proposalBlock blockID.hash = true) :
      Trans L E cs { cs with finalized := cs.finalized ++ [cs.call blockID] }
  | nextHeight {state : ChainState} {votes : HeightVoteSet} {lastCommit : Option VoteSet} {fin : Finalized}
      {block : Ref Block}
      (later : cs.height < state.lastBlockHeight + 1)
      (applied : E.applied cs.state ⟨blockHash L block, partsHeader fin.parts⟩ block.val state)
      (fresh : HeightVoteSet.newHeightVoteSet state.chainID (state.lastBlockHeight + 1) state.validators = some votes)
      (last : cs.finalized.getLast? = some fin) (call : fin.height = cs.height ∧ fin.state = cs.state ∧
        fin.block = some block)
      (kept : lastPrecommits cs = some lastCommit) :
      Trans L E cs (startHeight state votes lastCommit cs)
  | propose {proposal : Proposal} {cs' : ConsensusState} (none : cs.proposal = none)
      (early : cs.step.ord < RoundStep.commit.ord)
      (h : cs' = { cs with proposal := some proposal } ∨
        ∃ parts, PartSet.newPartSetFromHeader proposal.blockPartsHeader = some parts ∧
          cs' = newProposalParts parts { cs with proposal := some proposal })
      (due : proposal.height = cs.height ∧ proposal.round = cs.round)
      (pol : proposal.polRound = -1 ∨ 0 ≤ proposal.polRound ∧ proposal.polRound < proposal.round)
      (known : E.proposal cs proposal) : Trans L E cs cs'
  | addPart {parts : Ref PartSet} {part : Part} {res : PartSet × Bool × Option PartSetError}
      (expected : cs.proposalBlockParts = some parts) (h : parts.val.addPart L.prims part = some res)
      (more : ¬ (res.2.1 = true ∧ res.1.isComplete = true)) : Trans L E cs (writeParts parts.addr res.1 cs)
  | completePart {parts : Ref PartSet} {part : Part} {res : PartSet × Bool × Option PartSetError} {block : Option Block}
      (expected : cs.proposalBlockParts = some parts) (h : parts.val.addPart L.prims part = some res)
      (complete : res.2.1 = true ∧ res.1.isComplete = true) (decoded : ∀ b, block = some b → E.block res.1.header b)
      (read : block = (decodeBlock L cs res.1).1) (known : E.parts cs res.1) :
      Trans L E cs ((writeParts parts.addr res.1 cs).setProposalBlock block)

/-! ## Signing -/

section

variable {L : Platform} {N : Node} {O : Outside} {E : Env} {cs cs' : ConsensusState}

theorem Signed.refl (type_ : UInt8) (blockID : BlockID) (cs : ConsensusState) : Signed type_ blockID cs cs :=
  ⟨cs.pv, cs.queue, [], by simp, .inl rfl⟩

theorem signVote_ok {A : Amino} {sign : Bytes → Option Signature} {now : Int} {pv pv' : FilePV} {chainID : Bytes}
    {vote : Vote} {msg : Message} (h : pv.signVote A sign now chainID vote = some (pv', .ok msg)) :
    ∃ timestamp signature, msg = .vote { vote with timestamp, signature } := by
  obtain ⟨plan, hplan, h⟩ := map_eq_some_iff.1 h
  obtain ⟨step, -, hplan⟩ := bind_eq_some_iff.1 hplan
  obtain ⟨check, -, hplan⟩ := bind_eq_some_iff.1 hplan
  match check with
  | .error err =>
    cases hplan
    cases h
  | .ok false =>
    cases hs : sign ((Message.vote vote).signBytes A chainID) with
    | none =>
      rw [hs] at hplan
      cases hplan
      cases h
    | some sig =>
      rw [hs] at hplan
      cases hplan
      cases h
      exact ⟨vote.timestamp, some sig, rfl⟩
  | .ok true =>
    obtain ⟨last, -, hplan⟩ := bind_eq_some_iff.1 hplan
    unfold FilePV.reuseLast at hplan
    split_ifs at hplan
    · cases hplan
      cases h
      exact ⟨vote.timestamp, pv.lastSignature, rfl⟩
    · obtain ⟨⟨timestamp, same⟩, -, hplan⟩ := map_eq_some_iff.1 hplan
      cases same with
      | false =>
        cases hplan
        cases h
      | true =>
        cases hplan
        cases h
        exact ⟨timestamp, pv.lastSignature, rfl⟩

/-- `signAddVote` signs the vote it was asked for or none, or panics. -/
theorem signAddVote_spec (type_ : UInt8) (blockID : BlockID) :
    wp (signAddVote L N O type_ blockID) (fun _ => Signed type_ blockID cs) (Signed type_ blockID cs) cs := by
  unfold signAddVote
  simp only [wp_bind, wp_get]
  cases cs.pv with
  | none => exact Signed.refl type_ blockID cs
  | some pv =>
    rw [wp_when]
    split_ifs
    · rw [wp_bind, wp_ofOption]
      refine ⟨fun _ => Signed.refl type_ blockID cs, fun res hres => ?_⟩
      obtain ⟨pv', res⟩ := res
      cases res with
      | error err => exact ⟨some pv', cs.queue, [], by simp, .inl rfl⟩
      | ok msg =>
        obtain ⟨timestamp, signature, rfl⟩ := signVote_ok hres
        exact ⟨some pv', _, _, rfl, .inr ⟨_, rfl, rfl, rfl, rfl, rfl⟩⟩
    · exact Signed.refl type_ blockID cs

/-! ## Prevotes -/

theorem doPrevote_spec :
    wp (doPrevote L N O) (fun _ cs' => ∃ blockID, PrevoteFor L cs blockID ∧ Signed voteTypePrevote blockID cs cs')
    (fun cs' => ∃ blockID, PrevoteFor L cs blockID ∧ Signed voteTypePrevote blockID cs cs') cs := by
  have hsign : ∀ blockID, PrevoteFor L cs blockID → wp (signAddVote L N O voteTypePrevote blockID)
      (fun _ cs' => ∃ blockID, PrevoteFor L cs blockID ∧ Signed voteTypePrevote blockID cs cs')
      (fun cs' => ∃ blockID, PrevoteFor L cs blockID ∧ Signed voteTypePrevote blockID cs cs') cs := fun blockID hb =>
    wp_mono (signAddVote_spec voteTypePrevote blockID) (fun _ _ h => ⟨blockID, hb, h⟩) fun _ h => ⟨blockID, hb, h⟩
  unfold doPrevote
  simp only [wp_bind, wp_get]
  cases hl : cs.lockedBlock with
  | some locked => exact hsign _ (by rw [PrevoteFor, hl])
  | none =>
    have hempty : PrevoteFor L cs BlockID.empty := by
      rw [PrevoteFor, hl]
      exact .inl rfl
    cases hp : cs.proposalBlock with
    | none => exact hsign _ hempty
    | some block =>
      rw [wp_bind, wp_ofOption]
      refine ⟨fun _ => ⟨_, hempty, Signed.refl _ _ cs⟩, fun valid hvalid => ?_⟩
      cases valid with
      | error err => exact hsign _ hempty
      | ok _ =>
        refine hsign _ ?_
        rw [PrevoteFor, hl]
        exact .inr ⟨block, hp, rfl, hvalid⟩

/-! ## Time -/

/-- The fields that signing and exchanging blocks leave alone. -/
structure Frame (cs cs' : ConsensusState) : Prop where
  height : cs'.height = cs.height
  round : cs'.round = cs.round
  step : cs'.step = cs.step
  votes : cs'.votes = cs.votes
  state : cs'.state = cs.state
  timeouts : cs'.timeouts = cs.timeouts
  finalized : cs'.finalized = cs.finalized
  lastCommit : cs'.lastCommit = cs.lastCommit

theorem Frame.trans {cs₁ cs₂ cs₃ : ConsensusState} (h₁ : Frame cs₁ cs₂) (h₂ : Frame cs₂ cs₃) : Frame cs₁ cs₃ :=
  ⟨h₂.height.trans h₁.height, h₂.round.trans h₁.round, h₂.step.trans h₁.step, h₂.votes.trans h₁.votes,
    h₂.state.trans h₁.state, h₂.timeouts.trans h₁.timeouts, h₂.finalized.trans h₁.finalized,
      h₂.lastCommit.trans h₁.lastCommit⟩

variable {blockID : BlockID} {height round : Int} {peerID : Bytes}

theorem Signed.frame {type_ : UInt8} (h : Signed type_ blockID cs cs') : Frame cs cs' := by
  obtain ⟨_, _, _, rfl, _⟩ := h
  exact ⟨rfl, rfl, rfl, rfl, rfl, rfl, rfl, rfl⟩

theorem frame_unlock (cs : ConsensusState) : Frame cs cs.unlock := ⟨rfl, rfl, rfl, rfl, rfl, rfl, rfl, rfl⟩

theorem Refetches.frame {header : PartSetHeader} (h : Refetches header cs cs') : Frame cs cs' := by
  rcases h with rfl | ⟨_, _, rfl⟩ <;> exact ⟨rfl, rfl, rfl, rfl, rfl, rfl, rfl, rfl⟩

theorem Precommits.frame (h : Precommits L cs cs') : Frame cs cs' := by
  cases h with
  | nil h => exact h.frame
  | release _ _ hun h =>
    rcases hun with rfl | hun
    · exact (frame_unlock cs).trans h.frame
    · exact (frame_unlock cs).trans (hun.frame.trans h.frame)
  | relock _ _ h | lock _ _ h =>
    exact ⟨h.frame.1, h.frame.2, h.frame.3, h.frame.4, h.frame.5, h.frame.6, h.frame.7, h.frame.8⟩

theorem Adopts.frame (h : Adopts cs cs') : Frame cs cs' := by
  cases h with
  | none | locked => exact ⟨rfl, rfl, rfl, rfl, rfl, rfl, rfl, rfl⟩
  | refetch _ h => exact h.frame

theorem frame_completePart (addr : Nat) (parts : PartSet) (block : Option Block) (cs : ConsensusState) :
    Frame cs ((writeParts addr parts cs).setProposalBlock block) := by
  unfold ConsensusState.setProposalBlock
  split <;> exact ⟨rfl, rfl, rfl, rfl, rfl, rfl, rfl, rfl⟩

theorem Trans.clock (h : Trans L E cs cs') : cs.height < cs'.height ∨ cs'.height = cs.height ∧
      (cs.round < cs'.round ∨ cs'.round = cs.round ∧ cs.step.ord ≤ cs'.step.ord) := by
  cases h with
  | idle h => cases h <;> exact .inr ⟨rfl, .inr ⟨rfl, le_rfl⟩⟩
  | newRound later =>
    refine .inr ⟨by simp, ?_⟩
    rcases later with hlt | ⟨heq, hstep⟩
    · exact .inl (by simpa using hlt)
    · exact .inr ⟨by simp [heq], by simp [hstep, RoundStep.ord]⟩
  | enter later => exact .inr ⟨rfl, .inr ⟨rfl, later.le⟩⟩
  | votes | unlock | finalize | addPart => exact .inr ⟨rfl, .inr ⟨rfl, le_rfl⟩⟩
  | prevote later _ h | precommit later h => exact .inr ⟨h.frame.height, .inr ⟨rfl, later.le⟩⟩
  | commit later h => exact .inr ⟨h.frame.height, .inr ⟨h.frame.round, later.le⟩⟩
  | nextHeight later => exact .inl later
  | propose _ _ h => rcases h with rfl | ⟨_, _, rfl⟩ <;> exact .inr ⟨rfl, .inr ⟨rfl, le_rfl⟩⟩
  | @completePart parts _ res block =>
    have h := frame_completePart parts.addr res.1 block cs
    exact .inr ⟨h.height, .inr ⟨h.round, by rw [h.step]⟩⟩

/-- What a transition does to the votes of the height and to those of the height before. -/
inductive Gathers (L : Platform) (E : Env) (cs cs' : ConsensusState) : Prop
  | same (votes : cs'.votes = cs.votes) (last : cs'.lastCommit = cs.lastCommit)
  | votes (h : HeightVoteSet.VotesStep L.prims L.amino E.vote (fun round => round = cs.round + 1 ∧ cs.step ≠ .newHeight)
      cs.votes cs'.votes) (clock : cs'.round = cs.round ∧ cs'.step = cs.step) (last : cs'.lastCommit = cs.lastCommit)
  | late {P : Primitives} {A : Amino} {lastCommit : VoteSet} {vote : Vote} {res : VoteSet × Bool × Option VoteError}
      (last : cs.lastCommit = some lastCommit) (h : lastCommit.addVote P A (some vote) = some res)
      (votes : cs'.votes = cs.votes) (new : cs'.lastCommit = some res.1)

/-- A transition calls `finalizeCommit`, starts a height, or leaves height, chain state and calls alone. -/
theorem Trans.calls (h : Trans L E cs cs') :
    (cs'.height = cs.height ∧ cs'.state = cs.state ∧ cs'.finalized = cs.finalized ∧ Gathers L E cs cs') ∨
      (∃ blockID, cs' = { cs with finalized := cs.finalized ++ [cs.call blockID] }) ∨
      ∃ state votes lastCommit fin block, E.applied cs.state ⟨blockHash L block, partsHeader fin.parts⟩
        block.val state ∧
        cs.finalized.getLast? = some fin ∧ fin.height = cs.height ∧ cs' = startHeight state votes lastCommit cs ∧
        HeightVoteSet.newHeightVoteSet state.chainID (state.lastBlockHeight + 1) state.validators = some votes ∧
        lastPrecommits cs = some lastCommit := by
  cases h with
  | idle h =>
    cases h with
    | late last h => exact .inl ⟨rfl, rfl, rfl, .late last h rfl rfl⟩
    | quiet | valid | schedule => exact .inl ⟨rfl, rfl, rfl, .same rfl rfl⟩
  | newRound =>
    unfold startRound
    split_ifs <;> exact .inl ⟨rfl, rfl, rfl, .same rfl rfl⟩
  | votes h => exact .inl ⟨rfl, rfl, rfl, .votes h ⟨rfl, rfl⟩ rfl⟩
  | enter | unlock | addPart => exact .inl ⟨rfl, rfl, rfl, .same rfl rfl⟩
  | prevote _ _ h | precommit _ h | commit _ h =>
    exact .inl ⟨h.frame.height, h.frame.state, h.frame.finalized, .same h.frame.votes h.frame.lastCommit⟩
  | @finalize blockID => exact .inr (.inl ⟨blockID, rfl⟩)
  | @nextHeight state votes lastCommit fin block _ applied fresh last call kept =>
    exact .inr (.inr ⟨state, votes, lastCommit, fin, block, applied, last, call.1, rfl, fresh, kept⟩)
  | propose _ _ h => rcases h with rfl | ⟨_, _, rfl⟩ <;> exact .inl ⟨rfl, rfl, rfl, .same rfl rfl⟩
  | @completePart parts _ res block =>
    have hframe := frame_completePart parts.addr res.1 block cs
    exact .inl ⟨hframe.height, hframe.state, hframe.finalized, .same hframe.votes hframe.lastCommit⟩

def Reached (height round : Int) (cs : ConsensusState) : Prop :=
  height < cs.height ∨ height = cs.height ∧ round ≤ cs.round

theorem Trans.reached (h : Trans L E cs cs') (hr : Reached height round cs) : Reached height round cs' := by
  have := h.clock
  unfold Reached at hr ⊢
  omega

/-! ## The round up to the prevote -/

theorem enterPrevote_moves (h : Reached height round cs) : Moves (Trans L E) (enterPrevote L N O height round) cs := by
  refine .get_bind ?_
  split_ifs with hguard
  · exact .pure trivial
  · unfold Reached at h
    obtain rfl : round = cs.round := by omega
    have hstep : cs.step.ord < RoundStep.prevote.ord := by omega
    exact .defer_modify (wp_mono doPrevote_spec (fun _ _ ⟨_, hb, hs⟩ => Trans.prevote hstep hb hs)
      fun _ ⟨_, hb, hs⟩ => Trans.prevote hstep hb hs)

theorem wait_moves {step : RoundStep} (hstep : cs.step.ord < step.ord)
    (hkind : step = .propose ∨ step = .prevoteWait ∨ step = .precommitWait) :
    Moves (Trans L E) (defer (updateRoundStep cs.round step) (scheduleTimeout cs.height cs.round step)) cs := by
  have hti : Trans L E cs { cs with timeouts := ⟨cs.height, cs.round, step⟩ :: cs.timeouts } :=
    .idle (.schedule ⟨cs.height, cs.round, step⟩ rfl (.inl le_rfl))
  exact ⟨(ReflTransGen.single hti).tail (.enter hstep hkind), trivial⟩

theorem enterPrevoteWait_moves (h : Reached height round cs) :
    Moves (Trans L E) (enterPrevoteWait height round) cs := by
  refine .get_bind ?_
  split_ifs with hguard hany
  · exact .pure trivial
  · exact .panic
  · unfold Reached at h
    obtain rfl : round = cs.round := by omega
    obtain rfl : height = cs.height := by omega
    exact wait_moves (by omega) (.inr (.inl rfl))

theorem Idle.clock (h : Idle cs cs') : cs'.height = cs.height ∧ cs'.round = cs.round ∧ cs'.step = cs.step := by
  cases h <;> exact ⟨rfl, rfl, rfl⟩

theorem decideProposal_idle (height round : Int) : Moves Idle (decideProposal L N O height round) cs := by
  refine .get_bind (.ofOption_bind fun choice _ => ?_)
  cases choice with
  | none => exact .pure trivial
  | some parts =>
    refine .ofOption_bind fun pv _ => .ofOption_bind fun res _ => ?_
    refine .modify_bind (.quiet _ _) ?_
    unfold sentProposal
    split
    · exact .modify (.quiet _ _) trivial
    · exact .pure trivial

theorem doPropose_idle : Moves Idle (doPropose L N O cs.height cs.round) cs := by
  refine .modify_bind (.schedule ⟨cs.height, cs.round, .propose⟩ rfl (.inl le_rfl)) ?_
  refine .get_bind (.when (fun _ => ?_) fun _ => trivial)
  exact .ofOption_bind fun proposer _ => .when (fun _ => decideProposal_idle _ _) fun _ => trivial

theorem enterPropose_moves (h : Reached height round cs) : Moves (Trans L E) (enterPropose L N O height round) cs := by
  refine .get_bind ?_
  split_ifs with hguard
  · exact .pure trivial
  · unfold Reached at h
    obtain rfl : round = cs.round := by omega
    obtain rfl : height = cs.height := by omega
    refine .defer doPropose_idle (fun _ _ => Trans.idle) fun cs' hchain => ?_
    -- the body has left height, round and step alone
    obtain ⟨hh, hr, hs⟩ : cs'.height = cs.height ∧ cs'.round = cs.round ∧ cs'.step = cs.step :=
      chain_inv (I := fun s => s.height = cs.height ∧ s.round = cs.round ∧ s.step = cs.step)
        (fun s s' hi hc => by have := hi.clock; grind) hchain ⟨rfl, rfl, rfl⟩
    have hstep : Trans L E cs' { cs' with step := .propose } := .enter (by rw [hs]; omega) (.inl rfl)
    rw [← hr, ← hh]
    refine .modify_bind hstep ?_
    exact .get_bind (.when (fun _ => enterPrevote_moves (.inr ⟨rfl, le_rfl⟩)) fun _ => trivial)

theorem proposeOrWait_moves (hh : height = cs.height) (hr : round = cs.round) :
    Moves (Trans L E) (proposeOrWait L N O height round) cs := by
  subst hh hr
  refine .get_bind (.ofOption_bind fun wait _ => ?_)
  split_ifs
  · refine .when (fun _ => .modify (.idle ?_) trivial) fun _ => trivial
    exact .schedule ⟨cs.height, cs.round, .newRound⟩ rfl (.inl le_rfl)
  · exact enterPropose_moves (.inr ⟨rfl, le_rfl⟩)

theorem enterNewRound_moves (height round : Int) : Reaches (Trans L E) (enterNewRound L N O height round)
    (fun _ cs' => cs.height = height → Reached height round cs') cs := by
  refine .get_bind ?_
  split_ifs with hguard
  · refine .pure fun hh => ?_
    unfold Reached
    rcases hguard with hne | hlt | ⟨heq, -⟩ <;> omega
  · have hlater : cs.round < round ∨ cs.round = round ∧ cs.step = .newHeight := by
      by_cases hs : cs.step = .newHeight
      · exact (lt_or_eq_of_le (by omega : cs.round ≤ round)).imp_right fun heq => ⟨heq, hs⟩
      · simp only [hs, ne_eq, not_false_eq_true, and_true] at hguard
        exact .inl (by omega)
    have hh : cs.height = height := by omega
    subst hh
    refine .ofOption_bind fun validators hturn => ?_
    refine .modify_bind (.newRound hlater hturn) (.get_bind ?_)
    refine .ofOption_bind fun votes hvotes => .modify_bind (.votes (.setRound (by simp) hvotes)) ?_
    refine ((proposeOrWait_moves ?_ ?_).keep (fun _ _ => Trans.reached) (.inr ⟨?_, ?_⟩)).mono fun _ _ hQ _ => hQ.2
    all_goals simp

/-! ## Precommits -/

theorem precommits_of_signed {cs₁ : ConsensusState}
    (h : ∀ cs', Signed voteTypePrecommit blockID cs₁ cs' → Precommits L cs cs') :
    wp (signAddVote L N O voteTypePrecommit blockID) (fun _ => Precommits L cs) (Precommits L cs) cs₁ :=
  wp_mono (signAddVote_spec voteTypePrecommit blockID) (fun _ => h) h

theorem unlockAndFetch_spec (hp : cs.votes.majority cs.round voteTypePrevote = some blockID)
    (ho : hashesTo L cs.lockedBlock blockID.hash = false) :
    wp (unlockAndFetch L N O blockID) (fun _ => Precommits L cs) (Precommits L cs) cs := by
  unfold unlockAndFetch
  simp only [wp_bind, wp_modify, wp_get, wp_when]
  split_ifs
  · rw [wp_ofOption]
    refine ⟨fun _ => ?_, fun parts hparts => ?_⟩
    · exact .release hp ho (.inr (.inl rfl)) (Signed.refl _ _ _)
    · exact precommits_of_signed fun _ => .release hp ho (.inr (.inr ⟨parts, hparts, rfl⟩))
  · exact precommits_of_signed fun _ => .release hp ho (.inl rfl)

theorem lockProposal_spec (hp : cs.votes.majority cs.round voteTypePrevote = some blockID)
    (hb : hashesTo L cs.proposalBlock blockID.hash = true) :
    wp (lockProposal L N O cs.round blockID) (fun _ => Precommits L cs) (Precommits L cs) cs := by
  have hsame : Precommits L cs cs := .nil (Signed.refl _ _ cs)
  unfold lockProposal
  simp only [wp_bind, wp_get]
  rw [wp_ofOption]
  refine ⟨fun _ => hsame, fun valid hvalid => ?_⟩
  cases valid with
  | error err => exact hsame
  | ok _ =>
    exact precommits_of_signed fun _ hs => .lock hp hb hs hvalid

theorem doPrecommit_spec : wp (doPrecommit L N O cs.round) (fun _ => Precommits L cs) (Precommits L cs) cs := by
  unfold doPrecommit
  simp only [wp_bind, wp_get]
  cases hp : cs.votes.majority cs.round voteTypePrevote with
  | none => exact precommits_of_signed fun _ => .nil
  | some blockID =>
    simp only [wp_ite, wp_bind, wp_when]
    split_ifs with hpol hnil hsome hlocked hproposed
    · exact .nil (Signed.refl _ _ cs)
    · have ho : hashesTo L cs.lockedBlock blockID.hash = false := by
        rw [hnil]
        cases cs.lockedBlock <;> simp [hashesTo, Block.hashesTo]
      exact precommits_of_signed fun _ => .release hp ho (.inl rfl)
    · exact precommits_of_signed fun _ => .nil
    · exact precommits_of_signed fun _ => .relock hp hlocked
    · exact lockProposal_spec hp hproposed
    · exact unlockAndFetch_spec hp (by simpa using hlocked)

theorem enterPrecommit_moves (h : Reached height round cs) :
    Moves (Trans L E) (enterPrecommit L N O height round) cs := by
  refine .get_bind ?_
  split_ifs with hguard
  · exact .pure trivial
  · unfold Reached at h
    obtain rfl : round = cs.round := by omega
    have hstep : cs.step.ord < RoundStep.precommit.ord := by omega
    exact .defer_modify (wp_mono doPrecommit_spec (fun _ _ => Trans.precommit hstep) fun _ => Trans.precommit hstep)

theorem enterPrecommitWait_moves (h : Reached height round cs) :
    Moves (Trans L E) (enterPrecommitWait height round) cs := by
  refine .get_bind ?_
  split_ifs with hguard hany
  · exact .pure trivial
  · exact .panic
  · unfold Reached at h
    obtain rfl : round = cs.round := by omega
    obtain rfl : height = cs.height := by omega
    exact wait_moves (by omega) (.inr (.inr rfl))

/-! ## Commits -/

/-- What the rest of the system applies blocks to is what the node may be handed. -/
def Env.Applies (E : Env) (O : Outside) : Prop :=
  ∀ state blockID block state', O.applyBlock state blockID block = some (some state') →
    E.applied state blockID block state'

theorem updateToState_moves {state : ChainState} {fin : Finalized} {block : Ref Block}
    (happ : E.applied cs.state ⟨blockHash L block, partsHeader fin.parts⟩ block.val state)
    (hlast : cs.finalized.getLast? = some fin)
    (hcall : fin.height = cs.height ∧ fin.state = cs.state ∧ fin.block = some block) :
    Moves (Trans L E) (updateToState state) cs := by
  refine .get_bind ?_
  split_ifs with h₁ h₂ h₃
  · exact .panic
  · exact .panic
  · exact .pure trivial
  · refine .ofOption_bind fun lastCommit hkept => .ofOption_bind fun votes hvotes => ?_
    exact .modify (.nextHeight (by omega) happ hvotes hlast hcall hkept) trivial

theorem finalizeCommit_moves (hE : E.Applies O)
    (hb : ∀ blockID, cs.votes.majority cs.commitRound voteTypePrecommit = some blockID → blockID.hash ≠ [] ∧
      hashesTo L cs.proposalBlock blockID.hash = true) :
    Moves (Trans L E) (finalizeCommit L O height) cs := by
  refine .get_bind ?_
  split_ifs with hguard
  · exact .pure trivial
  refine .ofOption_bind fun blockID hquorum =>
    .modify_bind (.finalize hquorum (hb blockID hquorum).1 (hb blockID hquorum).2) ?_
  split_ifs
  · exact .panic
  · exact .panic
  refine .ofOption_bind fun block hblock => .ofOption_bind fun valid _ => ?_
  cases valid with
  | error err => exact .panic
  | ok _ =>
    refine .get_bind (.ofOption_bind fun applied happ => ?_)
    cases applied with
    | none => exact .pure trivial
    | some state =>
      refine .bind (updateToState_moves (hE _ _ _ _ happ) List.getLast?_concat ⟨rfl, rfl, hblock⟩) fun _ cs' _ =>
        .get_bind ?_
      exact .modify (.idle (.schedule ⟨cs'.height, 0, .newHeight⟩ rfl (.inr rfl))) trivial

theorem tryFinalizeCommit_moves (hE : E.Applies O) : Moves (Trans L E) (tryFinalizeCommit L O height) cs := by
  refine .get_bind ?_
  split_ifs
  · exact .panic
  cases hm : cs.votes.majority cs.commitRound voteTypePrecommit with
  | none => exact .pure trivial
  | some blockID =>
    dsimp only
    split_ifs with hguard
    · exact .pure trivial
    · refine finalizeCommit_moves hE fun blockID' hm' => ?_
      cases Option.some.inj (hm.symm.trans hm')
      exact ⟨fun he => hguard (.inl he), by simpa using fun hf => hguard (.inr hf)⟩

theorem adoptCommit_spec (commitRound : Int) : wp (adoptCommit L commitRound) (fun _ => Adopts cs) (Adopts cs) cs := by
  unfold adoptCommit
  simp only [wp_bind, wp_get]
  rw [wp_ofOption]
  refine ⟨fun _ => .none, fun blockID _ => ?_⟩
  simp only [wp_bind, wp_get, wp_when, wp_modify]
  split_ifs with hl hr hr
  · rw [hl] at hr
    exact absurd hr.1 (by simp)
  · refine .locked ?_
    cases hb : cs.lockedBlock with
    | none => simp [hb, hashesTo, Block.hashesTo] at hl
    | some _ => rfl
  · rw [wp_ofOption]
    exact ⟨fun _ => .refetch blockID.partsHeader (.inl rfl), fun parts hparts => .refetch blockID.partsHeader
      (.inr ⟨parts, hparts, rfl⟩)⟩
  · exact .none

theorem enterCommit_moves {commitRound : Int} (hE : E.Applies O) :
    Moves (Trans L E) (enterCommit L O height commitRound) cs := by
  refine .get_bind ?_
  split_ifs with hguard
  · exact .pure trivial
  · have hstep : cs.step.ord < RoundStep.commit.ord := by omega
    have hd : ∀ cs', Adopts cs cs' → wp (committed L O height commitRound)
        (fun _ s' => ReflTransGen (Trans L E) cs s' ∧ True) (fun s' => ReflTransGen (Trans L E) cs s') cs' := by
      intro cs' h
      unfold committed
      rw [wp_bind]
      exact (tryFinalizeCommit_moves hE).of_chain (.single (.commit hstep h))
    unfold Reaches
    rw [wp_defer]
    exact wp_mono (adoptCommit_spec commitRound) (fun _ => hd) fun cs' h => wp_mono (hd cs' h) (fun _ _ h => h.1)
      fun _ h => h

/-! ## Proposals and block parts -/

theorem setProposal_moves {proposal : Proposal} (hknown : E.proposal cs proposal) :
    Moves (Trans L E) (setProposal proposal) cs := by
  refine .get_bind ?_
  split_ifs with hsome hother hstep hpol
  · exact .pure trivial
  · exact .pure trivial
  · exact .pure trivial
  · exact .pure trivial
  have hnone : cs.proposal = none := by simpa using hsome
  have hearly : cs.step.ord < RoundStep.commit.ord := by omega
  have hdue : proposal.height = cs.height ∧ proposal.round = cs.round := by omega
  have hpol' : proposal.polRound = -1 ∨ 0 ≤ proposal.polRound ∧ proposal.polRound < proposal.round := by omega
  unfold Reaches
  simp only [wp_bind, wp_modify]
  rw [wp_ofOption]
  refine ⟨fun _ => ?_, fun parts hparts => ⟨?_, trivial⟩⟩
  · exact .single (.propose hnone hearly (.inl rfl) hdue hpol' hknown)
  · exact .single (.propose hnone hearly (.inr ⟨parts, hparts, rfl⟩) hdue hpol' hknown)

theorem seeBlock_moves : Moves (Trans L E) (seeBlock L) cs := by
  refine .get_bind ?_
  cases cs.votes.majority cs.round voteTypePrevote with
  | none => exact .pure trivial
  | some blockID =>
    exact .when (fun _ => .modify (.idle (.valid cs.round)) trivial) fun _ => trivial

theorem blockCompleted_moves (hE : E.Applies O) : Moves (Trans L E) (blockCompleted L N O cs.height) cs := by
  refine .get_bind (.ofOption_bind fun block _ => .ofOption_bind fun header _ => ?_)
  have hreached : Reached cs.height cs.round cs := .inr ⟨rfl, le_rfl⟩
  refine .bind (seeBlock_moves.keep (fun _ _ => Trans.reached) hreached) fun _ cs' h => ?_
  split_ifs
  · exact enterPrevote_moves h.2
  · exact .when (fun _ => tryFinalizeCommit_moves hE) fun _ => trivial

theorem addProposalBlockPart_moves {part : Option Part} (hE : E.Applies O)
    (hpart : E.Admits L cs (.msg (.blockPart height round part) peerID)) :
    Moves (Trans L E) (addProposalBlockPart L N O height part) cs := by
  refine .get_bind ?_
  split_ifs with hheight
  · exact .pure trivial
  refine .ofOption_bind fun part' hpart' => ?_
  cases hparts : cs.proposalBlockParts with
  | none => exact .pure trivial
  | some parts =>
    refine .ofOption_bind fun res hres => ?_
    split_ifs with hcomplete
    · have hblock : ∀ b, (decodeBlock L cs res.1).1 = some b → E.block res.1.header b := fun b hb =>
        hpart.block _ _ (by simp [decodes, hpart', not_not.1 hheight, hparts, hres, hcomplete, hb])
      have hknown : E.parts cs res.1 :=
        hpart.parts _ (by simp [completes, hpart', not_not.1 hheight, hparts, hres, hcomplete])
      have hstep := Trans.completePart hparts hres hcomplete hblock rfl hknown
      refine .modify_bind hstep (.when (fun _ => ?_) fun _ => trivial)
      have hh : ((cs.writeParts parts.addr res.1).setProposalBlock (decodeBlock L cs res.1).1).height = height :=
        (frame_completePart _ _ _ cs).height.trans (not_not.1 hheight)
      rw [← hh]
      exact blockCompleted_moves hE
    · exact .modify (.addPart hparts hres hcomplete) trivial

/-! ## Votes -/

theorem seePolka_moves {polka : Option BlockID}
    (hp : ∀ blockID, polka = some blockID → cs.votes.majority round voteTypePrevote = some blockID) :
    Moves (Trans L E) (seePolka L round polka) cs := by
  cases polka with
  | none => exact .pure trivial
  | some blockID =>
    refine .get_bind (.bind (Q := fun _ _ => True) (.when (fun h => ?_) fun _ => trivial) fun _ cs' _ => ?_)
    · exact .modify (.unlock h.1 (hp blockID rfl) h.2.1 h.2.2.1 h.2.2.2) trivial
    · exact .get_bind (.when (fun _ => .modify (.idle (.valid round)) trivial) fun _ => trivial)

theorem addedPrevote_moves (round : Int) : Moves (Trans L E) (addedPrevote L N O round) cs := by
  refine .get_bind (.ofOption_bind fun prevotes hprevotes => ?_)
  have hpolka : ∀ blockID, prevotes.twoThirdsMajority = some blockID →
      cs.votes.majority round voteTypePrevote = some blockID := fun blockID h =>
    bind_eq_some_iff.2 ⟨prevotes, hprevotes, h⟩
  refine .bind (seePolka_moves hpolka) fun _ cs' _ => .get_bind ?_
  refine .ite (fun _ => ?_) fun _ => ?_
  · refine .bind (enterNewRound_moves cs'.height round) fun _ s hs => .ite (fun _ => ?_) fun _ => ?_
    · exact enterPrecommit_moves (hs rfl)
    · refine .bind ((enterPrevote_moves (hs rfl)).keep (fun _ _ => Trans.reached) (hs rfl)) fun _ s' hs' => ?_
      exact enterPrevoteWait_moves hs'.2
  · exact .when (fun _ => enterPrevote_moves (.inr ⟨rfl, le_rfl⟩)) fun _ => trivial

theorem addedPrecommit_moves (hE : E.Applies O) (round : Int) : Moves (Trans L E) (addedPrecommit L N O round) cs := by
  have hnew : ∀ height round (cs : ConsensusState), Moves (Trans L E) (enterNewRound L N O height round) cs :=
    fun height round cs => (enterNewRound_moves height round).mono fun _ _ _ => trivial
  refine .get_bind (.ofOption_bind fun precommits _ => ?_)
  cases precommits.twoThirdsMajority with
  | some blockID =>
    dsimp only
    split_ifs
    · exact hnew _ _ _
    · refine .bind (enterNewRound_moves cs.height round) fun _ s hs => ?_
      refine .bind (enterPrecommit_moves (hs rfl)) fun _ _ _ => ?_
      refine .bind (enterCommit_moves hE) fun _ _ _ => ?_
      exact .when (fun _ => .get_bind (hnew _ _ _)) fun _ => trivial
  | none =>
    refine .when (fun _ => ?_) fun _ => trivial
    refine .bind (enterNewRound_moves cs.height round) fun _ s hs => ?_
    refine .bind ((enterPrecommit_moves (hs rfl)).keep (fun _ _ => Trans.reached) (hs rfl)) fun _ s' hs' => ?_
    exact enterPrecommitWait_moves hs'.2

theorem addVote_moves {vote : Vote} (hE : E.Applies O) (hv : E.vote vote) :
    Moves (Trans L E) (addVote L N O vote peerID) cs := by
  refine .get_bind (.ite (fun _ => .ite (fun _ => ?_) fun _ => ?_) fun _ =>
    .ite (fun _ => ?_) fun _ => ?_)
  · refine .get_bind (.ofOption_bind fun lastCommit hlast => .ofOption_bind fun res hres => ?_)
    refine .modify_bind (.idle (.late hlast hres)) ?_
    refine .bind (Q := fun _ _ => True) (.when (fun _ => ?_) fun _ => trivial) fun _ _ _ => .pure trivial
    exact (enterNewRound_moves _ _).mono fun _ _ _ => trivial
  · exact .pure trivial
  · exact .pure trivial
  · refine .ofOption_bind fun res hres => .modify_bind (.votes (.addVote hv hres)) ?_
    refine .bind (Q := fun _ _ => True) (.when (fun _ => ?_) fun _ => trivial) fun _ _ _ => .pure trivial
    exact .ite (fun _ => addedPrevote_moves vote.round) fun _ => addedPrecommit_moves hE vote.round

/-! ## Events -/

/-- The node is past every timeout it has scheduled. -/
def Timely (cs : ConsensusState) : Prop := 0 ≤ cs.round ∧ ∀ ti ∈ cs.timeouts, Reached ti.height ti.round cs

theorem Trans.round_nonneg (h : Trans L E cs cs') (hr : 0 ≤ cs.round) : 0 ≤ cs'.round := by
  cases h with
  | nextHeight => exact le_rfl
  | newRound later =>
    rw [ConsensusState.startRound_round]
    omega
  | idle h => cases h <;> exact hr
  | enter | votes | prevote | precommit | unlock => exact hr
  | commit _ h => exact hr.trans_eq h.frame.round.symm
  | finalize => exact hr
  | propose _ _ h => rcases h with rfl | ⟨_, _, rfl⟩ <;> exact hr
  | addPart => exact hr
  | completePart => exact hr.trans_eq (frame_completePart _ _ _ cs).round.symm

theorem Trans.timeouts (h : Trans L E cs cs') (hr : 0 ≤ cs.round) :
    ∀ ti ∈ cs'.timeouts, ti ∈ cs.timeouts ∨ Reached ti.height ti.round cs := by
  intro ti hti
  cases h with
  | idle h =>
    cases h with
    | quiet | late | valid => exact .inl hti
    | schedule ti' hh hround =>
      rcases List.mem_cons.1 hti with rfl | hti
      · exact .inr (.inr ⟨hh, by omega⟩)
      · exact .inl hti
  | newRound =>
    unfold startRound at hti
    split_ifs at hti <;> exact .inl hti
  | enter | votes | unlock | finalize | nextHeight | addPart => exact .inl hti
  | prevote _ _ h | precommit _ h | commit _ h => exact .inl (h.frame.timeouts ▸ hti)
  | propose _ _ h => rcases h with rfl | ⟨_, _, rfl⟩ <;> exact .inl hti
  | completePart => exact .inl ((frame_completePart _ _ _ cs).timeouts ▸ hti)

theorem Trans.timely (h : Trans L E cs cs') (ht : Timely cs) : Timely cs' := by
  refine ⟨h.round_nonneg ht.1, fun ti hti => h.reached ?_⟩
  rcases h.timeouts ht.1 ti hti with hold | hnew
  · exact ht.2 ti hold
  · exact hnew

theorem handleMsg_moves {msg : Msg} (hE : E.Applies O) (hmsg : E.Admits L cs (.msg msg peerID)) :
    Moves (Trans L E) (handleMsg L N O msg peerID) cs := by
  cases msg with
  | proposal proposal =>
    refine .get_bind ?_
    split_ifs
    · exact .pure trivial
    · refine .ofOption_bind fun proposal' hproposal => setProposal_moves (hmsg.proposals proposal' ?_)
      simp [Event.proposals, hproposal]
  | blockPart height round part => exact addProposalBlockPart_moves hE hmsg
  | vote vote =>
    refine .ofOption_bind fun vote hvote => ?_
    have hv : E.vote vote := hmsg.votes vote (by simp [Event.votes, hvote])
    refine .bind (addVote_moves hE hv) fun err cs' _ => ?_
    split
    · exact .get_bind (.when (fun _ => .panic) fun _ => trivial)
    · exact .pure trivial

theorem handleTimeout_moves {ti : TimeoutInfo} (ht : Timely cs) (hti : ti ∈ cs.timeouts) :
    Moves (Trans L E) (handleTimeout L N O ti) cs := by
  have hreached := ht.2 ti hti
  refine .get_bind ?_
  split_ifs with hguard
  · exact .pure trivial
  cases ti.step with
  | newHeight | precommitWait => exact (enterNewRound_moves _ _).mono fun _ _ _ => trivial
  | newRound => exact enterPropose_moves (.inr ⟨by omega, ht.1⟩)
  | propose => exact enterPrevote_moves hreached
  | prevoteWait => exact enterPrecommit_moves hreached
  | prevote | precommit | commit => exact .panic

theorem handle_moves {event : Event} (ht : Timely cs) (hE : E.Applies O) (hevent : E.Admits L cs event) :
    Moves (Trans L E) (handle L N O event) cs := by
  cases event with
  | msg msg peerID => exact handleMsg_moves hE hevent
  | timeout ti => exact .get_bind (.when (handleTimeout_moves ht) fun _ => trivial)
  | txsAvailable height =>
    by_cases hh : cs.height = height
    · exact enterPropose_moves (.inr ⟨hh.symm, ht.1⟩)
    · refine .get_bind ?_
      rw [if_pos (.inl hh)]
      exact .pure trivial
  | peerMaj23 height round type_ peerID blockID =>
    refine .get_bind (.when (fun _ => .modify (.votes ?_) trivial) fun _ => trivial)
    exact .setPeerMaj23 round type_ peerID blockID

end

end Demars.Consensus
