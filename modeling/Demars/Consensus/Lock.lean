import Demars.Consensus.Pointers
import Demars.Lib.Locking

/-!
# The lock of a node

A node is a voter that locks, in the sense of `Demars.Lib.Locking`: its lock is the hash of the locked block, and
every transition of the consensus state is a step of that voter (`Trans.voter`).
-/

namespace Demars

open Option

/-- The stage of a round: before the prevote, after it, after the precommit. -/
def RoundStep.stage (step : RoundStep) : Nat :=
  if step.ord < RoundStep.prevote.ord then 0 else if step.ord < RoundStep.precommit.ord then 1 else 2

theorem RoundStep.stage_mono {a b : RoundStep} (h : a.ord ≤ b.ord) : a.stage ≤ b.stage := by
  unfold RoundStep.stage
  split_ifs <;> omega

namespace Consensus

open Handler Locking
open ConsensusState (blockHash hashesTo startHeight startRound unlock writeParts)

def phaseOf (type_ : UInt8) : Locking.Phase := if type_ = voteTypePrevote then .prevote else .precommit

def castOf (e : SignedVote) : Cast BlockID where
  height := e.vote.height
  round := e.vote.round
  phase := phaseOf e.vote.type_
  value := e.vote.blockID
  polka r := e.votes.majority r voteTypePrevote

def voter (L : Platform) (cs : ConsensusState) : Voter BlockID Bytes where
  height := cs.height
  round := cs.round
  stage := cs.step.stage
  lock := cs.lockedBlock.map fun block => (cs.lockedRound, blockHash L block)
  polka r := cs.votes.majority r voteTypePrevote
  log := cs.signed.map castOf

abbrev VoterStep : Voter BlockID Bytes → Voter BlockID Bytes → Prop := Voter.Step BlockID.hash BlockID.empty

variable {L : Platform} {E : Env} {N : Node} {cs cs' : ConsensusState}

theorem hashesTo_iff {block : Option (Ref Block)} {hash : Bytes} :
    hashesTo L block hash = true ↔ hash ≠ [] ∧ ∃ b, block = some b ∧ blockHash L b = hash := by
  cases block with
  | none => simp [hashesTo, Block.hashesTo]
  | some b =>
    by_cases hn : hash = []
    · simp [hashesTo, Block.hashesTo, hn]
    · simp [hashesTo, Block.hashesTo, blockHash]

theorem releases_of_hashesTo {blockID : BlockID} (h : hashesTo L cs.lockedBlock blockID.hash = false) (r : Int)
    (k : Bytes) (hl : (voter L cs).lock = some (r, k)) : Voter.Releases BlockID.hash BlockID.empty blockID k := by
  obtain ⟨b, hb, he⟩ := map_eq_some_iff.1 hl
  cases he
  by_cases hn : blockID.hash = []
  · exact .inr hn
  · refine .inl fun heq => ?_
    rw [hashesTo_iff.2 ⟨hn, b, hb, heq.symm⟩] at h
    cases h

/-! ## Every transition is a step -/

theorem voter_advance (hh : cs'.height = cs.height)
    (hlater : cs.round < cs'.round ∨ cs'.round = cs.round ∧ cs.step.ord ≤ cs'.step.ord)
    (hvotes : ∀ r b, cs.votes.majority r voteTypePrevote = some b → cs'.votes.majority r voteTypePrevote = some b)
    (hround : cs'.lockedRound = cs.lockedRound) (hlock : cs'.lockedBlock = cs.lockedBlock)
    (hsigned : cs'.signed = cs.signed) : VoterStep (voter L cs) (voter L cs') := by
  refine .advance hh (hlater.imp_right fun h => ⟨h.1.symm, RoundStep.stage_mono h.2⟩) hvotes ?_ ?_
  · simp only [voter, hlock, hround]
  · simp only [voter, hsigned]

theorem Signed.voter_eq {type_ : UInt8} {blockID : BlockID} (h : Signed type_ blockID cs cs') (step : RoundStep) :
    ∃ l, voter L { cs' with round := cs.round, step } =
      { voter L cs with stage := step.stage, log := (voter L cs).log ++ l } ∧
      (l = [] ∨ l = [(voter L cs).cast (phaseOf type_) blockID]) := by
  obtain ⟨pv, queue, l, rfl, hl⟩ := h
  refine ⟨l.map castOf, by simp [voter], ?_⟩
  rcases hl with rfl | ⟨vote, rfl, hheight, hround, htype, hblock⟩
  · exact .inl rfl
  · simp [castOf, voter, Voter.cast, hheight, hround, htype, hblock]

theorem voter_prevote {blockID : BlockID} (hstep : cs.step.ord < RoundStep.prevote.ord) (hb : PrevoteFor L cs blockID)
    (h : Signed voteTypePrevote blockID cs cs') :
    VoterStep (voter L cs) (voter L { cs' with round := cs.round, step := .prevote }) := by
  obtain ⟨l, heq, hl⟩ := h.voter_eq (L := L) .prevote
  rw [heq]
  refine .prevote (by simp [voter, RoundStep.stage, hstep]) (fun r k hlock => ?_) hl
  obtain ⟨locked, hlocked, he⟩ := map_eq_some_iff.1 hlock
  cases he
  rw [PrevoteFor, hlocked] at hb
  rw [hb]

theorem voter_precommit (hstep : cs.step.ord < RoundStep.precommit.ord) (h : Precommits L cs cs') :
    VoterStep (voter L cs) (voter L { cs' with round := cs.round, step := .precommit }) := by
  have hstage : (voter L cs).stage < 2 := by
    show cs.step.stage < 2
    unfold RoundStep.stage
    split_ifs <;> omega
  cases h with
  | nil h =>
    obtain ⟨l, heq, hl⟩ := h.voter_eq (L := L) .precommit
    rw [heq]
    exact .precommitNil hstage (.inl rfl) hl
  | @release blockID cs₁ polka other hun h =>
    -- up to the lock the voter is the same when the proposal is dropped
    have hvoter : voter L cs₁ = { voter L cs with lock := none } := by
      rcases hun with rfl | rfl | ⟨_, _, rfl⟩ <;> rfl
    have hround : cs₁.round = cs.round := by
      rcases hun with rfl | rfl | ⟨_, _, rfl⟩ <;> rfl
    obtain ⟨l, heq, hl⟩ := h.voter_eq (L := L) .precommit
    rw [hround, hvoter] at heq
    rw [hvoter] at hl
    rw [heq]
    exact .precommitNil hstage (.inr ⟨rfl, blockID, polka, releases_of_hashesTo other⟩) hl
  | @relock blockID polka locked h =>
    obtain ⟨hne, b, hb, hhash⟩ := hashesTo_iff.1 locked
    obtain ⟨l, heq, hl⟩ := h.voter_eq (L := L) .precommit
    have hvoter : voter L { cs with lockedRound := cs.round } =
      { voter L cs with lock := some (cs.round, blockID.hash) } := by
      simp [voter, hb, hhash]
    rw [hvoter] at heq hl
    exact heq ▸ .precommit hstage polka hne hl
  | @lock blockID polka proposed h =>
    obtain ⟨hne, b, hb, hhash⟩ := hashesTo_iff.1 proposed
    obtain ⟨l, heq, hl⟩ := h.voter_eq (L := L) .precommit
    have hvoter : voter L { cs with
        lockedRound := cs.round, lockedBlock := cs.proposalBlock, lockedBlockParts := cs.proposalBlockParts } =
        { voter L cs with lock := some (cs.round, blockID.hash) } := by
      simp [voter, hb, hhash]
    rw [hvoter] at heq hl
    exact heq ▸ .precommit hstage polka hne hl

theorem Trans.voter (ht : Trans L E cs cs') (hp : Pointers E cs) : VoterStep (voter L cs) (voter L cs') := by
  cases ht with
  | idle hi => cases hi <;> exact voter_advance rfl (.inr ⟨rfl, le_rfl⟩) (fun _ _ h => h) rfl rfl rfl
  | @newRound round validators later =>
    have hlater : cs.round < (startRound round validators cs).round ∨
      (startRound round validators cs).round = cs.round ∧
        cs.step.ord ≤ (startRound round validators cs).step.ord := by
      simp only [ConsensusState.startRound_round, ConsensusState.startRound_step]
      exact later.imp_right fun h => ⟨h.1.symm, by rw [h.2]; decide⟩
    refine voter_advance (by simp) hlater ?_ ?_ ?_ ?_ <;> unfold startRound <;> split_ifs
    all_goals first | exact fun _ _ h => h | rfl
  | enter later _ => exact voter_advance rfl (.inr ⟨rfl, later.le⟩) (fun _ _ h => h) rfl rfl rfl
  | votes hv =>
    exact voter_advance rfl (.inr ⟨rfl, le_rfl⟩) (fun r b => hv.extends.majority r _ b rfl) rfl rfl rfl
  | prevote later choice h => exact voter_prevote later choice h
  | precommit later h => exact voter_precommit later h
  | @unlock round blockID locked polka later known other =>
    obtain ⟨b, hb⟩ := isSome_iff_exists.1 locked
    have hlock : (Consensus.voter L cs).lock = some (cs.lockedRound, blockHash L b) := by simp [Consensus.voter, hb]
    exact .unlock hlock polka later known (releases_of_hashesTo other _ _ hlock)
  | commit later ha =>
    cases ha with
    | none | locked => exact voter_advance rfl (.inr ⟨rfl, later.le⟩) (fun _ _ h => h) rfl rfl rfl
    | refetch _ hf =>
      rcases hf with rfl | ⟨_, _, rfl⟩ <;>
        exact voter_advance rfl (.inr ⟨rfl, later.le⟩) (fun _ _ h => h) rfl rfl rfl
  | finalize | addPart => exact voter_advance rfl (.inr ⟨rfl, le_rfl⟩) (fun _ _ h => h) rfl rfl rfl
  | nextHeight later => exact .nextHeight later rfl rfl
  | propose _ _ h =>
    rcases h with rfl | ⟨_, _, rfl⟩ <;> exact voter_advance rfl (.inr ⟨rfl, le_rfl⟩) (fun _ _ h => h) rfl rfl rfl
  | @completePart parts _ res block hparts hadd hc _ =>
    have hframe := frame_completePart parts.addr res.1 block cs
    refine voter_advance hframe.height (.inr ⟨hframe.round, hframe.step ▸ le_rfl⟩) (fun r b h => hframe.votes ▸ h) ?_
      (hp.locked_completePart hparts hadd hc.1 block) ?_
    all_goals
      unfold ConsensusState.setProposalBlock
      split <;> rfl

/-! ## Runs -/

/-- The invariant of a node, with what its lock stands for. -/
structure NodeInv (L : Platform) (E : Env) (cs : ConsensusState) : Prop where
  timely : Timely cs
  pointers : Pointers E cs
  voter : Voter.Inv BlockID.hash BlockID.empty (voter L cs)

theorem Trans.nodeInv (ht : Trans L E cs cs') (h : NodeInv L E cs) : NodeInv L E cs' :=
  ⟨ht.timely h.timely, ht.pointers h.timely.1 h.pointers, (ht.voter h.pointers).inv h.voter⟩

theorem nodeInv_new {state : ChainState} {lastCommit : Option VoteSet} {pv : Option FilePV}
    (h : ConsensusState.newConsensusState state lastCommit pv = some cs) : NodeInv L E cs := by
  obtain ⟨votes, _, rfl⟩ := map_eq_some_iff.1 h
  refine ⟨⟨le_rfl, fun ti hti => ?_⟩, ?_, Voter.inv_of_fresh rfl rfl⟩
  · cases List.mem_singleton.1 hti
    exact .inr ⟨rfl, le_rfl⟩
  · exact ⟨fun b hb => (hb.elim (fun hn => nomatch hn) fun hn => nomatch hn),
      fun p hp => (hp.elim (fun hn => nomatch hn) fun hn => nomatch hn), fun _ _ hp => (nomatch hp), fun _ _ => rfl,
      fun _ _ hb => (nomatch hb), fun _ hl => (nomatch hl), fun _ _ hb => (nomatch hb)⟩

variable {n : NodeState}

theorem NodeState.step_chain {input : Outside × Event} (ht : Timely n.cs) (hE : E.Applies input.1)
    (hevent : E.Admits L n.cs input.2) : Relation.ReflTransGen (Trans L E) n.cs (n.step L N input).cs := by
  unfold NodeState.step
  split_ifs
  · exact (handle_moves ht hE hevent).exec
  · exact .refl

theorem NodeState.step_inv {input : Outside × Event} (h : NodeInv L E n.cs) (hE : E.Applies input.1)
    (hevent : E.Admits L n.cs input.2) : NodeInv L E (n.step L N input).cs :=
  chain_inv (I := NodeInv L E) (fun _ _ => Trans.nodeInv) (NodeState.step_chain h.timely hE hevent) h

theorem Env.any_admits (event : Event) : Env.any.Admits L cs event :=
  ⟨fun _ _ => trivial, fun _ _ => trivial, fun _ _ => trivial, fun _ _ _ => trivial⟩

theorem NodeState.run_chain_of (h : NodeInv L E n.cs) {inputs : List (Outside × Event)}
    (hin : ∀ input ∈ inputs, E.Applies input.1 ∧ ∀ cs, E.Admits L cs input.2) :
    Relation.ReflTransGen (Trans L E) n.cs (n.run L N inputs).cs := by
  induction inputs generalizing n with
  | nil => exact .refl
  | cons input inputs ih =>
    obtain ⟨⟨hE, hevent⟩, hrest⟩ := List.forall_mem_cons.1 hin
    exact (step_chain h.timely hE (hevent _)).trans (ih (step_inv h hE (hevent _)) hrest)

theorem NodeState.run_chain (h : NodeInv L Env.any n.cs) (inputs : List (Outside × Event)) :
    Relation.ReflTransGen (Trans L Env.any) n.cs (n.run L N inputs).cs :=
  run_chain_of h fun input _ => ⟨fun _ _ _ _ _ => trivial, fun _ => Env.any_admits input.2⟩

theorem NodeState.run_inv (h : NodeInv L Env.any n.cs) (inputs : List (Outside × Event)) :
    NodeInv L Env.any (n.run L N inputs).cs :=
  chain_inv (I := NodeInv L .any) (fun _ _ => Trans.nodeInv) (run_chain h inputs) h

/-! ## The votes that a node rests on -/

theorem Signed.signed_eq {type_ : UInt8} {blockID : BlockID} (h : Signed type_ blockID cs cs') :
    ∃ l, cs'.signed = cs.signed ++ l ∧ ∀ e ∈ l, e.votes = cs.votes ∧ e.vote.height = cs.height ∧ e.vote.type_ = type_ ∧
      e.vote.blockID = blockID := by
  obtain ⟨_, _, l, rfl, hl⟩ := h
  refine ⟨l, rfl, fun e he => ?_⟩
  rcases hl with rfl | ⟨vote, rfl, hheight, -, htype, hblock⟩
  · cases he
  · cases List.mem_singleton.1 he
    exact ⟨rfl, hheight, htype, hblock⟩

theorem Precommits.signed_eq (h : Precommits L cs cs') : ∃ l, cs'.signed = cs.signed ++ l ∧ ∀ e ∈ l,
    e.votes = cs.votes ∧ e.vote.height = cs.height ∧ e.vote.type_ = voteTypePrecommit := by
  have hbase : ∃ cs₁ blockID, Signed voteTypePrecommit blockID cs₁ cs' ∧ cs₁.signed = cs.signed ∧
      cs₁.votes = cs.votes ∧ cs₁.height = cs.height := by
    cases h with
    | nil h | relock _ _ h | lock _ _ h => exact ⟨_, _, h, rfl, rfl, rfl⟩
    | release _ _ hun h => rcases hun with rfl | rfl | ⟨_, _, rfl⟩ <;> exact ⟨_, _, h, rfl, rfl, rfl⟩
  obtain ⟨cs₁, blockID, h₁, hsigned, hvotes, hheight⟩ := hbase
  obtain ⟨l, hl, hall⟩ := h₁.signed_eq
  refine ⟨l, hsigned ▸ hl, fun e he => ?_⟩
  obtain ⟨h₂, h₃, h₄, -⟩ := hall e he
  exact ⟨h₂.trans hvotes, h₃.trans hheight, h₄⟩

/-- A vote is signed with the votes that the node has. -/
theorem Trans.signed (ht : Trans L E cs cs') : ∃ l, cs'.signed = cs.signed ++ l ∧ ∀ e ∈ l, e.votes = cs.votes := by
  have hnone : cs'.signed = cs.signed → ∃ l, cs'.signed = cs.signed ++ l ∧ ∀ e ∈ l, e.votes = cs.votes := fun h =>
    ⟨[], by simp [h], fun _ he => nomatch he⟩
  cases ht with
  | idle h => cases h <;> exact hnone rfl
  | newRound =>
    refine hnone ?_
    unfold startRound
    split_ifs <;> rfl
  | prevote _ _ h =>
    obtain ⟨l, hl, hall⟩ := h.signed_eq
    exact ⟨l, hl, fun e he => (hall e he).1⟩
  | precommit _ h =>
    obtain ⟨l, hl, hall⟩ := h.signed_eq
    exact ⟨l, hl, fun e he => (hall e he).1⟩
  | commit _ h =>
    cases h with
    | none | locked => exact hnone rfl
    | refetch _ h => rcases h with rfl | ⟨_, _, rfl⟩ <;> exact hnone rfl
  | propose _ _ h => rcases h with rfl | ⟨_, _, rfl⟩ <;> exact hnone rfl
  | completePart =>
    refine hnone ?_
    unfold ConsensusState.setProposalBlock
    split <;> rfl
  | enter | votes | unlock | finalize | nextHeight | addPart => exact hnone rfl

/-- Powers that are not negative, with a total whose double is an `int64`. -/
def Countable (valSet : ValidatorSet) : Prop := valSet.Bounded ∧ valSet.sumPower * 2 ≤ Machine.maxInt64

/-- Votes from a list, and validators that can be counted. -/
def Env.counting (delivered : List Vote) : Env :=
  { Env.any with vote := (· ∈ delivered), applied := fun _ _ _ state' => Countable state'.validators }

/-- The votes of the node, now and when it signed, were delivered to it. -/
structure CountInv (L : Platform) (delivered : List Vote) (cs : ConsensusState) : Prop where
  votes : cs.votes.Sound L.prims L.amino (· ∈ delivered)
  signed : ∀ e ∈ cs.signed, e.votes.Sound L.prims L.amino (· ∈ delivered)

variable {delivered : List Vote}

theorem sound_new {chainID : Bytes} {height : Int} {valSet : ValidatorSet} {votes : HeightVoteSet}
    (hc : Countable valSet) (h : HeightVoteSet.newHeightVoteSet chainID height valSet = some votes) :
    votes.Sound L.prims L.amino (· ∈ delivered) := by
  obtain ⟨-, -, hvals, hinv, hholds⟩ := HeightVoteSet.newHeightVoteSet_spec h
  exact ⟨hvals ▸ hc.1, hvals ▸ hc.2, hinv, hholds _⟩

theorem Trans.countInv (ht : Trans L (.counting delivered) cs cs') (h : CountInv L delivered cs) :
    CountInv L delivered cs' := by
  refine ⟨?_, fun e he => ?_⟩
  · rcases ht.calls with ⟨-, -, -, hg⟩ | ⟨_, rfl⟩ | ⟨state, votes, _, _, _, happ, -, -, rfl, hnew, -⟩
    · cases hg with
      | same hv | late _ _ hv => exact hv ▸ h.votes
      | votes hs => exact h.votes.step hs
    · exact h.votes
    · exact sound_new happ hnew
  · obtain ⟨l, hl, hall⟩ := ht.signed
    rw [hl] at he
    rcases List.mem_append.1 he with he | he
    · exact h.signed e he
    · exact hall e he ▸ h.votes

/-! ## The lock discipline -/

/-- Votes with one key are votes for one block ID. -/
def OneBlockID (A : Amino) (delivered : List Vote) : Prop :=
  ∀ v ∈ delivered, ∀ w ∈ delivered, v.blockID.key A = w.blockID.key A → v.blockID = w.blockID

instance (A : Amino) (delivered : List Vote) : Decidable (OneBlockID A delivered) := by
  unfold OneBlockID
  infer_instance

/-- The prevotes of the round of a precommit for a block had a two-thirds majority for it. -/
def HadPolka (A : Amino) (e : SignedVote) : Prop :=
  e.vote.type_ = voteTypePrecommit → e.vote.blockID.isZero = false →
    e.votes.TwoThirds A e.vote.round voteTypePrevote e.vote.blockID

/-- After a precommit for a block, a prevote for anything else was signed with two thirds of the prevotes of a round
in between for something else. -/
def KeptLock (A : Amino) (e f : SignedVote) : Prop :=
  e.vote.type_ = voteTypePrecommit → e.vote.blockID.hash ≠ [] → f.vote.type_ = voteTypePrevote →
    f.vote.height = e.vote.height → e.vote.round < f.vote.round → f.vote.blockID.hash ≠ e.vote.blockID.hash →
      ∃ round blockID, e.vote.round < round ∧ round ≤ f.vote.round ∧
        f.votes.TwoThirds A round voteTypePrevote blockID ∧ blockID.hash ≠ e.vote.blockID.hash

instance (A : Amino) (e : SignedVote) : Decidable (HadPolka A e) := by
  unfold HadPolka
  infer_instance

/-- The votes of a node, in the order in which it has signed them. -/
structure LockDiscipline (A : Amino) (signed : List SignedVote) : Prop where
  hadPolka : ∀ e ∈ signed, HadPolka A e
  keptLock : signed.Pairwise (KeptLock A)

section

variable {A : Amino} {e f : SignedVote}

theorem hadPolka_of_justified (h : Voter.Justified BlockID.hash BlockID.empty (castOf e))
    (hcount : ∀ r b, e.votes.majority r voteTypePrevote = some b → e.votes.TwoThirds A r voteTypePrevote b) :
    HadPolka A e := by
  intro htype hzero
  have hphase : (castOf e).phase = .precommit := congrArg phaseOf htype
  rcases h hphase with hnil | ⟨_, hpolka⟩
  · have hempty : e.vote.blockID = BlockID.empty := hnil
    rw [hempty] at hzero
    cases hzero
  · exact hcount _ _ hpolka

theorem keptLock_of_respects (h : Voter.Respects BlockID.hash BlockID.empty (castOf e) (castOf f))
    (hcount : ∀ r b, f.votes.majority r voteTypePrevote = some b → f.votes.TwoThirds A r voteTypePrevote b) :
    KeptLock A e f := by
  intro he hne hf hheight hround hdiff
  have hphase : (castOf e).phase = .precommit := congrArg phaseOf he
  have hphase' : (castOf f).phase = .prevote := congrArg phaseOf hf
  obtain ⟨r, b, h₁, h₂, h₃, h₄⟩ := h hheight.symm hphase hphase' hround hne hdiff
  exact ⟨r, b, h₁, h₂, hcount r b h₃, h₄⟩

end

/-- **The lock discipline**, where votes with one key have one block ID: a node precommits a block only on two thirds
of the prevotes, and prevotes something else later only on two thirds of the prevotes of a round in between. -/
theorem lock_discipline (L : Platform) (N : Node) {state : ChainState} {lastCommit : Option VoteSet}
    {pv : Option FilePV} {cs : ConsensusState} (h : ConsensusState.newConsensusState state lastCommit pv = some cs)
    (hstate : Countable state.validators) (inputs : List (Outside × Event))
    (happ : ∀ input ∈ inputs, ∀ state blockID block state', input.1.applyBlock state blockID block =
      some (some state') → Countable state'.validators)
    (hkeys : OneBlockID L.amino (inputs.flatMap fun input => input.2.votes)) :
    LockDiscipline L.amino (NodeState.run L N ⟨cs, true⟩ inputs).cs.signed := by
  have hnew := nodeInv_new (L := L) (E := .counting (inputs.flatMap fun input => input.2.votes)) h
  have hinputs : ∀ input ∈ inputs, (Env.counting (inputs.flatMap fun input => input.2.votes)).Applies input.1 ∧
      ∀ cs, (Env.counting (inputs.flatMap fun input => input.2.votes)).Admits L cs input.2 := fun input hin =>
    ⟨happ input hin, fun _ => ⟨fun vote hv => List.mem_flatMap.2 ⟨input, hin, hv⟩, fun _ _ => trivial,
      fun _ _ => trivial, fun _ _ _ => trivial⟩⟩
  have hchain := NodeState.run_chain_of (n := ⟨cs, true⟩) (N := N) hnew hinputs
  have hcount : CountInv L (inputs.flatMap fun input => input.2.votes) cs := by
    obtain ⟨votes, hvotes, rfl⟩ := map_eq_some_iff.1 h
    exact ⟨sound_new hstate hvotes, fun _ he => nomatch he⟩
  have hsigned := (chain_inv (I := CountInv L _) (fun _ _ => Trans.countInv) hchain hcount).signed
  have hpolka : ∀ e ∈ (NodeState.run L N ⟨cs, true⟩ inputs).cs.signed, ∀ r b,
      e.votes.majority r voteTypePrevote = some b → e.votes.TwoThirds L.amino r voteTypePrevote b :=
    fun e he r b => (hsigned e he).twoThirds (fun v w hv hw => hkeys v hv w hw) (by decide)
  have hinv := (chain_inv (I := NodeInv L _) (fun _ _ => Trans.nodeInv) hchain hnew).voter
  refine ⟨fun e he => hadPolka_of_justified (hinv.justified _ (List.mem_map_of_mem he)) (hpolka e he), ?_⟩
  exact (List.pairwise_map.1 hinv.respects).imp_of_mem fun _ hf hr => keptLock_of_respects hr (hpolka _ hf)

/-! ## A chain of four validators

The values at which the witnesses are evaluated: validators of power 1 whose keys are single bytes, and the first height
of their chain. -/

namespace Fork

instance three_neZero : NeZero 3 := ⟨by decide⟩

def key (n : Nat) : Bytes := [n.toUInt8 + 1]

def address (n : Nat) : Bytes := (PubKey.ed25519 (key n)).address .checked

def validator (n : Nat) : Validator :=
  { address := address n, pubKey := some (.ed25519 (key n)), votingPower := 1, accum := 0 }

def vals : ValidatorSet := ⟨[validator 0, validator 1, validator 2, validator 3], some (validator 3)⟩

def state : ChainState where
  chainID := [7]
  lastBlockHeight := 0
  lastBlockTotalTx := 0
  lastBlockID := .empty
  validators := vals
  lastValidators := vals
  consensusParams := defaultConsensusParams
  lastResultsHash := []
  appHash := []

def block (time : Int) : Block where
  header := some {
    chainID := [7]
    height := 1
    time
    numTxs := 0
    lastBlockID := .empty
    totalTxs := 0
    dataHash := dataHash .checked (some ⟨[]⟩)
    validatorsHash := vals.hash .checked .plain
    consensusHash := defaultConsensusParams.hash .checked .plain
    appHash := []
    lastResultsHash := [] }
  data := some ⟨[]⟩
  commit := some ⟨.empty, []⟩

def parts (time size : Int) : PartSet := ((block time).makePartSet .checked .plain size).getD ⟨0, [], [], 0⟩

def blockID (time size : Int) : BlockID := ⟨Block.hash .checked .plain (some (block time)), (parts time size).header⟩

def node (n : Nat) : Node where
  waitForTxs := false
  emptyBlocksInterval := false
  skipTimeoutCommit := false
  address := address n
  sign bz := some (.ed25519 (key n ++ bz))

def outside : Outside where
  now := 0
  store := ∅
  reaped := []
  lastAppHash _ := none
  applyBlock state blockID _ := some (some { state with
    lastBlockHeight := state.lastBlockHeight + 1, lastBlockID := blockID, validators := vals })

def startState : ConsensusState :=
  (ConsensusState.newConsensusState state none (some ⟨0, 0, 0, none, none⟩)).get (by decide +kernel)

theorem start_eq : ConsensusState.newConsensusState state none (some ⟨0, 0, 0, none, none⟩) = some startState :=
  (some_get _).symm

def timeout (round : Int) (step : RoundStep) : Event := .timeout ⟨1, round, step⟩

def propose (round : Int) (parts : PartSet) : List Event :=
  .msg (.proposal (some {
    height := 1, round, timestamp := 0, blockPartsHeader := parts.header, polRound := -1, polBlockID := .empty,
    signature := none })) [] :: parts.parts.map fun part => .msg (.blockPart 1 round part) []

def vote (type_ : UInt8) (round : Int) (blockID : BlockID) (n : Nat) : Event :=
  .msg (.vote (some (Vote.signedBy (key n) [7] {
    validatorAddress := address n, validatorIndex := n, height := 1, round, timestamp := 0, type_, blockID,
    signature := none }))) []

def prevote : Int → BlockID → Nat → Event := vote voteTypePrevote

def precommit : Int → BlockID → Nat → Event := vote voteTypePrecommit

def shifted (blockID : BlockID) : BlockID := ⟨blockID.key .plain, .empty⟩

def at_ (i : Fin 3) (events : List Event) : List (Fin 3 × Event) := events.map (i, ·)

def eventsOf (i : Fin 3) (events : List (Fin 3 × Event)) : List Event := (events.filter fun x => x.1 = i).map Prod.snd

def idA : BlockID := blockID 0 1000

def idB : BlockID := blockID 1 1000

/-- The fourth validator uses another block ID with the key of the first block, and completes majorities with it: node
1 does not lock in round 0, and node 2 is released in round 1. -/
def byKey : List (Fin 3 × Event) :=
  at_ 0 (timeout 0 .newHeight :: propose 0 (parts 0 1000)) ++
  at_ 1 (timeout 0 .newHeight :: propose 0 (parts 0 1000)) ++
  at_ 2 (timeout 0 .newHeight :: propose 0 (parts 0 1000)) ++
  at_ 0 [prevote 0 idA 0, prevote 0 idA 1, prevote 0 idA 2] ++
  at_ 1 [prevote 0 idA 0, prevote 0 idA 1, prevote 0 (shifted idA) 3] ++
  at_ 2 [prevote 0 idA 0, prevote 0 idA 1, prevote 0 idA 2] ++
  -- node 0 finalizes the first block
  at_ 0 [precommit 0 idA 0, precommit 0 idA 2, precommit 0 idA 3] ++
  at_ 1 [precommit 0 .empty 1, precommit 0 idA 2, precommit 0 .empty 3, timeout 0 .precommitWait] ++
  at_ 2 [precommit 0 .empty 1, precommit 0 idA 2, precommit 0 .empty 3, timeout 0 .precommitWait] ++
  at_ 1 (propose 1 (parts 0 1000)) ++ at_ 2 [timeout 1 .propose] ++
  at_ 1 [prevote 1 idA 1, prevote 1 idA 2, prevote 1 (shifted idA) 3] ++
  at_ 2 [prevote 1 idA 1, prevote 1 idA 2, prevote 1 (shifted idA) 3] ++
  at_ 1 [precommit 1 .empty 1, precommit 1 .empty 2, precommit 1 .empty 3] ++
  at_ 2 [precommit 1 .empty 1, precommit 1 .empty 2, precommit 1 .empty 3] ++
  -- nothing is locked any more
  at_ 1 (propose 2 (parts 1 1000)) ++ at_ 2 (propose 2 (parts 1 1000)) ++
  at_ 1 [prevote 2 idB 1, prevote 2 idB 2, prevote 2 idB 3] ++
  at_ 2 [prevote 2 idB 1, prevote 2 idB 2, prevote 2 idB 3] ++
  at_ 1 [precommit 2 idB 1, precommit 2 idB 2, precommit 2 idB 3]

/-- Node 2 locks on the first block, and is released by the nil prevotes of round 1. -/
def released : List Event :=
  timeout 0 .newHeight :: propose 0 (parts 0 1000) ++
  [prevote 0 idA 0, prevote 0 idA 1, prevote 0 idA 2, precommit 0 .empty 1, precommit 0 idA 2, precommit 0 .empty 3,
    timeout 0 .precommitWait, timeout 1 .propose, prevote 1 .empty 0, prevote 1 .empty 1, prevote 1 .empty 3,
    precommit 1 .empty 1, precommit 1 .empty 2, precommit 1 .empty 3] ++
  propose 2 (parts 1 1000) ++ [prevote 2 idB 1, prevote 2 idB 2, prevote 2 idB 3]

/-- The first vote of the quorum is for the other block ID with the key. -/
def unbacked : List Event :=
  timeout 0 .newHeight :: propose 0 (parts 0 1000) ++ [prevote 0 (shifted idA) 3, prevote 0 idA 0, prevote 0 idA 1]

/-- The votes that node 2 signs. -/
def signedOver (events : List Event) : List SignedVote :=
  (NodeState.run .plain (node 2) ⟨startState, true⟩ (events.map (outside, ·))).cs.signed

end Fork

open Fork

theorem countable_vals : Countable vals := ⟨⟨by decide, by decide⟩, by decide⟩

/-- A node that locks, has its lock released in the next round and prevotes another block. -/
theorem lock_discipline_released :
    ConsensusState.newConsensusState state none (some ⟨0, 0, 0, none, none⟩) = some startState ∧ Countable vals ∧
      OneBlockID Platform.plain.amino ((released.map (outside, ·)).flatMap fun input => input.2.votes) ∧
      (signedOver released).map (fun e => (e.vote.type_, e.vote.round, e.vote.blockID)) =
        [(voteTypePrevote, 0, idA), (voteTypePrecommit, 0, idA), (voteTypePrevote, 1, idA),
          (voteTypePrecommit, 1, .empty), (voteTypePrevote, 2, idB), (voteTypePrecommit, 2, idB)] ∧
      LockDiscipline Platform.plain.amino (signedOver released) := by
  have hkeys : OneBlockID Platform.plain.amino ((released.map (outside, ·)).flatMap fun input => input.2.votes) := by
    decide +kernel
  refine ⟨start_eq, countable_vals, hkeys, by decide +kernel, ?_⟩
  refine lock_discipline .plain (node 2) start_eq countable_vals _ (fun input hin _ _ _ _ happ => ?_) hkeys
  obtain ⟨_, _, rfl⟩ := List.mem_map.1 hin
  cases happ
  exact countable_vals

/-- A prevote for another block, with no majority in the rounds in between. -/
def Breaks (A : Amino) (e f : SignedVote) : Prop :=
  (e.vote.type_ = voteTypePrecommit ∧ e.vote.blockID.hash ≠ [] ∧ f.vote.type_ = voteTypePrevote ∧
    f.vote.height = e.vote.height ∧ e.vote.round < f.vote.round ∧ f.vote.blockID.hash ≠ e.vote.blockID.hash) ∧
  ∀ k < (f.vote.round - e.vote.round).toNat, ∀ vs ∈ f.votes.getVoteSet (e.vote.round + 1 + k) voteTypePrevote,
    0 ≤ vs.valSet.sumPower ∧ ∀ x ∈ vs.votesByBlock.entries, ∀ slot ∈ x.2.votes, ∀ vote ∈ slot,
      vote.blockID.hash ≠ e.vote.blockID.hash →
        ¬ f.votes.TwoThirds A (e.vote.round + 1 + k) voteTypePrevote vote.blockID

instance (A : Amino) (e f : SignedVote) : Decidable (Breaks A e f) := by
  unfold Breaks
  infer_instance

theorem Breaks.not_keptLock {A : Amino} {e f : SignedVote} (h : Breaks A e f) : ¬ KeptLock A e f := by
  obtain ⟨⟨h₁, h₂, h₃, h₄, h₅, h₆⟩, hno⟩ := h
  intro hkept
  obtain ⟨round, blockID, hlo, hhi, htwo, hne⟩ := hkept h₁ h₂ h₃ h₄ h₅ h₆
  have hround := hno (round - e.vote.round - 1).toNat (by omega)
  rw [show e.vote.round + 1 + ((round - e.vote.round - 1).toNat : Int) = round by omega] at hround
  obtain ⟨vs, hget, x, hx, vote, hvote, rfl⟩ := htwo.exists_vote fun vs hget => (hround vs hget).1
  exact (hround vs hget).2 x hx _ hvote vote rfl hne htwo

/-- One faulty validator in four. A block is precommitted on two prevotes; and a lock is released though no round had
two thirds for anything but the locked block. -/
theorem lock_broken_by_key :
    ConsensusState.newConsensusState state none (some ⟨0, 0, 0, none, none⟩) = some startState ∧ Countable vals ∧
      (∃ e ∈ signedOver unbacked, ¬ HadPolka Platform.plain.amino e) ∧
      ¬ (signedOver (eventsOf 2 byKey)).Pairwise (KeptLock Platform.plain.amino) := by
  refine ⟨start_eq, countable_vals, by decide +kernel, fun hkept => ?_⟩
  have hbreaks : ∃ i j, i < j ∧ ∃ e ∈ (signedOver (eventsOf 2 byKey))[i]?, ∃ f ∈ (signedOver (eventsOf 2 byKey))[j]?,
      Breaks Platform.plain.amino e f :=
    ⟨1, 4, by decide +kernel⟩
  obtain ⟨i, j, hij, e, he, f, hf, hbreaks⟩ := hbreaks
  obtain ⟨hi, rfl⟩ := List.getElem?_eq_some_iff.1 he
  obtain ⟨hj, rfl⟩ := List.getElem?_eq_some_iff.1 hf
  exact hbreaks.not_keptLock (List.pairwise_iff_getElem.1 hkept i j hi hj hij)

end Consensus

end Demars
