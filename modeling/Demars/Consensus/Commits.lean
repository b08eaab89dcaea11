import Demars.Consensus.Clock
import Demars.Lib.Runs

/-!
# The commit step

A node that has seen two thirds of the precommits for a block is in the commit step until it has the block. Every
`enter` function but `enterNewRound`, which only compares the rounds, refuses to leave it.
-/

namespace Demars.Consensus

open Handler Runs List Option
open ConsensusState (hashesTo startHeight)

def votesOf (votes : HeightVoteSet) (type_ : UInt8) (round : Int) : Option VoteSet :=
  if type_ = voteTypePrevote then votes.prevotes round else votes.precommits round

/-- The vote makes two thirds of a later round, or of the precommits of the round for nil. -/
def startsRound (L : Platform) (cs : ConsensusState) : Event → Bool
  | .msg (.vote (some vote)) peerID =>
    decide (vote.height = cs.height) && (cs.votes.addVote L.prims L.amino vote peerID).any fun res =>
      res.2.1 && (votesOf res.1 vote.type_ vote.round).any fun votes =>
        (decide (cs.round < vote.round) && (votes.hasTwoThirdsAny || votes.twoThirdsMajority.isSome)) ||
          (decide (vote.round = cs.round) && decide (vote.type_ ≠ voteTypePrevote) &&
            votes.twoThirdsMajority.any fun blockID => decide (blockID.hash = []))
  | _ => false

def StaysInCommit (L : Platform) (height : Int) (n : NodeState) (input : Outside × Event) : Prop :=
  n.cs.height = height → n.cs.step = .commit → startsRound L n.cs input.2 = false

instance (L : Platform) (height : Int) (n : NodeState) (input : Outside × Event) :
    Decidable (StaysInCommit L height n input) := by
  unfold StaysInCommit
  infer_instance

def AppliesNext (O : Outside) : Prop :=
  ∀ state blockID block state', O.applyBlock state blockID block = some (some state') →
    state'.lastBlockHeight = state.lastBlockHeight + 1

/-- The node is in the commit step for a block. -/
structure InCommit (blockID : BlockID) (cs : ConsensusState) : Prop where
  step : cs.step = .commit
  quorum : cs.votes.majority cs.commitRound voteTypePrecommit = some blockID
  block : blockID.hash ≠ []

/-- The node is still where it was, and has signed nothing. -/
structure Waits (blockID : BlockID) (cs cs' : ConsensusState) : Prop where
  inCommit : InCommit blockID cs'
  height : cs'.height = cs.height
  round : cs'.round = cs.round
  signed : cs'.signed = cs.signed

/-- The block is finalized and the next height begun. -/
structure MovesOn (blockID : BlockID) (cs cs' : ConsensusState) : Prop where
  height : cs'.height = cs.height + 1
  finalized : ∃ fin ∈ cs'.finalized, fin.height = cs.height ∧ fin.blockID = blockID
  signed : cs'.signed = cs.signed

/-- The block has been finalized, and nothing more signed at its height. -/
structure IsPast (blockID : BlockID) (cs cs' : ConsensusState) : Prop where
  height : cs.height < cs'.height
  finalized : ∃ fin ∈ cs'.finalized, fin.height = cs.height ∧ fin.blockID = blockID
  signed : ∀ e ∈ cs'.signed, e.vote.height = cs.height → e ∈ cs.signed

def Holds (blockID : BlockID) (cs cs' : ConsensusState) : Prop := Waits blockID cs cs' ∨ MovesOn blockID cs cs'

variable {L : Platform} {N : Node} {O : Outside} {cs cs' cs₀ : ConsensusState} {blockID : BlockID}

theorem InCommit.ord (h : InCommit blockID cs) : cs.step.ord = RoundStep.commit.ord := congrArg RoundStep.ord h.step

theorem Waits.refl (h : InCommit blockID cs) : Waits blockID cs cs := ⟨h, rfl, rfl, rfl⟩

theorem Waits.of_same (h : Waits blockID cs cs') {cs'' : ConsensusState} (hh : cs''.height = cs'.height)
    (hr : cs''.round = cs'.round) (hs : cs''.step = cs'.step) (hc : cs''.commitRound = cs'.commitRound)
    (hv : cs''.votes = cs'.votes) (hsigned : cs''.signed = cs'.signed) : Waits blockID cs cs'' where
  inCommit := ⟨hs.trans h.inCommit.step, by rw [hv, hc]; exact h.inCommit.quorum, h.inCommit.block⟩
  height := hh.trans h.height
  round := hr.trans h.round
  signed := hsigned.trans h.signed

theorem Waits.votes {votes : HeightVoteSet} (h : Waits blockID cs cs')
    (hv : HeightVoteSet.VotesStep L.prims L.amino (fun _ => True) (fun _ => True) cs'.votes votes) :
    Waits blockID cs { cs' with votes } where
  inCommit := ⟨h.inCommit.step, hv.extends.majority _ _ _ rfl h.inCommit.quorum, h.inCommit.block⟩
  height := h.height
  round := h.round
  signed := h.signed

/-! ## The steps of a round are over -/

section

variable {Q : Unit → ConsensusState → Prop} {E : ConsensusState → Prop} {height round : Int}

theorem InCommit.guard (h : InCommit blockID cs) (hr : round ≤ cs.round) {step : RoundStep}
    (hle : step.ord ≤ RoundStep.commit.ord) :
    cs.height ≠ height ∨ round < cs.round ∨ (cs.round = round ∧ step.ord ≤ cs.step.ord) := by
  have hstep := h.ord
  omega

section

variable (h : InCommit blockID cs) (hr : round ≤ cs.round) (hQ : Q () cs)
include h hr hQ

theorem enterPrevote_over : wp (enterPrevote L N O height round) Q E cs := by
  unfold enterPrevote
  rw [wp_bind, wp_get, wp_ite, if_pos (h.guard hr (by decide))]
  exact hQ

theorem enterPrevoteWait_over : wp (enterPrevoteWait height round) Q E cs := by
  unfold enterPrevoteWait
  rw [wp_bind, wp_get, wp_ite, if_pos (h.guard hr (by decide))]
  exact hQ

theorem enterPrecommit_over : wp (enterPrecommit L N O height round) Q E cs := by
  unfold enterPrecommit
  rw [wp_bind, wp_get, wp_ite, if_pos (h.guard hr (by decide))]
  exact hQ

theorem enterPrecommitWait_over : wp (enterPrecommitWait height round) Q E cs := by
  unfold enterPrecommitWait
  rw [wp_bind, wp_get, wp_ite, if_pos (h.guard hr (by decide))]
  exact hQ

theorem enterPropose_over : wp (enterPropose L N O height round) Q E cs := by
  unfold enterPropose
  rw [wp_bind, wp_get, wp_ite, if_pos (h.guard hr (by decide))]
  exact hQ

/-- The one guard that does not look at the step: the round has to be a later one. -/
theorem enterNewRound_over : wp (enterNewRound L N O height round) Q E cs := by
  have hguard : cs.height ≠ height ∨ round < cs.round ∨ (cs.round = round ∧ cs.step ≠ .newHeight) := by
    refine .inr ((lt_or_eq_of_le hr).imp_right fun heq => ⟨heq.symm, ?_⟩)
    rw [h.step]
    decide
  unfold enterNewRound
  rw [wp_bind, wp_get, wp_ite, if_pos hguard]
  exact hQ

end

theorem enterCommit_over (h : InCommit blockID cs) (hQ : Q () cs) : wp (enterCommit L O height round) Q E cs := by
  unfold enterCommit
  rw [wp_bind, wp_get, wp_ite, if_pos (.inr h.ord.ge)]
  exact hQ

end

/-! ## Finalizing -/

theorem applyAndUpdate_holds (hO : AppliesNext O) (h : Waits blockID cs₀ cs)
    (hcall : ∃ fin ∈ cs.finalized, fin.height = cs₀.height ∧ fin.blockID = blockID) (id : BlockID) (block : Block) :
    wp (applyAndUpdate O id block) (fun _ => Holds blockID cs₀) (Holds blockID cs₀) cs := by
  unfold applyAndUpdate
  rw [wp_bind, wp_get, wp_bind, wp_ofOption]
  refine ⟨fun _ => .inl h, fun applied happ => ?_⟩
  cases applied with
  | none => exact .inl h
  | some state =>
    have hstay : ∀ ti, Waits blockID cs₀ { cs with timeouts := ti :: cs.timeouts } := fun ti =>
      h.of_same rfl rfl rfl rfl rfl rfl
    unfold updateToState scheduleTimeout
    rw [wp_bind, wp_bind, wp_get, wp_ite, wp_ite, wp_ite]
    split_ifs with h₁ h₂ h₃
    · exact .inl h
    · exact .inl h
    · exact .inl (hstay _)
    · rw [wp_bind, wp_ofOption]
      refine ⟨fun _ => .inl h, fun lastCommit _ => ?_⟩
      rw [wp_bind, wp_ofOption]
      refine ⟨fun _ => .inl h, fun votes _ => .inr ⟨?_, hcall, h.signed⟩⟩
      show state.lastBlockHeight + 1 = cs₀.height + 1
      have hnext := hO _ _ _ _ happ
      have hheight := h.height
      omega

theorem finalizeCommit_holds (hO : AppliesNext O) (h : Waits blockID cs₀ cs) (height : Int) :
    wp (finalizeCommit L O height) (fun _ => Holds blockID cs₀) (Holds blockID cs₀) cs := by
  unfold finalizeCommit
  rw [wp_bind, wp_get, wp_ite]
  split_ifs
  · exact .inl h
  rw [wp_bind, h.inCommit.quorum, wp_ofOption_some, wp_bind, wp_modify, wp_ite, wp_ite]
  -- from here on there is the record of the call
  have hcall : ∃ fin ∈ cs.finalized ++ [cs.call blockID],
      fin.height = cs₀.height ∧ fin.blockID = blockID := ⟨_, mem_append_right _ mem_cons_self, h.height, rfl⟩
  have hwaits : Waits blockID cs₀ { cs with finalized := cs.finalized ++ [cs.call blockID] } :=
    h.of_same rfl rfl rfl rfl rfl rfl
  split_ifs
  · exact .inl hwaits
  · exact .inl hwaits
  rw [wp_bind, wp_ofOption]
  refine ⟨fun _ => .inl hwaits, fun block _ => ?_⟩
  rw [wp_bind, wp_ofOption]
  refine ⟨fun _ => .inl hwaits, fun valid _ => ?_⟩
  cases valid with
  | error err => exact .inl hwaits
  | ok _ => exact applyAndUpdate_holds hO hwaits hcall _ _

theorem tryFinalizeCommit_holds (hO : AppliesNext O) (h : Waits blockID cs₀ cs) (height : Int) :
    wp (tryFinalizeCommit L O height) (fun _ => Holds blockID cs₀) (Holds blockID cs₀) cs := by
  unfold tryFinalizeCommit
  simp only [wp_bind, wp_get, wp_ite, wp_panic]
  split_ifs
  · exact .inl h
  rw [h.inCommit.quorum]
  simp only [wp_ite, wp_pure]
  split_ifs
  · exact .inl h
  · exact finalizeCommit_holds hO h height

/-! ## Messages -/

theorem seeBlock_waits (h : Waits blockID cs₀ cs) :
    wp (seeBlock L) (fun _ => Waits blockID cs₀) (Waits blockID cs₀) cs := by
  unfold seeBlock
  rw [wp_bind, wp_get]
  cases cs.votes.majority cs.round voteTypePrevote with
  | none => exact h
  | some polka =>
    simp only [wp_when, wp_modify]
    split_ifs
    · exact h.of_same rfl rfl rfl rfl rfl rfl
    · exact h

theorem blockCompleted_holds (hO : AppliesNext O) (h : Waits blockID cs₀ cs) (height : Int) :
    wp (blockCompleted L N O height) (fun _ => Holds blockID cs₀) (Holds blockID cs₀) cs := by
  unfold blockCompleted
  rw [wp_bind, wp_get, wp_bind, wp_ofOption]
  refine ⟨fun _ => .inl h, fun block _ => ?_⟩
  rw [wp_bind, wp_ofOption]
  refine ⟨fun _ => .inl h, fun header _ => ?_⟩
  rw [wp_bind]
  refine wp_mono (seeBlock_waits h) (fun _ s hs => ?_) fun _ hs => .inl hs
  -- the step is not one before the prevote
  have hlate : ¬ cs.step.ord ≤ RoundStep.propose.ord := by
    rw [h.inCommit.ord]
    decide
  rw [if_neg fun hearly => hlate hearly.1, wp_when, if_pos h.inCommit.step]
  exact tryFinalizeCommit_holds hO hs height

theorem addProposalBlockPart_holds (hO : AppliesNext O) (h : InCommit blockID cs) (height : Int) (part : Option Part) :
    wp (addProposalBlockPart L N O height part) (fun _ => Holds blockID cs) (Holds blockID cs) cs := by
  have hwaits := Waits.refl h
  unfold addProposalBlockPart
  rw [wp_bind, wp_get, wp_ite]
  split_ifs
  · exact .inl hwaits
  rw [wp_bind, wp_ofOption]
  refine ⟨fun _ => .inl hwaits, fun part _ => ?_⟩
  cases cs.proposalBlockParts with
  | none => exact .inl hwaits
  | some parts =>
    dsimp only
    rw [wp_bind, wp_ofOption]
    refine ⟨fun _ => .inl hwaits, fun res _ => ?_⟩
    rw [wp_ite]
    split_ifs
    · have hnew : Waits blockID cs ((cs.writeParts parts.addr res.1).setProposalBlock (decodeBlock L cs res.1).1) := by
        unfold ConsensusState.setProposalBlock
        split <;> exact hwaits.of_same rfl rfl rfl rfl rfl rfl
      rw [wp_bind, wp_modify, wp_when]
      split_ifs
      · exact blockCompleted_holds hO hnew height
      · exact .inl hnew
    · exact .inl (hwaits.of_same rfl rfl rfl rfl rfl rfl)

theorem seePolka_waits (h : Waits blockID cs₀ cs) (round : Int) (polka : Option BlockID) :
    wp (seePolka L round polka) (fun _ => Waits blockID cs₀) (Waits blockID cs₀) cs := by
  unfold seePolka
  cases polka with
  | none => exact h
  | some polka =>
    have hunlock : Waits blockID cs₀ cs.unlock := h.of_same rfl rfl rfl rfl rfl rfl
    simp only [wp_bind, wp_get, wp_when, wp_modify]
    split_ifs
    · exact hunlock.of_same rfl rfl rfl rfl rfl rfl
    · exact hunlock
    · exact h.of_same rfl rfl rfl rfl rfl rfl
    · exact h

/-- A prevote does not start a round unless it makes two thirds of a later one. -/
theorem addedPrevote_waits {round : Int} (h : Waits blockID cs₀ cs)
    (hstay : ∀ prevotes, cs.votes.prevotes round = some prevotes → cs.round < round →
      prevotes.hasTwoThirdsAny = false) :
    wp (addedPrevote L N O round) (fun _ => Waits blockID cs₀) (Waits blockID cs₀) cs := by
  unfold addedPrevote
  rw [wp_bind, wp_get, wp_bind, wp_ofOption]
  refine ⟨fun _ => h, fun prevotes hvotes => ?_⟩
  rw [wp_bind]
  refine wp_mono (seePolka_waits h round _) (fun _ s hs => ?_) fun _ hs => hs
  have hround : s.round = cs.round := hs.round.trans h.round.symm
  have hle : s.round ≤ round ∧ prevotes.hasTwoThirdsAny = true → round ≤ s.round := fun hskip => by
    by_contra hlt
    rw [hstay prevotes hvotes (by omega)] at hskip
    exact absurd hskip.2 (by decide)
  rw [wp_bind, wp_get, wp_ite, wp_when]
  split_ifs with hskip hmaj hpol
  · rw [wp_bind]
    exact enterNewRound_over hs.inCommit (hle hskip) (enterPrecommit_over hs.inCommit (hle hskip) hs)
  · rw [wp_bind]
    refine enterNewRound_over hs.inCommit (hle hskip) ?_
    rw [wp_bind]
    exact enterPrevote_over hs.inCommit (hle hskip) (enterPrevoteWait_over hs.inCommit (hle hskip) hs)
  · exact enterPrevote_over hs.inCommit le_rfl hs
  · exact hs

/-- A precommit starts no round unless it makes two thirds of a later one, or of this one for nil. -/
theorem addedPrecommit_waits {round : Int} (h : Waits blockID cs₀ cs) (hr : 0 ≤ cs.round)
    (hstay : ∀ precommits, cs.votes.precommits round = some precommits →
      (cs.round < round → precommits.hasTwoThirdsAny = false ∧ precommits.twoThirdsMajority = none) ∧
        (round = cs.round → ∀ id, precommits.twoThirdsMajority = some id → id.hash ≠ [])) :
    wp (addedPrecommit L N O round) (fun _ => Waits blockID cs₀) (Waits blockID cs₀) cs := by
  unfold addedPrecommit
  rw [wp_bind, wp_get, wp_bind, wp_ofOption]
  refine ⟨fun _ => h, fun precommits hvotes => ?_⟩
  obtain ⟨hlater, hnil⟩ := hstay precommits hvotes
  cases hmaj : precommits.twoThirdsMajority with
  | some id =>
    have hle : round ≤ cs.round := by
      by_contra hlt
      rw [(hlater (by omega)).2] at hmaj
      cases hmaj
    dsimp only
    rw [wp_ite]
    split_ifs with hhash
    · have hlt : round + 1 ≤ cs.round := by
        rcases lt_or_eq_of_le hle with hlt | heq
        · omega
        · exact absurd hhash (hnil heq id hmaj)
      exact enterNewRound_over h.inCommit hlt h
    · rw [wp_bind]
      refine enterNewRound_over h.inCommit hle ?_
      rw [wp_bind]
      refine enterPrecommit_over h.inCommit hle ?_
      rw [wp_bind]
      refine enterCommit_over h.inCommit ?_
      rw [wp_when, wp_bind, wp_get]
      split_ifs
      · exact enterNewRound_over h.inCommit hr h
      · exact h
  | none =>
    dsimp only
    rw [wp_when]
    split_ifs with hskip
    · have hle : round ≤ cs.round := by
        by_contra hlt
        rw [(hlater (by omega)).1] at hskip
        exact absurd hskip.2 (by decide)
      rw [wp_bind]
      refine enterNewRound_over h.inCommit hle ?_
      rw [wp_bind]
      exact enterPrecommit_over h.inCommit hle (enterPrecommitWait_over h.inCommit hle h)
    · exact h

theorem stays_of_startsRound {vote : Vote} {peerID : Bytes} {res : HeightVoteSet × Bool × Option AddVoteError}
    (h : startsRound L cs (.msg (.vote (some vote)) peerID) = false) (hheight : vote.height = cs.height)
    (hres : cs.votes.addVote L.prims L.amino vote peerID = some res) (hadded : res.2.1 = true) (votes : VoteSet)
    (hvotes : votesOf res.1 vote.type_ vote.round = some votes) :
    (cs.round < vote.round → votes.hasTwoThirdsAny = false ∧ votes.twoThirdsMajority = none) ∧
      (vote.round = cs.round → vote.type_ ≠ voteTypePrevote → ∀ id, votes.twoThirdsMajority = some id →
        id.hash ≠ []) := by
  simp only [startsRound, hheight, decide_true, Bool.true_and, hres, any_some, hadded, hvotes, Bool.or_eq_false_iff,
    Bool.and_eq_false_iff, decide_eq_false_iff_not, isSome_eq_false_iff, isNone_iff_eq_none] at h
  refine ⟨fun hlt => h.1.resolve_left (not_not.2 hlt), fun heq htype id hid hnil => ?_⟩
  have hany := (h.2.resolve_left (fun hf => hf.elim (fun hne => hne heq) fun hp => hp htype))
  rw [hid] at hany
  simp [hnil] at hany

theorem addVote_waits {vote : Vote} {peerID : Bytes} (h : InCommit blockID cs) (hr : 0 ≤ cs.round)
    (hstay : startsRound L cs (.msg (.vote (some vote)) peerID) = false) :
    wp (addVote L N O vote peerID) (fun _ => Waits blockID cs) (Waits blockID cs) cs := by
  have hwaits := Waits.refl h
  unfold addVote
  rw [wp_bind, wp_get]
  by_cases hbefore : vote.height + 1 = cs.height
  · have hstep : ¬ (cs.step = .newHeight ∧ vote.type_ = voteTypePrecommit) := by
      rw [h.step]
      exact fun hn => absurd hn.1 (by decide)
    rw [if_pos hbefore, if_neg hstep]
    exact hwaits
  by_cases hheight : vote.height = cs.height
  · rw [if_neg hbefore, if_neg (not_not.2 hheight), wp_bind, wp_ofOption]
    refine ⟨fun _ => hwaits, fun res hres => ?_⟩
    have hvotes : Waits blockID cs { cs with votes := res.1 } :=
      hwaits.votes (.addVote trivial hres)
    have hstays := stays_of_startsRound hstay hheight hres
    rw [wp_bind, wp_modify, wp_bind, wp_when]
    by_cases hadded : res.2.1 = true
    · rw [if_pos hadded, wp_ite]
      by_cases htype : vote.type_ = voteTypePrevote
      · rw [if_pos htype]
        refine addedPrevote_waits hvotes fun votes hset hlt => ((hstays hadded votes ?_).1 hlt).1
        rw [votesOf, if_pos htype]
        exact hset
      · rw [if_neg htype]
        refine addedPrecommit_waits hvotes hr fun votes hset => ?_
        have hof : votesOf res.1 vote.type_ vote.round = some votes := by
          rw [votesOf, if_neg htype]
          exact hset
        exact ⟨(hstays hadded votes hof).1, fun heq => (hstays hadded votes hof).2 heq htype⟩
    · rw [if_neg hadded]
      exact hvotes
  · rw [if_neg hbefore, if_pos hheight]
    exact hwaits

theorem handle_holds {event : Event} (ht : Timely cs) (hO : AppliesNext O) (h : InCommit blockID cs)
    (hstay : startsRound L cs event = false) :
    wp (handle L N O event) (fun _ => Holds blockID cs) (Holds blockID cs) cs := by
  have hwaits : Holds blockID cs cs := .inl (.refl h)
  cases event with
  | msg msg peerID =>
    cases msg with
    | proposal proposal =>
      change wp (handleMsg L N O (.proposal proposal) peerID) (fun _ => Holds blockID cs) (Holds blockID cs) cs
      unfold handleMsg
      rw [wp_bind, wp_get, wp_ite]
      split_ifs with hsome
      · exact hwaits
      rw [wp_bind, wp_ofOption]
      refine ⟨fun _ => hwaits, fun proposal _ => ?_⟩
      -- no proposal is taken any more
      unfold setProposal
      rw [wp_bind, wp_get, wp_ite, if_neg hsome, wp_ite, wp_ite, if_pos h.ord.ge]
      split_ifs <;> exact hwaits
    | blockPart height round part => exact addProposalBlockPart_holds hO h height part
    | vote vote =>
      change wp (handleMsg L N O (.vote vote) peerID) (fun _ => Holds blockID cs) (Holds blockID cs) cs
      unfold handleMsg tryAddVote
      rw [wp_bind, wp_ofOption]
      refine ⟨fun _ => hwaits, fun vote hvote => ?_⟩
      subst hvote
      rw [wp_bind]
      refine wp_mono (addVote_waits h ht.1 hstay) (fun err s hs => ?_) fun _ hs => .inl hs
      split
      · rw [wp_bind, wp_get, wp_when]
        split_ifs
        · exact .inl hs
        · exact .inl hs
      · exact .inl hs
  | timeout ti =>
    unfold handle
    rw [wp_bind, wp_get, wp_when]
    split_ifs with hti
    · -- a timeout of this round is of an earlier step
      have hle := ht.2 ti hti
      have hord := h.ord
      unfold handleTimeout
      rw [wp_bind, wp_get, wp_ite]
      split_ifs with hguard
      · exact hwaits
      have hstep : RoundStep.commit.ord ≤ ti.step.ord := by
        unfold Reached at hle
        omega
      cases hs : ti.step with
      | commit | prevote | precommit => exact hwaits
      | newHeight | newRound | propose | prevoteWait | precommitWait =>
        rw [hs] at hstep
        exact absurd hstep (by decide)
    · exact hwaits
  | txsAvailable height => exact enterPropose_over h ht.1 hwaits
  | peerMaj23 height round type_ peerID id =>
    unfold handle
    rw [wp_bind, wp_get, wp_when]
    split_ifs
    · exact .inl ((Waits.refl h).votes (.setPeerMaj23 round type_ peerID id))
    · exact hwaits

/-! ## Runs -/

theorem Trans.finalized_subset {E : Env} (h : Trans L E cs cs') : cs.finalized ⊆ cs'.finalized := by
  rcases h.calls with ⟨-, -, hsame, -⟩ | ⟨_, rfl⟩ | ⟨_, _, _, _, _, -, -, -, rfl, -⟩
  · rw [hsame]
    exact List.Subset.refl _
  · exact subset_append_left _ _
  · exact List.Subset.refl _

theorem NodeState.step_holds {n : NodeState} {input : Outside × Event} (ht : Timely n.cs) (hO : AppliesNext input.1)
    (h : Waits blockID cs n.cs) (hstay : StaysInCommit L cs.height n input) :
    Holds blockID cs (n.step L N input).cs := by
  have hn : Holds blockID n.cs (n.step L N input).cs := by
    unfold NodeState.step
    split_ifs
    · obtain ⟨hok, hpanic⟩ := exec_of_wp (handle_holds (N := N) ht hO h.inCommit (hstay h.height h.inCommit.step))
      cases hb : (exec (handle L N input.1 input.2) n.cs).2 with
      | true => exact hok hb
      | false => exact hpanic hb
    · exact .inl (.refl h.inCommit)
  rcases hn with hw | hm
  · exact .inl ⟨hw.inCommit, hw.height.trans h.height, hw.round.trans h.round, hw.signed.trans h.signed⟩
  · refine .inr ⟨by rw [hm.height, h.height], ?_, hm.signed.trans h.signed⟩
    obtain ⟨fin, hfin, hheight, hid⟩ := hm.finalized
    exact ⟨fin, hfin, hheight.trans h.height, hid⟩

theorem MovesOn.isPast (h : MovesOn blockID cs cs') : IsPast blockID cs cs' where
  height := by
    rw [h.height]
    omega
  finalized := h.finalized
  signed e he _ := h.signed ▸ he

theorem NodeState.step_isPast {n : NodeState} {input : Outside × Event} (ht : Timely n.cs)
    (h : IsPast blockID cs n.cs) :
    IsPast blockID cs (n.step L N input).cs := by
  have hchain : Relation.ReflTransGen (Trans L Env.any) n.cs (n.step L N input).cs :=
    NodeState.step_chain ht (fun _ _ _ _ _ => trivial) (Env.any_admits input.2)
  have hsub : n.cs.finalized ⊆ (n.step L N input).cs.finalized :=
    chain_inv (I := fun s => n.cs.finalized ⊆ s.finalized)
      (fun _ _ hst hs => List.Subset.trans hs hst.finalized_subset) hchain
      (List.Subset.refl _)
  have hclock : ClockLe n.cs (n.step L N input).cs ∧
      ∀ e ∈ (n.step L N input).cs.signed, e ∈ n.cs.signed ∨ SignedVote.Timed e ∧ n.cs.height ≤ e.height := by
    unfold NodeState.step
    split_ifs
    · exact clock_of_ticks (handle_ticks input.2).exec
    · exact ⟨.refl _, fun _ he => .inl he⟩
  have hlt := h.height
  refine ⟨?_, ?_, fun e he heq => ?_⟩
  · have hle := hclock.1
    unfold ClockLe at hle
    omega
  · obtain ⟨fin, hfin, hid⟩ := h.finalized
    exact ⟨fin, hsub hfin, hid⟩
  · rcases hclock.2 e he with hold | ⟨htimed, hle⟩
    · exact h.signed e hold heq
    · have hheight := htimed.1
      omega

/-- As long as no two thirds of a later round, or of nil precommits, arrive, the node stays in the commit step, signs
nothing, and moves on with the block. -/
theorem waits_for_block (L : Platform) (N : Node) {state : ChainState} {lastCommit : Option VoteSet}
    {pv : Option FilePV} {start : ConsensusState}
    (hstart : ConsensusState.newConsensusState state lastCommit pv = some start)
    (before after : List (Outside × Event)) {n : NodeState} (hn : n = NodeState.run L N ⟨start, true⟩ before)
    (hcommit : InCommit blockID n.cs) (happ : ∀ input ∈ after, AppliesNext input.1)
    (hstay : Along (NodeState.step L N) (StaysInCommit L n.cs.height) n after) :
    (∀ pre, pre <+: after → Waits blockID n.cs (n.run L N pre).cs ∨ IsPast blockID n.cs (n.run L N pre).cs) ∧
      ∀ pre input, pre ++ [input] <+: after → Waits blockID n.cs (n.run L N pre).cs →
        Holds blockID n.cs (n.run L N (pre ++ [input])).cs := by
  have hinv : NodeInv L Env.any n.cs := by
    rw [hn]
    exact NodeState.run_inv (nodeInv_new hstart) before
  have hruns : ∀ pre, NodeInv L Env.any (n.run L N pre).cs := fun pre => NodeState.run_inv hinv pre
  have hstep : ∀ pre input, pre ++ [input] <+: after → Waits blockID n.cs (n.run L N pre).cs →
      Holds blockID n.cs (n.run L N (pre ++ [input])).cs := by
    intro pre input hpre hw
    have hmem : input ∈ after := hpre.subset (by simp)
    rw [NodeState.run, foldl_append]
    exact NodeState.step_holds (hruns pre).timely (happ input hmem) hw (hstay.at_input hpre)
  refine ⟨fun pre hpre => ?_, hstep⟩
  -- along the run, one event after the other
  induction pre using List.reverseRecOn with
  | nil => exact .inl (.refl hcommit)
  | append_singleton pre input ih =>
    rcases ih ((prefix_append pre [input]).trans hpre) with hw | hp
    · exact (hstep pre input hpre hw).imp_right MovesOn.isPast
    · rw [NodeState.run, foldl_append]
      exact .inr (NodeState.step_isPast (hruns pre).timely hp)

/-! ## A node without the block -/

namespace Fork

/-- The precommits of the others for a block that node 0 does not have. -/
def missing : List (Outside × Event) :=
  [timeout 0 .newHeight, precommit 0 idA 1, precommit 0 idA 2, precommit 0 idA 3].map (outside, ·)

def waiting : NodeState := NodeState.run .plain (node 0) ⟨startState, true⟩ missing

/-- A notice of transactions, which is ignored, and the parts of the block. -/
def arriving : List (Outside × Event) :=
  (.txsAvailable 1 :: (parts 0 1000).parts.map fun part => .msg (.blockPart 1 0 part) []).map (outside, ·)

def skipping : List (Outside × Event) := [prevote 1 .empty 1, prevote 1 .empty 2, prevote 1 .empty 3].map (outside, ·)

end Fork

open Fork

theorem waits_for_block_zero :
    ConsensusState.newConsensusState state none (some ⟨0, 0, 0, none, none⟩) = some startState ∧
      (waiting.run .plain (node 0) arriving).cs.height = 2 ∧
      IsPast idA waiting.cs (waiting.run .plain (node 0) arriving).cs := by
  have hcommit : InCommit idA waiting.cs := ⟨by decide +kernel, by decide +kernel, by decide +kernel⟩
  have happ : ∀ input ∈ arriving, AppliesNext input.1 := by
    intro input hinput
    obtain ⟨event, _, rfl⟩ := List.mem_map.1 hinput
    intro state blockID block state' h
    cases h
    rfl
  have hheight : (waiting.run .plain (node 0) arriving).cs.height = 2 := by decide +kernel
  have hn : waiting = NodeState.run .plain (node 0) ⟨startState, true⟩ missing := by
    rw [waiting]
  have hstay : Along (NodeState.step .plain (node 0)) (StaysInCommit .plain waiting.cs.height) waiting
      arriving := by decide +kernel
  have h := (waits_for_block .plain (node 0) start_eq missing arriving hn hcommit happ hstay).1
    arriving (prefix_refl _)
  refine ⟨start_eq, hheight, h.resolve_left fun hw => ?_⟩
  have heq : (waiting.run .plain (node 0) arriving).cs.height = waiting.cs.height := hw.height
  rw [hheight] at heq
  exact absurd heq (by decide +kernel)

theorem leaves_commit :
    (waiting.cs.step, waiting.cs.round, waiting.cs.votes.majority 0 voteTypePrecommit) =
        (.commit, 0, some idA) ∧
      ((waiting.run .plain (node 0) skipping).cs.height,
          (waiting.run .plain (node 0) skipping).cs.round,
          (waiting.run .plain (node 0) skipping).cs.step) = (1, 1, .precommit) ∧
      ((waiting.run .plain (node 0) skipping).cs.signed.drop waiting.cs.signed.length).map
        (fun e => (e.vote.type_, e.vote.height, e.vote.round)) = [(voteTypePrecommit, 1, 1)] := by
  decide +kernel

end Demars.Consensus
