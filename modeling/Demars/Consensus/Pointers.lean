import Demars.Consensus.Transitions

/-!
# The blocks of a round

Decoding a block overwrites the block that `ProposalBlock` points to, and the lock may hold the same pointer.
`Pointers` is the invariant that keeps the lock intact: a proposal block comes with complete parts until the node
precommits, so does a locked block, and while the two are one block no part can be added.
-/

namespace Demars.Consensus

open ConsensusState (startHeight startRound unlock newProposalParts writeParts writeBlock)

/-- The block with all its parts, from which it may have been decoded. -/
def Whole (E : Env) (block : Ref Block) (parts : Option (Ref PartSet)) : Prop :=
  ∃ ps, parts = some ps ∧ ps.val.isComplete = true ∧ E.block ps.val.header block.val

/-- The lock is intact, whatever the two pointers share. -/
structure Pointers (E : Env) (cs : ConsensusState) : Prop where
  blockAddr : ∀ b, cs.proposalBlock = some b ∨ cs.lockedBlock = some b → b.addr < cs.nextRef
  partsOk : ∀ p, cs.proposalBlockParts = some p ∨ cs.lockedBlockParts = some p → p.addr < cs.nextRef ∧ p.val.Wf
  aliased : ∀ p q, cs.proposalBlockParts = some p → cs.lockedBlockParts = some q → p.addr = q.addr → p.val = q.val
  expected : cs.step.ord < RoundStep.precommit.ord → cs.proposal = none → cs.proposalBlockParts = none
  proposed : cs.step.ord < RoundStep.precommit.ord → ∀ b, cs.proposalBlock = some b → Whole E b cs.proposalBlockParts
  locked : ∀ b, cs.lockedBlock = some b → Whole E b cs.lockedBlockParts
  shared : ∀ b l, cs.proposalBlock = some b → cs.lockedBlock = some l → b.addr = l.addr →
    (∃ p, cs.proposalBlockParts = some p ∧ p.val.isComplete = true) ∧ (cs.proposal ≠ none ∨ cs.step = .commit)

variable {L : Platform} {E : Env} {cs cs' : ConsensusState}

/-- The fields that the invariant reads. -/
structure SamePointers (cs cs' : ConsensusState) : Prop where
  proposal : cs'.proposal = cs.proposal
  proposalBlock : cs'.proposalBlock = cs.proposalBlock
  proposalBlockParts : cs'.proposalBlockParts = cs.proposalBlockParts
  lockedBlock : cs'.lockedBlock = cs.lockedBlock
  lockedBlockParts : cs'.lockedBlockParts = cs.lockedBlockParts
  nextRef : cs'.nextRef = cs.nextRef

theorem Signed.samePointers {type_ : UInt8} {blockID : BlockID} (h : Signed type_ blockID cs cs') :
    SamePointers cs cs' := by
  obtain ⟨_, _, _, rfl, _⟩ := h
  exact ⟨rfl, rfl, rfl, rfl, rfl, rfl⟩

theorem SamePointers.withStep (h : SamePointers cs cs') (round : Int) (step : RoundStep) :
    SamePointers cs { cs' with round, step } := ⟨h.1, h.2, h.3, h.4, h.5, h.6⟩

theorem Refetches.withStep {header : PartSetHeader} (h : Refetches header cs cs') (step : RoundStep) :
    Refetches header { cs with step } { cs' with step } := by
  rcases h with rfl | ⟨parts, hparts, rfl⟩
  · exact .inl rfl
  · exact .inr ⟨parts, hparts, rfl⟩

namespace Pointers

section

variable (h : Pointers E cs)
include h

theorem later (hs : SamePointers cs cs')
    (hstep : cs.step = cs'.step ∨ cs.step.ord < cs'.step.ord ∧ cs'.step.ord ≤ RoundStep.commit.ord) :
    Pointers E cs' := by
  obtain ⟨h1, h2, h3, h4, h5, h6⟩ := hs
  have hle : cs'.step.ord < RoundStep.precommit.ord → cs.step.ord < RoundStep.precommit.ord := fun hlt => by
    rcases hstep with he | hl
    · rwa [he]
    · omega
  refine ⟨?_, ?_, ?_, fun hlt => ?_, fun hlt => ?_, ?_, fun b l hb hl ha => ?_⟩
  · rw [h2, h4, h6]
    exact h.blockAddr
  · rw [h3, h5, h6]
    exact h.partsOk
  · rw [h3, h5]
    exact h.aliased
  · rw [h1, h3]
    exact h.expected (hle hlt)
  · rw [h2, h3]
    exact h.proposed (hle hlt)
  · rw [h4, h5]
    exact h.locked
  · obtain ⟨hc, hp⟩ := h.shared b l (h2 ▸ hb) (h4 ▸ hl) ha
    rw [h1, h3]
    refine ⟨hc, hp.imp_right fun he => ?_⟩
    rcases hstep with hs | hs
    · exact hs ▸ he
    · rw [he] at hs
      omega

/-- Only what is asked of decoded blocks matters of the environment. -/
theorem of_block {E' : Env} (hE : ∀ header block, E.block header block → E'.block header block) : Pointers E' cs where
  blockAddr := h.blockAddr
  partsOk := h.partsOk
  aliased := h.aliased
  expected := h.expected
  proposed hstep b hb := by
    obtain ⟨p, hp, hc, hblock⟩ := h.proposed hstep b hb
    exact ⟨p, hp, hc, hE _ _ hblock⟩
  locked b hb := by
    obtain ⟨p, hp, hc, hblock⟩ := h.locked b hb
    exact ⟨p, hp, hc, hE _ _ hblock⟩
  shared := h.shared

theorem unlock : Pointers E cs.unlock where
  blockAddr b hb := h.blockAddr b (hb.imp_right fun hn => nomatch hn)
  partsOk p hp := h.partsOk p (hp.imp_right fun hn => nomatch hn)
  aliased _ _ _ hn := nomatch hn
  expected := h.expected
  proposed := h.proposed
  locked _ hn := nomatch hn
  shared _ _ _ hn := nomatch hn

theorem refetch {header : PartSetHeader} (hf : Refetches header cs cs')
    (hstep : RoundStep.precommit.ord ≤ cs'.step.ord) : Pointers E cs' := by
  have hearly : ¬ cs'.step.ord < RoundStep.precommit.ord := by omega
  have hnone : cs'.proposalBlock = none := by rcases hf with rfl | ⟨_, _, rfl⟩ <;> rfl
  have hlocked : cs'.lockedBlock = cs.lockedBlock := by rcases hf with rfl | ⟨_, _, rfl⟩ <;> rfl
  have hshared : ∀ {P : Prop} (b : Ref Block), cs'.proposalBlock = some b → P := fun b hb => by
    rw [hnone] at hb
    cases hb
  have hblock : ∀ b, cs'.proposalBlock = some b ∨ cs'.lockedBlock = some b → b.addr < cs.nextRef := fun b hb => by
    rw [hnone, hlocked] at hb
    exact h.blockAddr b (.inr (hb.resolve_left fun hn => nomatch hn))
  rcases hf with rfl | ⟨parts, hparts, rfl⟩
  · exact ⟨hblock, h.partsOk, h.aliased, fun hlt => absurd hlt hearly, fun hlt => absurd hlt hearly, h.locked,
      fun b _ hb => hshared b hb⟩
  · refine ⟨fun b hb => (hblock b hb).trans (Nat.lt_succ_self _), fun p hp => ?_, fun p q hp hq ha => ?_,
      fun hlt => absurd hlt hearly, fun hlt => absurd hlt hearly, h.locked, fun b _ hb => hshared b hb⟩
    · rcases hp with hp | hp
      · cases hp
        exact ⟨Nat.lt_succ_self _, PartSet.wf_newPartSetFromHeader hparts⟩
      · have hold := h.partsOk p (.inr hp)
        exact ⟨hold.1.trans (Nat.lt_succ_self _), hold.2⟩
    · cases hp
      exact absurd ha (Nat.ne_of_gt (h.partsOk q (.inr hq)).1)

theorem lock (hstep : cs.step.ord < RoundStep.precommit.ord) (round : Int) : Pointers E { cs with
    lockedRound := round, lockedBlock := cs.proposalBlock, lockedBlockParts := cs.proposalBlockParts } where
  blockAddr b hb := h.blockAddr b (.inl (hb.elim id id))
  partsOk p hp := h.partsOk p (.inl (hp.elim id id))
  aliased p q hp hq _ := by
    cases Option.some.inj (hp.symm.trans hq)
    rfl
  expected := h.expected
  proposed := h.proposed
  locked := h.proposed hstep
  shared b l hb _ _ := by
    obtain ⟨p, hp, hc, _⟩ := h.proposed hstep b hb
    refine ⟨⟨p, hp, hc⟩, .inl fun hn => ?_⟩
    rw [h.expected hstep hn] at hp
    cases hp

theorem precommit (hstep : cs.step.ord < RoundStep.precommit.ord) (hp : Precommits L cs cs')
    (round : Int) : Pointers E { cs' with round, step := .precommit } := by
  have hlater : RoundStep.precommit.ord ≤ RoundStep.commit.ord := by decide
  cases hp with
  | nil hs => exact h.later (hs.samePointers.withStep _ _) (.inr ⟨hstep, hlater⟩)
  | relock _ _ hs =>
    have h₁ : Pointers E { cs with lockedRound := cs.round } := ⟨h.1, h.2, h.3, h.4, h.5, h.6, h.7⟩
    exact h₁.later (hs.samePointers.withStep _ _) (.inr ⟨hstep, hlater⟩)
  | lock _ _ hs => exact (h.lock hstep cs.round).later (hs.samePointers.withStep _ _) (.inr ⟨hstep, hlater⟩)
  | @release _ cs₁ _ _ hun hs =>
    rcases hun with rfl | hun
    · exact h.unlock.later (hs.samePointers.withStep _ _) (.inr ⟨hstep, hlater⟩)
    · have h₁ : Pointers E { cs.unlock with step := .precommit } :=
        h.unlock.later ⟨rfl, rfl, rfl, rfl, rfl, rfl⟩ (.inr ⟨hstep, hlater⟩)
      have h₂ : Pointers E { cs₁ with step := .precommit } := h₁.refetch (hun.withStep .precommit) le_rfl
      have hs' := hs.samePointers
      exact h₂.later ⟨hs'.1, hs'.2, hs'.3, hs'.4, hs'.5, hs'.6⟩ (.inl rfl)

theorem commit (hstep : cs.step.ord < RoundStep.commit.ord) (ha : Adopts cs cs') (commitRound : Int) :
    Pointers E { cs' with step := .commit, commitRound } := by
  have hnot : ¬ RoundStep.commit.ord < RoundStep.precommit.ord := by decide
  cases ha with
  | none => exact h.later ⟨rfl, rfl, rfl, rfl, rfl, rfl⟩ (.inr ⟨hstep, le_rfl⟩)
  | locked =>
    refine ⟨fun b hb => h.blockAddr b (.inr (hb.elim id id)), fun p hp => h.partsOk p (.inr (hp.elim id id)), ?_,
      fun hlt => absurd hlt hnot, fun hlt => absurd hlt hnot, h.locked, fun b l hb _ _ => ?_⟩
    · intro p q hp hq _
      cases Option.some.inj (hp.symm.trans hq)
      rfl
    · obtain ⟨p, hp, hc, _⟩ := h.locked b hb
      exact ⟨⟨p, hp, hc⟩, .inr rfl⟩
  | refetch header hf =>
    have h₁ : Pointers E { cs with step := .commit } := h.later ⟨rfl, rfl, rfl, rfl, rfl, rfl⟩ (.inr ⟨hstep, le_rfl⟩)
    have h₂ : Pointers E { cs' with step := .commit } := h₁.refetch (hf.withStep .commit) (Nat.le_of_not_lt hnot)
    exact h₂.later ⟨rfl, rfl, rfl, rfl, rfl, rfl⟩ (.inl rfl)

theorem propose (hnone : cs.proposal = none) (hearly : cs.step.ord < RoundStep.commit.ord) {proposal : Proposal}
    {parts : PartSet} (hparts : PartSet.newPartSetFromHeader proposal.blockPartsHeader = some parts) :
    Pointers E (newProposalParts parts { cs with proposal := some proposal }) where
  blockAddr b hb := (h.blockAddr b hb).trans (Nat.lt_succ_self _)
  partsOk p hp := by
    rcases hp with hp | hp
    · cases hp
      exact ⟨Nat.lt_succ_self _, PartSet.wf_newPartSetFromHeader hparts⟩
    · have hold := h.partsOk p (.inr hp)
      exact ⟨hold.1.trans (Nat.lt_succ_self _), hold.2⟩
  aliased p q hp hq ha := by
    cases hp
    exact absurd ha (Nat.ne_of_gt (h.partsOk q (.inr hq)).1)
  expected _ hp := nomatch hp
  proposed hstep b hb := by
    obtain ⟨p, hp, _⟩ := h.proposed hstep b hb
    rw [h.expected hstep hnone] at hp
    cases hp
  locked := h.locked
  shared b l hb hl ha := by
    obtain ⟨_, hp | hc⟩ := h.shared b l hb hl ha
    · exact absurd hnone hp
    · rw [hc] at hearly
      exact absurd hearly (lt_irrefl _)

end

section

variable {parts : Ref PartSet} {part : Part} {res : PartSet × Bool × Option PartSetError}

section

variable (h : Pointers E cs) (hparts : cs.proposalBlockParts = some parts)
  (hadd : parts.val.addPart L.prims part = some res)
include h hparts hadd

theorem unchanged (hc : parts.val.isComplete = true) : res.1 = parts.val :=
  ((h.partsOk parts (.inl hparts)).2.addPart_of_isComplete hc hadd).2

theorem incomplete (hadded : res.2.1 = true) : ¬ parts.val.isComplete = true := by
  intro hc
  have hnot := ((h.partsOk parts (.inl hparts)).2.addPart_of_isComplete hc hadd).1
  rw [hnot] at hadded
  cases hadded

theorem lockedParts_eq {l : Ref Block} (hl : cs.lockedBlock = some l) :
    (writeParts parts.addr res.1 cs).lockedBlockParts = cs.lockedBlockParts := by
  obtain ⟨q, hq, hc, _⟩ := h.locked l hl
  show cs.lockedBlockParts.map (Ref.write parts.addr res.1) = _
  rw [hq, Option.map_some]
  unfold Ref.write
  split_ifs with ha
  · have hval := h.aliased parts q hparts hq ha.symm
    rw [h.unchanged hparts hadd (hval ▸ hc), hval]
  · rfl

end

theorem proposalBlockParts_writeParts (hparts : cs.proposalBlockParts = some parts) (ps : PartSet) :
    (writeParts parts.addr ps cs).proposalBlockParts = some { parts with val := ps } := by
  show cs.proposalBlockParts.map (Ref.write parts.addr ps) = _
  simp [hparts, Ref.write]

theorem addPart (h : Pointers E cs) (hparts : cs.proposalBlockParts = some parts)
    (hadd : parts.val.addPart L.prims part = some res) : Pointers E (writeParts parts.addr res.1 cs) := by
  have hnew := proposalBlockParts_writeParts hparts res.1
  have hsame : parts.val.isComplete = true → (writeParts parts.addr res.1 cs).proposalBlockParts = some parts :=
    fun hc => by rw [hnew, h.unchanged hparts hadd hc]
  have hwf : res.1.Wf := (h.partsOk parts (.inl hparts)).2.addPart hadd
  refine ⟨h.blockAddr, fun p hp => ?_, fun p q hp hq ha => ?_, fun hstep hn => ?_, fun hstep b hb => ?_, fun l hl => ?_,
    fun b l hb hl ha => ?_⟩
  · rcases hp with hp | hp
    · rw [hnew] at hp
      cases hp
      exact ⟨(h.partsOk parts (.inl hparts)).1, hwf⟩
    · obtain ⟨q, hq, rfl⟩ := Option.map_eq_some_iff.1 hp
      have hold := h.partsOk q (.inr hq)
      unfold Ref.write
      split_ifs
      · exact ⟨hold.1, hwf⟩
      · exact hold
  · rw [hnew] at hp
    cases hp
    obtain ⟨q, _, rfl⟩ := Option.map_eq_some_iff.1 hq
    unfold Ref.write at ha ⊢
    split_ifs at ha ⊢ with he
    · rfl
    · exact absurd ha.symm he
  · have hnone := h.expected hstep hn
    rw [hparts] at hnone
    cases hnone
  · obtain ⟨p, hp, hc, hE⟩ := h.proposed hstep b hb
    cases Option.some.inj (hparts.symm.trans hp)
    exact ⟨parts, hsame hc, hc, hE⟩
  · rw [h.lockedParts_eq hparts hadd hl]
    exact h.locked l hl
  · obtain ⟨⟨p, hp, hc⟩, hor⟩ := h.shared b l hb hl ha
    cases Option.some.inj (hparts.symm.trans hp)
    exact ⟨⟨parts, hsame hc, hc⟩, hor⟩

theorem locked_setProposalBlock (hne : ∀ b l, cs.proposalBlock = some b → cs.lockedBlock = some l → b.addr ≠ l.addr)
    (block : Option Block) : (cs.setProposalBlock block).lockedBlock = cs.lockedBlock := by
  unfold ConsensusState.setProposalBlock
  split
  · rfl
  · rename_i ref hb
    show cs.lockedBlock.map (Ref.write ref.addr _) = _
    cases hl : cs.lockedBlock with
    | none => rfl
    | some l =>
      have := hne ref l hb hl
      simp [Ref.write, this.symm]
  · rfl

variable {block : Option Block}

/-- The block that was decoded is behind a pointer of its own or behind the old one. -/
theorem proposalBlock_setProposalBlock (h : Pointers E cs) {b : Ref Block}
    (hne : ∀ b l, cs.proposalBlock = some b → cs.lockedBlock = some l → b.addr ≠ l.addr)
    (hb : (cs.setProposalBlock block).proposalBlock = some b) :
    block = some b.val ∧ b.addr < (cs.setProposalBlock block).nextRef ∧ ∀ l, cs.lockedBlock = some l →
    b.addr ≠ l.addr := by
  unfold ConsensusState.setProposalBlock at hb ⊢
  split at hb
  · cases hb
  · rename_i new ref href
    obtain ⟨old, hold, rfl⟩ := Option.map_eq_some_iff.1 hb
    cases Option.some.inj (href.symm.trans hold)
    simp only [Ref.write, if_true]
    exact ⟨trivial, h.blockAddr ref (.inl href), fun l => hne ref l href⟩
  · cases hb
    refine ⟨rfl, Nat.lt_succ_self _, fun l hl => ?_⟩
    exact Nat.ne_of_gt (h.blockAddr l (.inr hl))

theorem setProposalBlock (h : Pointers E cs) {ps : Ref PartSet} (hparts : cs.proposalBlockParts = some ps)
    (hc : ps.val.isComplete = true) (hE : ∀ b, block = some b → E.block ps.val.header b)
    (hne : ∀ b l, cs.proposalBlock = some b → cs.lockedBlock = some l → b.addr ≠ l.addr) :
    Pointers E (cs.setProposalBlock block) := by
  have hlocked := locked_setProposalBlock hne block
  have hnew : ∀ b, (cs.setProposalBlock block).proposalBlock = some b → _ := fun b hb =>
    h.proposalBlock_setProposalBlock hne hb
  have hsame : (cs.setProposalBlock block).proposalBlockParts = cs.proposalBlockParts ∧
      (cs.setProposalBlock block).lockedBlockParts = cs.lockedBlockParts ∧
      (cs.setProposalBlock block).proposal = cs.proposal ∧ (cs.setProposalBlock block).step = cs.step ∧
      cs.nextRef ≤ (cs.setProposalBlock block).nextRef := by
    unfold ConsensusState.setProposalBlock
    split
    · exact ⟨rfl, rfl, rfl, rfl, le_rfl⟩
    · exact ⟨rfl, rfl, rfl, rfl, le_rfl⟩
    · exact ⟨rfl, rfl, rfl, rfl, Nat.le_succ _⟩
  obtain ⟨hp, hlp, hprop, hstep, hnext⟩ := hsame
  refine ⟨fun b hb => ?_, fun p hpp => ?_, ?_, ?_, fun _ b hb => ?_, ?_, fun b l hb hl ha => ?_⟩
  · rcases hb with hb | hb
    · exact (hnew b hb).2.1
    · exact (h.blockAddr b (.inr (hlocked ▸ hb))).trans_le hnext
  · rw [hp, hlp] at hpp
    have hold := h.partsOk p hpp
    exact ⟨hold.1.trans_le hnext, hold.2⟩
  · rw [hp, hlp]
    exact h.aliased
  · rw [hp, hprop, hstep]
    exact h.expected
  · rw [hp]
    exact ⟨ps, hparts, hc, hE b.val (hnew b hb).1⟩
  · rw [hlocked, hlp]
    exact h.locked
  · exact absurd ha ((hnew b hb).2.2 l (hlocked ▸ hl))

section

variable (h : Pointers E cs) (hparts : cs.proposalBlockParts = some parts)
  (hadd : parts.val.addPart L.prims part = some res)
include h hparts hadd

theorem ne_locked (hadded : res.2.1 = true) (b l : Ref Block)
    (hb : cs.proposalBlock = some b) (hl : cs.lockedBlock = some l) : b.addr ≠ l.addr := by
  intro ha
  obtain ⟨⟨p, hp, hc⟩, _⟩ := h.shared b l hb hl ha
  cases Option.some.inj (hparts.symm.trans hp)
  exact h.incomplete hparts hadd hadded hc

theorem locked_completePart (hadded : res.2.1 = true) (block : Option Block) :
    ((writeParts parts.addr res.1 cs).setProposalBlock block).lockedBlock = cs.lockedBlock := by
  have hne : ∀ b l, (writeParts parts.addr res.1 cs).proposalBlock = some b →
      (writeParts parts.addr res.1 cs).lockedBlock = some l → b.addr ≠ l.addr := h.ne_locked hparts hadd hadded
  exact locked_setProposalBlock hne block

theorem completePart (hc : res.2.1 = true ∧ res.1.isComplete = true)
    (hE : ∀ b, block = some b → E.block res.1.header b) :
    Pointers E ((writeParts parts.addr res.1 cs).setProposalBlock block) := by
  exact (h.addPart hparts hadd).setProposalBlock (proposalBlockParts_writeParts hparts res.1) hc.2 hE
    (h.ne_locked hparts hadd hc.1)

end

end

end Pointers

theorem Trans.pointers (ht : Trans L E cs cs') (hr : 0 ≤ cs.round) (h : Pointers E cs) : Pointers E cs' := by
  have hle : ∀ step : RoundStep, step.ord ≤ RoundStep.commit.ord := fun step => by cases step <;> decide
  cases ht with
  | idle hi => cases hi <;> exact h.later ⟨rfl, rfl, rfl, rfl, rfl, rfl⟩ (.inl rfl)
  | @newRound round validators later =>
    unfold startRound
    split_ifs with hne
    · exact ⟨fun b hb => h.blockAddr b (.inr (hb.resolve_left fun hn => nomatch hn)),
        fun p hp => h.partsOk p (.inr (hp.resolve_left fun hn => nomatch hn)), fun _ _ hp => (nomatch hp),
          fun _ _ => rfl,
        fun _ _ hb => (nomatch hb), h.locked, fun _ _ hb => (nomatch hb)⟩
    · have hnew : cs.step.ord < RoundStep.newRound.ord := by
        rcases later with hlt | ⟨_, hs⟩
        · omega
        · rw [hs]
          decide
      exact h.later ⟨rfl, rfl, rfl, rfl, rfl, rfl⟩ (.inr ⟨hnew, hle _⟩)
  | enter later _ => exact h.later ⟨rfl, rfl, rfl, rfl, rfl, rfl⟩ (.inr ⟨later, hle _⟩)
  | votes | finalize => exact h.later ⟨rfl, rfl, rfl, rfl, rfl, rfl⟩ (.inl rfl)
  | prevote later _ hs => exact h.later (hs.samePointers.withStep _ _) (.inr ⟨later, hle _⟩)
  | precommit later hp => exact h.precommit later hp _
  | unlock => exact h.unlock
  | commit later ha => exact h.commit later ha _
  | nextHeight =>
    exact ⟨fun b hb => (hb.elim (fun hn => nomatch hn) fun hn => nomatch hn),
      fun p hp => (hp.elim (fun hn => nomatch hn) fun hn => nomatch hn), fun _ _ hp => (nomatch hp), fun _ _ => rfl,
      fun _ _ hb => (nomatch hb), fun _ hl => (nomatch hl), fun _ _ hb => (nomatch hb)⟩
  | propose hnone hearly hp =>
    rcases hp with rfl | ⟨parts, hparts, rfl⟩
    · exact ⟨h.blockAddr, h.partsOk, h.aliased, fun _ hn => (nomatch hn), h.proposed, h.locked,
        fun b l hb hl ha => ⟨(h.shared b l hb hl ha).1, .inl fun hn => nomatch hn⟩⟩
    · exact h.propose hnone hearly hparts
  | addPart hparts hadd _ => exact h.addPart hparts hadd
  | completePart hparts hadd hc hE => exact h.completePart hparts hadd hc hE

end Demars.Consensus
