import Demars.Consensus.Proposals

/-!
# Blocks and their parts

`ProposalBlock`, `LockedBlock` and `ValidBlock` each have a part set beside them, from which the block was decoded.
`Together` says so of all three.
-/

namespace Demars.Consensus

open Handler Runs List Option
open ConsensusState (startHeight startRound unlock newProposalParts writeParts)

/-- The block that the bytes of a part set decode to, with its header filled in. -/
def readBlock (L : Platform) (state : ChainState) (bz : Bytes) : Option Block :=
  match L.blocks.unmarshalBlock state.consensusParams.blockMaxBytes none bz with
  | (block, true) => block.map (Block.fillHeader L.prims)
  | (_, false) => none

/-- Where there is a block, its parts are all there and decode to it. -/
def Paired (L : Platform) (state : ChainState) (block : Option (Ref Block)) (parts : Option (Ref PartSet)) : Prop :=
  ∀ b ∈ block, ∃ ps ∈ parts, ps.val.isComplete = true ∧ readBlock L state ps.val.data = some b.val

instance (L : Platform) (state : ChainState) (block : Option (Ref Block)) (parts : Option (Ref PartSet)) :
    Decidable (Paired L state block parts) := by
  unfold Paired
  infer_instance

/-- Proposal, locked and valid block have their parts. -/
structure Together (L : Platform) (cs : ConsensusState) : Prop where
  proposal : Paired L cs.state cs.proposalBlock cs.proposalBlockParts
  locked : Paired L cs.state cs.lockedBlock cs.lockedBlockParts
  valid : Paired L cs.state cs.validBlock cs.validBlockParts

instance (L : Platform) (cs : ConsensusState) : Decidable (Together L cs) :=
  decidable_of_iff (Paired L cs.state cs.proposalBlock cs.proposalBlockParts ∧
      Paired L cs.state cs.lockedBlock cs.lockedBlockParts ∧ Paired L cs.state cs.validBlock cs.validBlockParts)
    ⟨fun h => ⟨h.1, h.2.1, h.2.2⟩, fun h => ⟨h.1, h.2, h.3⟩⟩

/-- The part set of an accepted proposal suits the proposal block: there is none, or the set is complete without a
part and decodes to it. -/
def SuitsBlock (L : Platform) (cs : ConsensusState) (proposal : Proposal) : Prop :=
  Accepts cs proposal → ∀ parts ∈ PartSet.newPartSetFromHeader proposal.blockPartsHeader,
    ∀ b ∈ cs.proposalBlock, parts.isComplete = true ∧ readBlock L cs.state parts.data = some b.val

def Readable (L : Platform) (cs : ConsensusState) (parts : PartSet) : Prop :=
  (decodeBlock L cs parts).2 = true ∨ (decodeBlock L cs parts).1 = none

instance (L : Platform) (cs : ConsensusState) (proposal : Proposal) : Decidable (SuitsBlock L cs proposal) := by
  unfold SuitsBlock
  infer_instance

instance (L : Platform) (cs : ConsensusState) (parts : PartSet) : Decidable (Readable L cs parts) := by
  unfold Readable
  infer_instance

def KeepsPairs (L : Platform) (n : NodeState) (input : Outside × Event) : Prop :=
  n.running = true → (∀ proposal ∈ input.2.proposals, SuitsBlock L n.cs proposal) ∧
    ∀ parts ∈ completes L n.cs input.2, Readable L n.cs parts

instance (L : Platform) (n : NodeState) (input : Outside × Event) : Decidable (KeepsPairs L n input) := by
  unfold KeepsPairs
  infer_instance

variable {L : Platform} {E : Env} {N : Node} {O : Outside} {cs cs' : ConsensusState}

/-! ## What is behind the pointers -/

def pairs (cs : ConsensusState) : List (Option (Ref Block) × Option (Ref PartSet)) :=
  [(cs.proposalBlock, cs.proposalBlockParts), (cs.lockedBlock, cs.lockedBlockParts),
    (cs.validBlock, cs.validBlockParts)]

variable {R : ChainState → PartSet → Block → Prop}

/-- Each block is beside complete parts that it is related to, and one address is one part set. -/
structure PairInv (R : ChainState → PartSet → Block → Prop) (cs : ConsensusState) : Prop where
  paired : ∀ x ∈ pairs cs, ∀ b ∈ x.1, ∃ ps ∈ x.2, ps.val.isComplete = true ∧ R cs.state ps.val b.val
  sets : ∀ x ∈ pairs cs, ∀ p, x.2 = some p → p.addr < cs.nextRef ∧ p.val.Wf
  aliased : ∀ x ∈ pairs cs, ∀ y ∈ pairs cs, ∀ p q, x.2 = some p → y.2 = some q → p.addr = q.addr → p.val = q.val

namespace PairInv

/-- A pair that was there, without its block or without both. -/
def From (cs : ConsensusState) (x : Option (Ref Block) × Option (Ref PartSet)) : Prop :=
  (∃ y ∈ pairs cs, x.2 = y.2 ∧ (x.1 = none ∨ x.1 = y.1)) ∨ x = (none, none)

variable {x : Option (Ref Block) × Option (Ref PartSet)}

theorem From.self (h : x ∈ pairs cs) : From cs x :=
  .inl ⟨x, h, rfl, .inr rfl⟩

theorem From.dropBlock (h : x ∈ pairs cs) : From cs (none, x.2) :=
  .inl ⟨x, h, rfl, .inl rfl⟩

theorem of_from (h : PairInv R cs) (hstate : cs'.state = cs.state) (hnext : cs'.nextRef = cs.nextRef)
    (hfrom : ∀ x ∈ pairs cs', From cs x) : PairInv R cs' where
  paired x hx b hb := by
    rcases hfrom x hx with ⟨y, hy, hparts, hnone | hblock⟩ | rfl
    · rw [hnone] at hb
      cases hb
    · rw [hparts, hstate]
      exact h.paired y hy b (hblock ▸ hb)
    · cases hb
  sets x hx p hp := by
    rcases hfrom x hx with ⟨y, hy, hparts, -⟩ | rfl
    · rw [hnext]
      exact h.sets y hy p (hparts ▸ hp)
    · cases hp
  aliased x hx y hy p q hp hq ha := by
    rcases hfrom x hx with ⟨x', hx', hxp, -⟩ | rfl
    · rcases hfrom y hy with ⟨y', hy', hyp, -⟩ | rfl
      · exact h.aliased x' hx' y' hy' p q (hxp ▸ hp) (hyp ▸ hq) ha
      · cases hq
    · cases hp

theorem same (h : PairInv R cs) (hstate : cs'.state = cs.state) (hnext : cs'.nextRef = cs.nextRef)
    (hpairs : pairs cs' = pairs cs) : PairInv R cs' :=
  h.of_from hstate hnext fun _ hx => .self (hpairs ▸ hx)

theorem fresh (hpairs : ∀ x ∈ pairs cs', x = (none, none)) : PairInv R cs' where
  paired x hx b hb := by
    rw [hpairs x hx] at hb
    cases hb
  sets x hx p hp := by
    rw [hpairs x hx] at hp
    cases hp
  aliased x hx _ _ p _ hp := by
    rw [hpairs x hx] at hp
    cases hp

theorem newParts (h : PairInv R cs) {parts : PartSet} (hwf : parts.Wf)
    (hpaired : ∀ b ∈ cs.proposalBlock, parts.isComplete = true ∧ R cs.state parts b.val) :
    PairInv R (newProposalParts parts cs) := by
  have hcases : ∀ x ∈ pairs (newProposalParts parts cs), x = (cs.proposalBlock, some ⟨cs.nextRef, parts⟩) ∨
    x ∈ pairs cs := by
    intro x hx
    rcases mem_cons.1 hx with rfl | hx
    · exact .inl rfl
    · exact .inr (mem_cons_of_mem _ hx)
  refine ⟨fun x hx => ?_, fun x hx p hp => ?_, fun x hx y hy p q hp hq ha => ?_⟩
  · rcases hcases x hx with rfl | hold
    · exact fun b hb => ⟨_, rfl, hpaired b hb⟩
    · exact h.paired x hold
  · rcases hcases x hx with rfl | hold
    · cases hp
      exact ⟨Nat.lt_succ_self _, hwf⟩
    · have hset := h.sets x hold p hp
      exact ⟨hset.1.trans (Nat.lt_succ_self _), hset.2⟩
  · rcases hcases x hx with rfl | hx
    · rcases hcases y hy with rfl | hy
      · cases hp
        cases hq
        rfl
      · cases hp
        exact absurd ha (Nat.ne_of_gt (h.sets y hy q hq).1)
    · rcases hcases y hy with rfl | hy
      · cases hq
        exact absurd ha (Nat.ne_of_lt (h.sets x hx p hp).1)
      · exact h.aliased x hx y hy p q hp hq ha

theorem refetch {header : PartSetHeader} (h : PairInv R cs) (hf : Refetches header cs cs') : PairInv R cs' := by
  have hdrop : PairInv R { cs with proposalBlock := none } := by
    refine h.of_from rfl rfl fun x hx => ?_
    rcases mem_cons.1 hx with rfl | hx
    · exact .dropBlock (mem_cons_self (a := (cs.proposalBlock, cs.proposalBlockParts)))
    · exact .self (mem_cons_of_mem _ hx)
  rcases hf with rfl | ⟨parts, hparts, rfl⟩
  · exact hdrop
  · exact hdrop.newParts (PartSet.wf_newPartSetFromHeader hparts) fun _ hb => nomatch hb

theorem unlock (h : PairInv R cs) : PairInv R cs.unlock := by
  refine h.of_from rfl rfl fun x hx => ?_
  simp only [pairs, ConsensusState.unlock, mem_cons, not_mem_nil, or_false] at hx
  rcases hx with rfl | rfl | rfl
  · exact .self (by simp [pairs])
  · exact .inr rfl
  · exact .self (by simp [pairs])

theorem signed {type_ : UInt8} {blockID : BlockID} (h : PairInv R cs) (hs : Signed type_ blockID cs cs') :
    PairInv R cs' := by
  obtain ⟨_, _, _, rfl, _⟩ := hs
  exact h.same rfl rfl rfl

theorem precommits (h : PairInv R cs) (hp : Precommits L cs cs') : PairInv R cs' := by
  cases hp with
  | nil hs => exact h.signed hs
  | release _ _ hun hs =>
    rcases hun with rfl | hun
    · exact h.unlock.signed hs
    · exact (h.unlock.refetch hun).signed hs
  | relock _ _ hs =>
    have h₁ : PairInv R { cs with lockedRound := cs.round } := h.same rfl rfl rfl
    exact h₁.signed hs
  | lock _ _ hs =>
    have h₁ : PairInv R { cs with
        lockedRound := cs.round, lockedBlock := cs.proposalBlock, lockedBlockParts := cs.proposalBlockParts } := by
      refine h.of_from rfl rfl fun x hx => ?_
      simp only [pairs, mem_cons, not_mem_nil, or_false] at hx
      rcases hx with rfl | rfl | rfl <;> exact .self (by simp [pairs])
    exact h₁.signed hs

theorem adopts (h : PairInv R cs) (ha : Adopts cs cs') : PairInv R cs' := by
  cases ha with
  | none => exact h
  | locked =>
    refine h.of_from rfl rfl fun x hx => ?_
    simp only [pairs, mem_cons, not_mem_nil, or_false] at hx
    rcases hx with rfl | rfl | rfl <;> exact .self (by simp [pairs])
  | refetch _ hf => exact h.refetch hf

theorem setValid (h : PairInv R cs) (round : Int) : PairInv R (setValid round cs) := by
  refine h.of_from rfl rfl fun x hx => ?_
  simp only [pairs, Consensus.setValid, mem_cons, not_mem_nil, or_false] at hx
  rcases hx with rfl | rfl | rfl <;> exact .self (by simp [pairs])

theorem startRound (h : PairInv R cs) (round : Int) (validators : ValidatorSet) :
    PairInv R (startRound round validators cs) := by
  unfold ConsensusState.startRound
  split_ifs
  · refine h.of_from rfl rfl fun x hx => ?_
    simp only [pairs, mem_cons, not_mem_nil, or_false] at hx
    rcases hx with rfl | rfl | rfl
    · exact .inr rfl
    · exact .self (by simp [pairs])
    · exact .self (by simp [pairs])
  · exact h.same rfl rfl rfl

section

variable {parts : Ref PartSet} {part : Part} {res : PartSet × Bool × Option PartSetError}

theorem pairs_writeParts (addr : Nat) (ps : PartSet) (cs : ConsensusState) :
    pairs (writeParts addr ps cs) = (pairs cs).map fun x => (x.1, x.2.map (Ref.write addr ps)) := rfl

theorem mem_proposal (cs : ConsensusState) : (cs.proposalBlock, cs.proposalBlockParts) ∈ pairs cs := mem_cons_self

section

variable (h : PairInv R cs) (hparts : cs.proposalBlockParts = some parts)
  (hadd : parts.val.addPart L.prims part = some res)
include h hparts hadd

theorem no_block (hadded : res.2.1 = true)
    {x : Option (Ref Block) × Option (Ref PartSet)} (hx : x ∈ pairs cs) {q : Ref PartSet} (hq : x.2 = some q)
    (ha : q.addr = parts.addr) : x.1 = none := by
  rw [eq_none_iff_forall_not_mem]
  intro b hb
  obtain ⟨q', hq', hc, -⟩ := h.paired x hx b hb
  cases Option.some.inj (hq.symm.trans hq')
  have hval := h.aliased x hx _ (mem_proposal cs) q parts hq hparts ha
  have hwf := (h.sets _ (mem_proposal cs) parts hparts).2
  have hnot := (hwf.addPart_of_isComplete (hval ▸ hc) hadd).1
  rw [hnot] at hadded
  cases hadded

theorem addPart : PairInv R (writeParts parts.addr res.1 cs) := by
  have hwf : res.1.Wf := (h.sets _ (mem_proposal cs) parts hparts).2.addPart hadd
  -- a call that adds nothing returns the set as it is
  rcases PartSet.addPart_cases hadd with ⟨-, hsame⟩ | ⟨hadded, -⟩
  · have heq : writeParts parts.addr res.1 cs = cs := by
      have hwrite : ∀ x ∈ pairs cs, x.2.map (Ref.write parts.addr res.1) = x.2 := by
        intro x hx
        cases hq : x.2 with
        | none => rfl
        | some q =>
          rw [map_some, Ref.write]
          split_ifs with ha
          · rw [hsame, ← h.aliased x hx _ (mem_proposal cs) q parts hq hparts ha]
          · rfl
      simp only [pairs, mem_cons, not_mem_nil, or_false, forall_eq_or_imp, forall_eq] at hwrite
      unfold ConsensusState.writeParts
      rw [hwrite.1, hwrite.2.1, hwrite.2.2]
    rw [heq]
    exact h
  refine ⟨fun x hx => ?_, fun x hx p hp => ?_, fun x hx y hy p q hp hq ha => ?_⟩
  · rw [pairs_writeParts] at hx
    obtain ⟨y, hy, rfl⟩ := List.mem_map.1 hx
    intro b hb
    obtain ⟨q, hq, hc⟩ := h.paired y hy b hb
    refine ⟨Ref.write parts.addr res.1 q, ?_, ?_⟩
    · exact Option.mem_map_of_mem _ hq
    · have hne : q.addr ≠ parts.addr := fun ha => by
        have hnone := h.no_block hparts hadd hadded hy hq ha
        rw [hnone] at hb
        cases hb
      rw [Ref.write, if_neg hne]
      exact hc
  · rw [pairs_writeParts] at hx
    obtain ⟨y, hy, rfl⟩ := List.mem_map.1 hx
    obtain ⟨q, hq, rfl⟩ := map_eq_some_iff.1 hp
    have hold := h.sets y hy q hq
    unfold Ref.write
    split_ifs
    · exact ⟨hold.1, hwf⟩
    · exact hold
  · rw [pairs_writeParts] at hx hy
    obtain ⟨x, hxmem, rfl⟩ := List.mem_map.1 hx
    obtain ⟨y, hymem, rfl⟩ := List.mem_map.1 hy
    obtain ⟨p, hxp, rfl⟩ := map_eq_some_iff.1 hp
    obtain ⟨q, hyq, rfl⟩ := map_eq_some_iff.1 hq
    have hold := h.aliased x hxmem y hymem p q hxp hyq
    unfold Ref.write at ha ⊢
    split_ifs at ha ⊢ with h₁ h₂ h₂
    · rfl
    · exact absurd (ha ▸ h₁) h₂
    · exact absurd (ha ▸ h₂) h₁
    · exact hold ha

theorem no_proposalBlock (hadded : res.2.1 = true) : cs.proposalBlock = none :=
  h.no_block hparts hadd hadded (mem_proposal cs) hparts rfl

end

theorem setProposalBlock (h : PairInv R cs) (hnone : cs.proposalBlock = none) {ps : Ref PartSet}
    (hparts : cs.proposalBlockParts = some ps) (hc : ps.val.isComplete = true) {block : Option Block}
    (hread : ∀ b, block = some b → R cs.state ps.val b) : PairInv R (cs.setProposalBlock block) := by
  unfold ConsensusState.setProposalBlock
  rw [hnone]
  cases block with
  | none =>
    refine h.same rfl rfl ?_
    simp only [pairs, hnone]
  | some b =>
    have hcases : ∀ x ∈ pairs { cs with proposalBlock := some ⟨cs.nextRef, b⟩, nextRef := cs.nextRef + 1 },
        x = (some ⟨cs.nextRef, b⟩, some ps) ∨ x ∈ pairs cs := by
      intro x hx
      rcases mem_cons.1 hx with rfl | hx
      · exact .inl (by rw [hparts])
      · exact .inr (mem_cons_of_mem _ hx)
    have hsets : ∀ x ∈ pairs { cs with proposalBlock := some ⟨cs.nextRef, b⟩, nextRef := cs.nextRef + 1 },
      ∃ y ∈ pairs cs, x.2 = y.2 := by
      intro x hx
      rcases hcases x hx with rfl | hold
      · exact ⟨_, mem_proposal cs, hparts.symm⟩
      · exact ⟨x, hold, rfl⟩
    refine ⟨fun x hx => ?_, fun x hx p hp => ?_, fun x hx y hy p q hp hq ha => ?_⟩
    · rcases hcases x hx with rfl | hold
      · intro b' hb'
        cases hb'
        exact ⟨ps, rfl, hc, hread b rfl⟩
      · exact h.paired x hold
    · obtain ⟨y, hy, heq⟩ := hsets x hx
      have hset := h.sets y hy p (heq ▸ hp)
      exact ⟨hset.1.trans (Nat.lt_succ_self _), hset.2⟩
    · obtain ⟨x', hx', hxp⟩ := hsets x hx
      obtain ⟨y', hy', hyp⟩ := hsets y hy
      exact h.aliased x' hx' y' hy' p q (hxp ▸ hp) (hyp ▸ hq) ha

theorem completePart (h : PairInv R cs) (hparts : cs.proposalBlockParts = some parts)
    (hadd : parts.val.addPart L.prims part = some res) (hc : res.2.1 = true ∧ res.1.isComplete = true)
    (hread : cs.proposalBlock = none → ∀ b, (decodeBlock L cs res.1).1 = some b → R cs.state res.1 b) :
    PairInv R ((writeParts parts.addr res.1 cs).setProposalBlock (decodeBlock L cs res.1).1) := by
  have hnone := h.no_proposalBlock hparts hadd hc.1
  have hnew := Pointers.proposalBlockParts_writeParts hparts res.1
  exact (h.addPart hparts hadd).setProposalBlock hnone hnew hc.2 (hread hnone)

end

end PairInv

/-! ## Every transition -/

/-- A proposal suits the block that is there, and a decoded block is related to its parts. -/
structure Env.Pairs (E : Env) (L : Platform) (R : ChainState → PartSet → Block → Prop) : Prop where
  proposal : ∀ cs proposal, E.proposal cs proposal → Accepts cs proposal →
    ∀ parts ∈ PartSet.newPartSetFromHeader proposal.blockPartsHeader, ∀ b ∈ cs.proposalBlock,
      parts.isComplete = true ∧ R cs.state parts b.val
  parts : ∀ cs parts b, E.parts cs parts → cs.proposalBlock = none → (decodeBlock L cs parts).1 = some b →
    E.block parts.header b → R cs.state parts b

theorem Trans.pairInv (hE : E.Pairs L R) (ht : Trans L E cs cs') (h : PairInv R cs) : PairInv R cs' := by
  cases ht with
  | idle hi =>
    cases hi with
    | quiet | late | schedule => exact h.same rfl rfl rfl
    | valid round => exact h.setValid round
  | newRound => exact h.startRound _ _
  | enter | votes | finalize => exact h.same rfl rfl rfl
  | prevote _ _ hs => exact (h.signed hs).same rfl rfl rfl
  | precommit _ hp => exact (h.precommits hp).same rfl rfl rfl
  | unlock => exact h.unlock
  | commit _ ha => exact (h.adopts ha).same rfl rfl rfl
  | nextHeight =>
    refine .fresh fun x hx => ?_
    simpa [pairs, startHeight] using hx
  | @propose proposal _ none early hp due pol known =>
    have hnew : PairInv R { cs with proposal := some proposal } := h.same rfl rfl rfl
    rcases hp with rfl | ⟨parts, hparts, rfl⟩
    · exact hnew
    · exact hnew.newParts (PartSet.wf_newPartSetFromHeader hparts)
        (hE.proposal cs proposal known ⟨none, due, early, pol⟩ parts hparts)
  | addPart hparts hadd => exact h.addPart hparts hadd
  | completePart hparts hadd hc decoded read known =>
    subst read
    exact h.completePart hparts hadd hc fun hnone b hb => hE.parts cs _ b known hnone hb (decoded b hb)

/-! ## Runs -/

variable {ps : PartSet} {n : NodeState}

theorem completes_spec {event : Event} (h : completes L cs event = some ps) :
    ∃ round part peerID parts res, event = .msg (.blockPart cs.height round (some part)) peerID ∧
      cs.proposalBlockParts = some parts ∧ parts.val.addPart L.prims part = some res ∧
      (res.2.1 = true ∧ res.1.isComplete = true) ∧ res.1 = ps := by
  match event, h with
  | .msg (.blockPart height round (some part)) peerID, h =>
    simp only [completes] at h
    split_ifs at h with hheight
    obtain ⟨parts, hparts, h⟩ := bind_eq_some_iff.1 h
    obtain ⟨res, hres, h⟩ := bind_eq_some_iff.1 h
    split_ifs at h with hc
    exact ⟨round, part, peerID, parts, res, by rw [not_not.1 hheight], hparts, hres, hc, Option.some.inj h⟩

theorem addProposalBlockPart_unreadable {part : Part} {parts : Ref PartSet} {res : PartSet × Bool × Option PartSetError}
    (hparts : cs.proposalBlockParts = some parts) (hres : parts.val.addPart L.prims part = some res)
    (hc : res.2.1 = true ∧ res.1.isComplete = true) (hbad : (decodeBlock L cs res.1).2 = false) :
    (exec (addProposalBlockPart L N O cs.height (some part)) cs).1 =
      (writeParts parts.addr res.1 cs).setProposalBlock (decodeBlock L cs res.1).1 := by
  have hwp : wp (addProposalBlockPart L N O cs.height (some part))
      (fun _ s => s = (writeParts parts.addr res.1 cs).setProposalBlock (decodeBlock L cs res.1).1)
      (fun s => s = (writeParts parts.addr res.1 cs).setProposalBlock (decodeBlock L cs res.1).1) cs := by
    unfold addProposalBlockPart
    simp only [wp_bind, wp_get]
    rw [if_neg (by simp), wp_bind, wp_ofOption]
    refine ⟨fun hn => (by cases hn), fun part' hpart => ?_⟩
    cases hpart
    rw [hparts]
    simp only [wp_bind]
    rw [wp_ofOption]
    refine ⟨fun hn => ?_, fun res' hres' => ?_⟩
    · rw [hres] at hn
      cases hn
    · cases Option.some.inj (hres.symm.trans hres')
      rw [if_pos hc, wp_bind, wp_modify, wp_when, if_neg (by simp [hbad])]
  obtain ⟨hok, hpanic⟩ := exec_of_wp hwp
  cases hb : (exec (addProposalBlockPart L N O cs.height (some part)) cs).2 with
  | true => exact hok hb
  | false => exact hpanic hb

theorem readBlock_of_decodeBlock {b : Block} (hnone : cs.proposalBlock = none)
    (hread : Readable L cs ps) (hb : (decodeBlock L cs ps).1 = some b) : readBlock L cs.state ps.data = some b := by
  unfold Readable at hread
  unfold decodeBlock at hread hb
  unfold readBlock
  rw [hnone, map_none] at hread hb
  rcases hd : L.blocks.unmarshalBlock cs.state.consensusParams.blockMaxBytes none ps.data with ⟨block, ok⟩
  rw [hd] at hread hb
  cases ok with
  | true => exact hb
  | false =>
    rcases hread with hread | hread
    · cases hread
    · rw [hread] at hb
      cases hb

abbrev Reads (L : Platform) (state : ChainState) (parts : PartSet) (block : Block) : Prop :=
  readBlock L state parts.data = some block

theorem together_iff_pairs : Together L cs ↔ ∀ x ∈ pairs cs, Paired L cs.state x.1 x.2 := by
  simp only [pairs, mem_cons, not_mem_nil, or_false, forall_eq_or_imp, forall_eq]
  exact ⟨fun h => ⟨h.1, h.2, h.3⟩, fun h => ⟨h.1, h.2.1, h.2.2⟩⟩

theorem PairInv.together (h : PairInv (Reads L) cs) : Together L cs := together_iff_pairs.2 h.paired

/-- The limits that `KeepsPairs` is about. -/
def pairsEnv (L : Platform) : Env := { Env.any with proposal := SuitsBlock L, parts := Readable L }

theorem pairsEnv_pairs (L : Platform) : (pairsEnv L).Pairs L (Reads L) where
  proposal _ _ hsuits := hsuits
  parts _ _ _ hread hnone hb _ := readBlock_of_decodeBlock hnone hread hb

theorem NodeState.step_pairInv (hn : NodeInv L Env.any n.cs) (h : PairInv (Reads L) n.cs) {input : Outside × Event}
    (hkeep : KeepsPairs L n input) : PairInv (Reads L) (n.step L N input).cs := by
  cases hrun : n.running with
  | false =>
    unfold NodeState.step
    rw [if_neg (by simp [hrun])]
    exact h
  | true =>
    have hadmits : (pairsEnv L).Admits L n.cs input.2 :=
      ⟨fun _ _ => trivial, (hkeep hrun).1, (hkeep hrun).2, fun _ _ _ => trivial⟩
    have hchain : Relation.ReflTransGen (Trans L (pairsEnv L)) n.cs (n.step L N input).cs :=
      NodeState.step_chain hn.timely (fun _ _ _ _ _ => trivial) hadmits
    exact chain_inv (I := PairInv (Reads L)) (fun _ _ ht hs => ht.pairInv (pairsEnv_pairs L) hs) hchain h

/-- An accepted proposal that suits no proposal block breaks the pair. -/
theorem suitsBlock_of_together (hrun : n.running = true) {proposal : Proposal} {peerID : Bytes}
    (h : Together L (n.step L N (O, .msg (.proposal (some proposal)) peerID)).cs) : SuitsBlock L n.cs proposal := by
  intro hacc parts hparts b hb
  rw [NodeState.step_proposal hrun hacc, withProposal, hparts] at h
  obtain ⟨ps, hps, hread⟩ := h.proposal b hb
  cases hps
  exact hread

/-- A part set that leaves a block without decoding breaks the pair. -/
theorem readable_of_together (hrun : n.running = true) (hn : PairInv (Reads L) n.cs) {event : Event}
    (hcomplete : completes L n.cs event = some ps) (h : Together L (n.step L N (O, event)).cs) :
    Readable L n.cs ps := by
  obtain ⟨round, part, peerID, parts, res, rfl, hparts, hres, hc, rfl⟩ := completes_spec hcomplete
  by_contra hbad
  rw [Readable, not_or, Bool.not_eq_true] at hbad
  obtain ⟨b, hb⟩ := ne_none_iff_exists'.1 hbad.2
  have hnone := hn.no_proposalBlock hparts hres hc.1
  have hstep : (n.step L N (O, .msg (.blockPart n.cs.height round (some part)) peerID)).cs =
      (writeParts parts.addr res.1 n.cs).setProposalBlock (some b) := by
    rw [← hb, ← addProposalBlockPart_unreadable (N := N) (O := O) hparts hres hc hbad.1, NodeState.step, if_pos hrun]
    rfl
  rw [hstep] at h
  have hblock : ((writeParts parts.addr res.1 n.cs).setProposalBlock (some b)).proposalBlock =
    some ⟨n.cs.nextRef, b⟩ := by
    unfold ConsensusState.setProposalBlock
    rw [show (writeParts parts.addr res.1 n.cs).proposalBlock = none from hnone]
    rfl
  have hkept : ((writeParts parts.addr res.1 n.cs).setProposalBlock (some b)).proposalBlockParts =
    some { parts with val := res.1 } := by
    rw [← Pointers.proposalBlockParts_writeParts hparts res.1]
    unfold ConsensusState.setProposalBlock
    rw [show (writeParts parts.addr res.1 n.cs).proposalBlock = none from hnone]
  obtain ⟨q, hq, -, hread⟩ := h.proposal _ hblock
  rw [hkept] at hq
  cases hq
  -- the same bytes were decoded with an error
  have hbad' := hbad.1
  unfold decodeBlock at hbad'
  rw [hnone, map_none] at hbad'
  have hstate : ((writeParts parts.addr res.1 n.cs).setProposalBlock (some b)).state = n.cs.state :=
    (frame_completePart parts.addr res.1 (some b) n.cs).state
  rw [hstate, readBlock] at hread
  rcases hd : L.blocks.unmarshalBlock n.cs.state.consensusParams.blockMaxBytes none res.1.data with ⟨block, ok⟩
  rw [hd] at hbad' hread
  cases ok with
  | true => cases hbad'
  | false => cases hread

theorem NodeState.step_together (hn : NodeInv L Env.any n.cs) (h : PairInv (Reads L) n.cs) (input : Outside × Event) :
    Together L (n.step L N input).cs ↔ KeepsPairs L n input := by
  obtain ⟨O, event⟩ := input
  refine ⟨fun ht hrun => ⟨fun proposal hmem => ?_, fun ps hps => readable_of_together hrun h hps ht⟩,
    fun hkeep => (NodeState.step_pairInv hn h hkeep).together⟩
  match event, hmem with
  | .msg (.proposal (some p)) peerID, hmem =>
    rw [mem_singleton.1 hmem]
    exact suitsBlock_of_together hrun ht

/-- It holds throughout a run exactly where no proposal is accepted beside a proposal block, and no completed part set
fails to decode and leaves a block behind. -/
theorem together_iff (L : Platform) (N : Node) {state : ChainState} {lastCommit : Option VoteSet} {pv : Option FilePV}
    {cs : ConsensusState} (h : ConsensusState.newConsensusState state lastCommit pv = some cs)
    (inputs : List (Outside × Event)) :
    (∀ pre, pre <+: inputs → Together L (NodeState.run L N ⟨cs, true⟩ pre).cs) ↔
      Along (NodeState.step L N) (KeepsPairs L) ⟨cs, true⟩ inputs := by
  have hpair : PairInv (Reads L) cs := by
    obtain ⟨votes, _, rfl⟩ := map_eq_some_iff.1 h
    refine .fresh fun x hx => ?_
    simpa [pairs] using hx
  refine always_iff_along (I := fun n : NodeState => NodeInv L Env.any n.cs ∧ PairInv (Reads L) n.cs)
    (P := fun n => Together L n.cs) (fun n x hn ht => ⟨?_, ?_⟩) (fun n x hn _ => NodeState.step_together hn.1 hn.2 x)
    ⟨nodeInv_new h, hpair⟩ hpair.together inputs
  · exact NodeState.step_inv hn.1 (fun _ _ _ _ _ => trivial) (Env.any_admits x.2)
  · exact NodeState.step_pairInv hn.1 hn.2 ((NodeState.step_together hn.1 hn.2 x).1 ht)

/-! ## A proposal that comes late -/

namespace Fork

/-- Without a proposal, node 0 learns of a block by prevotes, and gets its parts. -/
def fetching : List (Outside × Event) :=
  ([timeout 0 .newHeight, timeout 0 .propose, prevote 0 idA 1, prevote 0 idA 2, prevote 0 idA 3] ++
    (parts 0 1000).parts.map fun part => Event.msg (.blockPart 1 0 part) []).map (outside, ·)

def late : Outside × Event := (outside, .msg (.proposal (some (proposalOf 3 (parts 0 1000)))) [])

end Fork

open Fork

theorem together_fetching :
    ConsensusState.newConsensusState state none (some ⟨0, 0, 0, none, none⟩) = some startState ∧
      (NodeState.run .plain (node 0) ⟨startState, true⟩ fetching).cs.proposalBlock.isSome = true ∧
      Together .plain (NodeState.run .plain (node 0) ⟨startState, true⟩ fetching).cs :=
  ⟨start_eq, by decide +kernel, (together_iff .plain (node 0) start_eq fetching).2 (by decide +kernel)
    fetching (prefix_refl _)⟩

theorem parts_replaced :
    ((NodeState.run .plain (node 0) ⟨startState, true⟩ (fetching ++ [late])).cs.proposalBlock.isSome,
        (NodeState.run .plain (node 0) ⟨startState, true⟩
          (fetching ++ [late])).cs.proposalBlockParts.map fun parts => parts.val.isComplete) = (true, some false) ∧
      ¬ Together .plain (NodeState.run .plain (node 0) ⟨startState, true⟩ (fetching ++ [late])).cs := by
  decide +kernel

end Demars.Consensus
