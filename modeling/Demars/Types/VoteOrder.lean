import Demars.Types.Evidence

/-!
# The order of votes

Where no validator votes twice, a vote set is a function of the set of votes that came in: a slot holds the vote of
its validator, an entry the votes for its block (`Gathered`), and at most one entry can have a majority, unless the
total power is the largest `int64`, where the quorum is one.
-/

namespace Demars

open Machine List Option

def BlockVotes.tally (entry : BlockVotes) : List (Option Vote) × Int × (Nat → Bool) :=
  (entry.votes, entry.sum, BitArray.get entry.bitArray)

namespace VoteSet

variable {P : Primitives} {A : Amino} {voteSet : VoteSet} {l : List Vote} {vote : Vote} {i : Nat}

/-- The set after the votes `l`, in whatever order. -/
structure Gathered (P : Primitives) (A : Amino) (l : List Vote) (voteSet : VoteSet) : Prop where
  bounded : voteSet.valSet.Bounded
  filed : Filed P A 0 voteSet
  stored : Stored A voteSet
  backed : Backed P A voteSet
  inv : 0 < voteSet.quorum → Inv P A voteSet
  holds : voteSet.Holds (· ∈ l)
  slots : ∀ i vote, voteSet.slot i = some vote ↔ vote ∈ l ∧ vote.validatorIndex = i
  opened : ∀ key, (voteSet.votesByBlock.lookup key).isSome ↔ ∃ vote ∈ l, vote.blockID.key A = key

theorem Gathered.congr {l' : List Vote} (h : Gathered P A l voteSet) (hmem : ∀ vote, vote ∈ l' ↔ vote ∈ l) :
    Gathered P A l' voteSet where
  __ := h
  holds := h.holds.mono fun vote => (hmem vote).2
  slots := fun i vote => by rw [hmem, h.slots]
  opened := fun key => by simp only [hmem, h.opened]

theorem Gathered.blockSlot (h : Gathered P A l voteSet) (key : Bytes) (i : Nat) (vote : Vote) :
    voteSet.blockSlot key i = some vote ↔ vote ∈ l ∧ vote.validatorIndex = i ∧ vote.blockID.key A = key := by
  constructor
  · intro hs
    obtain ⟨hc, hkey⟩ := h.filed.blockSlot hs
    exact ⟨h.holds key i vote hs, hc.index, hkey⟩
  · rintro ⟨hmem, hi, rfl⟩
    exact h.stored i vote ((h.slots i vote).2 ⟨hmem, hi⟩)

theorem Gathered.addVote (h : Gathered P A l voteSet) (hc : Counts P A voteSet i vote)
    (haddr : vote.validatorAddress ≠ []) (hone : ∀ w ∈ l, w.validatorIndex = vote.validatorIndex → w = vote) :
    ∃ voteSet', call P A voteSet (.addVote (some vote)) = some voteSet' ∧ Gathered P A (vote :: l) voteSet' ∧
      Extends voteSet voteSet' := by
  have hindex := hc.index
  by_cases hmem : vote ∈ l
  · refine ⟨voteSet, ?_, h.congr fun w => ?_, Extends.refl voteSet⟩
    · obtain ⟨val, key, hby, hkey, hown, hverify, -, hpos, hnat⟩ := hc.validator
      obtain ⟨signature, hsig⟩ := ne_none_iff_exists'.1 (Vote.signature_ne_none P A hverify)
      have hget : voteSet.getVote A i (vote.blockID.key A) = some vote := by
        simp [getVote, (h.slots i vote).2 ⟨hmem, hindex⟩]
      simp [call, VoteSet.addVote, hpos, haddr, hc.height, hc.round, hc.type_, hby, ← hown, hnat, hget, hsig,
        Signature.equals]
    · simp only [mem_cons, or_iff_right_iff_imp]
      rintro rfl
      exact hmem
  · have hslot : voteSet.slot i = none := by
      by_contra hne
      obtain ⟨w, hw⟩ := ne_none_iff_exists'.1 hne
      obtain ⟨hwl, hwi⟩ := (h.slots i w).1 hw
      exact hmem (hone w hwl (by omega) ▸ hwl)
    have hblock : voteSet.blockSlot (vote.blockID.key A) i = none := by
      by_contra hne
      obtain ⟨w, hw⟩ := ne_none_iff_exists'.1 hne
      obtain ⟨hwl, hwi, -⟩ := (h.blockSlot _ i w).1 hw
      exact hmem (hone w hwl (by omega) ▸ hwl)
    have hget : voteSet.getVote A i (vote.blockID.key A) = none := by simp [getVote, hslot, hblock]
    obtain ⟨recorded, hrecorded⟩ : ∃ recorded, recorded = { voteSet with
      votes := voteSet.votes.set i (some vote), votesBitArray := BitArray.set voteSet.votesBitArray i true,
      sum := wrap64 (voteSet.sum + voteSet.valSet.power i) } := ⟨_, rfl⟩
    have hrec : voteSet.recordVote A i vote (vote.blockID.key A) (voteSet.valSet.power i) = some (recorded, none) := by
      simp [VoteSet.recordVote, hslot, hrecorded]
    obtain ⟨entry, ht⟩ : ∃ entry, recorded.trackedVotes (vote.blockID.key A) none = some entry :=
      ne_none_iff_exists'.1 fun hno => (trackedVotes_eq_none.1 hno).1 rfl
    have hres : voteSet.addVerifiedVote A i vote (vote.blockID.key A) (voteSet.valSet.power i) =
        some (recorded.countVote i vote (vote.blockID.key A) (voteSet.valSet.power i) entry, true, none) := by
      simp only [addVerifiedVote, hrec, ht]
    obtain ⟨err, hadd⟩ := addVote_of_counts hc haddr hget hres fun _ => rfl
    have hext := addVote_extends hadd
    have hsame := recordVote_sameBlocks hrec
    refine ⟨_, by simp only [call, hadd, map_some], ⟨?_, h.filed.addVote hadd, ?_, h.backed.addVote h.bounded hadd,
      fun hq => ?_,
      (h.holds.mono fun w => mem_cons_of_mem vote).addVote mem_cons_self hadd, fun j w => ?_, fun key => ?_⟩, hext⟩
    · rw [hext.valSet]
      exact h.bounded
    · have hrule : KeepsRule P A voteSet (.addVote (some vote)) := (keepsRule_iff h.filed h.stored _).2 ?_
      · exact (hrule _ _ _ hadd).1
      rintro ⟨w, j, existing, -, hw, -, hcw, -, hslot', -⟩
      cases hw
      have := hcw.index
      cases (by omega : j = i)
      rw [hslot] at hslot'
      cases hslot'
    · rw [hext.quorum_eq] at hq
      exact (addVote_inv (h.inv hq) h.bounded hq hadd).1
    · have hslots : (recorded.countVote i vote (vote.blockID.key A) (voteSet.valSet.power i) entry).slot j =
          if j = i then some vote else voteSet.slot j := by
        have hi : i < voteSet.votes.length := by rw [h.filed.length]; exact hc.lt_size
        have hrecslot : recorded.slot j = if j = i then some vote else voteSet.slot j := by
          rw [hrecorded, slot, slot_set hi]
        have hcases := (h.filed.recordVote hc hrec).slot_countVote (hsame.counts hc)
          (by rw [hsame.blockSlot]; exact hblock) ht
          (voteSet.valSet.power i) j
        rw [hsame.blockSlot, hrecslot] at hcases
        rcases hcases with hs | hs <;> rw [hs]
        split_ifs with hji
        · rfl
        · cases hb : voteSet.blockSlot (vote.blockID.key A) j with
          | none => rfl
          | some w =>
            obtain ⟨hwl, hwj, -⟩ := (h.blockSlot _ j w).1 hb
            exact ((h.slots j w).2 ⟨hwl, hwj⟩).symm
      rw [hslots]
      split_ifs with hji
      · constructor
        · rintro ⟨⟩
          exact ⟨mem_cons_self, by omega⟩
        · rintro ⟨hw, hwj⟩
          rcases mem_cons.1 hw with rfl | hw
          · rfl
          · rw [hone w hw (by omega)]
      · rw [h.slots, mem_cons]
        refine and_congr_left fun hwj => (or_iff_right ?_).symm
        rintro rfl
        omega
    · have hkeys : ((recorded.countVote i vote (vote.blockID.key A) (voteSet.valSet.power i)
        entry).votesByBlock.lookup key).isSome ↔
          key = vote.blockID.key A ∨ (voteSet.votesByBlock.lookup key).isSome := by
        rw [← hsame.votesByBlock]
        by_cases hk : key = vote.blockID.key A
        · subst hk
          dsimp only [countVote]
          split_ifs <;> simp
        · dsimp only [countVote]
          split_ifs <;> simp [hk]
      rw [hkeys, h.opened, exists_mem_cons_iff, eq_comm]

theorem Gathered.run {votes : List Vote} (h : Gathered P A l voteSet)
    (hvalid : ∀ v ∈ votes, v.validatorAddress ≠ [] ∧ ∃ i, Counts P A voteSet i v)
    (hone : ∀ v ∈ votes, ∀ w, w ∈ votes ∨ w ∈ l → w.validatorIndex = v.validatorIndex → w = v) :
    ∃ voteSet', run P A voteSet (adding votes) = some voteSet' ∧ Gathered P A (votes.reverse ++ l) voteSet' ∧
      Extends voteSet voteSet' := by
  induction votes generalizing l voteSet with
  | nil => exact ⟨voteSet, rfl, h, Extends.refl voteSet⟩
  | cons vote votes ih =>
    obtain ⟨⟨haddr, i, hc⟩, hvalid⟩ := forall_mem_cons.1 hvalid
    obtain ⟨voteSet₁, hcall, hgath, hext⟩ := h.addVote hc haddr fun w hw => hone vote mem_cons_self w (.inr hw)
    obtain ⟨voteSet', hrun, hgath', hext'⟩ := ih hgath (fun v hv => by
        obtain ⟨haddr, j, hj⟩ := hvalid v hv
        refine ⟨haddr, j, ?_⟩
        rw [Counts, hext.chainID, hext.height, hext.round, hext.type_, hext.valSet]
        exact hj)
      fun v hv w hw => hone v (mem_cons_of_mem vote hv) w (by simp only [mem_cons] at hw ⊢; tauto)
    refine ⟨voteSet', ?_, hgath'.congr fun w => by simp, hext.trans hext'⟩
    rw [VoteSet.run, adding, map_cons, foldlM_cons, hcall]
    exact hrun

theorem gathered_newVoteSet (P : Primitives) (A : Amino) {chainID : Bytes} {height round : Int} {type_ : UInt8}
    {valSet : ValidatorSet} {fresh : VoteSet} (hb : valSet.Bounded)
    (hnew : newVoteSet chainID height round type_ valSet = some fresh) :
    Gathered P A [] fresh where
  bounded := by rw [(newVoteSet_eq hnew).1]; exact hb
  filed := filed_newVoteSet hnew
  stored := fun i v hi => by simp [slot_newVoteSet hnew] at hi
  backed := newVoteSet_backed hnew
  inv := fun _ => newVoteSet_inv hnew
  holds := holds_newVoteSet hnew
  slots := fun i v => by simp [slot_newVoteSet hnew]
  opened := fun key => by
    unfold newVoteSet at hnew
    split_ifs at hnew
    cases hnew
    simp

/-! ## Two sets with the same votes -/

/-- Alike but for the order of entries. -/
structure SameTally (s₁ s₂ : VoteSet) : Prop where
  votes : s₁.votes = s₂.votes
  sum : s₁.sum = s₂.sum
  bits : BitArray.get s₁.votesBitArray = BitArray.get s₂.votesBitArray
  blocks : ∀ key, (s₁.votesByBlock.lookup key).map BlockVotes.tally = (s₂.votesByBlock.lookup key).map BlockVotes.tally
  maj23 : s₁.maj23 = s₂.maj23

theorem slots_ext {a b : List (Option Vote)} (hlen : a.length = b.length)
    (h : ∀ (i : Nat) v, (a[i]?).join = some v ↔ (b[i]?).join = some v) :
    a = b := by
  refine ext_getElem hlen fun i hi hi' => Option.ext fun v => ?_
  simpa [hi, hi'] using h i v

section

variable {s₁ s₂ : VoteSet} (h₁ : Gathered P A l s₁) (h₂ : Gathered P A l s₂) (hval : s₁.valSet = s₂.valSet)
include h₁ h₂ hval

theorem Gathered.same_tally {key : Bytes} {entry₁ : BlockVotes} (hl₁ : s₁.votesByBlock.lookup key = some entry₁) :
    ∃ entry₂, s₂.votesByBlock.lookup key = some entry₂ ∧ entry₁.tally = entry₂.tally := by
  obtain ⟨entry₂, hl₂⟩ := isSome_iff_exists.1 ((h₂.opened key).2 ((h₁.opened key).1 (by rw [hl₁]; rfl)))
  have ht₁ := h₁.backed.blocks key entry₁ hl₁
  have ht₂ := h₂.backed.blocks key entry₂ hl₂
  have hvotes : entry₁.votes = entry₂.votes := slots_ext (by rw [ht₁.length, ht₂.length, hval]) fun i v => by
    have hs₁ := h₁.blockSlot key i v
    have hs₂ := h₂.blockSlot key i v
    simp only [VoteSet.blockSlot, hl₁, hl₂] at hs₁ hs₂
    exact hs₁.trans hs₂.symm
  refine ⟨entry₂, hl₂, Prod.ext hvotes (Prod.ext ?_ (funext fun i => ?_))⟩
  · dsimp only [BlockVotes.tally]
    rw [ht₁.sum_eq, ht₂.sum_eq, hvotes, hval]
  · dsimp only [BlockVotes.tally]
    rw [ht₁.bit, ht₂.bit, hvotes]

theorem Gathered.maj23_of_some (hlt : s₁.valSet.sumPower < maxInt64)
    (hone : ∀ v ∈ l, ∀ w ∈ l, w.validatorIndex = v.validatorIndex → w = v)
    (hkeys : ∀ v ∈ l, ∀ w ∈ l, v.blockID.key A = w.blockID.key A → v.blockID = w.blockID) {blockID : BlockID}
    (hmaj : s₁.maj23 = some blockID) : s₂.maj23 = some blockID := by
  have hq : 0 < s₁.quorum := h₁.backed.quorum_pos (by rw [hmaj]; nofun)
  have hqeq : s₂.quorum = s₁.quorum := by rw [quorum, quorum, hval]
  obtain ⟨⟨entry₁, hl₁, hsum₁⟩, i, v, hv, rfl⟩ := h₁.backed.reached blockID hmaj
  obtain ⟨entry₂, hl₂, htally⟩ := h₁.same_tally h₂ hval hl₁
  have hsum₂ : s₂.quorum ≤ entry₂.sum := by
    rw [hqeq, ← show entry₁.sum = entry₂.sum from congrArg (·.2.1) htally]
    exact hsum₁
  cases hmaj₂ : s₂.maj23 with
  | none =>
    have := (h₂.inv (by rw [hqeq]; exact hq)).maj23_none hmaj₂ _ entry₂ hl₂
    omega
  | some blockID₂ =>
    obtain ⟨⟨entry, hl, hsum⟩, j, w, hw, rfl⟩ := h₂.backed.reached blockID₂ hmaj₂
    obtain ⟨hvl, -, -⟩ := (h₁.blockSlot _ i v).1 hv
    obtain ⟨hwl, -, -⟩ := (h₂.blockSlot _ j w).1 hw
    rw [hkeys w hwl v hvl]
    -- two majorities would share a validator, which has one vote
    have hfit := fit_of_quorum_pos h₂.bounded (by rw [← hval]; exact hlt) (by rw [hqeq]; exact hq)
    have hpos := h₂.backed.overlap h₂.bounded hfit hl hl₂ hsum hsum₂
    have hnonneg := h₂.bounded.sumPower_nonneg
    have hpower : 0 < s₂.valSet.powerOf fun i => present entry.votes i && present entry₂.votes i := by omega
    obtain ⟨k, -, hk⟩ := ValidatorSet.exists_of_powerOf_pos hpower
    rw [Bool.and_eq_true] at hk
    obtain ⟨x, hx⟩ := isSome_iff_exists.1 hk.1
    obtain ⟨y, hy⟩ := isSome_iff_exists.1 hk.2
    obtain ⟨hxl, hxk, hxkey⟩ := (h₂.blockSlot (w.blockID.key A) k x).1 (by rw [VoteSet.blockSlot, hl]; exact hx)
    obtain ⟨hyl, hyk, hykey⟩ := (h₂.blockSlot (v.blockID.key A) k y).1 (by rw [VoteSet.blockSlot, hl₂]; exact hy)
    rw [← hxkey, ← hykey, hone x hxl y hyl (by omega)]

/-- All but the majority is determined by the votes. -/
theorem Gathered.sameTally_iff : SameTally s₁ s₂ ↔ s₁.maj23 = s₂.maj23 := by
  have hvotes : s₁.votes = s₂.votes := slots_ext (by rw [h₁.filed.length, h₂.filed.length, hval]) fun i v =>
    (h₁.slots i v).trans (h₂.slots i v).symm
  refine ⟨SameTally.maj23, fun hmaj => ⟨hvotes, ?_, funext fun i => ?_, fun key => ?_, hmaj⟩⟩
  · rw [h₁.backed.tallied.sum_eq, h₂.backed.tallied.sum_eq, hvotes, hval]
  · rw [h₁.backed.tallied.bit, h₂.backed.tallied.bit, hvotes]
  · cases hl₁ : s₁.votesByBlock.lookup key with
    | some entry₁ =>
      obtain ⟨entry₂, hl₂, htally⟩ := h₁.same_tally h₂ hval hl₁
      rw [hl₂, map_some, map_some, htally]
    | none =>
      cases hl₂ : s₂.votesByBlock.lookup key with
      | none => rfl
      | some entry₂ =>
        obtain ⟨entry₁, hl, -⟩ := h₂.same_tally h₁ hval.symm hl₂
        rw [hl₁] at hl
        cases hl

end

/-- Where the quorum is one, a vote is the majority at once. -/
theorem Gathered.maj23_eq (h : Gathered P A [vote] voteSet) (hc : Counts P A voteSet i vote) (hq : voteSet.quorum = 1) :
    voteSet.maj23 = some vote.blockID := by
  cases hmaj : voteSet.maj23 with
  | none =>
    have hs := (h.blockSlot (vote.blockID.key A) i vote).2 ⟨mem_singleton_self vote, hc.index, rfl⟩
    obtain ⟨entry, hl, hget⟩ := bind_eq_some_iff.1 hs
    have hlow := (h.inv (by omega)).maj23_none hmaj _ entry hl
    have hpos := ValidatorSet.powerOf_pos h.bounded hc.lt_size (p := present entry.votes)
      (isSome_iff_exists.2 ⟨vote, hget⟩)
    rw [(h.backed.blocks _ entry hl).sum_eq] at hlow
    omega
  | some blockID =>
    obtain ⟨-, j, w, hw, rfl⟩ := h.backed.reached blockID hmaj
    rw [mem_singleton.1 ((h.blockSlot _ j w).1 hw).1]

/-- With the largest total power the majority is the block of the first vote. -/
theorem Gathered.maj23_run {votes : List Vote} {voteSet' : VoteSet} (h : Gathered P A [] voteSet)
    (hnone : voteSet.maj23 = none) (hmax : voteSet.valSet.sumPower = maxInt64)
    (hvalid : ∀ v ∈ votes, v.validatorAddress ≠ [] ∧ ∃ i, Counts P A voteSet i v)
    (hone : ∀ v ∈ votes, ∀ w ∈ votes, w.validatorIndex = v.validatorIndex → w = v)
    (hrun : VoteSet.run P A voteSet (adding votes) = some voteSet') :
    voteSet'.maj23 = votes.head?.map Vote.blockID := by
  cases votes with
  | nil =>
    cases hrun
    exact hnone
  | cons vote votes =>
    obtain ⟨haddr, i, hc⟩ := hvalid vote mem_cons_self
    obtain ⟨voteSet₁, hcall, hgath, hext⟩ := h.addVote hc haddr nofun
    have hcounts : ∀ {j w}, Counts P A voteSet j w → Counts P A voteSet₁ j w := fun hw => by
      rw [Counts, hext.chainID, hext.height, hext.round, hext.type_, hext.valSet]
      exact hw
    obtain ⟨voteSet₂, hrun₂, -, hext₂⟩ := hgath.run (fun v (hv : v ∈ votes) => by
        obtain ⟨haddr, j, hj⟩ := hvalid v (mem_cons_of_mem vote hv)
        exact ⟨haddr, j, hcounts hj⟩)
      fun v hv w hw => hone v (mem_cons_of_mem vote hv) w (by simpa [or_comm] using hw)
    rw [VoteSet.run, adding, map_cons, foldlM_cons, hcall] at hrun
    cases hrun.symm.trans hrun₂
    have hq : voteSet.quorum = 1 := by
      rw [quorum, h.bounded.twoThirds_neg (by rw [hmax]; decide), hmax]
      decide
    exact hext₂.maj23 _ (hgath.maj23_eq (hcounts hc) (hext.quorum_eq.trans hq))

/-- **The order of votes is irrelevant, exactly when**: valid votes with at most one of a validator, for blocks with
keys of their own, give the same tallies and majority in two orders, with any repetitions, if and only if the powers
add up to less than the largest `int64` or both orders begin with the same block. -/
theorem order_irrelevant_iff (P : Primitives) (A : Amino) (chainID : Bytes) (height round : Int) (type_ : UInt8)
    (valSet : ValidatorSet) (hb : valSet.Bounded) (fresh : VoteSet)
    (hnew : newVoteSet chainID height round type_ valSet = some fresh) (votes₁ votes₂ : List Vote)
    (hmem : ∀ v, v ∈ votes₁ ↔ v ∈ votes₂)
    (hvalid : ∀ v ∈ votes₁, v.validatorAddress ≠ [] ∧ ∃ i, CountsFor P A chainID height round type_ valSet i v)
    (hone : ∀ v ∈ votes₁, ∀ w ∈ votes₁, w.validatorIndex = v.validatorIndex → w = v)
    (hkeys : ∀ v ∈ votes₁, ∀ w ∈ votes₁, v.blockID.key A = w.blockID.key A → v.blockID = w.blockID) :
    ∃ s₁ s₂, run P A fresh (adding votes₁) = some s₁ ∧ run P A fresh (adding votes₂) = some s₂ ∧ (SameTally s₁ s₂ ↔
      valSet.sumPower < maxInt64 ∨ votes₁.head?.map Vote.blockID = votes₂.head?.map Vote.blockID) := by
  have hvalid₁ : ∀ v ∈ votes₁, v.validatorAddress ≠ [] ∧ ∃ i, Counts P A fresh i v := fun v hv => by
    simpa only [(Extends.refl fresh).counts_iff hnew] using hvalid v hv
  have hvalid₂ : ∀ v ∈ votes₂, v.validatorAddress ≠ [] ∧ ∃ i, Counts P A fresh i v :=
    fun v hv => hvalid₁ v ((hmem v).2 hv)
  have hone₂ : ∀ v ∈ votes₂, ∀ w ∈ votes₂, w.validatorIndex = v.validatorIndex → w = v :=
    fun v hv w hw => hone v ((hmem v).2 hv) w ((hmem w).2 hw)
  have hfresh := gathered_newVoteSet P A hb hnew
  obtain ⟨hvalSet, hnone⟩ := newVoteSet_eq hnew
  rw [← hvalSet]
  obtain ⟨s₁, hrun₁, hg₁, hext₁⟩ := hfresh.run hvalid₁ fun v hv w hw => hone v hv w (by simpa using hw)
  obtain ⟨s₂, hrun₂, hg₂, hext₂⟩ := hfresh.run hvalid₂ fun v hv w hw => hone₂ v hv w (by simpa using hw)
  have h₁ : Gathered P A votes₁ s₁ := hg₁.congr fun w => by simp
  have h₂ : Gathered P A votes₁ s₂ := hg₂.congr fun w => by simp [hmem]
  have hval : s₁.valSet = s₂.valSet := hext₁.valSet.trans hext₂.valSet.symm
  refine ⟨s₁, s₂, hrun₁, hrun₂, (h₁.sameTally_iff h₂ hval).trans ?_⟩
  by_cases hlt : fresh.valSet.sumPower < maxInt64
  · refine iff_of_true (Option.ext fun blockID => ⟨fun h => ?_, fun h => ?_⟩) (.inl hlt)
    · exact h₁.maj23_of_some h₂ hval (by rw [hext₁.valSet]; exact hlt) hone hkeys h
    · exact h₂.maj23_of_some h₁ hval.symm (by rw [hext₂.valSet]; exact hlt) hone hkeys h
  · have hmax : fresh.valSet.sumPower = maxInt64 := le_antisymm hfresh.bounded.sum_le (not_lt.1 hlt)
    rw [or_iff_right hlt, hfresh.maj23_run hnone hmax hvalid₁ hone hrun₁, hfresh.maj23_run hnone hmax hvalid₂
      hone₂ hrun₂]

/-- Two validators for one block and a third for another, in two orders. -/
theorem order_irrelevant_trio : ∃ fresh s₁ s₂, newVoteSet [] 1 0 voteTypePrecommit (trio 1) = some fresh ∧
    run .transparent .plain fresh (adding (ballots [(0, 7), (1, 7), (2, 6)])) = some s₁ ∧
    run .transparent .plain fresh (adding (ballots [(2, 6), (1, 7), (0, 7), (1, 7)])) = some s₂ ∧ SameTally s₁ s₂ := by
  obtain ⟨s₁, s₂, hrun₁, hrun₂, h⟩ := order_irrelevant_iff .transparent .plain [] 1 0 voteTypePrecommit (trio 1)
    ⟨by decide, by decide⟩ _ rfl
    (ballots [(0, 7), (1, 7), (2, 6)]) (ballots [(2, 6), (1, 7), (0, 7), (1, 7)])
    (fun v => by simp only [ballots, List.map_cons, List.map_nil, mem_cons, not_mem_nil]; tauto)
    (by
      simp only [ballots, List.map_cons, List.map_nil, forall_mem_cons, not_mem_nil, false_implies,
        implies_true, and_true]
      exact ⟨⟨by decide, 0, rfl, rfl, rfl, rfl, _, _, rfl, rfl, rfl, by decide +kernel⟩,
        ⟨by decide, 1, rfl, rfl, rfl, rfl, _, _, rfl, rfl, rfl, by decide +kernel⟩,
        ⟨by decide, 2, rfl, rfl, rfl, rfl, _, _, rfl, rfl, rfl, by decide +kernel⟩⟩)
    (by decide +kernel) (by decide +kernel)
  exact ⟨_, s₁, s₂, rfl, hrun₁, hrun₂, h.2 (.inl (by decide))⟩

/-- Where the powers add up to the largest `int64`, the majority is the block of the first vote. -/
theorem first_vote_wins : (lopsided 1 (2 ^ 63 - 2)).sumPower = maxInt64 ∧
    ([[(0, 6), (1, 7)], [(1, 7), (0, 6)]].map fun votes =>
      (newVoteSet [] 1 0 voteTypePrecommit (lopsided 1 (2 ^ 63 - 2))).bind fun fresh =>
        (run .transparent .plain fresh (adding (ballots votes))).map (·.maj23)) =
    [some (some (trioID 6)), some (some (trioID 7))] := by
  decide +kernel

end VoteSet

end Demars
