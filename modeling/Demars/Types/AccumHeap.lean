import Demars.Lib.Heap
import Demars.Types.Rotation

/-!
# The heap under the rotation

`IncrementAccum` keeps the validators in a heap of `libs/common/heap.go`. The heap holds pointers, here indices
into the list of validators. `CompareAccum` panics on validators that it cannot tell apart, so whether
`IncrementAccum` panics depends on the comparisons that the heap makes.
-/

namespace Demars

open List Option

/-- `accumComparable.Less`; `none` is the panic of `CompareAccum`. -/
def accumLess (ac other : Validator) : Option Bool :=
  (ac.compareAccum other).map fun larger => decide (larger.address = ac.address)

namespace ValidatorSet

def pointerLess (vals : List Validator) (i j : Nat) : Option Bool :=
  match vals[i]?, vals[j]? with
  | some v, some w => accumLess v w
  | _, _ => none

/-- The heap that the first loop of `IncrementAccum` fills, when all `Accum`s are raised. -/
def heapOf (vals : List Validator) : Option (List Nat) :=
  (List.range vals.length).foldlM (fun heap i => Heap.push (pointerLess vals) heap i) []

/-- The second loop of `IncrementAccum`: the last turn sets the proposer, the others put the heap in order. -/
def heapLoop (total : Int) : Nat → List Validator → List Nat → Option Validator → Option ValidatorSet
  | 0, vals, _, proposer => some ⟨vals, proposer⟩
  | n + 1, vals, heap, _ =>
    (heap[0]?).bind fun i => (vals[i]?).bind fun mostest =>
      let mostest := { mostest with accum := safeSubClip mostest.accum total }
      if n = 0 then some ⟨vals.set i mostest, some mostest⟩
      else (Heap.fix (pointerLess (vals.set i mostest)) heap 0).bind fun heap =>
        heapLoop total n (vals.set i mostest) heap (some mostest)

def heapIncrementAccum (valSet : ValidatorSet) (times : Int) : Option ValidatorSet :=
  let vals := valSet.validators.map fun v => { v with accum := safeAddClip v.accum (safeMulClip v.votingPower times) }
  (heapOf vals).bind fun heap => heapLoop valSet.totalVotingPower times.toNat vals heap valSet.proposer

def PointerLE (vals : List Validator) (i j : Nat) : Prop :=
  i = j ∨ ∃ v w, vals[i]? = some v ∧ vals[j]? = some w ∧ v.Beats w

instance (vals : List Validator) : IsTrans Nat (PointerLE vals) where
  trans i j k hij hjk := by
    rcases hij with rfl | ⟨u, v, hu, hv, huv⟩
    · exact hjk
    · rcases hjk with rfl | ⟨v', w, hv', hw, hvw⟩
      · exact .inr ⟨u, v, hu, hv, huv⟩
      · rw [hv] at hv'
        cases hv'
        exact .inr ⟨u, w, hu, hw, huv.trans hvw⟩

section

variable {vals : List Validator} {heap : List Nat} {total : Int} {v : Validator}

theorem address_ne (hnodup : (vals.map Validator.address).Nodup) {i j : Nat} {w : Validator} (hij : i ≠ j)
    (hv : vals[i]? = some v) (hw : vals[j]? = some w) : v.address ≠ w.address := by
  intro heq
  have hi : (vals.map Validator.address)[i]? = some v.address := by rw [getElem?_map, hv, map_some]
  have hj : (vals.map Validator.address)[j]? = some v.address := by rw [getElem?_map, hw, map_some, heq]
  have hlen := (List.getElem?_eq_some_iff.1 hi).1
  exact hij ((getElem?_inj hlen hnodup).1 (hi.trans hj.symm))

theorem comparable_pointers (hnodup : (vals.map Validator.address).Nodup) (hheap : heap.Nodup)
    (hlt : ∀ i ∈ heap, i < vals.length) :
    Heap.Comparable (pointerLess vals) (PointerLE vals) heap := by
  have hcompares {i j : Nat} (hij : i ≠ j) (hi : i < vals.length) (hj : j < vals.length) :
      Heap.Compares (pointerLess vals) (PointerLE vals) i j := by
    obtain ⟨v, hv⟩ := Heap.exists_getElem? hi
    obtain ⟨w, hw⟩ := Heap.exists_getElem? hj
    have hne := address_ne hnodup hij hv hw
    have hless : pointerLess vals i j = accumLess v w := by simp only [pointerLess, hv, hw]
    rw [Heap.Compares, hless, accumLess]
    rcases Validator.compareAccum_spec hne with ⟨hcmp, hbeats⟩ | ⟨hcmp, hbeats⟩
    · rw [hcmp, map_some, decide_eq_true rfl]
      exact .inl ⟨rfl, .inr ⟨v, w, hv, hw, hbeats⟩⟩
    · rw [hcmp, map_some, decide_eq_false (Ne.symm hne)]
      exact .inr ⟨rfl, .inr ⟨w, v, hw, hv, hbeats⟩⟩
  refine List.Pairwise.imp_of_mem ?_ hheap
  intro i j hi hj hij
  exact ⟨hcompares hij (hlt i hi) (hlt j hj), hcompares (Ne.symm hij) (hlt j hj) (hlt i hi)⟩

/-- All validators, in the order of a heap. -/
structure IsHeap (vals : List Validator) (heap : List Nat) : Prop where
  perm : heap.Perm (List.range vals.length)
  ordered : Heap.Ordered (PointerLE vals) heap

theorem IsHeap.comparable (hnodup : (vals.map Validator.address).Nodup) (hperm : heap.Perm (List.range vals.length)) :
    Heap.Comparable (pointerLess vals) (PointerLE vals) heap := by
  apply comparable_pointers hnodup
  · exact hperm.nodup_iff.2 nodup_range
  · intro i hi
    exact mem_range.1 (hperm.mem_iff.1 hi)

theorem heapOf_spec (hnodup : (vals.map Validator.address).Nodup) :
    ∃ heap, heapOf vals = some heap ∧ IsHeap vals heap := by
  -- after `n` turns the heap holds the first `n` pointers
  have hloop : ∀ n ≤ vals.length, ∃ heap, (List.range n).foldlM (fun heap i => Heap.push (pointerLess vals) heap i)
    [] = some heap ∧
        heap.Perm (List.range n) ∧ Heap.Ordered (PointerLE vals) heap := by
    intro n
    induction n with
    | zero =>
      intro _
      exact ⟨[], rfl, List.Perm.refl _, fun i _ x y _ hy => absurd hy (by simp)⟩
    | succ n ih =>
      intro hn
      obtain ⟨heap, hfold, hperm, hordered⟩ := ih (by omega)
      have hperm' : (heap ++ [n]).Perm (List.range (n + 1)) := by
        rw [range_succ]
        exact hperm.append_right [n]
      have hc : Heap.Comparable (pointerLess vals) (PointerLE vals) (heap ++ [n]) := by
        apply comparable_pointers hnodup
        · exact hperm'.nodup_iff.2 nodup_range
        · intro i hi
          have := mem_range.1 (hperm'.mem_iff.1 hi)
          omega
      obtain ⟨heap', hpush, hpermpush, hordered'⟩ := Heap.push_spec hordered hc
      refine ⟨heap', ?_, hpermpush.trans hperm', hordered'⟩
      rw [range_succ, foldlM_append, hfold]
      simp [hpush]
  obtain ⟨heap, hfold, hperm, hordered⟩ := hloop vals.length le_rfl
  exact ⟨heap, hfold, hperm, hordered⟩

theorem root_mostest (hnodup : (vals.map Validator.address).Nodup) (hne : vals ≠ []) (h : IsHeap vals heap) :
    ∃ i v, heap[0]? = some i ∧ vals[i]? = some v ∧ mostest vals = some v := by
  have hlen : 0 < heap.length := by
    rw [h.perm.length_eq, length_range]
    exact length_pos_iff.2 hne
  obtain ⟨i, hi⟩ := Heap.exists_getElem? hlen
  have hmem (k : Nat) : k ∈ heap ↔ k < vals.length := h.perm.mem_iff.trans mem_range
  obtain ⟨v, hv⟩ := Heap.exists_getElem? ((hmem i).1 (mem_of_getElem? hi))
  obtain ⟨best, hbest, hmost, hall⟩ := mostest_spec hne hnodup
  refine ⟨i, v, hi, hv, ?_⟩
  rw [hmost]
  by_contra hdiff
  -- otherwise the two would beat each other
  obtain ⟨k, hk⟩ := getElem?_of_mem hbest
  have hbeats : best.Beats v := hall v (mem_of_getElem? hv) fun heq => hdiff (congrArg some heq.symm)
  obtain ⟨pos, hpos⟩ := getElem?_of_mem ((hmem k).2 (List.getElem?_eq_some_iff.1 hk).1)
  have hik : i ≠ k := by
    rintro rfl
    exact hdiff (hk.symm.trans hv)
  have hpos0 : 0 < pos := by
    refine Nat.pos_of_ne_zero fun h0 => hik ?_
    rw [h0, hi] at hpos
    exact Option.some.inj hpos
  rcases h.ordered.root hi pos hpos0 k hpos with heq | ⟨v', w, hv', hw, hbeats'⟩
  · exact hik heq
  · rw [hv] at hv'
    rw [hk] at hw
    cases hv'
    cases hw
    exact hbeats.asymm hbeats'

theorem map_address_set {i : Nat} (hv : vals[i]? = some v) (accum : Int) :
    (vals.set i { v with accum := accum }).map Validator.address = vals.map Validator.address := by
  apply ext_getElem?
  intro k
  rw [map_set, getElem?_set, length_map]
  by_cases hik : i = k
  · subst hik
    rw [if_pos rfl, if_pos (List.getElem?_eq_some_iff.1 hv).1, getElem?_map, hv, map_some]
  · rw [if_neg hik]

theorem map_ite_eq_set (hnodup : (vals.map Validator.address).Nodup) {i : Nat} (hv : vals[i]? = some v)
    (f : Validator → Validator) : (vals.map fun w => if w = v then f w else w) = vals.set i (f v) := by
  apply ext_getElem?
  intro k
  rw [getElem?_map, getElem?_set]
  by_cases hik : i = k
  · subst hik
    rw [hv, if_pos rfl, if_pos (List.getElem?_eq_some_iff.1 hv).1, map_some, if_pos rfl]
  · rw [if_neg hik]
    cases hw : vals[k]? with
    | none => rfl
    | some w =>
      have hne : w ≠ v := fun heq => address_ne hnodup (Ne.symm hik) hw hv (congrArg Validator.address heq)
      rw [map_some, if_neg hne]

theorem fix_isHeap (hnodup : (vals.map Validator.address).Nodup) (h : IsHeap vals heap) {i : Nat}
    (hroot : heap[0]? = some i) (hv : vals[i]? = some v) (accum : Int) :
    ∃ heap', Heap.fix (pointerLess (vals.set i { v with accum := accum })) heap 0 = some heap' ∧
      IsHeap (vals.set i { v with accum := accum }) heap' := by
  have hperm : heap.Perm (List.range (vals.set i { v with accum := accum }).length) := by
    rw [length_set]
    exact h.perm
  have hnodup' : ((vals.set i { v with accum := accum }).map Validator.address).Nodup := by
    rw [map_address_set hv]
    exact hnodup
  have hheap : heap.Nodup := h.perm.nodup_iff.2 nodup_range
  have hne : heap ≠ [] := by
    rintro rfl
    cases hroot
  -- the pointer that changed is only at the root
  have hother : ∀ j k, 0 < j → heap[j]? = some k → i ≠ k := by
    rintro j k hj hk rfl
    have := (getElem?_inj (List.getElem?_eq_some_iff.1 hroot).1 hheap).1 (hroot.trans hk.symm)
    omega
  have hdown : Heap.DownOrder (PointerLE (vals.set i { v with accum := accum })) heap 0 := by
    apply h.ordered.downOrder
    intro a b x y ha hb hx hy hle
    rcases hle with heq | ⟨u, w, hu, hw, hbeats⟩
    · exact .inl heq
    · refine .inr ⟨u, w, ?_, ?_, hbeats⟩
      · rw [getElem?_set_ne (hother a x ha hx), hu]
      · rw [getElem?_set_ne (hother b y hb hy), hw]
  obtain ⟨heap', hfix, hperm', hordered⟩ := Heap.fix_root_spec hne (IsHeap.comparable hnodup' hperm) hdown
  exact ⟨heap', hfix, hperm'.trans hperm, hordered⟩

theorem heapLoop_eq : ∀ (n : Nat) {vals : List Validator} {heap : List Nat} {proposer : Option Validator},
    (vals.map Validator.address).Nodup → IsHeap vals heap → heapLoop total n vals heap proposer =
      decrementLoop total n ⟨vals, proposer⟩
  | 0, _, _, _, _, _ => rfl
  | n + 1, vals, heap, proposer, hnodup, h => by
    rw [heapLoop, decrementLoop, decrementMostest]
    by_cases hne : vals = []
    · subst hne
      have hempty : heap = [] := List.Perm.eq_nil (by simpa using h.perm)
      subst hempty
      rfl
    · obtain ⟨i, v, hroot, hv, hmost⟩ := root_mostest hnodup hne h
      simp only [hroot, hv, hmost, bind_some, map_some]
      rw [map_ite_eq_set hnodup hv fun w => { w with accum := safeSubClip w.accum total }]
      cases n with
      | zero => rfl
      | succ n =>
        obtain ⟨heap', hfix, h'⟩ := fix_isHeap hnodup h hroot hv (safeSubClip v.accum total)
        have hnodup' := (map_address_set hv (safeSubClip v.accum total)).symm ▸ hnodup
        rw [if_neg (Nat.succ_ne_zero n), hfix, bind_some]
        exact heapLoop_eq (n + 1) hnodup' h'

end

theorem heapIncrementAccum_eq {valSet : ValidatorSet} (hnodup : (valSet.validators.map Validator.address).Nodup)
    (times : Int) :
    valSet.heapIncrementAccum times = valSet.incrementAccum times := by
  have hraised : ((valSet.validators.map fun v =>
      { v with accum := safeAddClip v.accum (safeMulClip v.votingPower times) }).map Validator.address).Nodup := by
    rw [List.map_map]
    exact hnodup
  obtain ⟨heap, hheap, hisHeap⟩ := heapOf_spec hraised
  rw [heapIncrementAccum]
  simp only [hheap]
  exact heapLoop_eq times.toNat hraised hisHeap

end ValidatorSet

end Demars
