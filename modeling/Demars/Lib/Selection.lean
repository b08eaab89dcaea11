import Mathlib.Data.List.MinMax
import Mathlib.Data.List.Sort
import Mathlib.Tactic

/-!
# The first of a sorted list

A list is sorted by a key, in any of the ways that ties allow (`Sorting`), and the first `k` are taken. Only a name
of each element is looked at. A name is possible where fewer than `k` elements come before its least element for
certain, and certain where fewer than `k` elements with other names can come before it.
-/

namespace Selection

open List

variable {α β κ : Type*} [LinearOrder κ]

structure Sorting (key : α → κ) (l r : List α) : Prop where
  perm : r.Perm l
  sorted : r.Pairwise fun x y => key x ≤ key y

variable {key : α → κ} {f : α → β} {l r s t : List α} {k : ℕ} {x : α}

/-! ## Ways to sort -/

theorem Sorting.of_perm (h : Sorting key l r) {l' : List α} (hp : l.Perm l') :
    Sorting key l' r := ⟨h.perm.trans hp, h.sorted⟩

theorem exists_sorting (key : α → κ) (l : List α) : ∃ r, Sorting key l r := by
  refine ⟨l.mergeSort fun x y => key x ≤ key y, mergeSort_perm _ _, ?_⟩
  have h : (l.mergeSort fun x y => key x ≤ key y).Pairwise fun x y => decide (key x ≤ key y) = true :=
    pairwise_mergeSort
      (fun x y z hxy hyz => by simpa using le_trans (of_decide_eq_true hxy) (of_decide_eq_true hyz))
      (fun x y => by simpa using le_total (key x) (key y)) l
  simpa using h

theorem Sorting.append {l' r' : List α} (h : Sorting key l r) (h' : Sorting key l' r')
    (hle : ∀ x ∈ l, ∀ y ∈ l', key x ≤ key y) : Sorting key (l ++ l') (r ++ r') where
  perm := h.perm.append h'.perm
  sorted := pairwise_append.2 ⟨h.sorted, h'.sorted, fun x hx y hy => hle x (h.perm.subset hx) y (h'.perm.subset hy)⟩

theorem exists_sorting_front (key : α → κ) (p : α → Bool) (hle : ∀ x ∈ l, p x → ∀ y ∈ l, ¬ p y → key x ≤ key y) :
    ∃ r r', Sorting key l (r ++ r') ∧ r.Perm (l.filter p) := by
  obtain ⟨r, hr⟩ := exists_sorting key (l.filter p)
  obtain ⟨r', hr'⟩ := exists_sorting key (l.filter fun x => !p x)
  refine ⟨r, r', (hr.append hr' fun x hx y hy => ?_).of_perm (filter_append_perm p l), hr.perm⟩
  obtain ⟨hx, hpx⟩ := mem_filter.1 hx
  obtain ⟨hy, hpy⟩ := mem_filter.1 hy
  exact hle x hx hpx y hy (by simpa using hpy)

/-! ## What is taken -/

/-- An element that is taken comes after fewer than `k` for certain. -/
theorem Sorting.countP_lt (h : Sorting key l r) (hx : x ∈ r.take k) : l.countP (fun y => key y < key x) < k := by
  have hsorted := h.sorted
  rw [← take_append_drop k r] at hsorted
  have hdrop : (r.drop k).countP (fun y => key y < key x) = 0 := countP_eq_zero.2 fun y hy => by
    simpa using (pairwise_append.1 hsorted).2.2 x hx y hy
  have hcount : l.countP (fun y => key y < key x) = (r.take k).countP fun y => key y < key x := by
    rw [← h.perm.countP_eq]
    conv_lhs => rw [← take_append_drop k r, countP_append, hdrop, Nat.add_zero]
  have hlt : (r.take k).countP (fun y => key y < key x) < (r.take k).length :=
    lt_of_le_of_ne countP_le_length fun heq => by simpa using countP_eq_length.1 heq x hx
  have hlen := length_take_le k r
  omega

/-- A name is taken where fewer than `k` elements with other names can come before one of its elements. -/
theorem Sorting.mem_of_countP [DecidableEq β] (h : Sorting key l r) (hx : x ∈ l)
    (hcount : l.countP (fun y => f y ≠ f x ∧ key y ≤ key x) < k) : f x ∈ (r.take k).map f := by
  by_contra hnot
  have hsorted := h.sorted
  have hmem := h.perm.symm.subset hx
  rw [← take_append_drop k r] at hsorted hmem
  have hdrop : x ∈ r.drop k := (mem_append.1 hmem).resolve_left fun htake => hnot (List.mem_map_of_mem htake)
  have hall : ∀ y ∈ r.take k, f y ≠ f x ∧ key y ≤ key x := fun y hy =>
    ⟨fun heq => hnot (heq ▸ List.mem_map_of_mem hy), (pairwise_append.1 hsorted).2.2 y hy x hdrop⟩
  have hlen : (r.take k).length = k := by
    have hpos := length_pos_of_mem hdrop
    rw [length_drop] at hpos
    rw [length_take]
    omega
  have htake : (r.take k).countP (fun y => decide (f y ≠ f x ∧ key y ≤ key x)) = (r.take k).length :=
    countP_eq_length.2 fun y hy => decide_eq_true (hall y hy)
  have hle : (r.take k).countP (fun y => decide (f y ≠ f x ∧ key y ≤ key x)) ≤ _ := (take_sublist k r).countP_le
  rw [h.perm.countP_eq] at hle
  omega

/-- What is taken is at least as great as what is left exactly where one of them is nothing or all keys are equal. -/
theorem Sorting.take_greatest_iff (h : Sorting key l r) :
    (∀ x ∈ r.take k, ∀ y ∈ r.drop k, key y ≤ key x) ↔ k = 0 ∨ l.length ≤ k ∨ ∀ x ∈ l, ∀ y ∈ l, key x = key y := by
  have hsorted := h.sorted
  rw [← take_append_drop k r, pairwise_append] at hsorted
  constructor
  · intro hgreat
    by_contra hno
    push Not at hno
    obtain ⟨hk, hlen, x, hx, y, hy, hne⟩ := hno
    rw [← h.perm.length_eq] at hlen
    -- one that is taken and one that is left have the key of every element
    obtain ⟨a, ha⟩ : ∃ a, a ∈ r.take k := exists_mem_of_ne_nil _ (by
      rw [ne_eq, take_eq_nil_iff, ← length_eq_zero_iff]
      omega)
    obtain ⟨b, hb⟩ : ∃ b, b ∈ r.drop k := exists_mem_of_ne_nil _ (by
      rw [ne_eq, drop_eq_nil_iff]
      omega)
    have hkey : ∀ z ∈ l, key z = key b := by
      intro z hz
      have hz' := h.perm.symm.subset hz
      rw [← take_append_drop k r, mem_append] at hz'
      rcases hz' with hz' | hz'
      · exact le_antisymm (hsorted.2.2 z hz' b hb) (hgreat z hz' b hb)
      · exact le_antisymm ((hgreat a ha z hz').trans (hsorted.2.2 a ha b hb))
          ((hgreat a ha b hb).trans (hsorted.2.2 a ha z hz'))
    exact hne ((hkey x hx).trans (hkey y hy).symm)
  · rintro (rfl | hlen | hall) x hx y hy
    · cases hx
    · rw [drop_of_length_le (h.perm.length_eq ▸ hlen)] at hy
      cases hy
    · exact (hall y (h.perm.subset (mem_of_mem_drop hy)) x (h.perm.subset (mem_of_mem_take hx))).le

/-! ## Ways to sort for and against a name -/

/-- A name with an element that comes after fewer than `k` for certain is taken in some way. -/
theorem exists_sorting_mem (f : α → β) (hx : x ∈ l) (hcount : l.countP (fun y => key y < key x) < k) :
    ∃ r, Sorting key l r ∧ f x ∈ (r.take k).map f := by
  obtain ⟨s, t, rfl⟩ := append_of_mem hx
  have hmid : (x :: (s ++ t)).Perm (s ++ x :: t) := perm_middle.symm
  obtain ⟨r, hr⟩ := exists_sorting key ((s ++ t).filter fun y => key y < key x)
  obtain ⟨r', hr'⟩ := exists_sorting key ((s ++ t).filter fun y => !decide (key y < key x))
  have hfirst : Sorting key [x] [x] := ⟨.refl _, pairwise_singleton _ _⟩
  have hrest : Sorting key (x :: (s ++ t).filter fun y => !decide (key y < key x)) (x :: r') :=
    hfirst.append hr' fun z hz y hy => by
      rw [mem_singleton.1 hz]
      simpa using (mem_filter.1 hy).2
  have hall := hr.append hrest fun y hy z hz => by
    have hlt : key y < key x := by simpa using (mem_filter.1 hy).2
    rcases mem_cons.1 hz with rfl | hz
    · exact hlt.le
    · have hge : key x ≤ key z := by simpa using (mem_filter.1 hz).2
      exact hlt.le.trans hge
  refine ⟨r ++ x :: r', hall.of_perm ?_, List.mem_map_of_mem ?_⟩
  · exact perm_middle.trans (((filter_append_perm _ (s ++ t)).cons x).trans hmid)
  · have hlen : r.length < k := by
      rw [hr.perm.length_eq, ← countP_eq_length_filter]
      rw [← hmid.countP_eq, countP_cons_of_neg (by simp)] at hcount
      exact hcount
    rw [take_append, mem_append]
    right
    obtain ⟨n, hn⟩ := Nat.exists_eq_add_of_lt hlen
    rw [show k - r.length = n + 1 by omega]
    exact mem_cons_self

/-- A name whose least element can come after `k` elements with other names is not taken in some way. -/
theorem exists_sorting_notMem [DecidableEq β] (hmin : ∀ y ∈ l, f y = f x → key x ≤ key y)
    (hcount : k ≤ l.countP fun y => f y ≠ f x ∧ key y ≤ key x) : ∃ r, Sorting key l r ∧ f x ∉ (r.take k).map f := by
  obtain ⟨r, r', hr, hperm⟩ := exists_sorting_front (l := l) key (fun y => f y ≠ f x ∧ key y ≤ key x)
    fun y hy hpy z hz hpz => by
      have hy' : key y ≤ key x := (of_decide_eq_true hpy).2
      by_cases hname : f z = f x
      · exact hy'.trans (hmin z hz hname)
      · have hlt : ¬ key z ≤ key x := fun hle => hpz (decide_eq_true ⟨hname, hle⟩)
        exact hy'.trans (le_of_lt (not_le.1 hlt))
  refine ⟨r ++ r', hr, fun hmem => ?_⟩
  have hlen : k ≤ r.length := by rwa [hperm.length_eq, ← countP_eq_length_filter]
  rw [take_append_of_le_length hlen] at hmem
  obtain ⟨y, hy, hname⟩ := List.mem_map.1 hmem
  have hp := (mem_filter.1 (hperm.subset (mem_of_mem_take hy))).2
  exact (of_decide_eq_true hp).1 hname

theorem exists_least [DecidableEq β] (key : α → κ) (f : α → β) (hx : x ∈ l) :
    ∃ y ∈ l, f y = f x ∧ ∀ z ∈ l, f z = f x → key y ≤ key z := by
  have hmem : x ∈ l.filter fun y => f y = f x := mem_filter.2 ⟨hx, by simp⟩
  obtain ⟨y, hy⟩ := Option.ne_none_iff_exists'.1 (mt argmin_eq_none.1 (ne_nil_of_mem hmem) :
    (l.filter fun y => f y = f x).argmin key ≠ none)
  obtain ⟨hyl, hname⟩ := mem_filter.1 (argmin_mem hy)
  refine ⟨y, hyl, by simpa using hname, fun z hz hzname => ?_⟩
  exact le_of_mem_argmin (mem_filter.2 ⟨hz, by simpa using hzname⟩) hy

theorem selection_iff [DecidableEq β] :
    (∀ r r', Sorting key l r → Sorting key l r' → ∀ a, a ∈ (r.take k).map f → a ∈ (r'.take k).map f) ↔
      ∀ x ∈ l, (∀ y ∈ l, f y = f x → key x ≤ key y) → l.countP (fun y => key y < key x) < k →
        l.countP (fun y => f y ≠ f x ∧ key y ≤ key x) < k := by
  constructor
  · intro h x hx hmin hfew
    obtain ⟨r, hr, htaken⟩ := exists_sorting_mem f hx hfew
    by_contra hmany
    obtain ⟨r', hr', hnot⟩ := exists_sorting_notMem hmin (not_lt.1 hmany)
    exact hnot (h r r' hr hr' _ htaken)
  · intro h r r' hr hr' a ha
    obtain ⟨x, hx, rfl⟩ := List.mem_map.1 ha
    obtain ⟨y, hy, hname, hmin⟩ := exists_least key f (hr.perm.subset (mem_of_mem_take hx))
    have hfew : l.countP (fun z => key z < key y) < k :=
      (countP_mono_left fun z _ hz => by
        have hle := hmin x (hr.perm.subset (mem_of_mem_take hx)) rfl
        simp only [decide_eq_true_eq] at hz ⊢
        exact hz.trans_le hle).trans_lt (hr.countP_lt hx)
    rw [← hname]
    rw [← hname] at hmin
    exact hr'.mem_of_countP hy (h y hy hmin hfew)

end Selection
