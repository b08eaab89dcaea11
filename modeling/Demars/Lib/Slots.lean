import Mathlib.Data.List.AList
import Mathlib.Tactic

/-!
# Lists with an index

Values with different keys are kept in a list, and a map leads from each key to its value and its place. A value is
taken out by moving the last one into its place.
-/

structure Slots {κ α : Type*} [DecidableEq κ] (key : α → κ) where
  index : AList fun _ : κ => α × ℕ
  list : List α
  indexed : ∀ k v i, index.lookup k = some (v, i) ↔ list[i]? = some v ∧ key v = k

namespace Slots

open List Option

variable {κ α : Type*} [DecidableEq κ] {key : α → κ}

def empty : Slots key := ⟨∅, [], by simp⟩

def get (s : Slots key) (k : κ) : Option α := (s.index.lookup k).map Prod.fst

variable {s : Slots key} {k : κ} {v : α}

theorem get_eq_some_iff : s.get k = some v ↔ v ∈ s.list ∧ key v = k := by
  simp only [get, map_eq_some_iff, Prod.exists, exists_and_right, exists_eq_right, s.indexed, mem_iff_getElem?]

@[simp]
theorem get_empty : (empty : Slots key).get k = none := rfl

theorem place_unique {i j : ℕ} {w : α} (hi : s.list[i]? = some v) (hj : s.list[j]? = some w) (hkey : key v = key w) :
    v = w ∧ i = j := by
  have hv := (s.indexed (key v) v i).2 ⟨hi, rfl⟩
  have hw := (s.indexed (key v) w j).2 ⟨hj, hkey.symm⟩
  rw [hv] at hw
  simpa using hw

/-! ## Adding -/

theorem indexed_append (hnew : s.index.lookup (key v) = none) (k : κ) (w : α) (i : ℕ) :
    (s.index.insert (key v) (v, s.list.length)).lookup k = some (w, i) ↔ (s.list ++ [v])[i]? = some w ∧ key w = k := by
  by_cases hk : k = key v
  · subst hk
    rw [AList.lookup_insert]
    constructor
    · rintro ⟨rfl, rfl⟩
      simp
    · rintro ⟨hw, hkey⟩
      rcases lt_trichotomy i s.list.length with hi | rfl | hi
      · rw [getElem?_append_left hi] at hw
        rw [(s.indexed _ w i).2 ⟨hw, hkey⟩] at hnew
        cases hnew
      · simp_all
      · rw [getElem?_eq_none (by simp; omega)] at hw
        cases hw
  · rw [AList.lookup_insert_ne hk, s.indexed]
    refine and_congr_left fun hkey => ?_
    rcases lt_trichotomy i s.list.length with hi | rfl | hi
    · rw [getElem?_append_left hi]
    · subst hkey
      simp only [getElem?_concat_length, Option.some.injEq, getElem?_eq_none le_rfl, reduceCtorEq, false_iff]
      rintro rfl
      exact hk rfl
    · rw [getElem?_eq_none (by omega), getElem?_eq_none (by simp; omega)]

/-- Puts a value at the end, unless its key is there. -/
def add (s : Slots key) (v : α) : Option (Slots key) :=
  match h : s.index.lookup (key v) with
  | some _ => none
  | none => some ⟨s.index.insert (key v) (v, s.list.length), s.list ++ [v], indexed_append h⟩

theorem add_eq_some {s' : Slots key} (h : s.add v = some s') : s.get (key v) = none ∧ s'.list = s.list ++ [v] := by
  unfold add at h
  split at h
  case h_1 => cases h
  case h_2 hnone =>
    cases h
    exact ⟨by rw [get, hnone, map_none], rfl⟩

theorem mem_list_add {w : α} (h : w ∈ ((s.add v).getD s).list) : w ∈ s.list ∨ w = v := by
  cases hadd : s.add v with
  | none =>
    rw [hadd] at h
    exact .inl h
  | some s' =>
    rw [hadd, getD_some, (add_eq_some hadd).2] at h
    simpa using h

theorem add_isSome (h : s.get (key v) = none) : (s.add v).isSome := by
  unfold add
  split
  case h_1 hsome =>
    rw [get, hsome] at h
    cases h
  case h_2 => rfl

/-! ## Removing -/

theorem indexed_dropLast {i : ℕ} (h : s.index.lookup k = some (v, i)) (hlast : i + 1 = s.list.length) (k' : κ) (w : α)
    (j : ℕ) :
    (s.index.erase k).lookup k' = some (w, j) ↔ s.list.dropLast[j]? = some w ∧ key w = k' := by
  obtain ⟨hv, rfl⟩ := (s.indexed _ _ _).1 h
  rw [getElem?_dropLast]
  by_cases hk : k' = key v
  · subst hk
    simp only [AList.lookup_erase, reduceCtorEq, false_iff, not_and]
    intro hw hkey
    split_ifs at hw with hj
    have := (place_unique hv hw hkey.symm).2
    omega
  · rw [AList.lookup_erase_ne hk, s.indexed]
    refine and_congr_left fun hkey => ?_
    by_cases hj : j < s.list.length - 1
    · rw [if_pos hj]
    · rw [if_neg hj]
      simp only [reduceCtorEq, iff_false]
      intro hw
      have hlt := (List.getElem?_eq_some_iff.1 hw).1
      obtain rfl : j = i := by omega
      rw [hv] at hw
      cases hw
      exact hk hkey.symm

theorem ne_nil {i : ℕ} (h : s.index.lookup k = some (v, i)) : s.list ≠ [] := by
  rintro hnil
  have := ((s.indexed _ _ _).1 h).1
  rw [hnil] at this
  cases this

theorem getElem?_getLast (h : s.list ≠ []) : s.list[s.list.length - 1]? = some (s.list.getLast h) := by
  rw [← getLast?_eq_getElem?, getLast?_eq_some_getLast h]

theorem indexed_swap {i : ℕ} (h : s.index.lookup k = some (v, i)) (hlast : i + 1 ≠ s.list.length) (k' : κ) (w : α)
    (j : ℕ) :
    ((s.index.insert (key (s.list.getLast (ne_nil h))) (s.list.getLast (ne_nil h), i)).erase k).lookup k' =
      some (w, j) ↔
      (s.list.dropLast.set i (s.list.getLast (ne_nil h)))[j]? = some w ∧ key w = k' := by
  obtain ⟨hv, rfl⟩ := (s.indexed _ _ _).1 h
  have hend := getElem?_getLast (ne_nil h)
  generalize s.list.getLast (ne_nil h) = last at hend ⊢
  have hi := (List.getElem?_eq_some_iff.1 hv).1
  have hkeys : key last ≠ key v := by
    intro heq
    have := (place_unique hend hv heq).2
    omega
  rw [getElem?_set, length_dropLast]
  by_cases hk : k' = key v
  · subst hk
    simp only [AList.lookup_erase, reduceCtorEq, false_iff, not_and]
    intro hw hkey
    split_ifs at hw with hij hlt
    · cases hw
      exact hkeys hkey
    · rw [getElem?_dropLast] at hw
      split_ifs at hw
      exact hij (place_unique hv hw hkey.symm).2
  rw [AList.lookup_erase_ne hk]
  by_cases hk' : k' = key last
  · subst hk'
    rw [AList.lookup_insert, Option.some.injEq, Prod.mk.injEq]
    constructor
    · rintro ⟨rfl, rfl⟩
      simp; omega
    · rintro ⟨hw, hkey⟩
      split_ifs at hw with hij hlt
      · exact ⟨Option.some.inj hw, hij⟩
      · rw [getElem?_dropLast] at hw
        split_ifs at hw
        have := (place_unique hend hw hkey.symm).2
        omega
  · rw [AList.lookup_insert_ne hk', s.indexed]
    refine and_congr_left fun hkey => ?_
    subst hkey
    split_ifs with hij hlt
    · subst hij
      rw [hv, Option.some.injEq, Option.some.injEq]
      constructor
      · rintro rfl
        exact absurd rfl hk
      · rintro rfl
        exact absurd rfl hk'
    · omega
    · rw [getElem?_dropLast]
      by_cases hj : j < s.list.length - 1
      · rw [if_pos hj]
      · rw [if_neg hj]
        simp only [reduceCtorEq, iff_false]
        intro hw
        have hlt := (List.getElem?_eq_some_iff.1 hw).1
        obtain rfl : j = s.list.length - 1 := by omega
        rw [hend] at hw
        cases hw
        exact hk' rfl

/-- Takes the value of a key out, and puts the last value into its place. -/
def remove (s : Slots key) (k : κ) : Slots key :=
  match h : s.index.lookup k with
  | none => s
  | some (_, i) =>
    if hlast : i + 1 = s.list.length then ⟨s.index.erase k, s.list.dropLast, indexed_dropLast h hlast⟩
    else
      ⟨(s.index.insert (key (s.list.getLast (ne_nil h))) (s.list.getLast (ne_nil h), i)).erase k,
        s.list.dropLast.set i (s.list.getLast (ne_nil h)), indexed_swap h hlast⟩

theorem get_remove (k' : κ) : (s.remove k).get k' = if k' = k then none else s.get k' := by
  unfold remove
  split
  case h_1 h =>
    split_ifs with hk
    · rw [hk, get, h, map_none]
    · rfl
  case h_2 v i h =>
    split_ifs with hlast hk hk
    · rw [get, hk, AList.lookup_erase, map_none]
    · simp [get, AList.lookup_erase_ne hk]
    · rw [get, hk, AList.lookup_erase, map_none]
    · rw [get, AList.lookup_erase_ne hk]
      by_cases hend : k' = key (s.list.getLast (ne_nil h))
      · have := (s.indexed _ _ _).2 ⟨getElem?_getLast (ne_nil h), rfl⟩
        rw [hend, AList.lookup_insert, get, this]
        rfl
      · rw [AList.lookup_insert_ne hend, get]

theorem mem_list_remove {w : α} : w ∈ (s.remove k).list ↔ w ∈ s.list ∧ key w ≠ k := by
  have hafter := get_eq_some_iff (s := s.remove k) (k := key w) (v := w)
  have hbefore := get_eq_some_iff (s := s) (k := key w) (v := w)
  rw [get_remove] at hafter
  split_ifs at hafter with hk
  · simp_all
  · simp_all

end Slots
