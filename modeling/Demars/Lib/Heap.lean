import Mathlib.Data.List.Perm.Basic
import Mathlib.Tactic

/-!
# Binary heaps

The heap of Go's `container/heap`, on a list: the children of the entry `i` are `2 * i + 1` and `2 * i + 2`. The
comparison may fail, and an operation fails with it, so it depends on which entries are compared.
-/

namespace Heap

open List Option

variable {α : Type*}

/-! ## The operations -/

def swap (h : List α) (i j : Nat) : List α :=
  match h[i]?, h[j]? with
  | some x, some y => (h.set i y).set j x
  | _, _ => h

section

variable (less : α → α → Option Bool)

def lessAt (h : List α) (i j : Nat) : Option Bool :=
  match h[i]?, h[j]? with
  | some x, some y => less x y
  | _, _ => none

def upLoop : Nat → List α → Nat → Option (List α)
  | 0, h, _ => some h
  | fuel + 1, h, j =>
    if (j - 1) / 2 = j then some h
    else (lessAt less h j ((j - 1) / 2)).bind fun isLess =>
      if isLess = true then upLoop fuel (swap h ((j - 1) / 2) j) ((j - 1) / 2) else some h

/-- `up`: the index falls in each turn. -/
def up (h : List α) (j : Nat) : Option (List α) := upLoop less j h j

/-- The child that `down` compares with its parent. -/
def child (h : List α) (i : Nat) : Option Nat :=
  if 2 * i + 2 < h.length then
    (lessAt less h (2 * i + 2) (2 * i + 1)).map fun isLess => if isLess = true then 2 * i + 2 else 2 * i + 1
  else some (2 * i + 1)

def downLoop : Nat → List α → Nat → Option (List α × Nat)
  | 0, h, i => some (h, i)
  | fuel + 1, h, i =>
    if h.length ≤ 2 * i + 1 then some (h, i)
    else (child less h i).bind fun j => (lessAt less h j i).bind fun isLess =>
      if isLess = true then downLoop fuel (swap h i j) j else some (h, i)

/-- `down`: the index rises in each turn. -/
def down (h : List α) (i : Nat) : Option (List α × Nat) := downLoop less h.length h i

def push (h : List α) (x : α) : Option (List α) := up less (h ++ [x]) h.length

def fix (h : List α) (i : Nat) : Option (List α) :=
  (down less h i).bind fun r => if i < r.2 then some r.1 else up less r.1 i

end

/-! ## Order -/

section

variable (less : α → α → Option Bool) (le : α → α → Prop)

/-- The comparison of two entries gives an answer that fits to the order. -/
def Compares (x y : α) : Prop := (less x y = some true ∧ le x y) ∨ (less x y = some false ∧ le y x)

def Comparable (h : List α) : Prop := h.Pairwise fun x y => Compares less le x y ∧ Compares less le y x

def InOrder (h : List α) (i : Nat) : Prop := ∀ x y, h[(i - 1) / 2]? = some x → h[i]? = some y → le x y

def Ordered (h : List α) : Prop := ∀ i, 0 < i → InOrder le h i

/-- The children of the entry `i` are in order with its parent. -/
def Grand (h : List α) (i : Nat) : Prop :=
  0 < i → ∀ c, 0 < c → (c - 1) / 2 = i → ∀ x y, h[(i - 1) / 2]? = some x → h[c]? = some y → le x y

/-- The order of the heap but between `j` and its parent. -/
structure UpOrder (h : List α) (j : Nat) : Prop where
  other : ∀ i, 0 < i → i ≠ j → InOrder le h i
  grand : Grand le h j

/-- The order of the heap but between `i` and its children. -/
structure DownOrder (h : List α) (i : Nat) : Prop where
  other : ∀ k, 0 < k → (k - 1) / 2 ≠ i → InOrder le h k
  grand : Grand le h i

end

variable {less : α → α → Option Bool} {le : α → α → Prop} {h h' : List α} {i j : Nat} {x y : α}

/-! ## Swaps -/

theorem swap_eq (hx : h[i]? = some x) (hy : h[j]? = some y) : swap h i j = (h.set i y).set j x := by
  simp only [swap, hx, hy]

theorem swap_perm (h : List α) (i j : Nat) : (swap h i j).Perm h := by
  unfold swap
  split
  · next x y hx hy =>
    obtain ⟨hi, rfl⟩ := List.getElem?_eq_some_iff.1 hx
    obtain ⟨hj, rfl⟩ := List.getElem?_eq_some_iff.1 hy
    exact set_set_perm hi hj
  · exact List.Perm.refl h

theorem getElem?_swap (hij : i ≠ j) (hx : h[i]? = some x) (hy : h[j]? = some y) (k : Nat) :
    (swap h i j)[k]? = if k = i then some y else if k = j then some x else h[k]? := by
  have hi := (List.getElem?_eq_some_iff.1 hx).1
  have hj := (List.getElem?_eq_some_iff.1 hy).1
  rw [swap_eq hx hy, getElem?_set, getElem?_set, length_set, if_pos hi, if_pos hj]
  by_cases hkj : j = k
  · subst hkj
    rw [if_pos rfl, if_neg (Ne.symm hij), if_pos rfl]
  · rw [if_neg hkj, if_neg (Ne.symm hkj : ¬ k = j)]
    by_cases hki : i = k
    · rw [if_pos hki, if_pos hki.symm]
    · rw [if_neg hki, if_neg (Ne.symm hki : ¬ k = i)]

theorem Comparable.perm (hc : Comparable less le h) (hperm : h.Perm h') : Comparable less le h' :=
  (hperm.pairwise_iff And.symm).1 hc

theorem Comparable.lessAt (hc : Comparable less le h) (hij : i ≠ j) (hx : h[i]? = some x) (hy : h[j]? = some y) :
    (lessAt less h i j = some true ∧ le x y) ∨ (lessAt less h i j = some false ∧ le y x) := by
  simp only [Heap.lessAt, hx, hy]
  obtain ⟨hi, rfl⟩ := List.getElem?_eq_some_iff.1 hx
  obtain ⟨hj, rfl⟩ := List.getElem?_eq_some_iff.1 hy
  rcases Nat.lt_or_gt_of_ne hij with hlt | hgt
  · exact (pairwise_iff_getElem.1 hc i j hi hj hlt).1
  · exact (pairwise_iff_getElem.1 hc j i hj hi hgt).2

theorem exists_getElem? (hi : i < h.length) : ∃ x, h[i]? = some x := ⟨_, getElem?_eq_getElem hi⟩

/-! ## Moving up -/

theorem UpOrder.ordered (o : UpOrder le h j) (hj : 0 < j → InOrder le h j) : Ordered le h := by
  intro i hi
  by_cases hij : i = j
  · exact hij ▸ hj (hij ▸ hi)
  · exact o.other i hi hij

theorem UpOrder.move [IsTrans α le] (o : UpOrder le h j) (hj : 0 < j) (hx : h[(j - 1) / 2]? = some x)
    (hy : h[j]? = some y) (hle : le y x) : UpOrder le (swap h ((j - 1) / 2) j) ((j - 1) / 2) := by
  have hne : (j - 1) / 2 ≠ j := by omega
  constructor
  · intro i hi hip u v hu hv
    rw [getElem?_swap hne hx hy] at hu hv
    rw [if_neg hip] at hv
    by_cases hij : i = j
    · subst hij
      rw [if_pos rfl] at hu hv
      cases hu
      cases hv
      exact hle
    · rw [if_neg hij] at hv
      by_cases hpar : (i - 1) / 2 = (j - 1) / 2
      · rw [if_pos hpar] at hu
        cases hu
        exact IsTrans.trans _ _ _ hle (o.other i hi hij x v (hpar ▸ hx) hv)
      · rw [if_neg hpar] at hu
        by_cases hchild : (i - 1) / 2 = j
        · rw [if_pos hchild] at hu
          cases hu
          exact o.grand hj i hi hchild x v hx hv
        · rw [if_neg hchild] at hu
          exact o.other i hi hij u v hu hv
  · intro hp c hc hcp u v hu hv
    have hgrand : ((j - 1) / 2 - 1) / 2 ≠ (j - 1) / 2 := by omega
    have hgrand' : ((j - 1) / 2 - 1) / 2 ≠ j := by omega
    have hcne : c ≠ (j - 1) / 2 := by omega
    rw [getElem?_swap hne hx hy] at hu hv
    rw [if_neg hgrand, if_neg hgrand'] at hu
    rw [if_neg hcne] at hv
    have hux : le u x := o.other _ hp hne u x hu hx
    by_cases hcj : c = j
    · rw [if_pos hcj] at hv
      cases hv
      exact hux
    · rw [if_neg hcj] at hv
      exact IsTrans.trans _ _ _ hux (o.other c hc hcj x v (hcp ▸ hx) hv)

theorem upLoop_spec [IsTrans α le] :
    ∀ (fuel : Nat) {h : List α} {j : Nat}, j ≤ fuel → j < h.length → Comparable less le h →
    UpOrder le h j → ∃ h', upLoop less fuel h j = some h' ∧ h'.Perm h ∧ Ordered le h'
  | 0, h, j, hfuel, _, _, o => ⟨h, rfl, List.Perm.refl h, o.ordered fun hj => absurd hfuel (by omega)⟩
  | fuel + 1, h, j, hfuel, hlen, hc, o => by
    rw [upLoop]
    by_cases hroot : (j - 1) / 2 = j
    · rw [if_pos hroot]
      exact ⟨h, rfl, List.Perm.refl h, o.ordered fun hj => absurd hroot (by omega)⟩
    · rw [if_neg hroot]
      obtain ⟨x, hx⟩ := exists_getElem? (show (j - 1) / 2 < h.length by omega)
      obtain ⟨y, hy⟩ := exists_getElem? hlen
      rcases hc.lessAt (Ne.symm hroot) hy hx with ⟨hless, hle⟩ | ⟨hless, hle⟩
      · rw [hless, bind_some, if_pos rfl]
        have hperm := swap_perm h ((j - 1) / 2) j
        obtain ⟨h', hup, hperm', hordered⟩ := upLoop_spec fuel (by omega) (by rw [hperm.length_eq]; omega)
          (hc.perm hperm.symm) (o.move (by omega) hx hy hle)
        exact ⟨h', hup, hperm'.trans hperm, hordered⟩
      · rw [hless, bind_some, if_neg Bool.false_ne_true]
        refine ⟨h, rfl, List.Perm.refl h, o.ordered fun _ u v hu hv => ?_⟩
        rw [hx] at hu
        rw [hy] at hv
        cases hu
        cases hv
        exact hle

theorem push_spec [IsTrans α le] (ho : Ordered le h) (hc : Comparable less le (h ++ [x])) :
    ∃ h', push less h x = some h' ∧ h'.Perm (h ++ [x]) ∧ Ordered le h' := by
  have hlen : (h ++ [x]).length = h.length + 1 := by simp
  refine upLoop_spec h.length le_rfl (by omega) hc ⟨fun i hi hne u v hu hv => ?_, fun _ c _ hcp u v _ hv => ?_⟩
  · have hlt := (List.getElem?_eq_some_iff.1 hv).1
    rw [getElem?_append_left (by omega)] at hu hv
    exact ho i hi u v hu hv
  · have hlt := (List.getElem?_eq_some_iff.1 hv).1
    omega

/-! ## Moving down -/

theorem DownOrder.ordered (o : DownOrder le h i) (hi : ∀ k, 0 < k → (k - 1) / 2 = i → InOrder le h k) :
    Ordered le h := by
  intro k hk
  by_cases hki : (k - 1) / 2 = i
  · exact hi k hk hki
  · exact o.other k hk hki

theorem DownOrder.move (o : DownOrder le h i) (hj : 0 < j) (hji : (j - 1) / 2 = i) (hx : h[i]? = some x)
    (hy : h[j]? = some y) (hle : le y x) (hmin : ∀ k, 0 < k → (k - 1) / 2 = i → k ≠ j → ∀ z, h[k]? = some z → le y z) :
    DownOrder le (swap h i j) j := by
  have hne : i ≠ j := by omega
  constructor
  · intro k hk hkj u v hu hv
    rw [getElem?_swap hne hx hy] at hu hv
    by_cases hki : (k - 1) / 2 = i
    · rw [if_pos hki] at hu
      rw [if_neg (by omega)] at hv
      cases hu
      by_cases heq : k = j
      · rw [if_pos heq] at hv
        cases hv
        exact hle
      · rw [if_neg heq] at hv
        exact hmin k hk hki heq v hv
    · rw [if_neg hki, if_neg hkj] at hu
      by_cases heq : k = i
      · rw [if_pos heq] at hv
        cases hv
        subst heq
        exact o.grand hk j hj hji u y hu hy
      · rw [if_neg heq, if_neg (by omega)] at hv
        exact o.other k hk hki u v hu hv
  · intro _ c hc hcj u v hu hv
    rw [getElem?_swap hne hx hy] at hu hv
    rw [hji, if_pos rfl] at hu
    rw [if_neg (by omega), if_neg (by omega)] at hv
    cases hu
    exact o.other c hc (by omega) y v (hcj.symm ▸ hy) hv

/-- `down` looks at the child that comes first. -/
theorem child_spec (hc : Comparable less le h) (hi : 2 * i + 1 < h.length) :
    ∃ j y, child less h i = some j ∧ 0 < j ∧ (j - 1) / 2 = i ∧ h[j]? = some y ∧
      ∀ k, 0 < k → (k - 1) / 2 = i → k ≠ j → ∀ z, h[k]? = some z → le y z := by
  obtain ⟨y₁, hy₁⟩ := exists_getElem? hi
  unfold child
  split_ifs with hsecond
  · obtain ⟨y₂, hy₂⟩ := exists_getElem? hsecond
    rcases hc.lessAt (by omega) hy₂ hy₁ with ⟨hless, hle⟩ | ⟨hless, hle⟩
    · refine ⟨2 * i + 2, y₂, by rw [hless]; rfl, by omega, by omega, hy₂, fun k hk hki hne z hz => ?_⟩
      have hk : k = 2 * i + 1 := by omega
      rw [hk, hy₁] at hz
      cases hz
      exact hle
    · refine ⟨2 * i + 1, y₁, by rw [hless]; rfl, by omega, by omega, hy₁, fun k hk hki hne z hz => ?_⟩
      have hk : k = 2 * i + 2 := by omega
      rw [hk, hy₂] at hz
      cases hz
      exact hle
  · refine ⟨2 * i + 1, y₁, rfl, by omega, by omega, hy₁, fun k hk hki hne z hz => ?_⟩
    have hlt := (List.getElem?_eq_some_iff.1 hz).1
    omega

theorem downLoop_spec [IsTrans α le] : ∀ (fuel : Nat) {h : List α} {i : Nat}, h.length ≤ fuel + i → i < h.length →
    Comparable less le h → DownOrder le h i → ∃ h' i', downLoop less fuel h i = some (h', i') ∧ h'.Perm h ∧
    Ordered le h'
  | 0, h, i, hfuel, hlen, _, _ => absurd hfuel (by omega)
  | fuel + 1, h, i, hfuel, hlen, hc, o => by
    rw [downLoop]
    by_cases hleaf : h.length ≤ 2 * i + 1
    · rw [if_pos hleaf]
      refine ⟨h, i, rfl, List.Perm.refl h, o.ordered fun k hk hki u v _ hv => ?_⟩
      have hlt := (List.getElem?_eq_some_iff.1 hv).1
      omega
    · rw [if_neg hleaf]
      obtain ⟨j, y, hchild, hj, hji, hy, hmin⟩ := child_spec hc (not_le.1 hleaf)
      obtain ⟨x, hx⟩ := exists_getElem? hlen
      rw [hchild, bind_some]
      rcases hc.lessAt (by omega) hy hx with ⟨hless, hle⟩ | ⟨hless, hle⟩
      · rw [hless, bind_some, if_pos rfl]
        have hperm := swap_perm h i j
        have hjlen := (List.getElem?_eq_some_iff.1 hy).1
        obtain ⟨h', i', hdown, hperm', hordered⟩ := downLoop_spec fuel (by rw [hperm.length_eq]; omega)
          (by rw [hperm.length_eq]; omega) (hc.perm hperm.symm) (o.move hj hji hx hy hle hmin)
        exact ⟨h', i', hdown, hperm'.trans hperm, hordered⟩
      · rw [hless, bind_some, if_neg Bool.false_ne_true]
        refine ⟨h, i, rfl, List.Perm.refl h, o.ordered fun k hk hki u v hu hv => ?_⟩
        rw [hki, hx] at hu
        cases hu
        by_cases hkj : k = j
        · rw [hkj, hy] at hv
          cases hv
          exact hle
        · exact IsTrans.trans _ _ _ hle (hmin k hk hki hkj v hv)

theorem fix_root_spec [IsTrans α le] (hne : h ≠ []) (hc : Comparable less le h) (o : DownOrder le h 0) :
    ∃ h', fix less h 0 = some h' ∧ h'.Perm h ∧ Ordered le h' := by
  have hlen : 0 < h.length := length_pos_iff.2 hne
  obtain ⟨h', i', hdown, hperm, hordered⟩ := downLoop_spec h.length (by omega) hlen hc o
  refine ⟨h', ?_, hperm, hordered⟩
  rw [fix, down, hdown, bind_some]
  -- above the root there is nothing left to do
  split_ifs
  · rfl
  · rfl

/-- Changing the order of the root leaves the other entries in order. -/
theorem Ordered.downOrder {le' : α → α → Prop} (ho : Ordered le h)
    (hsame : ∀ i j x y, 0 < i → 0 < j → h[i]? = some x → h[j]? = some y → le x y → le' x y) : DownOrder le' h 0 := by
  refine ⟨fun k hk hne u v hu hv => ?_, fun h0 => absurd h0 (lt_irrefl 0)⟩
  exact hsame _ k u v (Nat.pos_of_ne_zero hne) hk hu hv (ho k hk u v hu hv)

theorem Ordered.root [IsTrans α le] (ho : Ordered le h) (hx : h[0]? = some x) :
    ∀ i, 0 < i → ∀ y, h[i]? = some y → le x y := by
  intro i
  induction i using Nat.strongRecOn with
  | ind i ih =>
    intro hi y hy
    have hlt := (List.getElem?_eq_some_iff.1 hy).1
    obtain ⟨p, hp⟩ := exists_getElem? (show (i - 1) / 2 < h.length by omega)
    have hle := ho i hi p y hp hy
    by_cases hroot : (i - 1) / 2 = 0
    · rw [hroot, hx] at hp
      cases hp
      exact hle
    · exact IsTrans.trans _ _ _ (ih _ (by omega) (by omega) p hp) hle

end Heap
