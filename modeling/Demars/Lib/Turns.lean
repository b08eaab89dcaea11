import Mathlib.Algebra.Order.BigOperators.Group.Finset
import Mathlib.Algebra.BigOperators.Group.Multiset.Basic
import Mathlib.Tactic

/-!
# Taking turns

The members of a finite set have priorities. In each turn the member of the greatest priority comes next, the
smaller of two equal ones, and pays a fixed price. The priority of a member after it has paid `j` times is a level,
and turns take the levels in their order.
-/

namespace Turns

open Finset List

variable {ι : Type*} (lt : ι → ι → Prop) (T : ℤ)

/-- The priority of `i` when it has paid `j` times. -/
def level (y : ι → ℤ) (i : ι) (j : ℕ) : ℤ := y i - j * T

def Before (y : ι → ℤ) (i : ι) (j : ℕ) (k : ι) (l : ℕ) : Prop :=
  level T y k l < level T y i j ∨ (level T y k l = level T y i j ∧ lt i k)

def IsNext (A : Finset ι) (y : ι → ℤ) (i : ι) : Prop := i ∈ A ∧ ∀ k ∈ A, k ≠ i → Before lt T y i 0 k 0

def pay [DecidableEq ι] (y : ι → ℤ) (i : ι) : ι → ℤ := Function.update y i (y i - T)

/-- Turns from some priorities to others, with the members in the order of their turns. -/
inductive Run [DecidableEq ι] (A : Finset ι) : (ι → ℤ) → List ι → (ι → ℤ) → Prop
  | nil (y : ι → ℤ) : Run A y [] y
  | cons {y y' : ι → ℤ} {i : ι} {turns : List ι} (next : IsNext lt T A y i) (rest : Run A (pay T y i) turns y') :
      Run A y (i :: turns) y'

def paid [DecidableEq ι] (turns : List ι) (i : ι) : ℕ := turns.count i

def Top (A : Finset ι) (y : ι → ℤ) (c : ι → ℕ) : Prop :=
  ∀ i ∈ A, ∀ k ∈ A, ∀ j l, j < c i → c k ≤ l → Before lt T y i j k l

def levelsBefore [DecidableRel lt] (y : ι → ℤ) (i : ι) (j : ℕ) (k : ι) : ℕ :=
  if lt k i then ((y k - level T y i j) / T + 1).toNat else ((y k - level T y i j - 1) / T + 1).toNat

def ahead [DecidableRel lt] (A : Finset ι) (y : ι → ℤ) (i : ι) (j : ℕ) : ℕ := ∑ k ∈ A, levelsBefore lt T y i j k

variable {lt T} {A : Finset ι} {y y' : ι → ℤ} {i k : ι} {j l : ℕ} {turns : List ι} {c c' : ι → ℕ}

/-! ## Levels -/

theorem Before.asymm [Std.Asymm lt] (h : Before lt T y i j k l) : ¬ Before lt T y k l i j := by
  rcases h with h | ⟨h, hlt⟩
  · rintro (h' | ⟨h', -⟩) <;> omega
  · rintro (h' | ⟨-, hlt'⟩)
    · omega
    · exact Std.Asymm.asymm _ _ hlt hlt'

theorem Before.mono (hT : 0 < T) {l' : ℕ} (h : Before lt T y i j k l) (hl : l ≤ l') : Before lt T y i j k l' := by
  have hle : (l : ℤ) * T ≤ l' * T := by
    have : (l : ℤ) ≤ l' := by exact_mod_cast hl
    exact mul_le_mul_of_nonneg_right this hT.le
  unfold Before level at h ⊢
  rcases h with h | ⟨h, hlt⟩
  · omega
  · rcases eq_or_lt_of_le hle with heq | hlt'
    · exact .inr ⟨by omega, hlt⟩
    · omega

theorem before_self_iff [Std.Irrefl lt] (hT : 0 < T) : Before lt T y i l i j ↔ l < j := by
  unfold Before level
  have hirrefl : ¬ lt i i := Std.Irrefl.irrefl i
  constructor
  · rintro (h | ⟨-, h⟩)
    · have hmul : (l : ℤ) * T < j * T := by omega
      exact_mod_cast lt_of_mul_lt_mul_right hmul hT.le
    · exact absurd h hirrefl
  · intro h
    have hmul : (l : ℤ) * T < j * T := mul_lt_mul_of_pos_right (by exact_mod_cast h) hT
    omega

theorem before_lowered {z : ι → ℤ} {d : ι → ℕ} (hz : ∀ i ∈ A, z i = y i - d i * T) (hi : i ∈ A) (hk : k ∈ A) :
    Before lt T z i j k l ↔ Before lt T y i (j + d i) k (l + d k) := by
  have hlevel (i : ι) (hi : i ∈ A) (j : ℕ) : level T z i j = level T y i (j + d i) := by
    rw [level, level, hz i hi]
    push_cast
    ring
  rw [Before, Before, hlevel i hi, hlevel k hk]

theorem lt_levelsBefore_iff [DecidableRel lt] (hT : 0 < T) : l < levelsBefore lt T y i j k ↔ Before lt T y k l i j := by
  have hcount (a : ℤ) : l < (a / T + 1).toNat ↔ (l : ℤ) * T ≤ a := by
    rw [← Int.le_ediv_iff_mul_le hT]
    omega
  unfold levelsBefore Before
  split_ifs with hlt
  · rw [hcount]
    simp only [hlt, and_true, level]
    omega
  · rw [hcount]
    simp only [hlt, and_false, or_false, level]
    omega

/-! ## The levels at the top -/

theorem Top.le [Std.Asymm lt] (h : Top lt T A y c) (h' : Top lt T A y c') (hsum : ∑ i ∈ A, c i ≤ ∑ i ∈ A, c' i) :
    ∀ i ∈ A, c i ≤ c' i := by
  intro i hi
  by_contra hlt
  push Not at hlt
  obtain ⟨k, hk, hck⟩ : ∃ k ∈ A, c k < c' k := by
    by_contra hno
    push Not at hno
    exact absurd (sum_lt_sum hno ⟨i, hi, hlt⟩) (not_lt.2 hsum)
  exact (h i hi k hk (c' i) (c k) hlt le_rfl).asymm (h' k hk i hi (c k) (c' i) hck le_rfl)

theorem Top.lt_iff [DecidableRel lt] [Std.Asymm lt] (hT : 0 < T) (h : Top lt T A y c) (hi : i ∈ A) :
    j < c i ↔ ahead lt T A y i j < ∑ k ∈ A, c k := by
  constructor
  · intro hj
    refine sum_lt_sum (fun k hk => ?_) ⟨i, hi, ?_⟩
    · by_contra hlt
      exact (h i hi k hk j (c k) hj le_rfl).asymm ((lt_levelsBefore_iff hT).1 (not_le.1 hlt))
    · refine lt_of_le_of_lt ?_ hj
      by_contra hlt
      exact absurd ((before_self_iff hT).1 ((lt_levelsBefore_iff hT).1 (not_le.1 hlt))) (lt_irrefl j)
  · intro hlt
    by_contra hj
    refine absurd hlt (not_lt.2 (sum_le_sum fun k hk => ?_))
    by_contra hk'
    exact lt_irrefl _ ((lt_levelsBefore_iff hT).2 (h k hk i hi _ j (not_le.1 hk') (not_lt.1 hj)))

/-! ## Turns -/

variable [DecidableEq ι]

theorem paid_cons (first : ι) (turns : List ι) (i : ι) :
    paid (first :: turns) i = paid turns i + if i = first then 1 else 0 := by
  rw [paid, paid]
  by_cases hi : i = first
  · simp [hi]
  · simp [hi, Ne.symm hi]

theorem paid_append (turns turns' : List ι) (i : ι) : paid (turns ++ turns') i = paid turns i + paid turns' i :=
  count_append

theorem paid_le_length (turns : List ι) (i : ι) : paid turns i ≤ turns.length := count_le_length

theorem Run.mem (h : Run lt T A y turns y') : ∀ i ∈ turns, i ∈ A := by
  induction h with
  | nil => exact fun _ h => nomatch h
  | cons next _ ih =>
    intro k hk
    rcases mem_cons.1 hk with rfl | hk
    · exact next.1
    · exact ih k hk

theorem Run.sum_paid (h : Run lt T A y turns y') : ∑ i ∈ A, paid turns i = turns.length := by
  have := Multiset.sum_count_eq_card (s := A) (m := (turns : Multiset ι)) fun i hi => h.mem i (Multiset.mem_coe.1 hi)
  simpa [paid] using this

theorem Run.eq (h : Run lt T A y turns y') (i : ι) : y' i = y i - paid turns i * T := by
  induction h with
  | nil => simp [paid]
  | @cons y y' next turns hnext hrest ih =>
    rw [ih, pay, paid_cons]
    by_cases hi : i = next
    · subst hi
      rw [Function.update_self, if_pos rfl]
      push_cast
      ring
    · rw [Function.update_of_ne hi, if_neg hi, Nat.add_zero]

theorem Run.snoc {last : ι} (h : Run lt T A y (turns ++ [last]) y') :
    ∃ z, Run lt T A y turns z ∧ IsNext lt T A z last ∧ y' = pay T z last := by
  induction turns generalizing y with
  | nil =>
    cases h with
    | cons next rest =>
      cases rest
      exact ⟨y, .nil y, next, rfl⟩
  | cons first turns ih =>
    cases h with
    | cons next rest =>
      obtain ⟨z, hz, hlast, heq⟩ := ih rest
      exact ⟨z, .cons next hz, hlast, heq⟩

theorem Run.top (hT : 0 < T) (h : Run lt T A y turns y') : Top lt T A y (paid turns) := by
  induction h with
  | nil => exact fun _ _ _ _ j _ hj => absurd hj (by simp [paid])
  | @cons y y' first turns hnext hrest ih =>
    -- the levels after the first payment are the later levels of its member
    have hpaid : ∀ i ∈ A, pay T y first i = y i - ((if i = first then 1 else 0 : ℕ) : ℤ) * T := by
      intro i _
      by_cases hi : i = first
      · subst hi
        simp [pay]
      · simp [pay, hi]
    intro i hi k hk j l hj hl
    rw [paid_cons] at hj hl
    by_cases hfirst : i = first ∧ j = 0
    · obtain ⟨rfl, rfl⟩ := hfirst
      by_cases hki : k = i
      · subst hki
        have hlevel : level T y k l < level T y k 0 := by
          have hmul : 0 < (l : ℤ) * T := mul_pos (by exact_mod_cast (by omega : 0 < l)) hT
          simp only [level]
          omega
        exact .inl hlevel
      · exact (hnext.2 k hk hki).mono hT (Nat.zero_le l)
    · have hji : (if i = first then 1 else 0) ≤ j := by
        split_ifs with h
        · have : j ≠ 0 := fun h0 => hfirst ⟨h, h0⟩
          omega
        · exact Nat.zero_le j
      have hj' : j - (if i = first then 1 else 0) < paid turns i := by omega
      have hl' : paid turns k ≤ l - if k = first then 1 else 0 := by omega
      have hbefore := ih i hi k hk _ _ hj' hl'
      rw [before_lowered hpaid hi hk, Nat.sub_add_cancel hji, Nat.sub_add_cancel (by omega)] at hbefore
      exact hbefore

theorem IsNext.unique [Std.Asymm lt] {z : ι → ℤ} {i k : ι} (h : IsNext lt T A y i) (h' : IsNext lt T A z k)
    (hyz : ∀ i ∈ A, y i = z i) : i = k := by
  by_contra hne
  have hbefore := h'.2 i h.1 hne
  have hother := h.2 k h'.1 (Ne.symm hne)
  unfold Before level at hother
  rw [hyz i h.1, hyz k h'.1] at hother
  exact hbefore.asymm hother

/-- **Turns in advance.** A run from `y` and one that is shorter by `d` turns, whose price is taken off before, come
to the same end with the same last turn exactly if the turns in advance are among the turns of the first run but the
last. -/
theorem same_end_iff [Std.Asymm lt] (hT : 0 < T) {z y₁ y₂ : ι → ℤ} {d : ι → ℕ} {turns₁ turns₂ : List ι}
    {last₁ last₂ : ι} (hz : ∀ i ∈ A, z i = y i - d i * T) (h₁ : Run lt T A y (turns₁ ++ [last₁]) y₁)
    (h₂ : Run lt T A z (turns₂ ++ [last₂]) y₂) (hlen : turns₁.length = ∑ i ∈ A, d i + turns₂.length) :
    ((∀ i ∈ A, y₁ i = y₂ i) ∧ last₁ = last₂) ↔ ∀ i ∈ A, d i ≤ paid turns₁ i := by
  constructor
  · rintro ⟨hend, rfl⟩ i hi
    have heq := hend i hi
    rw [h₁.eq, h₂.eq, hz i hi] at heq
    have hmul : (paid (turns₁ ++ [last₁]) i : ℤ) * T = (d i + paid (turns₂ ++ [last₁]) i : ℤ) * T := by
      linarith
    have hcount : paid (turns₁ ++ [last₁]) i = d i + paid (turns₂ ++ [last₁]) i := by
      exact_mod_cast mul_right_cancel₀ hT.ne' hmul
    rw [paid_append, paid_append] at hcount
    omega
  · intro hd
    obtain ⟨m₁, hm₁, hnext₁, rfl⟩ := h₁.snoc
    obtain ⟨m₂, hm₂, hnext₂, rfl⟩ := h₂.snoc
    -- what the first run takes beyond the turns in advance is at the top of the lowered levels
    have htop : Top lt T A z fun i => paid turns₁ i - d i := by
      intro i hi k hk j l hj hl
      rw [before_lowered hz hi hk]
      have hj' : j + d i < paid turns₁ i := Nat.add_lt_of_lt_sub hj
      have hl' : paid turns₁ k ≤ l + d k := Nat.le_add_of_sub_le hl
      exact hm₁.top hT i hi k hk _ _ hj' hl'
    have hsum : ∑ i ∈ A, (paid turns₁ i - d i) = ∑ i ∈ A, paid turns₂ i := by
      rw [sum_tsub_distrib A hd, hm₁.sum_paid, hm₂.sum_paid, hlen, Nat.add_sub_cancel_left]
    have hsame : ∀ i ∈ A, m₁ i = m₂ i := by
      intro i hi
      have hle := htop.le (hm₂.top hT) hsum.le i hi
      have hge := (hm₂.top hT).le htop hsum.ge i hi
      have hcount : paid turns₁ i = d i + paid turns₂ i := by
        have := hd i hi
        omega
      rw [hm₁.eq, hm₂.eq, hz i hi, hcount]
      push_cast
      ring
    have hlast := hnext₁.unique hnext₂ hsame
    subst hlast
    refine ⟨fun i hi => ?_, rfl⟩
    by_cases hil : i = last₁
    · subst hil
      simp only [pay, Function.update_self, hsame i hi]
    · simp only [pay, Function.update_of_ne hil, hsame i hi]

end Turns
