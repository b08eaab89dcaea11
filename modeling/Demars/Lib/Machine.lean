import Mathlib.Tactic

/-!
# Signed 64-bit arithmetic

Signed 64-bit integers are `Int`s, and `wrap64` brings the result of an operation back into their range, as two's
complement does. `clamp64` brings it back to the nearest number of the range.
-/

namespace Machine

open List

def maxInt64 : Int := 2 ^ 63 - 1

def minInt64 : Int := -2 ^ 63

def wrap64 (a : Int) : Int := a.bmod (2 ^ 64)

variable {a : Int}

theorem wrap64_eq (hlo : minInt64 ≤ a) (hhi : a ≤ maxInt64) : wrap64 a = a := by
  unfold minInt64 at hlo
  unfold maxInt64 at hhi
  exact Int.bmod_eq_of_le_mul_two (by omega) (by omega)

theorem wrap64_of_maxInt64_lt (hlo : maxInt64 < a) (hhi : a < 2 ^ 64) : wrap64 a = a - 2 ^ 64 := by
  unfold maxInt64 at hlo
  have h : (a - 2 ^ 64).bmod (2 ^ 64) = a - 2 ^ 64 := Int.bmod_eq_of_le_mul_two (by omega) (by omega)
  rw [wrap64, ← h]
  simp [Int.bmod_def]

/-- A product that wraps does not divide back. -/
theorem wrap64_mul_eq {b : Int} (hb : b ≠ 0 ∧ minInt64 ≤ b ∧ b ≤ maxInt64) (h : (wrap64 (a * b)).tdiv b = a) :
    wrap64 (a * b) = a * b := by
  obtain ⟨k, hk⟩ : (2 ^ 64 : Int) ∣ wrap64 (a * b) - a * b := Int.dvd_bmod_sub_self
  have hdiv := Int.mul_tdiv_add_tmod (wrap64 (a * b)) b
  rw [h, mul_comm b a] at hdiv
  have hrest : ((wrap64 (a * b)).tmod b).natAbs < b.natAbs := by
    rw [Int.natAbs_tmod]
    exact Nat.mod_lt _ (by omega)
  unfold minInt64 maxInt64 at hb
  omega

theorem wrap64_two_mul_neg (hlo : maxInt64 < a * 2) (hhi : a ≤ maxInt64) :
    wrap64 (a * 2) = a * 2 - 2 ^ 64 := wrap64_of_maxInt64_lt hlo (by unfold maxInt64 at hhi; omega)

/-- A third of a double that does not fit is at most zero. -/
theorem wrap64_two_mul_tdiv_neg (hlo : maxInt64 < a * 2) (hhi : a ≤ maxInt64) :
    (wrap64 (a * 2)).tdiv 3 = -((2 ^ 64 - a * 2) / 3) := by
  rw [wrap64_two_mul_neg hlo hhi]
  unfold maxInt64 at hlo hhi
  rw [show a * 2 - 2 ^ 64 = -(2 ^ 64 - a * 2) by ring, Int.neg_tdiv, Int.tdiv_eq_ediv_of_nonneg (by omega)]

theorem wrap64_two_mul_tdiv (hlo : 0 ≤ a) (hhi : a * 2 ≤ maxInt64) : (wrap64 (a * 2)).tdiv 3 = a * 2 / 3 := by
  rw [wrap64_eq (by unfold minInt64; omega) hhi, Int.tdiv_eq_ediv_of_nonneg (by omega)]

/-- Two thirds of a number, by doubling it at 64 bits and a division that rounds towards zero. -/
def thirdOfDouble (a : Int) : Int :=
  if a < -2 ^ 62 then (2 ^ 64 + 2 * a) / 3
  else if a < 0 then -(-2 * a / 3)
  else if a < 2 ^ 62 then 2 * a / 3
  else -((2 ^ 64 - 2 * a) / 3)

theorem wrap64_two_mul_tdiv_eq (hlo : minInt64 ≤ a) (hhi : a ≤ maxInt64) :
    (wrap64 (a * 2)).tdiv 3 = thirdOfDouble a := by
  have hlo' : -2 ^ 63 ≤ a := hlo
  have hhi' : a ≤ 2 ^ 63 - 1 := hhi
  unfold thirdOfDouble
  split_ifs with hlow hneg hfit
  · have hwrap : wrap64 (a * 2) = 2 ^ 64 + 2 * a := by
      have hrange : (2 ^ 64 + 2 * a).bmod (2 ^ 64) = 2 ^ 64 + 2 * a := Int.bmod_eq_of_le_mul_two (by omega) (by omega)
      rw [wrap64, ← hrange, show (2 : Int) ^ 64 + 2 * a = a * 2 + ((2 ^ 64 : Nat) : Int) by push_cast; ring,
        Int.add_bmod_right]
    rw [hwrap, Int.tdiv_eq_ediv_of_nonneg (by omega)]
  · rw [wrap64_eq (by unfold minInt64; omega) (by unfold maxInt64; omega), show a * 2 = -(-2 * a) by ring, Int.neg_tdiv,
      Int.tdiv_eq_ediv_of_nonneg (by omega)]
  · rw [wrap64_two_mul_tdiv (by omega) (by unfold maxInt64; omega), Int.mul_comm]
  · rw [wrap64_two_mul_tdiv_neg (by unfold maxInt64; omega) hhi, Int.mul_comm]

/-! ## Clipped sums -/

def clamp64 (a : Int) : Int := max minInt64 (min maxInt64 a)

theorem clamp64_range (a : Int) : minInt64 ≤ clamp64 a ∧ clamp64 a ≤ maxInt64 := by
  unfold clamp64 minInt64 maxInt64
  omega

theorem clamp64_eq (hlo : minInt64 ≤ a) (hhi : a ≤ maxInt64) : clamp64 a = a := by
  unfold clamp64
  omega

theorem clamp64_of_gt (h : maxInt64 < a) : clamp64 a = maxInt64 := by
  unfold clamp64 minInt64
  unfold maxInt64 at *
  omega

def clipLoss : Int → List Int → Int
  | _, [] => 0
  | total, a :: as => (total + a - clamp64 (total + a)) + clipLoss (clamp64 (total + a)) as

theorem foldl_clamp64 : ∀ (as : List Int) (total : Int),
    as.foldl (fun total a => clamp64 (total + a)) total = total + as.sum - clipLoss total as
  | [], total => by simp [clipLoss]
  | a :: as, total => by
    rw [foldl_cons, foldl_clamp64 as, sum_cons, clipLoss]
    omega

theorem foldl_clamp64_range {total : Int} (htotal : minInt64 ≤ total ∧ total ≤ maxInt64) : ∀ as : List Int,
    minInt64 ≤ as.foldl (fun total a => clamp64 (total + a)) total ∧
    as.foldl (fun total a => clamp64 (total + a)) total ≤ maxInt64
  | [] => htotal
  | a :: as => foldl_clamp64_range (clamp64_range (total + a)) as

/-- Without negative terms only what goes beyond the end of the range is left out. -/
theorem clipLoss_of_nonneg : ∀ {as : List Int} {total : Int}, 0 ≤ total → total ≤ maxInt64 → (∀ a ∈ as, 0 ≤ a) →
    clipLoss total as = max 0 (total + as.sum - maxInt64)
  | [], total, _, hhi, _ => by
    rw [clipLoss, sum_nil]
    omega
  | a :: as, total, hlo, hhi, hnonneg => by
    have ha := hnonneg a mem_cons_self
    have has : ∀ b ∈ as, 0 ≤ b := fun b hb => hnonneg b (mem_cons_of_mem a hb)
    have hsum : 0 ≤ as.sum := sum_nonneg has
    rw [clipLoss, sum_cons]
    rcases le_or_gt (total + a) maxInt64 with hle | hgt
    · rw [clamp64_eq (by unfold minInt64; omega) hle, clipLoss_of_nonneg (by omega) hle has]
      omega
    · rw [clamp64_of_gt hgt, clipLoss_of_nonneg (by unfold maxInt64; omega) le_rfl has]
      omega

end Machine
