import Demars.Types.ValidatorUpdates
import Demars.Types.VoteSet

/-!
# The threshold of two thirds

`VerifyCommit`, `VerifyCommitAny` and `VoteSet` compare voting power with `TotalVotingPower()*2/3` in `int64`: the
powers are added with `safeAddClip`, the total is doubled, and the division rounds towards zero. The powers of a
set that the program builds may be any `int64`s.
-/

namespace Demars

open Machine List

def ValidatorSet.powers (valSet : ValidatorSet) : List Int := valSet.validators.map Validator.votingPower

namespace ValidatorSet

def PowersFit (valSet : ValidatorSet) : Prop :=
  ∀ val ∈ valSet.validators, minInt64 ≤ val.votingPower ∧ val.votingPower ≤ maxInt64

/-- The clipped sum of the powers, doubled at 64 bits and divided, is within one of two thirds of the sum. -/
def ExactThird (powers : List Int) : Prop :=
  let third := thirdOfDouble (powers.sum - clipLoss 0 powers)
  3 * third ≤ 2 * powers.sum ∧ 2 * powers.sum < 3 * third + 3

variable {valSet : ValidatorSet}

/-! ## The clipped total -/

theorem safeAddClip_eq {a b : Int} (ha : minInt64 ≤ a ∧ a ≤ maxInt64) (hb : minInt64 ≤ b ∧ b ≤ maxInt64) :
    safeAddClip a b = clamp64 (a + b) := by
  unfold safeAddClip safeAdd clamp64
  unfold minInt64 maxInt64 at *
  split_ifs <;> simp only <;> try split_ifs
  all_goals omega

/-- A product that does not fit is clipped to the side of its sign. -/
theorem clamp64_mul {a b : Int} (hne : a ≠ 0 ∧ b ≠ 0) (h : ¬ (minInt64 ≤ a * b ∧ a * b ≤ maxInt64)) :
    (if (a < 0 ∨ b < 0) ∧ ¬ (a < 0 ∧ b < 0) then minInt64 else maxInt64) = clamp64 (a * b) := by
  have hsign : (a < 0 ∨ b < 0) ∧ ¬ (a < 0 ∧ b < 0) ↔ a * b < 0 := by
    rw [mul_neg_iff]
    omega
  simp only [hsign]
  unfold clamp64 minInt64 maxInt64 at *
  split_ifs <;> omega

theorem safeMulClip_eq {a b : Int} (ha : minInt64 ≤ a ∧ a ≤ maxInt64) (hb : minInt64 ≤ b ∧ b ≤ maxInt64) :
    safeMulClip a b = clamp64 (a * b) := by
  have hclip := @clamp64_mul a b
  unfold safeMulClip safeMul
  generalize (if (a < 0 ∨ b < 0) ∧ ¬ (a < 0 ∧ b < 0) then minInt64 else maxInt64) = clipped at hclip ⊢
  split_ifs with hzero hone hone' hmin
  · rw [mul_eq_zero.2 hzero]
    rfl
  · rw [hone, one_mul, clamp64_eq hb.1 hb.2]
  · rw [hone', mul_one, clamp64_eq ha.1 ha.2]
  · refine hclip (not_or.1 hzero) ?_
    unfold minInt64 maxInt64 at *
    rcases hmin with rfl | rfl <;> omega
  · have hne := not_or.1 hzero
    by_cases hdiv : (wrap64 (a * b)).tdiv b = a
    · have heq := wrap64_mul_eq ⟨hne.2, hb⟩ hdiv
      have hlo : minInt64 ≤ wrap64 (a * b) := Int.le_bmod (by decide)
      have hhi : wrap64 (a * b) < 2 ^ 63 := Int.bmod_lt (by decide)
      simp only [hdiv, ne_eq, not_true_eq_false, decide_false]
      rw [← clamp64_eq hlo (by unfold maxInt64; omega), heq]
    · simp only [hdiv, ne_eq, not_false_eq_true, decide_true]
      refine hclip hne fun h => hdiv ?_
      rw [wrap64_eq h.1 h.2, Int.mul_tdiv_cancel a hne.2]

/-- **Clipped arithmetic**: sum, difference and product, brought to the nearest `int64`. -/
theorem clipped_exact {a b : Int} (ha : minInt64 ≤ a ∧ a ≤ maxInt64) (hb : minInt64 ≤ b ∧ b ≤ maxInt64) :
    safeAddClip a b = clamp64 (a + b) ∧ safeSubClip a b = clamp64 (a - b) ∧ safeMulClip a b = clamp64 (a * b) := by
  refine ⟨safeAddClip_eq ha hb, ?_, safeMulClip_eq ha hb⟩
  unfold safeSubClip safeSub clamp64
  unfold minInt64 maxInt64 at *
  split_ifs <;> simp only <;> try split_ifs
  all_goals omega

theorem clipped_exact_min :
    safeAddClip minInt64 (-1) = clamp64 (minInt64 + -1) ∧ safeSubClip minInt64 (-1) = clamp64 (minInt64 - -1) ∧
    safeMulClip minInt64 (-1) = clamp64 (minInt64 * -1) := clipped_exact (by decide) (by decide)

theorem foldl_safeAddClip_eq : ∀ {vals : List Validator} {total : Int}, minInt64 ≤ total ∧ total ≤ maxInt64 →
    (∀ val ∈ vals, minInt64 ≤ val.votingPower ∧ val.votingPower ≤ maxInt64) →
    vals.foldl (fun total val => safeAddClip total val.votingPower) total =
      (vals.map Validator.votingPower).foldl (fun total a => clamp64 (total + a)) total
  | [], _, _, _ => rfl
  | val :: vals, total, htotal, hvals => by
    rw [foldl_cons, map_cons, foldl_cons, safeAddClip_eq htotal (hvals val mem_cons_self)]
    exact foldl_safeAddClip_eq (clamp64_range _) fun v hv => hvals v (mem_cons_of_mem val hv)

theorem zero_range : minInt64 ≤ 0 ∧ (0 : Int) ≤ maxInt64 := by decide

theorem totalVotingPower_range (h : valSet.PowersFit) :
    minInt64 ≤ valSet.totalVotingPower ∧ valSet.totalVotingPower ≤ maxInt64 := by
  rw [totalVotingPower, foldl_safeAddClip_eq zero_range h]
  exact foldl_clamp64_range zero_range _

theorem totalVotingPower_eq_sub (h : valSet.PowersFit) :
    valSet.totalVotingPower = valSet.powers.sum - clipLoss 0 valSet.powers := by
  rw [totalVotingPower, foldl_safeAddClip_eq zero_range h, foldl_clamp64, zero_add]
  rfl

/-! ## The threshold -/

theorem twoThirds_eq_thirdOfDouble (h : valSet.PowersFit) :
    valSet.twoThirds = thirdOfDouble (valSet.powers.sum - clipLoss 0 valSet.powers) := by
  obtain ⟨hlo, hhi⟩ := totalVotingPower_range h
  rw [twoThirds, wrap64_two_mul_tdiv_eq hlo hhi, totalVotingPower_eq_sub h]

/-- A threshold is so small that one more does not overflow. -/
theorem wrap64_twoThirds_succ (h : valSet.PowersFit) : wrap64 (valSet.twoThirds + 1) = valSet.twoThirds + 1 := by
  obtain ⟨hlo, hhi⟩ := totalVotingPower_range h
  have hthird := wrap64_two_mul_tdiv_eq hlo hhi
  rw [twoThirds, hthird]
  unfold minInt64 at hlo
  unfold maxInt64 at hhi
  unfold thirdOfDouble
  refine wrap64_eq ?_ ?_
  · unfold minInt64
    split_ifs <;> omega
  · unfold maxInt64
    split_ifs <;> omega

theorem exactThird_iff_of_nonneg {powers : List Int} (h : ∀ p ∈ powers, 0 ≤ p) :
    ExactThird powers ↔ powers.sum * 2 ≤ maxInt64 := by
  have hsum : 0 ≤ powers.sum := sum_nonneg h
  simp only [ExactThird, clipLoss_of_nonneg le_rfl zero_range.2 h]
  unfold thirdOfDouble maxInt64
  rcases le_or_gt powers.sum (2 ^ 63 - 1) with hle | hgt
  · split_ifs <;> omega
  · split_ifs <;> omega

/-- The threshold is two thirds of the sum of the powers, rounded down, the quorum of each vote set is one more, and a
tally passes the threshold where it is more than two thirds, exactly where the powers have an exact third: without
negative powers, where the double of the sum fits. -/
theorem twoThirds_exact_iff (valSet : ValidatorSet) (h : valSet.PowersFit) :
    ((valSet.twoThirds = valSet.sumPower * 2 / 3 ∧
        (∀ voteSet : VoteSet, voteSet.valSet = valSet → voteSet.quorum = valSet.sumPower * 2 / 3 + 1) ∧
        ∀ tally : Int, valSet.twoThirds < tally ↔ 2 * valSet.sumPower < 3 * tally) ↔
      ExactThird valSet.powers) ∧
    ((∀ val ∈ valSet.validators, 0 ≤ val.votingPower) →
      (ExactThird valSet.powers ↔ valSet.sumPower * 2 ≤ maxInt64)) := by
  have hsum : valSet.sumPower = valSet.powers.sum := sumPower_eq_sum valSet
  refine ⟨?_, fun hnonneg => ?_⟩
  · have hthird : valSet.twoThirds = valSet.powers.sum * 2 / 3 ↔ ExactThird valSet.powers := by
      rw [twoThirds_eq_thirdOfDouble h, ExactThird]
      omega
    rw [hsum, hthird]
    refine ⟨And.left, fun hexact => ⟨hexact, fun voteSet hvote => ?_, fun tally => ?_⟩⟩
    · rw [VoteSet.quorum, hvote, wrap64_twoThirds_succ h, hthird.2 hexact]
    · rw [hthird.2 hexact]
      omega
  · rw [hsum]
    refine exactThird_iff_of_nonneg fun p hp => ?_
    obtain ⟨val, hval, rfl⟩ := List.mem_map.1 hp
    exact hnonneg val hval

def pairOf (power power' : Int) : List Validator := [⟨[1], none, power, 0⟩, ⟨[2], none, power', 0⟩]

theorem twoThirds_exact_pair :
    (⟨pairOf 4 3, none⟩ : ValidatorSet).PowersFit ∧ (⟨pairOf 4 3, none⟩ : ValidatorSet).twoThirds = 4 := by
  have hfit : (⟨pairOf 4 3, none⟩ : ValidatorSet).PowersFit := by
    unfold PowersFit
    decide
  have hexact := twoThirds_exact_iff ⟨pairOf 4 3, none⟩ hfit
  exact ⟨hfit, (hexact.1.2 ((hexact.2 (by decide)).2 (by decide))).1⟩

/-- Two validators with the power `2 ^ 61`: the doubled total overflows, and a tally of zero passes the threshold. -/
theorem twoThirds_overflows : ∃ valSet, newValidatorSet (pairOf (2 ^ 61) (2 ^ 61)) = some valSet ∧
    valSet.sumPower = 2 ^ 62 ∧ valSet.twoThirds = -3074457345618258602 ∧
    valSet.sumPower * 2 / 3 = 3074457345618258602 :=
  ⟨_, rfl, by decide, by decide, by decide⟩

end ValidatorSet

end Demars
