import Demars.Types.ValidatorSet

/-!
# Commits and their verification

`Commit` of `types/block.go` and `ValidatorSet.VerifyCommit`. `twoThirds` doubles the total power in an `int64`.
-/

namespace Demars

open Machine

structure Commit where
  blockID : BlockID
  precommits : List (Option Vote)
deriving DecidableEq

def emptyPrecommit : Vote where
  validatorAddress := []
  validatorIndex := 0
  height := 0
  round := 0
  timestamp := 0
  type_ := voteTypePrecommit
  blockID := BlockID.empty
  signature := none

namespace Commit

def firstPrecommit (commit : Commit) : Vote := (commit.precommits.findSome? id).getD emptyPrecommit

def height (commit : Commit) : Int := if commit.precommits.length = 0 then 0 else commit.firstPrecommit.height

def round (commit : Commit) : Int := if commit.precommits.length = 0 then 0 else commit.firstPrecommit.round

end Commit

inductive CommitError
  | wrongSetSize (size slots : Nat)
  | wrongHeight (height got : Int)
  | wrongRound (round got : Int)
  | notPrecommit (idx : Nat)
  | invalidSignature (precommit : Vote)
  | insufficientVotingPower (got needed : Int)
deriving DecidableEq

namespace ValidatorSet

section

variable (P : Primitives) (A : Amino) (valSet : ValidatorSet) (chainID : Bytes) (blockID : BlockID) (height round : Int)

/-- The loop body of `VerifyCommit` at slot `idx`: the power to count, if any; a missing key panics. -/
def checkPrecommit (idx : Nat) (precommit : Vote) : Option (Except CommitError (Option Int)) :=
  if precommit.height ≠ height then some (.error (.wrongHeight height precommit.height))
  else if precommit.round ≠ round then some (.error (.wrongRound round precommit.round))
  else if precommit.type_ ≠ voteTypePrecommit then some (.error (.notPrecommit idx))
  else (valSet.getByIndex idx).bind fun val => val.pubKey.map fun key =>
    if key.verifyBytes P (precommit.signBytes A chainID) precommit.signature = false then
      .error (.invalidSignature precommit)
    else .ok (if blockID = precommit.blockID then some val.votingPower else none)

def tallyLoop : Nat → List (Option Vote) → Int → Option (Except CommitError Int)
  | _, [], tallied => some (.ok tallied)
  | idx, none :: slots, tallied => tallyLoop (idx + 1) slots tallied
  | idx, some precommit :: slots, tallied =>
    match checkPrecommit P A valSet chainID blockID height round idx precommit with
    | none => none
    | some (.error err) => some (.error err)
    | some (.ok none) => tallyLoop (idx + 1) slots tallied
    | some (.ok (some power)) => tallyLoop (idx + 1) slots (wrap64 (tallied + power))

def verifyCommit (commit : Commit) : Option (Except CommitError Unit) :=
  if valSet.size ≠ commit.precommits.length then some (.error (.wrongSetSize valSet.size commit.precommits.length))
  else if height ≠ commit.height then some (.error (.wrongHeight height commit.height))
  else match tallyLoop P A valSet chainID blockID height commit.round 0 commit.precommits 0 with
    | none => none
    | some (.error err) => some (.error err)
    | some (.ok tallied) =>
      if tallied > valSet.twoThirds then some (.ok ())
      else some (.error (.insufficientVotingPower tallied (wrap64 (valSet.twoThirds + 1))))

def WellSigned (idx : Nat) (vote : Vote) : Prop :=
  vote.height = height ∧ vote.round = round ∧ vote.type_ = voteTypePrecommit ∧
    ∃ val key, valSet.validators[idx]? = some val ∧ val.pubKey = some key ∧
      key.verifyBytes P (vote.signBytes A chainID) vote.signature = true

def votesFor (slots : List (Option Vote)) (i : Nat) : Bool :=
  ((slots[i]?).join).any fun vote => decide (blockID = vote.blockID)

def tally : Nat → List (Option Vote) → Int
  | _, [] => 0
  | idx, slot :: slots =>
    (if slot.any (fun vote => decide (blockID = vote.blockID)) then valSet.power idx else 0) + tally (idx + 1) slots

end

section

variable {P : Primitives} {A : Amino} {valSet : ValidatorSet} {chainID : Bytes} {blockID : BlockID} {height round : Int}

theorem tally_nonneg (h : valSet.Bounded) :
    ∀ (idx : Nat) (slots : List (Option Vote)), 0 ≤ tally valSet blockID idx slots
  | _, [] => le_rfl
  | idx, slot :: slots => by
    have ih := tally_nonneg h (idx + 1) slots
    have := power_nonneg h idx
    unfold tally
    split_ifs <;> omega

theorem tally_eq_sum : ∀ (idx : Nat) (slots : List (Option Vote)), tally valSet blockID idx slots =
      ∑ k ∈ Finset.range slots.length, if votesFor blockID slots k then valSet.power (idx + k) else 0
  | _, [] => rfl
  | idx, slot :: slots => by
    rw [tally, tally_eq_sum (idx + 1) slots, List.length_cons, Finset.sum_range_succ', add_comm]
    have hstep : ∀ k, votesFor blockID (slot :: slots) (k + 1) = votesFor blockID slots k := fun k => by
      simp [votesFor]
    have hidx : ∀ k, idx + 1 + k = idx + (k + 1) := fun k => by omega
    simp only [hstep, hidx]
    simp [votesFor]

variable {slots : List (Option Vote)} {commit : Commit}

theorem tally_eq_powerOf (h : slots.length = valSet.size) :
    tally valSet blockID 0 slots = valSet.powerOf (votesFor blockID slots) := by
  simp only [tally_eq_sum, h, zero_add, powerOf, Finset.sum_filter]

theorem checkPrecommit_eq_ok {idx : Nat} {precommit : Vote} {r : Option Int} :
    checkPrecommit P A valSet chainID blockID height round idx precommit = some (.ok r) ↔
      WellSigned P A valSet chainID height round idx precommit ∧
        r = if blockID = precommit.blockID then some (valSet.power idx) else none := by
  unfold checkPrecommit WellSigned
  by_cases hh : precommit.height = height
  swap
  · simp [hh]
  by_cases hr : precommit.round = round
  swap
  · simp [hh, hr]
  by_cases ht : precommit.type_ = voteTypePrecommit
  swap
  · simp [hh, hr, ht]
  rw [if_neg (not_ne_iff.2 hh), if_neg (not_ne_iff.2 hr), if_neg (not_ne_iff.2 ht)]
  simp only [Option.bind_eq_some_iff, Option.map_eq_some_iff, getByIndex_eq_some, Int.toNat_natCast]
  constructor
  · rintro ⟨val, ⟨-, hval⟩, key, hkey, hok⟩
    rw [power_eq hval]
    cases hsig : key.verifyBytes P (precommit.signBytes A chainID) precommit.signature with
    | false => simp [hsig] at hok
    | true =>
      simp only [hsig, Bool.true_eq_false, if_false, Except.ok.injEq] at hok
      exact ⟨⟨hh, hr, ht, val, key, hval, hkey, hsig⟩, hok.symm⟩
  · rintro ⟨⟨-, -, -, val, key, hval, hkey, hsig⟩, rfl⟩
    exact ⟨val, ⟨Int.natCast_nonneg idx, hval⟩, key, hkey, by simp [hsig, power_eq hval]⟩

theorem wellSigned_tail {idx : Nat} {slot : Option Vote}
    (hws : ∀ k vote, (slot :: slots)[k]? = some (some vote) →
      WellSigned P A valSet chainID height round (idx + k) vote) :
    ∀ k vote, slots[k]? = some (some vote) → WellSigned P A valSet chainID height round (idx + 1 + k) vote := by
  intro k vote hk
  have := hws (k + 1) vote (by simpa using hk)
  rwa [show idx + 1 + k = idx + (k + 1) by omega]

theorem tallyLoop_of_wellSigned (hb : valSet.Bounded) : ∀ (idx : Nat) (slots : List (Option Vote)) (tallied : Int),
    (∀ k vote, slots[k]? = some (some vote) → WellSigned P A valSet chainID height round (idx + k) vote) →
    0 ≤ tallied → tallied + tally valSet blockID idx slots ≤ maxInt64 →
    tallyLoop P A valSet chainID blockID height round idx slots tallied =
      some (.ok (tallied + tally valSet blockID idx slots))
  | _, [], tallied, _, _, _ => by simp [tallyLoop, tally]
  | idx, none :: slots, tallied, hws, h0, hle => by
    simp only [tally, Option.any_none, Bool.false_eq_true, if_false, zero_add] at hle ⊢
    rw [tallyLoop, tallyLoop_of_wellSigned hb (idx + 1) slots tallied (wellSigned_tail hws) h0 hle]
  | idx, some precommit :: slots, tallied, hws, h0, hle => by
    have hcheck : checkPrecommit P A valSet chainID blockID height round idx precommit =
        some (.ok (if blockID = precommit.blockID then some (valSet.power idx) else none)) :=
      checkPrecommit_eq_ok.2 ⟨hws 0 precommit rfl, rfl⟩
    have hpos := power_nonneg hb idx
    have hrest : 0 ≤ tally valSet blockID (idx + 1) slots := tally_nonneg hb (idx + 1) slots
    simp only [tally, Option.any_some, decide_eq_true_eq] at hle ⊢
    rw [tallyLoop, hcheck]
    by_cases hblk : blockID = precommit.blockID
    · simp only [if_pos hblk] at hle ⊢
      rw [wrap64_eq (by unfold minInt64; omega) (by omega),
        tallyLoop_of_wellSigned hb (idx + 1) slots _ (wellSigned_tail hws) (by omega) (by omega), add_assoc]
    · simp only [if_neg hblk, zero_add] at hle ⊢
      rw [tallyLoop_of_wellSigned hb (idx + 1) slots _ (wellSigned_tail hws) h0 hle]

theorem wellSigned_of_tallyLoop : ∀ (idx : Nat) (slots : List (Option Vote)) (tallied t : Int),
    tallyLoop P A valSet chainID blockID height round idx slots tallied = some (.ok t) →
    ∀ k vote, slots[k]? = some (some vote) → WellSigned P A valSet chainID height round (idx + k) vote
  | _, [], _, _, _, k, vote, hk => absurd hk (by simp)
  | idx, none :: slots, tallied, t, h, k, vote, hk => by
    cases k with
    | zero => exact absurd hk (by simp)
    | succ k =>
      have := wellSigned_of_tallyLoop (idx + 1) slots tallied t h k vote (by simpa using hk)
      rwa [show idx + (k + 1) = idx + 1 + k by omega]
  | idx, some precommit :: slots, tallied, t, h, k, vote, hk => by
    rw [tallyLoop] at h
    -- the head passed its check, and the rest of the loop ended well
    obtain ⟨r, tallied', hcheck, hrest⟩ : ∃ r tallied',
        checkPrecommit P A valSet chainID blockID height round idx precommit = some (.ok r) ∧
          tallyLoop P A valSet chainID blockID height round (idx + 1) slots tallied' = some (.ok t) := by
      split at h
      · exact absurd h (by simp)
      · exact absurd h (by simp)
      · exact ⟨_, _, ‹_›, h⟩
      · exact ⟨_, _, ‹_›, h⟩
    cases k with
    | zero =>
      cases Option.some.inj (Option.some.inj hk)
      exact (checkPrecommit_eq_ok.1 hcheck).1
    | succ k =>
      have := wellSigned_of_tallyLoop (idx + 1) slots _ t hrest k vote (by simpa using hk)
      rwa [show idx + (k + 1) = idx + 1 + k by omega]

theorem firstPrecommit_eq (h : commit.precommits.findSome? id ≠ none) :
    ∃ i : Nat, commit.precommits[i]? = some (some commit.firstPrecommit) := by
  obtain ⟨vote, hvote⟩ := Option.ne_none_iff_exists'.1 h
  obtain ⟨slot, hmem, hid⟩ := List.exists_of_findSome?_eq_some hvote
  obtain ⟨i, hi⟩ := List.mem_iff_getElem?.1 hmem
  refine ⟨i, ?_⟩
  rw [Commit.firstPrecommit, hvote, hi, Option.getD_some, ← hid, id]

/-- A commit with well-signed slots is for their height and round. -/
theorem height_round_of_wellSigned {i : Nat} {vote : Vote} (hi : commit.precommits[i]? = some (some vote))
    (hws : ∀ i vote, commit.precommits[i]? = some (some vote) → WellSigned P A valSet chainID height round i vote) :
    commit.height = height ∧ commit.round = round := by
  have hmem : some vote ∈ commit.precommits := List.mem_of_getElem? hi
  have hne : commit.precommits.findSome? id ≠ none := by
    intro h
    exact absurd (List.findSome?_eq_none_iff.1 h _ hmem) (by simp)
  obtain ⟨j, hj⟩ := firstPrecommit_eq hne
  have hlen : commit.precommits.length ≠ 0 := fun h => by simp [List.length_eq_zero_iff.1 h] at hmem
  obtain ⟨hh, hr, -⟩ := hws j _ hj
  rw [Commit.height, Commit.round, if_neg hlen, if_neg hlen]
  exact ⟨hh, hr⟩

theorem verifyCommit_eq_ok (hb : valSet.Bounded) :
    verifyCommit P A valSet chainID blockID height commit = some (.ok ()) ↔
      valSet.size = commit.precommits.length ∧ height = commit.height ∧
      (∀ i vote, commit.precommits[i]? = some (some vote) →
          WellSigned P A valSet chainID height commit.round i vote) ∧
        valSet.twoThirds < valSet.powerOf (votesFor blockID commit.precommits) := by
  unfold verifyCommit
  by_cases hsize : valSet.size = commit.precommits.length
  swap
  · simp [hsize]
  by_cases hheight : height = commit.height
  swap
  · simp [hsize, hheight]
  rw [if_neg (not_ne_iff.2 hsize), if_neg (not_ne_iff.2 hheight)]
  have hpow : tally valSet blockID 0 commit.precommits = valSet.powerOf (votesFor blockID commit.precommits) :=
    tally_eq_powerOf hsize.symm
  have hle : 0 + tally valSet blockID 0 commit.precommits ≤ maxInt64 := by
    rw [hpow, zero_add]
    exact (powerOf_le_sumPower hb _).trans hb.sum_le
  constructor
  · intro h
    cases hloop : tallyLoop P A valSet chainID blockID height commit.round 0 commit.precommits 0 with
    | none => simp [hloop] at h
    | some res =>
      cases res with
      | error err => simp [hloop] at h
      | ok tallied =>
        have hws := wellSigned_of_tallyLoop 0 commit.precommits 0 tallied hloop
        simp only [zero_add] at hws
        have htally := tallyLoop_of_wellSigned hb 0 commit.precommits 0 (by simpa only [zero_add] using hws) le_rfl hle
        rw [hloop, hpow] at htally
        cases Option.some.inj htally
        rw [hloop] at h
        by_contra hno
        have hsmall : ¬ valSet.powerOf (votesFor blockID commit.precommits) > valSet.twoThirds :=
          fun hgt => hno ⟨hsize, hheight, hws, hgt⟩
        simp [hsmall] at h
  · rintro ⟨-, -, hws, hgt⟩
    have htally := tallyLoop_of_wellSigned hb 0 commit.precommits 0 (by simpa only [zero_add] using hws) le_rfl hle
    rw [hpow] at htally
    simp [htally, hgt]

theorem isQuorum_of_powerOf {p : Nat → Bool} (h : 2 * valSet.sumPower < 3 * valSet.powerOf p) :
    Quorum.IsQuorum valSet.power (Finset.range valSet.size) ((Finset.range valSet.size).filter (p ·)) :=
  ⟨Finset.filter_subset _ _, h⟩

theorem votesFor_eq_true {i : Nat} :
    votesFor blockID slots i = true ↔ ∃ vote, slots[i]? = some (some vote) ∧ vote.blockID = blockID := by
  unfold votesFor
  cases hslot : slots[i]? with
  | none => simp
  | some slot =>
    cases slot with
    | none => simp
    | some vote => simp [eq_comm]

end

/-! ## Soundness and completeness -/

section

open Finset Quorum

variable (P : Primitives) (A : Amino) (valSet : ValidatorSet)

def Justified (chainID : Bytes) (blockID : BlockID) (height : Int) (commit : Commit) : Prop :=
  ∃ (round : Int) (signers : Finset Nat), IsQuorum valSet.power (range valSet.size) signers ∧
    ∀ i ∈ signers, ∃ vote, commit.precommits[i]? = some (some vote) ∧
      WellSigned P A valSet chainID height round i vote ∧ vote.blockID = blockID

def Complete (chainID : Bytes) (blockID : BlockID) (height : Int) (commit : Commit) : Prop :=
  commit.precommits.length = valSet.size ∧
    (∃ round, ∀ i vote, commit.precommits[i]? = some (some vote) →
      WellSigned P A valSet chainID height round i vote) ∧
    2 * valSet.sumPower < 3 * valSet.powerOf (votesFor blockID commit.precommits)

def MinoritySigns : Prop :=
  ∃ (i : Nat) (val : Validator) (key : PubKey) (chainID : Bytes) (vote : Vote),
    valSet.validators[i]? = some val ∧ val.pubKey = some key ∧ 3 * val.votingPower ≤ 2 * valSet.sumPower ∧
      vote.type_ = voteTypePrecommit ∧ key.verifyBytes P (vote.signBytes A chainID) vote.signature = true

variable {P A valSet} {chainID : Bytes} {blockID : BlockID} {height : Int} {commit : Commit}

theorem justified_of_powerOf
    (hws : ∀ i vote, commit.precommits[i]? = some (some vote) →
      WellSigned P A valSet chainID height commit.round i vote)
    (h : 2 * valSet.sumPower < 3 * valSet.powerOf (votesFor blockID commit.precommits)) :
    Justified P A valSet chainID blockID height commit := by
  refine ⟨commit.round, _, isQuorum_of_powerOf h, fun i hi => ?_⟩
  obtain ⟨vote, hvote, hblk⟩ := votesFor_eq_true.1 (mem_filter.1 hi).2
  exact ⟨vote, hvote, hws i vote hvote, hblk⟩

/-- Every complete commit is accepted, whatever the total power is. -/
theorem verifyCommit_of_complete (hb : valSet.Bounded) (h : Complete P A valSet chainID blockID height commit) :
    verifyCommit P A valSet chainID blockID height commit = some (.ok ()) := by
  obtain ⟨hlen, ⟨round, hws⟩, hpow⟩ := h
  have hsum := hb.sumPower_nonneg
  have hlt : valSet.twoThirds < valSet.powerOf (votesFor blockID commit.precommits) := by
    rcases le_or_gt (valSet.sumPower * 2) maxInt64 with hfit | hbig
    · rw [hb.twoThirds_eq hfit]
      omega
    · rw [hb.twoThirds_neg hbig]
      omega
  have hpos : 0 < valSet.powerOf (votesFor blockID commit.precommits) := by omega
  obtain ⟨i, -, hi⟩ := exists_of_powerOf_pos hpos
  obtain ⟨vote, hvote, -⟩ := votesFor_eq_true.1 hi
  obtain ⟨hh, hr⟩ := height_round_of_wellSigned hvote hws
  refine (verifyCommit_eq_ok hb).2 ⟨hlen.symm, hh.symm, fun i vote hv => ?_, hlt⟩
  rw [hr]
  exact hws i vote hv

theorem not_isQuorum_of_power (hb : valSet.Bounded) {i : Nat} {val : Validator}
    (hval : valSet.validators[i]? = some val) (hmin : 3 * val.votingPower ≤ 2 * valSet.sumPower)
    {signers : Finset Nat} (hsub : ∀ j ∈ signers, j = i) :
    ¬ IsQuorum valSet.power (range valSet.size) signers := by
  intro hquorum
  have hle := sum_le_sum_of_subset_of_nonneg (fun j hj => mem_singleton.2 (hsub j hj)) fun j _ _ => power_nonneg hb j
  rw [sum_singleton, power_eq hval] at hle
  have hw := hquorum.weight
  rw [sumPower] at hmin
  omega

theorem not_justified_of_power (hb : valSet.Bounded) {i : Nat} {val : Validator}
    (hval : valSet.validators[i]? = some val) (hmin : 3 * val.votingPower ≤ 2 * valSet.sumPower)
    (honly : ∀ (j : Nat) v, commit.precommits[j]? = some (some v) → j = i) :
    ¬ Justified P A valSet chainID blockID height commit := by
  rintro ⟨round, signers, hquorum, hsig⟩
  refine not_isQuorum_of_power hb hval hmin (fun j hj => ?_) hquorum
  obtain ⟨v, hv, -⟩ := hsig j hj
  exact honly j v hv

def noVotes (valSet : ValidatorSet) : Commit := ⟨BlockID.empty, List.replicate valSet.size none⟩

def oneVote (valSet : ValidatorSet) (i : Nat) (vote : Vote) : Commit :=
  ⟨vote.blockID, (List.replicate valSet.size none).set i (some vote)⟩

theorem noVotes_slot (i : Nat) (vote : Vote) : (noVotes valSet).precommits[i]? ≠ some (some vote) := by
  intro h
  rw [noVotes, List.getElem?_replicate] at h
  split_ifs at h
  exact absurd (Option.some.inj h) (by simp)

theorem oneVote_slot {i : Nat} (hi : i < valSet.size) (vote : Vote) :
    (oneVote valSet i vote).precommits[i]? = some (some vote) := by
  simp [oneVote, hi]

theorem eq_of_oneVote_slot {i j : Nat} {vote v : Vote} (hi : i < valSet.size)
    (hj : (oneVote valSet i vote).precommits[j]? = some (some v)) : j = i ∧ v = vote := by
  by_cases hji : j = i
  · subst hji
    rw [oneVote_slot hi] at hj
    exact ⟨rfl, (Option.some.inj (Option.some.inj hj)).symm⟩
  · rw [oneVote, List.getElem?_set_ne (Ne.symm hji)] at hj
    exact absurd hj (noVotes_slot j v)

/-- Where the double of the total does not fit, and the total is not the largest `int64`, a commit without precommits
is accepted at height zero. -/
theorem verifyCommit_noVotes (hb : valSet.Bounded) (hbig : maxInt64 < valSet.sumPower * 2)
    (hlt : valSet.sumPower < maxInt64) :
    verifyCommit P A valSet chainID blockID 0 (noVotes valSet) = some (.ok ()) := by
  have hfirst : (noVotes valSet).precommits.findSome? id = none := by
    rw [List.findSome?_eq_none_iff]
    intro slot hslot
    rw [List.eq_of_mem_replicate hslot, id]
  refine (verifyCommit_eq_ok hb).2 ⟨by simp [noVotes], ?_, fun i vote h => absurd h (noVotes_slot i vote), ?_⟩
  · simp [Commit.height, Commit.firstPrecommit, hfirst, emptyPrecommit]
  · have hpow := powerOf_nonneg hb (votesFor blockID (noVotes valSet).precommits)
    rw [hb.twoThirds_neg hbig]
    unfold maxInt64 at hlt
    omega

/-- Where the double of the total power does not fit, one signature is enough. -/
theorem verifyCommit_oneVote (hb : valSet.Bounded) (hbig : maxInt64 < valSet.sumPower * 2) {i : Nat} {val : Validator}
    {key : PubKey} {vote : Vote} (hval : valSet.validators[i]? = some val) (hkey : val.pubKey = some key)
    (htype : vote.type_ = voteTypePrecommit)
    (hver : key.verifyBytes P (vote.signBytes A chainID) vote.signature = true) :
    verifyCommit P A valSet chainID vote.blockID vote.height (oneVote valSet i vote) = some (.ok ()) := by
  have hi : i < valSet.size := (List.getElem?_eq_some_iff.1 hval).1
  have hslot := oneVote_slot hi vote
  have hws : ∀ (j : Nat) v, (oneVote valSet i vote).precommits[j]? = some (some v) →
      WellSigned P A valSet chainID vote.height vote.round j v := by
    intro j v hj
    obtain ⟨rfl, rfl⟩ := eq_of_oneVote_slot hi hj
    exact ⟨rfl, rfl, htype, val, key, hval, hkey, hver⟩
  obtain ⟨hh, hr⟩ := height_round_of_wellSigned hslot hws
  have hpow : valSet.power i ≤ valSet.powerOf (votesFor vote.blockID (oneVote valSet i vote).precommits) :=
    single_le_sum (fun j _ => power_nonneg hb j)
      (mem_filter.2 ⟨mem_range.2 hi, votesFor_eq_true.2 ⟨vote, hslot, rfl⟩⟩)
  have hpos := hb.pos val (List.mem_of_getElem? hval)
  rw [power_eq hval] at hpow
  refine (verifyCommit_eq_ok hb).2 ⟨by simp [oneVote], hh.symm, fun j v hj => ?_, ?_⟩
  · rw [hr]
    exact hws j v hj
  · have := hb.sum_le
    rw [hb.twoThirds_neg hbig]
    unfold maxInt64 at this
    omega

/-- **Soundness of `VerifyCommit`, exactly**: where the total power is an `int64`, every accepted commit is justified,
and every complete one accepted, if and only if the double of the total is an `int64` too, or the total is the largest
one and no validator with at most two thirds can sign. -/
theorem verifyCommit_sound_iff (P : Primitives) (A : Amino) (valSet : ValidatorSet) (hb : valSet.Bounded) :
    (∀ chainID blockID height commit,
      (verifyCommit P A valSet chainID blockID height commit = some (.ok ()) →
        Justified P A valSet chainID blockID height commit) ∧
      (Complete P A valSet chainID blockID height commit →
        verifyCommit P A valSet chainID blockID height commit = some (.ok ()))) ↔
    (valSet.sumPower * 2 ≤ maxInt64 ∨ (valSet.sumPower = maxInt64 ∧ ¬ MinoritySigns P A valSet)) := by
  constructor
  · intro h
    by_contra hno
    push Not at hno
    obtain ⟨hbig, hmax⟩ := hno
    rcases lt_or_eq_of_le hb.sum_le with hlt | heq
    · obtain ⟨round, signers, hquorum, hsig⟩ := (h [] BlockID.empty 0 _).1 (verifyCommit_noVotes hb hbig hlt)
      have hempty : signers = ∅ := eq_empty_iff_forall_notMem.2 fun i hi => by
        obtain ⟨vote, hvote, -⟩ := hsig i hi
        exact noVotes_slot i vote hvote
      have hw := hquorum.weight
      have hsum := hb.sumPower_nonneg
      rw [hempty, sum_empty] at hw
      rw [sumPower] at hsum
      omega
    · obtain ⟨i, val, key, chainID, vote, hval, hkey, hmin, htype, hver⟩ := hmax heq
      have hi : i < valSet.size := (List.getElem?_eq_some_iff.1 hval).1
      exact not_justified_of_power hb hval hmin (fun j v hj => (eq_of_oneVote_slot hi hj).1)
        ((h chainID vote.blockID vote.height _).1 (verifyCommit_oneVote hb hbig hval hkey htype hver))
  · intro hcond chainID blockID height commit
    refine ⟨fun hok => ?_, verifyCommit_of_complete hb⟩
    obtain ⟨hsize, hheight, hws, hgt⟩ := (verifyCommit_eq_ok hb).1 hok
    rcases hcond with hfit | ⟨heq, hmin⟩
    · rw [hb.twoThirds_eq hfit] at hgt
      exact justified_of_powerOf hws (by omega)
    · have hbig : maxInt64 < valSet.sumPower * 2 := by rw [heq]; decide
      rw [hb.twoThirds_neg hbig, heq] at hgt
      obtain ⟨i, hi, hvotes⟩ := exists_of_powerOf_pos hgt
      obtain ⟨vote, hvote, -⟩ := votesFor_eq_true.1 hvotes
      obtain ⟨-, -, htype, val, key, hval, hkey, hver⟩ := hws i vote hvote
      have hbigVal : 2 * valSet.sumPower < 3 * val.votingPower := by
        by_contra hle
        exact hmin ⟨i, val, key, chainID, vote, hval, hkey, by omega, htype, hver⟩
      have hpow : valSet.power i ≤ valSet.powerOf (votesFor blockID commit.precommits) :=
        single_le_sum (fun j _ => power_nonneg hb j) (mem_filter.2 ⟨mem_range.2 hi, hvotes⟩)
      rw [power_eq hval] at hpow
      exact justified_of_powerOf hws (by omega)

/-- Two validators of small powers, one of them without a key. -/
def smallSet : ValidatorSet := ⟨[⟨[1], some (.ed25519 [1]), 3, 0⟩, ⟨[2], none, 4, 0⟩], none⟩

theorem smallSet_bounded : smallSet.Bounded := ⟨by decide, by decide⟩

/-- In a set of small powers the accepted commits are the justified ones. -/
theorem verifyCommit_sound_small :
    smallSet.Bounded ∧ ∀ chainID blockID height commit,
      (verifyCommit .transparent .plain smallSet chainID blockID height commit = some (.ok ()) →
        Justified .transparent .plain smallSet chainID blockID height commit) ∧
      (Complete .transparent .plain smallSet chainID blockID height commit →
        verifyCommit .transparent .plain smallSet chainID blockID height commit = some (.ok ())) :=
  ⟨smallSet_bounded, (verifyCommit_sound_iff .transparent .plain _ smallSet_bounded).2 (.inl (by decide))⟩

/-! Two validators, one of power 1 and one of power `2 ^ 62`: the signature of the first alone passes. -/

/-- A set in which `TotalVotingPower()*2` wraps around. -/
def heavySet : ValidatorSet := keyed [(1, 1), (2, 2 ^ 62)]

def precommitBy (k : UInt8) (index : Int) : Vote := Vote.signedBy [k] [] {
  validatorAddress := (PubKey.ed25519 [k]).address .transparent
  validatorIndex := index
  height := 5
  round := 0
  timestamp := 0
  type_ := voteTypePrecommit
  blockID := ⟨[7], ⟨1, [8]⟩⟩
  signature := none }

def lightPrecommit : Vote := precommitBy 1 0

theorem heavySet_bounded : heavySet.Bounded := ⟨by decide, by decide⟩

/-- A commit with the signature of a validator of power 1 out of `2 ^ 62 + 1` is accepted. -/
theorem light_commit_accepted :
    verifyCommit .transparent .plain heavySet [] ⟨[7], ⟨1, [8]⟩⟩ 5 ⟨⟨[7], ⟨1, [8]⟩⟩, [some lightPrecommit, none]⟩ =
        some (.ok ()) ∧
      ¬ Justified .transparent .plain heavySet [] ⟨[7], ⟨1, [8]⟩⟩ 5 ⟨⟨[7], ⟨1, [8]⟩⟩, [some lightPrecommit, none]⟩ := by
  have hval : heavySet.validators[0]? = some ⟨(PubKey.ed25519 [1]).address .transparent, some (.ed25519 [1]), 1, 0⟩ :=
    rfl
  refine ⟨by decide +kernel, not_justified_of_power heavySet_bounded hval (by decide) fun j v hj => ?_⟩
  match j, hj with
  | 0, _ => rfl
  | 1, hj => exact absurd hj (by simp)
  | j + 2, hj => exact absurd hj (by simp)

end

end ValidatorSet

end Demars
