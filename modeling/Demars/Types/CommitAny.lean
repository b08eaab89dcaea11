import Demars.Types.Commit
import Demars.Types.ValidatorUpdates

/-!
# Commits across a change of validators

`ValidatorSet.VerifyCommitAny`: a commit with a slot for each validator of a new set, of which the votes of the
validators of an old set are counted. A vote is found by the address of its validator in the old set, and counts
for the new set where the key in its slot is the same.
-/

namespace Demars

open Machine List Option

inductive CommitAnyError
  | wrongSetSize (size slots : Nat)
  | wrongHeight (height got : Int)
  /-- `Blocks don't match - %d vs %d`, with the rounds -/
  | blocksDontMatch (round got : Int)
  | wrongRound (round got : Int)
  | notPrecommit (idx : Nat)
  | invalidSignature (precommit : Vote)
  | insufficientOldVotingPower (got needed : Int)
  | insufficientCurVotingPower (got needed : Int)
deriving DecidableEq

/-- What the loop of `VerifyCommitAny` counts. -/
structure AnyTally where
  oldVotingPower : Int
  newVotingPower : Int
  seen : List Nat

namespace ValidatorSet

section

variable (P : Primitives) (A : Amino) (valSet newSet : ValidatorSet) (chainID : Bytes) (blockID : BlockID)
  (height round : Int)

/-- The body of the loop; `none` is the panic on a validator without a key. -/
def checkAny (idx : Nat) (precommit : Vote) (t : AnyTally) : Option (Except CommitAnyError AnyTally) :=
  if precommit.height ≠ height then some (.error (.blocksDontMatch round precommit.round))
  else if precommit.round ≠ round then some (.error (.wrongRound round precommit.round))
  else if precommit.type_ ≠ voteTypePrecommit then some (.error (.notPrecommit idx))
  else if blockID ≠ precommit.blockID then some (.ok t)
  else match valSet.getByAddress precommit.validatorAddress with
    | none => some (.ok t)
    | some (vi, ov) =>
      if vi ∈ t.seen then some (.ok t)
      else ov.pubKey.bind fun key =>
        if key.verifyBytes P (precommit.signBytes A chainID) precommit.signature = false then
          some (.error (.invalidSignature precommit))
        else (newSet.getByIndex idx).bind fun cv => cv.pubKey.map fun key' => .ok {
          oldVotingPower := wrap64 (t.oldVotingPower + ov.votingPower)
          newVotingPower := if key' = key then wrap64 (t.newVotingPower + cv.votingPower) else t.newVotingPower
          seen := vi :: t.seen }

def anyLoop : Nat → List (Option Vote) → AnyTally → Option (Except CommitAnyError AnyTally)
  | _, [], t => some (.ok t)
  | idx, none :: slots, t => anyLoop (idx + 1) slots t
  | idx, some precommit :: slots, t =>
    match checkAny P A valSet newSet chainID blockID height round idx precommit t with
    | none => none
    | some (.error err) => some (.error err)
    | some (.ok t') => anyLoop (idx + 1) slots t'

def verifyCommitAny (commit : Commit) : Option (Except CommitAnyError Unit) :=
  if newSet.size ≠ commit.precommits.length then some (.error (.wrongSetSize newSet.size commit.precommits.length))
  else if height ≠ commit.height then some (.error (.wrongHeight height commit.height))
  else match anyLoop P A valSet newSet chainID blockID height commit.round 0 commit.precommits ⟨0, 0, []⟩ with
    | none => none
    | some (.error err) => some (.error err)
    | some (.ok t) =>
      if t.oldVotingPower ≤ valSet.twoThirds then
        some (.error (.insufficientOldVotingPower t.oldVotingPower (wrap64 (valSet.twoThirds + 1))))
      else if t.newVotingPower ≤ newSet.twoThirds then
        some (.error (.insufficientCurVotingPower t.newVotingPower (wrap64 (newSet.twoThirds + 1))))
      else some (.ok ())

def Endorsed (commit : Commit) : Prop :=
  ∃ (round : Int) (signers : Finset Nat), Quorum.IsQuorum valSet.power (Finset.range valSet.size) signers ∧
    ∀ i ∈ signers, ∃ vote, some vote ∈ commit.precommits ∧ WellSigned P A valSet chainID height round i vote ∧
      vote.blockID = blockID

/-- The validators have the same key. -/
def sameKey (pair : Nat × Nat) : Bool :=
  decide ((valSet.validators[pair.1]?).bind Validator.pubKey = (newSet.validators[pair.2]?).bind Validator.pubKey)

/-- Validators of the old set and the slots of their votes, none of them twice. -/
structure Signed (slots : List (Option Vote)) (pairs : List (Nat × Nat)) : Prop where
  once : (pairs.map Prod.fst).Nodup
  apart : (pairs.map Prod.snd).Nodup
  votes : ∀ pair ∈ pairs, ∃ vote, slots[pair.2]? = some (some vote) ∧
    WellSigned P A valSet chainID height round pair.1 vote ∧
    vote.blockID = blockID

/-- Validators of the old set have signed with more than two thirds of its power, and those whose key is in the slot
of the new set have more than two thirds of its power. -/
def EndorsedAny (commit : Commit) : Prop :=
  ∃ round pairs, Signed P A valSet chainID blockID height round commit.precommits pairs ∧
    Quorum.IsQuorum valSet.power (Finset.range valSet.size)
      ((Finset.range valSet.size).filter fun i => decide (i ∈ pairs.map Prod.fst)) ∧
    Quorum.IsQuorum newSet.power (Finset.range newSet.size)
      ((Finset.range newSet.size).filter fun k => decide (k ∈ (pairs.filter (sameKey valSet newSet)).map Prod.snd))

/-- What the loop has counted when it has come to a slot. -/
structure Counted (slots : List (Option Vote)) (idx : Nat) (t : AnyTally) (pairs : List (Nat × Nat)) : Prop
    extends Signed P A valSet chainID blockID height round slots pairs where
  seen : t.seen = pairs.map Prod.fst
  lt : ∀ pair ∈ pairs, pair.2 < idx
  oldPower : valSet.Bounded → t.oldVotingPower = valSet.powerOf fun i => decide (i ∈ pairs.map Prod.fst)
  newPower : newSet.Bounded →
    t.newVotingPower = newSet.powerOf fun k => decide (k ∈ (pairs.filter (sameKey valSet newSet)).map Prod.snd)

/-- The powers are positive and two times their sum is an `int64`. -/
structure Fits : Prop extends valSet.Bounded where
  double_le : valSet.sumPower * 2 ≤ maxInt64

end

variable {P : Primitives} {A : Amino} {valSet newSet : ValidatorSet} {chainID : Bytes} {blockID : BlockID}
  {height round : Int} {slots : List (Option Vote)} {t t' : AnyTally}

theorem wrap64_powerOf_add (hb : valSet.Bounded) {l : List Nat} {i : Nat} {v : Validator}
    (hget : valSet.validators[i]? = some v) (hi : i ∉ l) :
    wrap64 (valSet.powerOf (fun j => decide (j ∈ l)) + v.votingPower) = valSet.powerOf fun j =>
      decide (j ∈ i :: l) := by
  have hinsert : valSet.powerOf (fun j => decide (j ∈ i :: l)) = valSet.powerOf (fun j => decide (j ∈ l)) +
    valSet.power i := by
    refine powerOf_insert (List.getElem?_eq_some_iff.1 hget).1 (by simpa using hi) fun j _ => ?_
    by_cases hj : j = i <;> simp
  have hle := powerOf_le_sumPower hb fun j => decide (j ∈ i :: l)
  have hsum := hb.sum_le
  have hnonneg := powerOf_nonneg hb fun j => decide (j ∈ l)
  have hpower := power_nonneg hb i
  rw [power_eq hget] at hinsert hpower
  rw [hinsert]
  exact wrap64_eq (by unfold minInt64; omega) (by omega)

theorem Counted.mono {idx idx' : Nat} {pairs : List (Nat × Nat)} (hle : idx ≤ idx')
    (h : Counted P A valSet newSet chainID blockID height round slots idx t pairs) :
    Counted P A valSet newSet chainID blockID height round slots idx' t pairs :=
  { h with lt := fun pair hpair => lt_of_lt_of_le (h.lt pair hpair) hle }

theorem Counted.checkAny {idx : Nat} {precommit : Vote} {pairs : List (Nat × Nat)}
    (hslot : slots[idx]? = some (some precommit))
    (h : Counted P A valSet newSet chainID blockID height round slots idx t pairs)
    (hcheck : checkAny P A valSet newSet chainID blockID height round idx precommit t = some (.ok t')) :
    ∃ pairs', Counted P A valSet newSet chainID blockID height round slots (idx + 1) t' pairs' := by
  have hskip := h.mono (Nat.le_succ idx)
  unfold ValidatorSet.checkAny at hcheck
  split_ifs at hcheck with hheight hround htype hblock
  · cases hcheck
  · cases hcheck
  · cases hcheck
  · cases hcheck
    exact ⟨pairs, hskip⟩
  rw [not_not] at hheight hround htype hblock
  split at hcheck
  · cases hcheck
    exact ⟨pairs, hskip⟩
  next vi ov hfound =>
    obtain ⟨val, heq, hget, -⟩ := getByAddress_eq_some hfound
    cases heq
    split_ifs at hcheck with hseen
    · cases hcheck
      exact ⟨pairs, hskip⟩
    obtain ⟨key, hkey, hcheck⟩ := bind_eq_some_iff.1 hcheck
    split_ifs at hcheck with hsig
    · cases hcheck
    obtain ⟨cv, hcv, hcheck⟩ := bind_eq_some_iff.1 hcheck
    obtain ⟨key', hkey', hcheck⟩ := map_eq_some_iff.1 hcheck
    cases hcheck
    rw [h.seen] at hseen
    obtain ⟨-, hcv⟩ := getByIndex_eq_some.1 hcv
    have hnew : idx ∉ pairs.map Prod.snd := fun hmem => by
      obtain ⟨pair, hpair, heq⟩ := mem_map.1 hmem
      exact absurd (h.lt pair hpair) (by omega)
    have hsame : sameKey valSet newSet (valSet.search precommit.validatorAddress, idx) = decide (key' = key) := by
      rw [sameKey, hget, show newSet.validators[idx]? = some cv from hcv, bind_some, bind_some, hkey, hkey']
      simp [eq_comm]
    refine ⟨(valSet.search precommit.validatorAddress, idx) :: pairs, ⟨nodup_cons.2 ⟨hseen, h.once⟩,
      nodup_cons.2 ⟨hnew, h.apart⟩, forall_mem_cons.2 ⟨⟨precommit, hslot, ⟨hheight, hround, htype, ov, key, hget, hkey,
        Bool.eq_true_of_not_eq_false hsig⟩, hblock.symm⟩, h.votes⟩⟩, by rw [h.seen, map_cons],
      forall_mem_cons.2 ⟨Nat.lt_succ_self idx, hskip.lt⟩, fun hb => ?_, fun hb => ?_⟩
    · rw [h.oldPower hb, map_cons]
      exact wrap64_powerOf_add hb hget hseen
    · rw [filter_cons, hsame, h.newPower hb]
      by_cases hk : key' = key
      · simp only [hk, decide_true, if_true, map_cons]
        exact wrap64_powerOf_add hb hcv fun hmem => hnew (map_subset _ (filter_subset_self ..) hmem)
      · simp only [hk, decide_false, Bool.false_eq_true, if_false]

theorem Counted.anyLoop : ∀ {rest : List (Option Vote)} {idx : Nat} {t : AnyTally} {pairs : List (Nat × Nat)},
    rest = slots.drop idx → Counted P A valSet newSet chainID blockID height round slots idx t pairs →
    anyLoop P A valSet newSet chainID blockID height round idx rest t = some (.ok t') →
    ∃ idx' pairs', Counted P A valSet newSet chainID blockID height round slots idx' t' pairs'
  | [], idx, _, pairs, _, h, hloop => by
    cases hloop
    exact ⟨idx, pairs, h⟩
  | none :: rest, idx, _, _, hrest, h, hloop =>
    Counted.anyLoop (by rw [← tail_drop, ← hrest, tail_cons]) (h.mono (Nat.le_succ idx)) hloop
  | some precommit :: rest, idx, t, pairs, hrest, h, hloop => by
    rw [ValidatorSet.anyLoop] at hloop
    split at hloop
    · cases hloop
    · cases hloop
    next t₁ hcheck =>
      have hslot : slots[idx]? = some (some precommit) := by rw [← head?_drop, ← hrest, head?_cons]
      obtain ⟨pairs₁, h₁⟩ := h.checkAny hslot hcheck
      exact Counted.anyLoop (by rw [← tail_drop, ← hrest, tail_cons]) h₁ hloop

theorem isQuorum_of_power (hfits : valSet.Fits) {power : Int} {l : List Nat}
    (hl : power = valSet.powerOf fun i => decide (i ∈ l)) (h : ¬ power ≤ valSet.twoThirds) :
    Quorum.IsQuorum valSet.power (Finset.range valSet.size) ((Finset.range valSet.size).filter fun i =>
      decide (i ∈ l)) := by
  rw [hfits.twoThirds_eq hfits.double_le] at h
  exact isQuorum_of_powerOf (by omega)

/-- What a successful run of the loop has counted. -/
theorem counted_of_verifyCommitAny {commit : Commit}
    (h : verifyCommitAny P A valSet newSet chainID blockID height commit = some (.ok ())) :
    ∃ idx t pairs, Counted P A valSet newSet chainID blockID height commit.round commit.precommits idx t pairs ∧
      ¬ t.oldVotingPower ≤ valSet.twoThirds ∧ ¬ t.newVotingPower ≤ newSet.twoThirds := by
  unfold verifyCommitAny at h
  split_ifs at h
  · cases h
  · cases h
  split at h
  · cases h
  · cases h
  next t hloop =>
    split_ifs at h with hold hnew
    · cases h
    · cases h
    have hstart : Counted P A valSet newSet chainID blockID height commit.round commit.precommits 0 ⟨0, 0, []⟩ [] :=
      ⟨⟨nodup_nil, nodup_nil, nofun⟩, rfl, nofun, fun _ => by simp [powerOf], fun _ => by simp [powerOf]⟩
    obtain ⟨idx, pairs, hcounted⟩ := hstart.anyLoop rfl hloop
    exact ⟨idx, t, pairs, hcounted, hold, hnew⟩

theorem endorsed_of_verifyCommitAny (hfits : valSet.Fits) {commit : Commit}
    (h : verifyCommitAny P A valSet newSet chainID blockID height commit = some (.ok ())) :
    Endorsed P A valSet chainID blockID height commit := by
  obtain ⟨idx, t, pairs, hcounted, hold, -⟩ := counted_of_verifyCommitAny h
  refine ⟨commit.round, _, isQuorum_of_power hfits (hcounted.oldPower hfits.toBounded) hold, fun i hi => ?_⟩
  have hi' : i ∈ pairs.map Prod.fst := by simpa using (Finset.mem_filter.1 hi).2
  obtain ⟨pair, hpair, rfl⟩ := mem_map.1 hi'
  obtain ⟨vote, hvote, hsigned⟩ := hcounted.votes pair hpair
  exact ⟨vote, mem_of_getElem? hvote, hsigned⟩

/-- Where the powers are small enough, more than two thirds of the old set have signed, and the new set has their keys
with more than two thirds as well. -/
theorem verifyCommitAny_sound (hold : valSet.Fits) (hnew : newSet.Fits) {commit : Commit}
    (h : verifyCommitAny P A valSet newSet chainID blockID height commit = some (.ok ())) :
    EndorsedAny P A valSet newSet chainID blockID height commit := by
  obtain ⟨idx, t, pairs, hcounted, hpast, hnext⟩ := counted_of_verifyCommitAny h
  exact ⟨commit.round, pairs, hcounted.toSigned, isQuorum_of_power hold (hcounted.oldPower hold.toBounded) hpast,
    isQuorum_of_power hnew (hcounted.newPower hnew.toBounded) hnext⟩

/-- The powers change, and a validator takes the place of another; its precommit does not count. -/
theorem verifyCommitAny_sound_joined : EndorsedAny .transparent .plain (keyed [(1, 3), (2, 3), (3, 1)])
    (keyed [(1, 4), (2, 5), (4, 1)]) [] ⟨[7], ⟨1, [8]⟩⟩ 5
    ⟨⟨[7], ⟨1, [8]⟩⟩, [some (precommitBy 1 0), some (precommitBy 2 1), some (precommitBy 4 2)]⟩ :=
  verifyCommitAny_sound ⟨⟨by decide, by decide⟩, by decide⟩ ⟨⟨by decide, by decide⟩, by decide⟩ (by decide +kernel)

/-- The signature of a validator of power 1 out of `2 ^ 62 + 1` is enough for both sets. -/
theorem light_commit_endorses :
    verifyCommitAny .transparent .plain heavySet heavySet [] ⟨[7], ⟨1, [8]⟩⟩ 5
      ⟨⟨[7], ⟨1, [8]⟩⟩, [some lightPrecommit, none]⟩ =
        some (.ok ()) ∧
      ¬ EndorsedAny .transparent .plain heavySet heavySet [] ⟨[7], ⟨1, [8]⟩⟩ 5
        ⟨⟨[7], ⟨1, [8]⟩⟩, [some lightPrecommit, none]⟩ := by
  refine ⟨by decide +kernel, ?_⟩
  rintro ⟨round, pairs, hsigned, hquorum, -⟩
  refine not_isQuorum_of_power heavySet_bounded (i := 0) rfl (by decide) (fun i hi => ?_) hquorum
  have hi' : i ∈ pairs.map Prod.fst := by simpa using (Finset.mem_filter.1 hi).2
  obtain ⟨⟨i, k⟩, hpair, rfl⟩ := mem_map.1 hi'
  obtain ⟨vote, hvote, ⟨-, -, -, val, key, hval, hkey, hver⟩, -⟩ := hsigned.votes _ hpair
  have hmem : some vote ∈ [some lightPrecommit, none] := mem_of_getElem? hvote
  obtain rfl : vote = lightPrecommit := by simpa using hmem
  match i, hval with
  | 0, _ => rfl
  | 1, hval =>
    cases hval
    cases hkey
    exact absurd hver (by decide +kernel)
  | i + 2, hval => cases hval

end ValidatorSet

end Demars
