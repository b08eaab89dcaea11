import Demars.Types.Vote
import Demars.Lib.Machine
import Demars.Lib.Quorum

/-!
# Validator sets

`types/validator.go` and `types/validator_set.go`. Voting powers are `int64`s: sums go through `safeAddClip` and
the like, or wrap around (`Machine.wrap64`). `Proposer` is a pointer of which only the address and the key are
read; the copy kept here may show another `Accum`.
-/

namespace Demars

open Machine

structure Validator where
  address : Bytes
  pubKey : Option PubKey
  votingPower : Int
  accum : Int
deriving DecidableEq

structure ValidatorSet where
  validators : List Validator
  proposer : Option Validator
deriving DecidableEq

/-! ## Clipped arithmetic -/

def safeMul (a b : Int) : Int × Bool :=
  if a = 0 ∨ b = 0 then (0, false)
  else if a = 1 then (b, false)
  else if b = 1 then (a, false)
  else if a = minInt64 ∨ b = minInt64 then (-1, true)
  else (wrap64 (a * b), decide ((wrap64 (a * b)).tdiv b ≠ a))

def safeAdd (a b : Int) : Int × Bool :=
  if b > 0 ∧ a > maxInt64 - b then (-1, true)
  else if b < 0 ∧ a < minInt64 - b then (-1, true)
  else (a + b, false)

def safeSub (a b : Int) : Int × Bool :=
  if b > 0 ∧ a < minInt64 + b then (-1, true)
  else if b < 0 ∧ a > maxInt64 + b then (-1, true)
  else (a - b, false)

def safeMulClip (a b : Int) : Int :=
  match safeMul a b with
  | (_, true) => if (a < 0 ∨ b < 0) ∧ ¬ (a < 0 ∧ b < 0) then minInt64 else maxInt64
  | (c, false) => c

def safeAddClip (a b : Int) : Int :=
  match safeAdd a b with
  | (_, true) => if b < 0 then minInt64 else maxInt64
  | (c, false) => c

def safeSubClip (a b : Int) : Int :=
  match safeSub a b with
  | (_, true) => if b > 0 then minInt64 else maxInt64
  | (c, false) => c

/-! ## Order of validators -/

def bytesCompare : Bytes → Bytes → Ordering
  | [], [] => .eq
  | [], _ :: _ => .lt
  | _ :: _, [] => .gt
  | a :: as, b :: bs => (compare a b).then (bytesCompare as bs)

/-- `Validator.CompareAccum`; `none` is its panic on validators it cannot tell apart. -/
def Validator.compareAccum (v other : Validator) : Option Validator :=
  if v.accum > other.accum then some v
  else if v.accum < other.accum then some other
  else match bytesCompare v.address other.address with
    | .lt => some v
    | .gt => some other
    | .eq => none

/-- The binary search of `sort.Search` between `i` and `j`. -/
def sortSearchLoop (f : Nat → Bool) : Nat → Nat → Nat → Nat
  | 0, i, _ => i
  | fuel + 1, i, j =>
    if i < j then
      if f ((i + j) / 2) = false then sortSearchLoop f fuel ((i + j) / 2 + 1) j
      else sortSearchLoop f fuel i ((i + j) / 2)
    else i

/-- `sort.Search`: the interval shrinks in each of its turns, so `n` turns are enough. -/
def sortSearch (n : Nat) (f : Nat → Bool) : Nat := sortSearchLoop f n 0 n

namespace ValidatorSet

section

variable (valSet : ValidatorSet)

def size : Nat := valSet.validators.length

/-- `ValidatorSet.TotalVotingPower`, computed anew instead of cached. -/
def totalVotingPower : Int :=
  valSet.validators.foldl (fun total val => safeAddClip total val.votingPower) 0

/-- `TotalVotingPower()*2/3`, in `int64`. -/
def twoThirds : Int := (wrap64 (valSet.totalVotingPower * 2)).tdiv 3

def getByIndex (index : Int) : Option Validator :=
  if index < 0 ∨ index ≥ valSet.size then none else valSet.validators[index.toNat]?

def search (address : Bytes) : Nat :=
  sortSearch valSet.size fun i =>
    (valSet.validators[i]?).all fun val => bytesCompare address val.address != .gt

/-- `ValidatorSet.GetByAddress`: the index and the validator, or `none` for `-1, nil`. -/
def getByAddress (address : Bytes) : Option (Nat × Validator) :=
  match valSet.validators[valSet.search address]? with
  | some val => if val.address = address then some (valSet.search address, val) else none
  | none => none

def hasAddress (address : Bytes) : Bool := (valSet.getByAddress address).isSome

def findProposer : Option Validator :=
  valSet.validators.foldl (fun proposer val => match proposer with
    | none => some val
    | some p => if bytesCompare val.address p.address = .lt then some val else some p) none

def getProposer : Option Validator :=
  if valSet.validators = [] then none else valSet.proposer.or valSet.findProposer

end

/-- The validator at the top of the heap: the greatest in the order of `CompareAccum`. -/
def mostest : List Validator → Option Validator
  | [] => none
  | val :: vals => vals.foldl (fun best v => best.bind fun b => b.compareAccum v) (some val)

/-- One turn of the second loop of `IncrementAccum`. -/
def decrementMostest (total : Int) (valSet : ValidatorSet) : Option ValidatorSet :=
  (mostest valSet.validators).map fun best =>
    { validators := valSet.validators.map fun v =>
        if v = best then { v with accum := safeSubClip v.accum total } else v
      proposer := some { best with accum := safeSubClip best.accum total } }

/-- The second loop of `IncrementAccum`; its last turn sets the proposer. -/
def decrementLoop (total : Int) : Nat → ValidatorSet → Option ValidatorSet
  | 0, valSet => some valSet
  | n + 1, valSet => (decrementMostest total valSet).bind (decrementLoop total n)

/-- `IncrementAccum`; an empty set, or validators that cannot be told apart, panic. -/
def incrementAccum (valSet : ValidatorSet) (times : Int) : Option ValidatorSet :=
  decrementLoop valSet.totalVotingPower times.toNat
    { valSet with validators := valSet.validators.map fun v =>
        { v with accum := safeAddClip v.accum (safeMulClip v.votingPower times) } }

/-! ## Voting power -/

open Finset

def power (valSet : ValidatorSet) (i : Nat) : Int := ((valSet.validators[i]?).map Validator.votingPower).getD 0

/-- The sum of all powers, as an integer. -/
def sumPower (valSet : ValidatorSet) : Int := ∑ i ∈ range valSet.size, valSet.power i

def powerOf (valSet : ValidatorSet) (p : Nat → Bool) : Int := ∑ i ∈ (range valSet.size).filter (p ·), valSet.power i

/-- Positive powers whose sum is an `int64`. -/
structure Bounded (valSet : ValidatorSet) : Prop where
  pos : ∀ val ∈ valSet.validators, 0 < val.votingPower
  sum_le : valSet.sumPower ≤ maxInt64

variable {valSet : ValidatorSet}

theorem power_eq {i : Nat} {val : Validator} (h : valSet.validators[i]? = some val) :
    valSet.power i = val.votingPower := by
  simp [power, h]

theorem getByIndex_eq_some {index : Int} {val : Validator} :
    valSet.getByIndex index = some val ↔ 0 ≤ index ∧ valSet.validators[index.toNat]? = some val := by
  unfold getByIndex
  split_ifs with h
  · constructor
    · exact fun h => absurd h (by simp)
    · rintro ⟨h0, hv⟩
      have := (List.getElem?_eq_some_iff.1 hv).1
      rw [size] at h
      omega
  · exact ⟨fun hv => ⟨by omega, hv⟩, fun hv => hv.2⟩

theorem foldl_safeAddClip : ∀ (vals : List Validator) (acc : Int), 0 ≤ acc → (∀ val ∈ vals, 0 < val.votingPower) →
    acc + (vals.map Validator.votingPower).sum ≤ maxInt64 →
    vals.foldl (fun total val => safeAddClip total val.votingPower) acc = acc + (vals.map Validator.votingPower).sum
  | [], acc, _, _, _ => by simp
  | val :: vals, acc, hacc, hpos, hle => by
    have hval := hpos val List.mem_cons_self
    have hvals : ∀ v ∈ vals, 0 < v.votingPower := fun v hv => hpos v (List.mem_cons_of_mem val hv)
    have hsum : 0 ≤ (vals.map Validator.votingPower).sum := by
      refine List.sum_nonneg fun x hx => ?_
      obtain ⟨v, hv, rfl⟩ := List.mem_map.1 hx
      exact (hvals v hv).le
    simp only [List.map_cons, List.sum_cons] at hle ⊢
    have hadd : safeAddClip acc val.votingPower = acc + val.votingPower := by
      unfold safeAddClip safeAdd
      rw [if_neg (by omega), if_neg (by omega)]
    rw [List.foldl_cons, hadd, foldl_safeAddClip vals _ (by omega) hvals (by omega)]
    omega

theorem sum_range_getElem? : ∀ l : List Int, ∑ i ∈ range l.length, (l[i]?).getD 0 = l.sum
  | [] => rfl
  | x :: l => by
    rw [List.length_cons, sum_range_succ', List.sum_cons]
    simp only [List.getElem?_cons_succ, List.getElem?_cons_zero, Option.getD_some, sum_range_getElem? l]
    omega

theorem sumPower_eq_sum (valSet : ValidatorSet) :
    valSet.sumPower = (valSet.validators.map Validator.votingPower).sum := by
  rw [← sum_range_getElem?, List.length_map, sumPower, size]
  simp only [power, List.getElem?_map]

theorem power_nonneg (h : valSet.Bounded) (i : Nat) : 0 ≤ valSet.power i := by
  cases hv : valSet.validators[i]? with
  | none => simp [power, hv]
  | some val =>
    rw [power_eq hv]
    exact (h.pos val (List.mem_of_getElem? hv)).le

theorem Bounded.sumPower_nonneg (h : valSet.Bounded) : 0 ≤ valSet.sumPower :=
  sum_nonneg fun i _ => power_nonneg h i

theorem Bounded.totalVotingPower_eq (h : valSet.Bounded) : valSet.totalVotingPower = valSet.sumPower := by
  have hle := h.sum_le
  rw [sumPower_eq_sum] at hle ⊢
  rw [totalVotingPower, foldl_safeAddClip _ 0 le_rfl h.pos (by simpa using hle), zero_add]

theorem powerOf_nonneg (h : valSet.Bounded) (p : Nat → Bool) : 0 ≤ valSet.powerOf p :=
  sum_nonneg fun i _ => power_nonneg h i

theorem powerOf_le_sumPower (h : valSet.Bounded) (p : Nat → Bool) : valSet.powerOf p ≤ valSet.sumPower :=
  sum_le_sum_of_subset_of_nonneg (filter_subset _ _) fun i _ _ => power_nonneg h i

variable {p : Nat → Bool}

theorem powerOf_congr {q : Nat → Bool} (h : ∀ i < valSet.size, p i = q i) : valSet.powerOf p = valSet.powerOf q := by
  unfold powerOf
  congr 1
  refine filter_congr fun i hi => ?_
  rw [h i (mem_range.1 hi)]

theorem powerOf_false (valSet : ValidatorSet) : (valSet.powerOf fun _ => false) = 0 := by simp [powerOf]

theorem exists_of_powerOf_pos (h : 0 < valSet.powerOf p) : ∃ i < valSet.size, p i = true := by
  by_contra hno
  push Not at hno
  have hzero : valSet.powerOf p = 0 := by
    rw [← powerOf_false valSet]
    exact powerOf_congr fun i hi => by simpa using hno i hi
  omega

theorem powerOf_pos (h : valSet.Bounded) {i : Nat} (hi : i < valSet.size) (hp : p i = true) : 0 < valSet.powerOf p := by
  refine sum_pos' (fun j _ => power_nonneg h j) ⟨i, mem_filter.2 ⟨mem_range.2 hi, hp⟩, ?_⟩
  rw [power_eq (List.getElem?_eq_getElem hi)]
  exact h.pos _ (List.getElem_mem hi)

theorem powerOf_insert {q : Nat → Bool} {i : Nat} (hi : i < valSet.size) (hp : p i = false)
    (hq : ∀ j < valSet.size, q j = if j = i then true else p j) :
    valSet.powerOf q = valSet.powerOf p + valSet.power i := by
  have hset : (range valSet.size).filter (q ·) = insert i ((range valSet.size).filter (p ·)) := by
    ext j
    simp only [mem_filter, mem_range, mem_insert]
    constructor
    · rintro ⟨hj, hqj⟩
      rw [hq j hj] at hqj
      split_ifs at hqj with hji
      · exact .inl hji
      · exact .inr ⟨hj, hqj⟩
    · rintro (rfl | ⟨hj, hpj⟩)
      · exact ⟨hi, by rw [hq j hi, if_pos rfl]⟩
      · refine ⟨hj, ?_⟩
        rw [hq j hj, hpj, ite_self]
  have hmem : i ∉ (range valSet.size).filter (p ·) := by simp [hp]
  rw [powerOf, hset, sum_insert hmem, powerOf]
  omega

theorem powerOf_mono (h : valSet.Bounded) {q : Nat → Bool} (hpq : ∀ i < valSet.size, p i = true → q i = true) :
    valSet.powerOf p ≤ valSet.powerOf q := by
  refine sum_le_sum_of_subset_of_nonneg (fun i hi => ?_) fun i _ _ => power_nonneg h i
  rw [mem_filter, mem_range] at hi ⊢
  exact ⟨hi.1, hpq i hi.1 hi.2⟩

/-! ## The two-thirds threshold -/

/-- Where the double of the total fits, the threshold is two thirds of the power. -/
theorem Bounded.twoThirds_eq (h : valSet.Bounded) (hfit : valSet.sumPower * 2 ≤ maxInt64) :
    valSet.twoThirds = valSet.sumPower * 2 / 3 := by
  rw [twoThirds, h.totalVotingPower_eq, wrap64_two_mul_tdiv h.sumPower_nonneg hfit]

/-- Where it does not fit, the threshold is at most zero. -/
theorem Bounded.twoThirds_neg (h : valSet.Bounded) (hbig : maxInt64 < valSet.sumPower * 2) :
    valSet.twoThirds = -((2 ^ 64 - valSet.sumPower * 2) / 3) := by
  rw [twoThirds, h.totalVotingPower_eq, wrap64_two_mul_tdiv_neg hbig h.sum_le]

/-- Validators with these keys and powers. -/
def keyed (members : List (UInt8 × Int)) : ValidatorSet where
  validators := members.map fun (k, power) =>
    ⟨(PubKey.ed25519 [k]).address .transparent, some (.ed25519 [k]), power, 0⟩
  proposer := none

end ValidatorSet

end Demars
