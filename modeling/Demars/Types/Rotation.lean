import Demars.Lib.Turns
import Demars.Types.ValidatorUpdates

/-!
# The rotation of proposers

`IncrementAccum` of `types/validator_set.go` first adds to each `Accum` all the power of the turns to take, and
then takes the turns. As long as no `int64` overflows (`NoOverflow`) it is `incrementExact`, whose turns are those
of `Lib.Turns`.
-/

namespace Demars

open List Option

/-! ## Who is first -/

/-- The address that goes first among validators with the same `Accum`. -/
def AddressBefore (a b : Bytes) : Prop := bytesCompare a b = .lt

instance : DecidableRel AddressBefore := fun a b => decEq (bytesCompare a b) .lt

theorem AddressBefore.trans {a b c : Bytes} (hab : AddressBefore a b) (hbc : AddressBefore b c) :
    AddressBefore a c := by
  unfold AddressBefore at *
  rw [bytesCompare_eq] at *
  exact Std.TransCmp.lt_trans hab hbc

instance : Std.Asymm AddressBefore where
  asymm a b hab hba := by
    unfold AddressBefore at *
    rw [bytesCompare_eq] at *
    rw [Std.OrientedCmp.gt_of_lt hab] at hba
    cases hba

namespace Validator

def Beats (v w : Validator) : Prop :=
  w.accum < v.accum ∨ (w.accum = v.accum ∧ AddressBefore v.address w.address)

theorem Beats.trans {u v w : Validator} (huv : u.Beats v) (hvw : v.Beats w) : u.Beats w := by
  rcases huv with h | ⟨h, hlt⟩ <;> rcases hvw with h' | ⟨h', hlt'⟩
  · exact .inl (h'.trans h)
  · exact .inl (h' ▸ h)
  · exact .inl (h ▸ h')
  · exact .inr ⟨h'.trans h, hlt.trans hlt'⟩

theorem Beats.asymm {v w : Validator} (h : v.Beats w) : ¬ w.Beats v := by
  rcases h with h | ⟨h, hlt⟩
  · rintro (h' | ⟨h', -⟩) <;> omega
  · rintro (h' | ⟨-, hlt'⟩)
    · omega
    · exact Std.Asymm.asymm _ _ hlt hlt'

theorem compareAccum_spec {v w : Validator} (h : v.address ≠ w.address) :
    (v.compareAccum w = some v ∧ v.Beats w) ∨ (v.compareAccum w = some w ∧ w.Beats v) := by
  unfold compareAccum
  split_ifs with hgt hlt
  · exact .inl ⟨rfl, .inl hgt⟩
  · exact .inr ⟨rfl, .inl hlt⟩
  · have heq : v.accum = w.accum := by omega
    cases hcmp : bytesCompare v.address w.address with
    | lt => exact .inl ⟨rfl, .inr ⟨heq.symm, hcmp⟩⟩
    | gt =>
      refine .inr ⟨rfl, .inr ⟨heq, ?_⟩⟩
      rw [bytesCompare_eq] at hcmp
      rw [AddressBefore, bytesCompare_eq]
      exact Std.OrientedCmp.lt_of_gt hcmp
    | eq =>
      rw [bytesCompare_eq] at hcmp
      exact absurd (Std.LawfulEqCmp.eq_of_compare hcmp) h

end Validator

namespace ValidatorSet

open Turns

theorem foldl_compareAccum :
    ∀ (vals : List Validator) (first : Validator), ((first :: vals).map Validator.address).Nodup →
    ∃ best ∈ first :: vals, vals.foldl (fun best v => best.bind fun b => b.compareAccum v) (some first) = some best ∧
      ∀ v ∈ first :: vals, v ≠ best → best.Beats v
  | [], first, _ => ⟨first, mem_cons_self, rfl, fun v hv hne => absurd (mem_singleton.1 hv) hne⟩
  | second :: vals, first, hnodup => by
    simp only [map_cons, nodup_cons, mem_cons, not_or] at hnodup
    obtain ⟨⟨hne, hfirst⟩, hsecond, hvals⟩ := hnodup
    -- the winner goes on, and the best of the rest beats the loser through it
    have key (winner loser : Validator) (hcmp : first.compareAccum second = some winner) (hbeats : winner.Beats loser)
        (hmem : ∀ v, v ∈ first :: second :: vals ↔ v = loser ∨ v ∈ winner :: vals)
        (hwinner : winner.address ∉ vals.map Validator.address) : ∃ best ∈ first :: second :: vals,
          (second :: vals).foldl (fun best v => best.bind fun b => b.compareAccum v) (some first) = some best ∧
            ∀ v ∈ first :: second :: vals, v ≠ best → best.Beats v := by
      obtain ⟨best, hbest, hfold, hall⟩ := foldl_compareAccum vals winner (nodup_cons.2 ⟨hwinner, hvals⟩)
      refine ⟨best, (hmem best).2 (.inr hbest), ?_, fun v hv hvbest => ?_⟩
      · rw [foldl_cons, bind_some, hcmp, hfold]
      · rcases (hmem v).1 hv with rfl | hv
        · by_cases hwb : winner = best
          · exact hwb ▸ hbeats
          · exact (hall winner mem_cons_self hwb).trans hbeats
        · exact hall v hv hvbest
    rcases Validator.compareAccum_spec hne with ⟨hcmp, hbeats⟩ | ⟨hcmp, hbeats⟩
    · exact key first second hcmp hbeats (fun v => by simp only [mem_cons]; tauto) hfirst
    · exact key second first hcmp hbeats (fun v => by simp only [mem_cons]) hsecond

theorem mostest_spec {vals : List Validator} (hne : vals ≠ []) (hnodup : (vals.map Validator.address).Nodup) :
    ∃ best ∈ vals, mostest vals = some best ∧ ∀ v ∈ vals, v ≠ best → best.Beats v := by
  cases vals with
  | nil => exact absurd rfl hne
  | cons first vals => exact foldl_compareAccum vals first hnodup

/-! ## Turns without overflow -/

/-- One turn of `IncrementAccum`, computed with integers. -/
def takeTurn (total : Int) (valSet : ValidatorSet) : Option ValidatorSet :=
  (mostest valSet.validators).map fun best =>
    { validators := valSet.validators.map fun v => if v = best then { v with accum := v.accum - total } else v
      proposer := some { best with accum := best.accum - total } }

/-- The turns of `IncrementAccum`, computed with integers. -/
def takeTurns (total : Int) : Nat → ValidatorSet → Option ValidatorSet
  | 0, valSet => some valSet
  | n + 1, valSet => (takeTurn total valSet).bind (takeTurns total n)

def incrementExact (valSet : ValidatorSet) (times : Nat) : Option ValidatorSet :=
  takeTurns valSet.sumPower times
    { valSet with validators := valSet.validators.map fun v => { v with accum := v.accum + v.votingPower * times } }

def NoOverflow (valSet : ValidatorSet) (times : Nat) : Prop := valSet.incrementAccum times = valSet.incrementExact times

instance (valSet : ValidatorSet) (times : Nat) : Decidable (valSet.NoOverflow times) :=
  inferInstanceAs (Decidable (_ = _))

def withAccums (vals : List Validator) (y : Bytes → Int) : List Validator :=
  vals.map fun v => { v with accum := y v.address }

def addresses (vals : List Validator) : Finset Bytes := (vals.map Validator.address).toFinset

section

variable {vals : List Validator} {y y' : Bytes → Int} {total : Int}

theorem mem_addresses {v : Validator} (h : v ∈ vals) : v.address ∈ addresses vals :=
  List.mem_toFinset.2 (List.mem_map_of_mem h)

theorem exists_of_mem_addresses {address : Bytes} (h : address ∈ addresses vals) : ∃ v ∈ vals, v.address = address :=
  List.mem_map.1 (List.mem_toFinset.1 h)

theorem map_address_withAccums (vals : List Validator) (y : Bytes → Int) :
    (withAccums vals y).map Validator.address = vals.map Validator.address := by
  rw [withAccums, List.map_map]
  rfl

theorem withAccums_inj :
    withAccums vals y = withAccums vals y' ↔ ∀ address ∈ addresses vals, y address = y' address := by
  constructor
  · intro h address haddress
    obtain ⟨v, hv, rfl⟩ := exists_of_mem_addresses haddress
    exact congrArg Validator.accum (map_inj_left.1 h v hv)
  · intro h
    refine map_congr_left fun v hv => ?_
    rw [h v.address (mem_addresses hv)]

/-- A turn is one of `Lib.Turns`, and its validator is the proposer. -/
theorem takeTurn_isNext (total : Int) (hne : vals ≠ []) (hnodup : (vals.map Validator.address).Nodup) (y : Bytes → Int)
    (proposer : Option Validator) : ∃ v ∈ vals, IsNext AddressBefore total (addresses vals) y v.address ∧
      takeTurn total ⟨withAccums vals y, proposer⟩ =
        some ⟨withAccums vals (pay total y v.address), some { v with accum := pay total y v.address v.address }⟩ := by
  have hne' : withAccums vals y ≠ [] := fun h => hne (map_eq_nil_iff.1 h)
  obtain ⟨best, hbest, hmost, hall⟩ := mostest_spec hne' ((map_address_withAccums vals y).symm ▸ hnodup)
  obtain ⟨v, hv, rfl⟩ := List.mem_map.1 hbest
  refine ⟨v, hv, ⟨mem_addresses hv, fun address haddress hother => ?_⟩, ?_⟩
  · obtain ⟨w, hw, rfl⟩ := exists_of_mem_addresses haddress
    have hbeats := hall { w with accum := y w.address } (List.mem_map_of_mem hw)
      fun h => hother (Validator.mk.inj h).1
    simpa [Before, level, Validator.Beats] using hbeats
  · rw [takeTurn, hmost, map_some]
    simp only [withAccums, List.map_map, pay, Function.update_self]
    congr 2
    refine map_congr_left fun w hw => ?_
    simp only [Function.comp_apply]
    by_cases hwv : w.address = v.address
    · have heq : w = v := inj_on_of_nodup_map hnodup hw hv hwv
      subst heq
      rw [if_pos rfl, Function.update_self]
    · rw [if_neg fun h => hwv (Validator.mk.inj h).1, Function.update_of_ne hwv]

theorem takeTurns_run (hne : vals ≠ []) (hnodup : (vals.map Validator.address).Nodup) (n : Nat) (y : Bytes → Int)
    (proposer : Option Validator) :
    ∃ turns last y' v, turns.length = n ∧ Run AddressBefore total (addresses vals) y (turns ++ [last]) y' ∧ v ∈ vals ∧
      v.address = last ∧
      takeTurns total (n + 1) ⟨withAccums vals y, proposer⟩ =
        some ⟨withAccums vals y', some { v with accum := y' last }⟩ := by
  induction n generalizing y proposer with
  | zero =>
    obtain ⟨v, hv, hnext, hturn⟩ := takeTurn_isNext total hne hnodup y proposer
    refine ⟨[], v.address, _, v, rfl, .cons hnext (.nil _), hv, rfl, ?_⟩
    rw [takeTurns, hturn]
    rfl
  | succ n ih =>
    obtain ⟨first, hfirst, hnext, hturn⟩ := takeTurn_isNext total hne hnodup y proposer
    obtain ⟨turns, last, y', v, hlen, hrun, hv, hlast, hrest⟩ :=
      ih (pay total y first.address) (some { first with accum := pay total y first.address first.address })
    refine ⟨first.address :: turns, last, y', v, by rw [length_cons, hlen], .cons hnext hrun, hv, hlast, ?_⟩
    rw [takeTurns, hturn, bind_some, hrest]

end

/-! ## Splitting the turns -/

section

variable (valSet : ValidatorSet)

def powerAt (address : Bytes) : Int :=
  ((valSet.validators.find? fun v => v.address = address).map Validator.votingPower).getD 0

def accumAt (address : Bytes) : Int :=
  ((valSet.validators.find? fun v => v.address = address).map Validator.accum).getD 0

def raisedAt (times : Nat) (address : Bytes) : Int :=
  valSet.accumAt address + valSet.powerAt address * times

/-- The turns before turn `j` of a validator, when the power of `times` turns is added first. -/
def turnsAhead (times : Nat) (address : Bytes) (j : Nat) : Nat :=
  ahead AddressBefore valSet.sumPower (addresses valSet.validators) (valSet.raisedAt times) address j

/-- No `int64` overflows, neither with all turns at once nor with `a` of them first. -/
def NoOverflowSplit (a b : Nat) : Prop :=
  valSet.NoOverflow (a + b) ∧ valSet.NoOverflow a ∧ ∀ mid ∈ valSet.incrementAccum a, mid.NoOverflow b

end

instance (valSet : ValidatorSet) (a b : Nat) : Decidable (valSet.NoOverflowSplit a b) :=
  inferInstanceAs (Decidable (_ ∧ _))

/-- A turn among the first `a`, with the power of `a` turns, is before the last of `a + b` with the power of `a + b`.
-/
def InStep (valSet : ValidatorSet) (a b : Nat) : Prop :=
  valSet.validators ≠ [] ∧ ∀ v ∈ valSet.validators, ∀ j < a,
    valSet.turnsAhead a v.address j < a → valSet.turnsAhead (a + b) v.address j < a + b - 1

instance (valSet : ValidatorSet) (a b : Nat) : Decidable (valSet.InStep a b) :=
  inferInstanceAs (Decidable (_ ∧ _))

section

variable {valSet : ValidatorSet}

section

variable (hnodup : (valSet.validators.map Validator.address).Nodup)
include hnodup

theorem find?_address {v : Validator} (hv : v ∈ valSet.validators) :
    (valSet.validators.find? fun w => w.address = v.address) = some v := by
  cases hfind : valSet.validators.find? fun w => w.address = v.address with
  | none => exact absurd (decide_eq_true rfl) (find?_eq_none.1 hfind v hv)
  | some w =>
    have hw : w.address = v.address := by simpa using find?_some hfind
    rw [inj_on_of_nodup_map hnodup (mem_of_find?_eq_some hfind) hv hw]

theorem raised_eq (times : Nat) : (valSet.validators.map fun v => { v with accum := v.accum + v.votingPower * times }) =
      withAccums valSet.validators (valSet.raisedAt times) := by
  refine map_congr_left fun v hv => ?_
  rw [raisedAt, accumAt, powerAt, find?_address hnodup hv]
  rfl

theorem raised_withAccums (y : Bytes → Int) (times : Nat) :
    ((withAccums valSet.validators y).map fun v => { v with accum := v.accum + v.votingPower * times }) =
      withAccums valSet.validators fun address => y address + valSet.powerAt address * times := by
  rw [withAccums, List.map_map]
  refine map_congr_left fun v hv => ?_
  simp only [Function.comp_apply, powerAt, find?_address hnodup hv, map_some, getD_some]

end

theorem sumPower_withAccums (vals : List Validator) (y : Bytes → Int) (proposer proposer' : Option Validator) :
    sumPower ⟨withAccums vals y, proposer⟩ = sumPower ⟨vals, proposer'⟩ := by
  rw [sumPower_eq_sum, sumPower_eq_sum, withAccums, List.map_map]
  rfl

theorem sumPower_pos (hne : valSet.validators ≠ []) (hpos : ∀ v ∈ valSet.validators, 0 < v.votingPower) :
    0 < valSet.sumPower := by
  rw [sumPower_eq_sum]
  refine sum_pos _ (fun x hx => ?_) fun h => hne (map_eq_nil_iff.1 h)
  obtain ⟨v, hv, rfl⟩ := List.mem_map.1 hx
  exact hpos v hv

theorem incrementExact_run (hne : valSet.validators ≠ []) (hnodup : (valSet.validators.map Validator.address).Nodup)
    (n : Nat) :
    ∃ turns last y v, turns.length = n ∧
      Run AddressBefore valSet.sumPower (addresses valSet.validators) (valSet.raisedAt (n + 1)) (turns ++ [last]) y ∧
      v ∈ valSet.validators ∧ v.address = last ∧
      valSet.incrementExact (n + 1) = some ⟨withAccums valSet.validators y, some { v with accum := y last }⟩ := by
  rw [incrementExact, raised_eq hnodup]
  exact takeTurns_run hne hnodup n _ _

theorem incrementExact_withAccums_run (hne : valSet.validators ≠ [])
    (hnodup : (valSet.validators.map Validator.address).Nodup) (z : Bytes → Int) (proposer : Option Validator)
    (n : Nat) : ∃ turns last y v, turns.length = n ∧
      Run AddressBefore valSet.sumPower (addresses valSet.validators)
        (fun address => z address + valSet.powerAt address * (n + 1 : Nat)) (turns ++ [last]) y ∧
      v ∈ valSet.validators ∧ v.address = last ∧ incrementExact ⟨withAccums valSet.validators z, proposer⟩ (n + 1) =
        some ⟨withAccums valSet.validators y, some { v with accum := y last }⟩ := by
  rw [incrementExact, raised_withAccums hnodup, sumPower_withAccums _ z proposer valSet.proposer]
  exact takeTurns_run hne hnodup n _ _

theorem result_inj {vals : List Validator} (hnodup : (vals.map Validator.address).Nodup) {y y' : Bytes → Int}
    {v v' : Validator} (hv : v ∈ vals) (hv' : v' ∈ vals) :
    (⟨withAccums vals y, some { v with accum := y v.address }⟩ : ValidatorSet) =
        ⟨withAccums vals y', some { v' with accum := y' v'.address }⟩ ↔
      (∀ address ∈ addresses vals, y address = y' address) ∧ v.address = v'.address := by
  rw [ValidatorSet.mk.injEq, withAccums_inj]
  constructor
  · rintro ⟨hy, hp⟩
    exact ⟨hy, (Validator.mk.inj (Option.some.inj hp)).1⟩
  · rintro ⟨hy, haddr⟩
    have heq : v = v' := inj_on_of_nodup_map hnodup hv hv' haddr
    subst heq
    rw [hy v.address (mem_addresses hv)]
    exact ⟨hy, rfl⟩

/-- What the turns of two runs say about each other, by the number of turns ahead. -/
theorem count_le_iff (hne : valSet.validators ≠ []) (hpos : ∀ v ∈ valSet.validators, 0 < v.votingPower) {a t : Nat}
    {turns turns' : List Bytes} {y y' : Bytes → Int}
    (hrun : Run AddressBefore valSet.sumPower (addresses valSet.validators) (valSet.raisedAt a) turns y)
    (hrun' : Run AddressBefore valSet.sumPower (addresses valSet.validators) (valSet.raisedAt t) turns' y') :
    (∀ address ∈ addresses valSet.validators, paid turns address ≤ paid turns' address) ↔
    ∀ v ∈ valSet.validators, ∀ j < turns.length,
        valSet.turnsAhead a v.address j < turns.length → valSet.turnsAhead t v.address j < turns'.length := by
  have hT := sumPower_pos hne hpos
  have htaken {address : Bytes} (haddress : address ∈ addresses valSet.validators) (j : Nat) :
      j < paid turns address ↔ valSet.turnsAhead a address j < turns.length := by
    rw [← hrun.sum_paid]
    exact (hrun.top hT).lt_iff hT haddress
  have htaken' {address : Bytes} (haddress : address ∈ addresses valSet.validators) (j : Nat) :
      j < paid turns' address ↔ valSet.turnsAhead t address j < turns'.length := by
    rw [← hrun'.sum_paid]
    exact (hrun'.top hT).lt_iff hT haddress
  constructor
  · intro h v hv j _ hj
    have hmem := mem_addresses hv
    rw [← htaken' hmem]
    exact lt_of_lt_of_le ((htaken hmem j).2 hj) (h v.address hmem)
  · intro h address haddress
    obtain ⟨v, hv, rfl⟩ := exists_of_mem_addresses haddress
    by_contra hlt
    have hj : paid turns' v.address < paid turns v.address := not_le.1 hlt
    have hlen : paid turns' v.address < turns.length := lt_of_lt_of_le hj (paid_le_length _ _)
    have := (htaken' haddress _).2 (h v hv _ hlen ((htaken haddress _).1 hj))
    omega

theorem incrementExact_split_iff (hne : valSet.validators ≠ [])
    (hnodup : (valSet.validators.map Validator.address).Nodup) (hpos : ∀ v ∈ valSet.validators, 0 < v.votingPower)
    {a b : Nat} (ha : 0 < a) (hb : 0 < b) :
    ∃ mid one two, valSet.incrementExact a = some mid ∧ valSet.incrementExact (a + b) = some one ∧
      mid.incrementExact b = some two ∧ (one = two ↔ valSet.InStep a b) := by
  obtain ⟨a, rfl⟩ := Nat.exists_eq_succ_of_ne_zero ha.ne'
  obtain ⟨b, rfl⟩ := Nat.exists_eq_succ_of_ne_zero hb.ne'
  obtain ⟨turnsA, lastA, yA, vA, hlenA, hrunA, -, -, hresA⟩ := incrementExact_run hne hnodup a
  obtain ⟨turns₁, last₁, y₁, v₁, hlen₁, hrun₁, hv₁, rfl, hres₁⟩ := incrementExact_run hne hnodup (a + 1 + b)
  obtain ⟨turns₂, last₂, y₂, v₂, hlen₂, hrun₂, hv₂, rfl, hres₂⟩ :=
    incrementExact_withAccums_run hne hnodup yA (some { vA with accum := yA lastA }) b
  refine ⟨_, _, _, hresA, hres₁, hres₂, ?_⟩
  have hlenA' : (turnsA ++ [lastA]).length = a + 1 := by simp [hlenA]
  -- the second call starts where the turns of the first are paid in advance
  have hstart : ∀ address ∈ addresses valSet.validators, yA address + valSet.powerAt address * (b + 1 : Nat) =
        valSet.raisedAt (a + 1 + b + 1) address - (paid (turnsA ++ [lastA]) address : Nat) * valSet.sumPower := by
    intro address _
    rw [hrunA.eq, raisedAt, raisedAt]
    push_cast
    ring
  have hsum : turns₁.length = ∑ address ∈ addresses valSet.validators, paid (turnsA ++ [lastA]) address +
    turns₂.length := by
    rw [hrunA.sum_paid, hlenA', hlen₁, hlen₂]
  obtain ⟨z₁, hbefore, -⟩ := hrun₁.snoc
  rw [result_inj hnodup hv₁ hv₂, same_end_iff (sumPower_pos hne hpos) hstart hrun₁ hrun₂ hsum,
    count_le_iff hne hpos hrunA hbefore, hlenA', hlen₁, InStep]
  exact (and_iff_right hne).symm

theorem incrementAccum_empty (h : valSet.validators = []) {times : Nat} (htimes : 0 < times) :
    valSet.incrementAccum times = none := by
  obtain ⟨n, rfl⟩ := Nat.exists_eq_succ_of_ne_zero htimes.ne'
  rw [incrementAccum, h]
  rfl

theorem incrementAccum_split (hnodup : (valSet.validators.map Validator.address).Nodup)
    (hpos : ∀ v ∈ valSet.validators, 0 < v.votingPower) {a b : Nat} (ha : 0 < a) (hb : 0 < b)
    (hfits : valSet.NoOverflowSplit a b) :
    (∃ result, valSet.incrementAccum (a + b : Nat) = some result ∧
      ((valSet.incrementAccum a).bind fun mid => mid.incrementAccum b) = some result) ↔ valSet.InStep a b := by
  by_cases hne : valSet.validators = []
  · constructor
    · rintro ⟨result, hone, -⟩
      rw [incrementAccum_empty hne (by omega)] at hone
      cases hone
    · exact fun h => absurd hne h.1
  · obtain ⟨mid, one, two, hmid, hone, htwo, hiff⟩ := incrementExact_split_iff hne hnodup hpos ha hb
    obtain ⟨hfits, hfitsA, hfitsB⟩ := hfits
    have hmid' : valSet.incrementAccum a = some mid := hfitsA.trans hmid
    rw [hfits, hone, hmid', bind_some, hfitsB mid hmid', htwo, ← hiff]
    constructor
    · rintro ⟨result, h₁, h₂⟩
      exact Option.some.inj (h₁.trans h₂.symm)
    · intro h
      exact ⟨one, rfl, congrArg some h.symm⟩

end

end ValidatorSet

end Demars
