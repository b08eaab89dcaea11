import Demars.Lib.SortedList
import Demars.Types.ValidatorSet

/-!
# Changes of validator sets

`NewValidatorSet`, `Add`, `Update` and `Remove` of `types/validator_set.go`, and the loop of `updateValidators` in
`state/execution.go`. All of them keep the validators in the order of their addresses (`Ordered`), so that the
binary searches find what they look for.
-/

namespace Demars

open SortedList List Option

/-! ## Binary search -/

theorem sortSearchLoop_spec {f : Nat → Bool} {n : Nat} (hmono : ∀ i j, i ≤ j → j < n → f i = true → f j = true) :
    ∀ (fuel i j : Nat), i ≤ j → j ≤ n → j - i ≤ fuel → (∀ k < i, f k = false) → (∀ k, j ≤ k → k < n → f k = true) →
      (∀ k < sortSearchLoop f fuel i j, f k = false) ∧ ∀ k, sortSearchLoop f fuel i j ≤ k → k < n → f k = true
  | 0, i, j, hij, _, hfuel, hlo, hhi => by
    have hj : j = i := by omega
    subst hj
    exact ⟨hlo, hhi⟩
  | fuel + 1, i, j, hij, hjn, hfuel, hlo, hhi => by
    rw [sortSearchLoop]
    split_ifs with hlt hmid
    · apply sortSearchLoop_spec hmono fuel _ j (by omega) hjn (by omega) _ hhi
      intro k hk
      by_contra hf
      rw [hmono k _ (by omega) (by omega) (by simpa using hf)] at hmid
      cases hmid
    · apply sortSearchLoop_spec hmono fuel i _ (by omega) (by omega) (by omega) hlo
      intro k hk hkn
      exact hmono _ k hk hkn (by simpa using hmid)
    · have hj : j = i := by omega
      subst hj
      exact ⟨hlo, hhi⟩

theorem bytesCompare_eq (a b : Bytes) : bytesCompare a b = compare a b := by
  fun_induction bytesCompare a b <;> simp_all

namespace ValidatorSet

def Ordered (valSet : ValidatorSet) : Prop := Sorted Validator.address valSet.validators

variable {valSet : ValidatorSet}

theorem search_isSlot (h : valSet.Ordered) (address : Bytes) :
    IsSlot Validator.address valSet.validators address (valSet.search address) := by
  have hval : ∀ i (hi : i < valSet.size),
    (valSet.validators[i]?).all (fun val => bytesCompare address val.address != .gt) =
      (compare address (valSet.validators.get ⟨i, hi⟩).address != .gt) := by
    intro i hi
    rw [getElem?_eq_getElem hi, all_some, bytesCompare_eq]
    rfl
  obtain ⟨hlo, hhi⟩ := sortSearchLoop_spec
    (f := fun i => (valSet.validators[i]?).all fun val => bytesCompare address val.address != .gt)
      (n := valSet.size) (by
      intro i j hij hj hi
      rcases Nat.lt_or_eq_of_le hij with hlt | rfl
      · simp only [hval i (by omega), hval j hj, bne_iff_ne] at hi ⊢
        have hle := pairwise_iff_getElem.1 h i j (by rw [size] at hj; omega) hj hlt
        exact Ordering.isLE_iff_ne_gt.1
          (Std.TransCmp.isLE_trans (Ordering.isLE_iff_ne_gt.2 hi) (Ordering.isLE_iff_ne_gt.2 hle))
      · exact hi) valSet.size 0 valSet.size (Nat.zero_le _) le_rfl (by omega)
          (fun k hk => absurd hk (Nat.not_lt_zero k))
      (fun k hk hkn => absurd hkn (by omega))
  constructor
  · intro a ha
    obtain ⟨i, hi, rfl⟩ := getElem_of_mem ha
    rw [length_take, Nat.lt_min] at hi
    have hf := hlo i hi.1
    simp only [hval i hi.2, bne_eq_false_iff_eq] at hf
    rw [getElem_take]
    exact Std.OrientedCmp.lt_of_gt hf
  · intro a ha hlt
    obtain ⟨i, hi, rfl⟩ := getElem_of_mem ha
    rw [length_drop] at hi
    have hn : valSet.search address + i < valSet.size := by rw [size]; omega
    have hf := hhi _ (Nat.le_add_right (valSet.search address) i) hn
    simp only [hval _ hn, bne_iff_ne] at hf
    rw [getElem_drop] at hlt
    exact hf (Std.OrientedCmp.gt_of_lt hlt)

theorem getByAddress_eq_none (h : valSet.Ordered) {address : Bytes} :
    valSet.getByAddress address = none ↔ ∀ val ∈ valSet.validators, val.address ≠ address := by
  constructor
  · intro hnone val hval haddr
    obtain ⟨first, hget, hfirst⟩ := (search_isSlot h address).getElem?_eq h hval haddr
    simp [getByAddress, hget, hfirst] at hnone
  · intro hno
    unfold getByAddress
    split
    · next val hget => rw [if_neg (hno val (mem_of_getElem? hget))]
    · rfl

theorem getByAddress_eq_some {address : Bytes} {found : Nat × Validator}
    (h : valSet.getByAddress address = some found) :
    ∃ val, found = (valSet.search address, val) ∧ valSet.validators[valSet.search address]? = some val ∧
      val.address = address := by
  unfold getByAddress at h
  split at h
  · next first hget =>
    split_ifs at h with haddr
    cases h
    exact ⟨first, rfl, hget, haddr⟩
  · cases h

/-! ## The operations -/

/-- `NewValidatorSet` of a list that is not `nil`; `none` is a panic of `IncrementAccum`. -/
def newValidatorSet (vals : List Validator) : Option ValidatorSet :=
  incrementAccum ⟨vals.insertionSort fun a b => bytesCompare a.address b.address ≠ .gt, none⟩ 1

def add (valSet : ValidatorSet) (val : Validator) : ValidatorSet × Bool :=
  match valSet.validators[valSet.search val.address]? with
  | none => (⟨valSet.validators ++ [val], none⟩, true)
  | some other =>
    if other.address = val.address then (valSet, false)
    else
      let idx := valSet.search val.address
      (⟨valSet.validators.take idx ++ val :: valSet.validators.drop idx, none⟩, true)

def update (valSet : ValidatorSet) (val : Validator) : ValidatorSet × Bool :=
  match valSet.getByAddress val.address with
  | none => (valSet, false)
  | some (index, _) => (⟨valSet.validators.set index val, none⟩, true)

def remove (valSet : ValidatorSet) (address : Bytes) : ValidatorSet × Option Validator :=
  match valSet.validators[valSet.search address]? with
  | none => (valSet, none)
  | some removedVal =>
    if removedVal.address = address then
      (⟨valSet.validators.eraseIdx (valSet.search address), none⟩, some removedVal)
    else (valSet, none)

end ValidatorSet

inductive UpdateError
  /-- `Failed to add new validator %v` -/
  | add (val : Validator)
  /-- `Failed to remove validator %X` -/
  | remove (address : Bytes)
  /-- `Failed to update validator %X to %v` -/
  | update (address : Bytes) (val : Validator)
deriving DecidableEq

/-- One turn of `updateValidators`. A new validator is added whatever its power is. -/
def updateValidator (currentSet : ValidatorSet) (valUpdate : Validator) : Except UpdateError ValidatorSet :=
  match currentSet.getByAddress valUpdate.address with
  | none =>
    match currentSet.add valUpdate with
    | (valSet, true) => .ok valSet
    | (_, false) => .error (.add valUpdate)
  | some _ =>
    if valUpdate.votingPower = 0 then
      match currentSet.remove valUpdate.address with
      | (valSet, some _) => .ok valSet
      | (_, none) => .error (.remove valUpdate.address)
    else
      match currentSet.update valUpdate with
      | (valSet, true) => .ok valSet
      | (_, false) => .error (.update valUpdate.address valUpdate)

def updateValidators (currentSet : ValidatorSet) (updates : List Validator) : Except UpdateError ValidatorSet :=
  updates.foldlM updateValidator currentSet

/-! ## Steps -/

section

variable {currentSet : ValidatorSet}

/-- On an ordered set a turn ends well: a new address is put into its slot; a known one takes the first place with it
or, without power, clears it. -/
theorem updateValidator_cases (h : currentSet.Ordered) (valUpdate : Validator) :
    ∃ valSet, updateValidator currentSet valUpdate = .ok valSet ∧
      ((Upserts Validator.address currentSet.validators valUpdate valSet.validators ∧
          (valUpdate.votingPower = 0 → ∀ val ∈ currentSet.validators, val.address ≠ valUpdate.address)) ∨
        (valUpdate.votingPower = 0 ∧ (∃ val, currentSet.validators[currentSet.search valUpdate.address]? = some val ∧
            val.address = valUpdate.address) ∧
          valSet.validators = currentSet.validators.eraseIdx (currentSet.search valUpdate.address))) := by
  have hslot := ValidatorSet.search_isSlot h valUpdate.address
  unfold updateValidator
  cases hget : currentSet.getByAddress valUpdate.address with
  | none =>
    have hnew := (ValidatorSet.getByAddress_eq_none h).1 hget
    have hins := hslot.upserts_insert h hnew
    simp only [ValidatorSet.add]
    cases hat : currentSet.validators[currentSet.search valUpdate.address]? with
    | none =>
      rw [take_of_length_le (List.getElem?_eq_none_iff.1 hat), drop_of_length_le
        (List.getElem?_eq_none_iff.1 hat)] at hins
      exact ⟨_, rfl, .inl ⟨hins, fun _ => hnew⟩⟩
    | some other =>
      simp only [hnew other (mem_of_getElem? hat)]
      exact ⟨_, rfl, .inl ⟨hins, fun _ => hnew⟩⟩
  | some found =>
    obtain ⟨val, rfl, hat, haddr⟩ := ValidatorSet.getByAddress_eq_some hget
    split_ifs with hzero
    · simp only [ValidatorSet.remove, hat, haddr]
      exact ⟨_, rfl, .inr ⟨hzero, ⟨val, rfl, haddr⟩, rfl⟩⟩
    · simp only [ValidatorSet.update, hget]
      exact ⟨_, rfl, .inl ⟨hslot.upserts_set h hat haddr, fun h0 => absurd h0 hzero⟩⟩

theorem updateValidator_ordered (h : currentSet.Ordered) {valUpdate : Validator} {valSet : ValidatorSet}
    (hstep : updateValidator currentSet valUpdate = .ok valSet) : valSet.Ordered := by
  obtain ⟨valSet', hok, hcase⟩ := updateValidator_cases h valUpdate
  rw [hok] at hstep
  cases hstep
  rcases hcase with ⟨hup, -⟩ | ⟨-, -, heq⟩
  · exact hup.sorted
  · unfold ValidatorSet.Ordered
    rw [heq]
    exact h.sublist (eraseIdx_sublist _ _)

theorem upsertsAll_updateValidators (updates : List Validator) :
    ∀ {currentSet valSet : ValidatorSet}, currentSet.Ordered →
    (updates.map Validator.address).Nodup → (∀ val ∈ updates, val.votingPower ≠ 0) →
    updateValidators currentSet updates = .ok valSet →
    UpsertsAll Validator.address currentSet.validators updates valSet.validators := by
  induction updates with
  | nil =>
    intro currentSet valSet _ _ _ hok
    cases hok
    exact .nil
  | cons valUpdate updates ih =>
    intro currentSet valSet h hnodup hpow hok
    obtain ⟨next, hnext, hcase⟩ := updateValidator_cases h valUpdate
    have hup : Upserts Validator.address currentSet.validators valUpdate next.validators := by
      rcases hcase with ⟨hup, -⟩ | ⟨hzero, -⟩
      · exact hup
      · exact absurd hzero (hpow valUpdate mem_cons_self)
    rw [updateValidators, foldlM_cons, hnext] at hok
    rw [map_cons, nodup_cons] at hnodup
    have hrest := ih (updateValidator_ordered h hnext) hnodup.2 (fun v hv => hpow v (mem_cons_of_mem _ hv)) hok
    exact .cons hup hrest hnodup.1

end

/-! ## Turning the accumulators -/

namespace ValidatorSet

theorem decrementLoop_map {β : Type} (f : Validator → β) (hf : ∀ v accum, f { v with accum := accum } = f v)
    (total : Int) :
    ∀ (n : Nat) {valSet valSet' : ValidatorSet}, decrementLoop total n valSet = some valSet' →
      valSet'.validators.map f = valSet.validators.map f
  | 0, valSet, valSet', h => by
    cases h
    rfl
  | n + 1, valSet, valSet', h => by
    obtain ⟨next, hnext, hrest⟩ := bind_eq_some_iff.1 h
    rw [decrementLoop_map f hf total n hrest]
    obtain ⟨best, -, rfl⟩ := map_eq_some_iff.1 hnext
    rw [List.map_map]
    apply map_congr_left
    intro v _
    simp only [Function.comp_apply]
    split_ifs
    · exact hf v _
    · rfl

variable {valSet valSet' : ValidatorSet}

theorem incrementAccum_map {β : Type} (f : Validator → β) (hf : ∀ v accum, f { v with accum := accum } = f v)
    {times : Int} (h : valSet.incrementAccum times = some valSet') : valSet'.validators.map f =
      valSet.validators.map f := by
  rw [decrementLoop_map f hf _ _ h, List.map_map]
  apply map_congr_left
  intro v _
  exact hf v _

theorem Ordered.of_map_eq (h : valSet.Ordered)
    (hmap : valSet'.validators.map Validator.address = valSet.validators.map Validator.address) : valSet'.Ordered := by
  have hkeys : (valSet.validators.map Validator.address).Pairwise fun a b => compare a b ≠ .gt := pairwise_map.2 h
  rw [← hmap] at hkeys
  exact pairwise_map.1 hkeys

theorem incrementAccum_ordered {times : Int} (h : valSet.Ordered) (hinc : valSet.incrementAccum times = some valSet') :
    valSet'.Ordered :=
  h.of_map_eq (incrementAccum_map Validator.address (fun _ _ => rfl) hinc)

theorem ordered_insertionSort (vals : List Validator) (proposer : Option Validator) :
    Ordered ⟨vals.insertionSort fun a b => bytesCompare a.address b.address ≠ .gt, proposer⟩ := by
  have htotal : Std.Total fun a b : Validator => bytesCompare a.address b.address ≠ .gt := by
    constructor
    intro a b
    rw [bytesCompare_eq, bytesCompare_eq, Classical.or_iff_not_imp_left, not_not]
    intro hgt
    rw [Std.OrientedCmp.lt_of_gt hgt]
    exact fun hn => nomatch hn
  have htrans : IsTrans Validator fun a b => bytesCompare a.address b.address ≠ .gt := by
    constructor
    intro a b c hab hbc
    rw [bytesCompare_eq] at hab hbc ⊢
    exact Ordering.isLE_iff_ne_gt.1
      (Std.TransCmp.isLE_trans (Ordering.isLE_iff_ne_gt.2 hab) (Ordering.isLE_iff_ne_gt.2 hbc))
  refine (pairwise_insertionSort (fun a b => bytesCompare a.address b.address ≠ .gt) vals).imp ?_
  intro a b hab
  rwa [bytesCompare_eq] at hab

theorem newValidatorSet_ordered {vals : List Validator} (h : newValidatorSet vals = some valSet) : valSet.Ordered :=
  incrementAccum_ordered (ordered_insertionSort vals none) h

/-- The sets that the program builds: by `NewValidatorSet`, then any changes and turns. -/
inductive Built : ValidatorSet → Prop
  | empty : Built ⟨[], none⟩
  | new {vals : List Validator} {valSet : ValidatorSet} : newValidatorSet vals = some valSet → Built valSet
  | changed {valSet valSet' : ValidatorSet} {valUpdate : Validator} : Built valSet →
      updateValidator valSet valUpdate = .ok valSet' → Built valSet'
  | turned {valSet valSet' : ValidatorSet} {times : Int} : Built valSet → valSet.incrementAccum times = some valSet' →
      Built valSet'

theorem Built.ordered (h : valSet.Built) : valSet.Ordered := by
  induction h with
  | empty => exact List.Pairwise.nil
  | new hnew => exact newValidatorSet_ordered hnew
  | changed _ hstep ih => exact updateValidator_ordered ih hstep
  | turned _ hturn ih => exact incrementAccum_ordered ih hturn

theorem Built.updateValidators (updates : List Validator) : ∀ {valSet valSet' : ValidatorSet}, valSet.Built →
    Demars.updateValidators valSet updates = .ok valSet' → valSet'.Built := by
  induction updates with
  | nil =>
    intro valSet valSet' h hok
    cases hok
    exact h
  | cons valUpdate updates ih =>
    intro valSet valSet' h hok
    obtain ⟨next, hnext, -⟩ := updateValidator_cases h.ordered valUpdate
    rw [Demars.updateValidators, foldlM_cons, hnext] at hok
    exact ih (h.changed hnext) hok

end ValidatorSet

end Demars
