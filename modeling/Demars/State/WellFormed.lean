import Demars.Lib.Fold
import Demars.Lib.Runs
import Demars.State.Update
import Demars.Types.AccumHeap

/-!
# Well-formed validator sets

A validator set is well formed if its validators stand strictly in the order of their addresses, all have a
positive power and the key of their address, and there is at least one. `ValidateAndComplete` of `types/genesis.go`
looks at none of this but the number of validators and powers of zero, and what the application lists after a block
is converted without the keys.
-/

namespace Demars

open SortedList List Option

namespace ValidatorSet

/-- Ordered, positive, keyed, and not empty. -/
structure WellFormed (P : Primitives) (valSet : ValidatorSet) : Prop where
  sorted : valSet.validators.Pairwise fun v w => bytesCompare v.address w.address = .lt
  positive : ∀ v ∈ valSet.validators, 0 < v.votingPower
  nonempty : valSet.validators ≠ []
  keyed : ∀ v ∈ valSet.validators, ∃ key : PubKey, v.pubKey = some key ∧ key.address P = v.address

/-- What `IncrementAccum` does not change. -/
def identity (v : Validator) : Bytes × Option PubKey × Int := (v.address, v.pubKey, v.votingPower)

variable {P : Primitives} {valSet valSet' : ValidatorSet}

theorem strictlySorted_iff {vals : List Validator} : (vals.Pairwise fun v w => bytesCompare v.address w.address = .lt) ↔
      Sorted Validator.address vals ∧ (vals.map Validator.address).Nodup := by
  rw [List.Nodup, pairwise_map, Sorted, ← pairwise_and_iff]
  refine List.Pairwise.iff ?_
  intro v w
  rw [bytesCompare_eq]
  constructor
  · intro hlt
    constructor
    · rw [hlt]
      exact fun hn => nomatch hn
    · intro heq
      rw [heq, Std.ReflOrd.compare_self] at hlt
      cases hlt
  · rintro ⟨hgt, hne⟩
    cases hcmp : compare v.address w.address with
    | lt => rfl
    | eq => exact absurd (Std.LawfulEqCmp.eq_of_compare hcmp) hne
    | gt => exact absurd hcmp hgt

theorem WellFormed.ordered (h : valSet.WellFormed P) : valSet.Ordered := (strictlySorted_iff.1 h.sorted).1

theorem WellFormed.nodup (h : valSet.WellFormed P) : (valSet.validators.map Validator.address).Nodup :=
  (strictlySorted_iff.1 h.sorted).2

theorem WellFormed.of_identity (h : valSet.WellFormed P)
    (hsame : valSet'.validators.map identity = valSet.validators.map identity) : valSet'.WellFormed P := by
  have hmem : ∀ v ∈ valSet'.validators, ∃ w ∈ valSet.validators, identity w = identity v := fun v hv =>
    List.mem_map.1 (hsame ▸ List.mem_map_of_mem hv)
  refine ⟨?_, fun v hv => ?_, fun hempty => ?_, fun v hv => ?_⟩
  · have hpair : (valSet.validators.map identity).Pairwise fun a b => bytesCompare a.1 b.1 = .lt :=
      pairwise_map.2 h.sorted
    rw [← hsame] at hpair
    exact pairwise_map.1 hpair
  · obtain ⟨w, hw, heq⟩ := hmem v hv
    have hpower : w.votingPower = v.votingPower := congrArg (·.2.2) heq
    exact hpower ▸ h.positive w hw
  · rw [hempty] at hsame
    exact h.nonempty (map_eq_nil_iff.1 hsame.symm)
  · obtain ⟨w, hw, heq⟩ := hmem v hv
    obtain ⟨key, hkey, haddr⟩ := h.keyed w hw
    have hkeys : w.pubKey = v.pubKey := congrArg (·.2.1) heq
    have haddrs : w.address = v.address := congrArg (·.1) heq
    exact ⟨key, hkeys ▸ hkey, haddr.trans haddrs⟩

/-! ## Turning the accumulators -/

theorem heapLoop_identity (total : Int) :
    ∀ (n : Nat) {vals : List Validator} {heap : List Nat} {proposer : Option Validator}
    {valSet' : ValidatorSet}, heapLoop total n vals heap proposer = some valSet' →
    valSet'.validators.map identity = vals.map identity
  | 0, vals, heap, proposer, valSet', h => by
    cases h
    rfl
  | n + 1, vals, heap, proposer, valSet', h => by
    rw [heapLoop] at h
    obtain ⟨i, -, h⟩ := bind_eq_some_iff.1 h
    obtain ⟨v, hv, h⟩ := bind_eq_some_iff.1 h
    have hset : (vals.set i { v with accum := safeSubClip v.accum total }).map identity = vals.map identity := by
      obtain ⟨hi, rfl⟩ := List.getElem?_eq_some_iff.1 hv
      rw [map_set]
      apply ext_getElem?
      intro k
      rw [getElem?_set, length_map]
      split_ifs with hik
      · subst hik
        rw [getElem?_map, hv]
        rfl
      · rfl
    simp only at h
    split_ifs at h
    · cases h
      exact hset
    · obtain ⟨heap', -, h⟩ := bind_eq_some_iff.1 h
      rw [heapLoop_identity total n h, hset]

theorem heapIncrementAccum_identity {times : Int} (h : valSet.heapIncrementAccum times = some valSet') :
    valSet'.validators.map identity = valSet.validators.map identity := by
  obtain ⟨heap, -, h⟩ := bind_eq_some_iff.1 h
  rw [heapLoop_identity _ _ h, List.map_map]
  rfl

theorem wellFormed_heapIncrementAccum_iff {times : Int} (h : valSet.heapIncrementAccum times = some valSet') :
    valSet'.WellFormed P ↔ valSet.WellFormed P := by
  have hsame := heapIncrementAccum_identity h
  exact ⟨fun hwf => hwf.of_identity hsame.symm, fun hwf => hwf.of_identity hsame⟩

theorem isSome_decrementLoop (total : Int) : ∀ (n : Nat) {valSet : ValidatorSet}, valSet.validators ≠ [] →
    (valSet.validators.map Validator.address).Nodup → (decrementLoop total n valSet).isSome
  | 0, _, _, _ => rfl
  | n + 1, valSet, hne, hnodup => by
    obtain ⟨best, -, hmost, -⟩ := mostest_spec hne hnodup
    have hturn : ∃ next, decrementMostest total valSet = some next ∧
        next.validators.map Validator.address = valSet.validators.map Validator.address := by
      refine ⟨_, by rw [decrementMostest, hmost, map_some], ?_⟩
      rw [List.map_map]
      refine map_congr_left fun v _ => ?_
      simp only [Function.comp_apply]
      split_ifs <;> rfl
    obtain ⟨next, hnext, haddr⟩ := hturn
    rw [decrementLoop, hnext, bind_some]
    apply isSome_decrementLoop
    · intro hempty
      rw [hempty] at haddr
      exact hne (map_eq_nil_iff.1 haddr.symm)
    · rw [haddr]
      exact hnodup

theorem exists_heapIncrementAccum (hne : valSet.validators ≠ [])
    (hnodup : (valSet.validators.map Validator.address).Nodup) (times : Int) :
    ∃ valSet', valSet.heapIncrementAccum times = some valSet' := by
  rw [heapIncrementAccum_eq hnodup]
  apply isSome_iff_exists.1
  apply isSome_decrementLoop
  · exact fun hempty => hne (map_eq_nil_iff.1 hempty)
  · rw [List.map_map]
    exact hnodup

end ValidatorSet

/-! ## The list of the application -/

/-- Whether an address is in the set after a list: a change without power removes who is there, any other leaves its
address in the set. -/
def endsInside (address : Bytes) (vals : List AbciValidator) (inside : Bool) : Bool :=
  vals.foldl (fun inside val => if val.address = address then !inside || decide (val.power ≠ 0) else inside) inside

/-- The validators of the next height, as `updateState` builds them; `none` is a panic. -/
def buildNext (valSet : ValidatorSet) (vals : List AbciValidator) : Option (Except UpdateError ValidatorSet) :=
  match nextValidators valSet vals with
  | .error err => some (.error err)
  | .ok nextValSet => (nextValSet.heapIncrementAccum 1).map .ok

def KeepsWellFormed (valSet : ValidatorSet) (vals : List AbciValidator) : Prop :=
  (∀ val ∈ vals, endsInside val.address vals (decide (val.address ∈ valSet.validators.map Validator.address)) = false) ∧
    ∃ v ∈ valSet.validators, v.address ∉ vals.map Coin.ValidatorEntry.address

instance (valSet : ValidatorSet) (vals : List AbciValidator) : Decidable (KeepsWellFormed valSet vals) :=
  inferInstanceAs (Decidable (_ ∧ _))

section

variable {P : Primitives} {currentSet : ValidatorSet}

theorem updateValidator_mem (h : currentSet.Ordered) (hnodup : (currentSet.validators.map Validator.address).Nodup)
    (valUpdate : Validator) : ∃ valSet, updateValidator currentSet valUpdate = .ok valSet ∧ valSet.Ordered ∧
      (valSet.validators.map Validator.address).Nodup ∧
      ∀ v, v ∈ valSet.validators ↔ (v ∈ currentSet.validators ∧ v.address ≠ valUpdate.address) ∨
        (v = valUpdate ∧ ¬ (valUpdate.votingPower = 0 ∧
          valUpdate.address ∈ currentSet.validators.map Validator.address)) := by
  obtain ⟨valSet, hok, hcase⟩ := updateValidator_cases h valUpdate
  refine ⟨valSet, hok, updateValidator_ordered h hok, ?_⟩
  have hno := nodup_map_iff.1 hnodup
  rcases hcase with ⟨hup, hnew⟩ | ⟨hzero, ⟨val, hval, haddr⟩, herase⟩
  · refine ⟨nodup_map_iff.2 fun a ha => hno a ((hup.repeated a).1 ha), fun v => ?_⟩
    rw [hup.mem]
    constructor
    · rintro (rfl | hold | hrep)
      · refine .inr ⟨rfl, ?_⟩
        rintro ⟨hzero, hin⟩
        obtain ⟨w, hw, heq⟩ := List.mem_map.1 hin
        exact hnew hzero w hw heq
      · exact .inl hold
      · exact absurd hrep (hno v)
    · rintro (hold | ⟨rfl, -⟩)
      · exact .inr (.inl hold)
      · exact .inl rfl
  · have hin : valUpdate.address ∈ currentSet.validators.map Validator.address :=
      haddr ▸ List.mem_map_of_mem (mem_of_getElem? hval)
    refine ⟨?_, fun v => ?_⟩
    · rw [herase]
      exact hnodup.sublist ((eraseIdx_sublist _ _).map _)
    · rw [herase, mem_eraseIdx_iff_getElem?]
      constructor
      · rintro ⟨k, hk, hv⟩
        exact .inl ⟨mem_of_getElem? hv, haddr ▸ ValidatorSet.address_ne hnodup hk hv hval⟩
      · rintro (⟨hv, hne⟩ | ⟨-, hnot⟩)
        · obtain ⟨k, hk⟩ := getElem?_of_mem hv
          refine ⟨k, ?_, hk⟩
          rintro rfl
          rw [hval] at hk
          cases hk
          exact hne haddr
        · exact absurd ⟨hzero, hin⟩ hnot

/-- Who is not on the list stays, the others come without a key. -/
theorem updateValidators_mem (vals : List AbciValidator) : ∀ {currentSet : ValidatorSet}, currentSet.Ordered →
    (currentSet.validators.map Validator.address).Nodup →
    ∃ valSet, updateValidators currentSet (pb2tmValidators vals) = .ok valSet ∧ valSet.Ordered ∧
      (valSet.validators.map Validator.address).Nodup ∧
      (∀ v, v.address ∉ vals.map Coin.ValidatorEntry.address → (v ∈ valSet.validators ↔ v ∈ currentSet.validators)) ∧
      (∀ v ∈ valSet.validators, v.address ∈ vals.map Coin.ValidatorEntry.address → v.pubKey = none) ∧
      ∀ address, address ∈ valSet.validators.map Validator.address ↔
        endsInside address vals (decide (address ∈ currentSet.validators.map Validator.address)) = true := by
  induction vals with
  | nil =>
    intro currentSet h hnodup
    refine ⟨currentSet, rfl, h, hnodup, fun _ _ => Iff.rfl, fun _ _ hin => absurd hin not_mem_nil, fun address => ?_⟩
    rw [endsInside, foldl_nil, decide_eq_true_iff]
  | cons val vals ih =>
    intro currentSet h hnodup
    obtain ⟨mid, hmid, hordered, hmidnodup, hmem⟩ := updateValidator_mem h hnodup ⟨val.address, none, val.power, 0⟩
    obtain ⟨valSet, hok, hordered', hnodup', hstay, hnokey, hinside⟩ := ih hordered hmidnodup
    refine ⟨valSet, ?_, hordered', hnodup', fun v hv => ?_, fun v hv hin => ?_, fun address => ?_⟩
    · rw [pb2tmValidators, map_cons, updateValidators, foldlM_cons, hmid]
      exact hok
    · rw [map_cons, mem_cons, not_or] at hv
      rw [hstay v hv.2, hmem]
      constructor
      · rintro (⟨hold, -⟩ | ⟨rfl, -⟩)
        · exact hold
        · exact absurd rfl hv.1
      · exact fun hold => .inl ⟨hold, hv.1⟩
    · by_cases hlater : v.address ∈ vals.map Coin.ValidatorEntry.address
      · exact hnokey v hv hlater
      · rw [hstay v hlater, hmem] at hv
        rw [map_cons, mem_cons] at hin
        rcases hv with ⟨-, hne⟩ | ⟨rfl, -⟩
        · exact absurd (hin.resolve_right hlater) hne
        · rfl
    · rw [hinside, endsInside, endsInside, foldl_cons]
      -- the first change as the fold sees it
      have hfirst : decide (address ∈ mid.validators.map Validator.address) = if val.address = address then
            !decide (address ∈ currentSet.validators.map Validator.address) || decide (val.power ≠ 0)
          else decide (address ∈ currentSet.validators.map Validator.address) := by
        rw [Bool.eq_iff_iff, decide_eq_true_iff, List.mem_map]
        split_ifs with heq
        · subst heq
          rw [Bool.or_eq_true, Bool.not_eq_true', decide_eq_false_iff_not, decide_eq_true_iff]
          constructor
          · rintro ⟨v, hv, hva⟩
            rcases (hmem v).1 hv with ⟨-, hne⟩ | ⟨-, hnot⟩
            · exact absurd hva hne
            · rw [not_and_or] at hnot
              exact hnot.symm
          · intro hor
            refine ⟨_, (hmem _).2 (.inr ⟨rfl, ?_⟩), rfl⟩
            rintro ⟨hzero, hin⟩
            rcases hor with hout | hpower
            · exact hout hin
            · exact hpower hzero
        · rw [decide_eq_true_iff, List.mem_map]
          constructor
          · rintro ⟨v, hv, hva⟩
            rcases (hmem v).1 hv with ⟨hold, -⟩ | ⟨rfl, -⟩
            · exact ⟨v, hold, hva⟩
            · exact absurd hva heq
          · rintro ⟨v, hv, hva⟩
            exact ⟨v, (hmem v).2 (.inl ⟨hv, fun h => heq (h.symm.trans hva)⟩), hva⟩
      rw [hfirst]

theorem nextValidators_eq (valSet : ValidatorSet) (vals : List AbciValidator) :
    nextValidators valSet vals = updateValidators valSet (pb2tmValidators vals) := by
  unfold nextValidators
  split_ifs with h
  · subst h
    rfl
  · rfl

theorem wellFormed_next_iff (h : currentSet.WellFormed P) (vals : List AbciValidator) :
    (∃ next, buildNext currentSet vals = some (.ok next) ∧ next.WellFormed P) ↔ KeepsWellFormed currentSet vals := by
  obtain ⟨valSet, hok, hordered, hnodup, hstay, hnokey, hinside⟩ := updateValidators_mem vals h.ordered h.nodup
  have hbuild : buildNext currentSet vals = (valSet.heapIncrementAccum 1).map .ok := by
    rw [buildNext, nextValidators_eq, hok]
  rw [hbuild]
  constructor
  · rintro ⟨next, hnext, hwf⟩
    obtain ⟨turned, hturn, heq⟩ := map_eq_some_iff.1 hnext
    cases heq
    rw [ValidatorSet.wellFormed_heapIncrementAccum_iff hturn] at hwf
    -- who is on the list has no key
    have hout : ∀ v ∈ valSet.validators, v.address ∉ vals.map Coin.ValidatorEntry.address := by
      intro v hv hin
      obtain ⟨key, hkey, -⟩ := hwf.keyed v hv
      rw [hnokey v hv hin] at hkey
      cases hkey
    refine ⟨fun val hval => ?_, ?_⟩
    · rw [← Bool.not_eq_true, ← hinside]
      intro hin
      obtain ⟨v, hv, heq⟩ := List.mem_map.1 hin
      exact hout v hv (heq ▸ List.mem_map_of_mem hval)
    · obtain ⟨v, hv⟩ := exists_mem_of_ne_nil _ hwf.nonempty
      exact ⟨v, (hstay v (hout v hv)).1 hv, hout v hv⟩
  · rintro ⟨hleave, v, hv, hunnamed⟩
    have hold : ∀ w ∈ valSet.validators, w ∈ currentSet.validators := by
      intro w hw
      refine (hstay w fun hin => ?_).1 hw
      obtain ⟨val, hval, heq⟩ := List.mem_map.1 hin
      have hinside' := (hinside val.address).1 (heq ▸ List.mem_map_of_mem hw)
      rw [hleave val hval] at hinside'
      cases hinside'
    have hne : valSet.validators ≠ [] := ne_nil_of_mem ((hstay v hunnamed).2 hv)
    have hwf : valSet.WellFormed P := by
      refine ⟨ValidatorSet.strictlySorted_iff.2 ⟨hordered, hnodup⟩, fun w hw => ?_, hne, fun w hw => ?_⟩
      · exact h.positive w (hold w hw)
      · exact h.keyed w (hold w hw)
    obtain ⟨turned, hturn⟩ := ValidatorSet.exists_heapIncrementAccum hne hnodup 1
    exact ⟨turned, by rw [hturn, map_some], (ValidatorSet.wellFormed_heapIncrementAccum_iff hturn).2 hwf⟩

end

/-! ## The genesis document -/

/-- `types.GenesisValidator`, without its name. -/
structure GenesisValidator where
  pubKey : Option PubKey
  power : Int

/-- `types.GenesisDoc` in a file: time, parameters and keys may be missing. -/
structure GenesisFile where
  genesisTime : Option Int
  chainID : Bytes
  consensusParams : Option ConsensusParams
  validators : List GenesisValidator
  appHash : Bytes

inductive GenesisFileError
  /-- `Genesis doc must include non-empty chain_id` -/
  | chainID
  | params (err : ParamsError)
  /-- `The genesis file must have at least one validator` -/
  | noValidators
  /-- `The genesis file cannot contain validators with no voting power: %v` -/
  | noPower (val : GenesisValidator)

namespace GenesisFile

/-- `GenesisDoc.ValidateAndComplete`: the document with its time and its parameters. -/
def validateAndComplete (now : Int) (file : GenesisFile) : Except GenesisFileError GenesisFile :=
  if file.chainID = [] then .error .chainID
  else
    match (file.consensusParams.map ConsensusParams.validate).getD (.ok ()) with
    | .error err => .error (.params err)
    | .ok _ =>
      if file.validators = [] then .error .noValidators
      else match file.validators.find? fun val => val.power = 0 with
        | some val => .error (.noPower val)
        | none => .ok { file with
            genesisTime := some (file.genesisTime.getD now)
            consensusParams := some (file.consensusParams.getD defaultConsensusParams) }

/-- The validators that `MakeGenesisState` makes; `none` is the panic on a missing key. -/
def makeValidators (P : Primitives) (file : GenesisFile) : Option (List Validator) :=
  file.validators.mapM fun val => val.pubKey.map fun key => ⟨key.address P, some key, val.power, 0⟩

/-- `NewValidatorSet` of a list that is not `nil`, with the heap of `IncrementAccum`. -/
def newValidatorSet (vals : List Validator) : Option ValidatorSet :=
  ValidatorSet.heapIncrementAccum ⟨vals.insertionSort fun a b => bytesCompare a.address b.address ≠ .gt, none⟩ 1

/-- `MakeGenesisState`; `none` is a panic. -/
def makeGenesisState (P : Primitives) (now : Int) (file : GenesisFile) : Option (Except GenesisFileError SavedState) :=
  match file.validateAndComplete now with
  | .error err => some (.error err)
  | .ok file =>
    (file.makeValidators P).bind fun vals => (newValidatorSet vals).map fun valSet => .ok {
      chainID := file.chainID
      lastBlockHeight := 0
      lastBlockTotalTx := 0
      lastBlockID := BlockID.empty
      lastBlockTime := file.genesisTime.getD now
      validators := valSet
      lastValidators := ⟨[], none⟩
      lastHeightValidatorsChanged := 1
      consensusParams := file.consensusParams.getD defaultConsensusParams
      lastHeightConsensusParamsChanged := 1
      lastResultsHash := []
      appHash := file.appHash }

/-- All keys are there, their addresses are different, and all powers are positive. -/
def Sound (P : Primitives) (file : GenesisFile) : Prop :=
  (∀ val ∈ file.validators, val.pubKey.isSome ∧ 0 < val.power) ∧
    (file.validators.map fun val => val.pubKey.map (PubKey.address P)).Nodup

instance (P : Primitives) (file : GenesisFile) : Decidable (file.Sound P) :=
  inferInstanceAs (Decidable (_ ∧ _))

variable {P : Primitives} {now : Int} {file completed : GenesisFile}

theorem validators_validateAndComplete (h : file.validateAndComplete now = .ok completed) :
    completed.validators = file.validators ∧ file.validators ≠ [] := by
  unfold validateAndComplete at h
  by_cases hchain : file.chainID = []
  · rw [if_pos hchain] at h
    cases h
  rw [if_neg hchain] at h
  split at h
  · cases h
  · by_cases hne : file.validators = []
    · rw [if_pos hne] at h
      cases h
    rw [if_neg hne] at h
    split at h
    · cases h
    · cases h
      exact ⟨rfl, hne⟩

theorem makeValidators_eq_some_iff {vals : List Validator} : file.makeValidators P = some vals ↔
    ∃ keys : List (PubKey × Int), file.validators = keys.map (fun key => ⟨some key.1, key.2⟩) ∧
      vals = keys.map fun key => ⟨key.1.address P, some key.1, key.2, 0⟩ := by
  rw [makeValidators, Fold.mapM_eq_some_iff]
  constructor
  · intro h
    generalize file.validators = gvals at h
    induction gvals generalizing vals with
    | nil => exact ⟨[], rfl, map_eq_nil_iff.1 h.symm⟩
    | cons val gvals ih =>
      obtain ⟨v, vals, rfl, hv, hvals⟩ := map_eq_cons_iff.1 h.symm
      obtain ⟨key, hkey, rfl⟩ := map_eq_some_iff.1 hv.symm
      obtain ⟨keys, rfl, rfl⟩ := ih hvals.symm
      exact ⟨(key, val.power) :: keys, by cases val; cases hkey; rfl, rfl⟩
  · rintro ⟨keys, hkeys, rfl⟩
    rw [hkeys, List.map_map, List.map_map]
    rfl

theorem exists_keys (h : ∀ val ∈ file.validators, val.pubKey.isSome) :
    ∃ keys : List (PubKey × Int), keys.map (fun key => (⟨some key.1, key.2⟩ : GenesisValidator)) = file.validators := by
  refine (Set.range_list_map _).ge fun val hval => ?_
  obtain ⟨key, hkey⟩ := isSome_iff_exists.1 (h val hval)
  exact ⟨(key, val.power), congrArg (GenesisValidator.mk · val.power) hkey.symm⟩

theorem wellFormed_genesis_iff (haccepted : file.validateAndComplete now = .ok completed) :
    (∃ state, file.makeGenesisState P now = some (.ok state) ∧ state.validators.WellFormed P) ↔ file.Sound P := by
  obtain ⟨hsame, hne⟩ := validators_validateAndComplete haccepted
  have hvals : completed.makeValidators P = file.makeValidators P := by rw [makeValidators, makeValidators, hsame]
  have hperm (vals : List Validator) :=
    perm_insertionSort (fun a b : Validator => bytesCompare a.address b.address ≠ .gt) vals
  rw [makeGenesisState, haccepted]
  simp only [hvals]
  constructor
  · rintro ⟨state, hstate, hwf⟩
    obtain ⟨vals, hmake, hstate⟩ := bind_eq_some_iff.1 hstate
    obtain ⟨valSet, hnew, heq⟩ := map_eq_some_iff.1 hstate
    cases heq
    have hsorted := (ValidatorSet.wellFormed_heapIncrementAccum_iff hnew).1 hwf
    obtain ⟨keys, hkeys, rfl⟩ := makeValidators_eq_some_iff.1 hmake
    rw [Sound, hkeys]
    refine ⟨fun val hval => ?_, ?_⟩
    · obtain ⟨key, hkey, rfl⟩ := List.mem_map.1 hval
      exact ⟨rfl, hsorted.positive _ ((hperm _).mem_iff.2 (List.mem_map_of_mem hkey))⟩
    · have hnodup := (((hperm _).map Validator.address).nodup_iff.1 hsorted.nodup).map (some_injective Bytes)
      rw [List.map_map, List.map_map] at hnodup
      rw [List.map_map]
      exact hnodup
  · rintro ⟨hall, hnodup⟩
    obtain ⟨keys, hkeys⟩ := exists_keys fun val hval => (hall val hval).1
    let vals : List Validator := keys.map fun key => ⟨key.1.address P, some key.1, key.2, 0⟩
    have hmake : file.makeValidators P = some vals := makeValidators_eq_some_iff.2 ⟨keys, hkeys.symm, rfl⟩
    have hnodup' : ((vals.insertionSort fun a b => bytesCompare a.address b.address ≠ .gt).map
      Validator.address).Nodup := by
      rw [((hperm vals).map Validator.address).nodup_iff]
      rw [← hkeys, List.map_map] at hnodup
      refine List.Nodup.of_map some ?_
      rw [List.map_map, List.map_map]
      exact hnodup
    have hne' : (vals.insertionSort fun a b => bytesCompare a.address b.address ≠ .gt) ≠ [] := by
      intro hempty
      have hnil : vals = [] := List.Perm.eq_nil (hempty ▸ (hperm vals).symm)
      rw [← hkeys, map_eq_nil_iff.1 hnil] at hne
      exact hne rfl
    obtain ⟨valSet, hnew⟩ : ∃ valSet, newValidatorSet vals = some valSet :=
      ValidatorSet.exists_heapIncrementAccum hne' hnodup' 1
    rw [hmake, bind_some, hnew]
    refine ⟨_, rfl, (ValidatorSet.wellFormed_heapIncrementAccum_iff hnew).2 ?_⟩
    refine ⟨ValidatorSet.strictlySorted_iff.2 ⟨ValidatorSet.ordered_insertionSort vals none, hnodup'⟩,
      fun v hv => ?_, hne', fun v hv => ?_⟩ <;> obtain ⟨key, hkey, rfl⟩ := List.mem_map.1 ((hperm vals).mem_iff.1 hv)
    · exact (hall _ (hkeys ▸ List.mem_map_of_mem hkey)).2
    · exact ⟨key.1, rfl, rfl⟩

end GenesisFile

/-! ## The chain -/

/-- What `updateState` reads of a block, and the hash of the application afterwards. -/
structure AppliedBlock where
  blockID : BlockID
  header : Header
  responses : ABCIResponses
  appHash : Bytes

/-- The chain state after `ApplyBlock`; a block that fails leaves it. -/
def stateAfterBlock (P : Primitives) (B : BlockCodec) (state : SavedState) (block : AppliedBlock) : SavedState :=
  match updateState P B state block.blockID block.header block.responses with
  | some (.ok updated) => { updated with appHash := block.appHash }
  | _ => state

section

variable {P : Primitives} {B : BlockCodec} {state genesis : SavedState} {block : AppliedBlock}

theorem wellFormed_stateAfterBlock (h : state.validators.WellFormed P)
    (hkeeps : KeepsWellFormed state.validators block.responses.getValidatorSet) :
    (stateAfterBlock P B state block).validators.WellFormed P ∧
      (stateAfterBlock P B state block = state ∨ (stateAfterBlock P B state block).lastValidators.WellFormed P) := by
  unfold stateAfterBlock
  split
  · next updated hupdate =>
    obtain ⟨⟨nextValSet, hnext, hturn⟩, -, hlast, -⟩ := updateState_eq_ok hupdate
    obtain ⟨next, hbuild, hwf⟩ := (wellFormed_next_iff h _).2 hkeeps
    rw [buildNext, hnext] at hbuild
    obtain ⟨turned, hheap, heq⟩ := map_eq_some_iff.1 hbuild
    cases heq
    -- with different addresses the heap makes no difference
    have hnodup := ((ValidatorSet.wellFormed_heapIncrementAccum_iff hheap).1 hwf).nodup
    rw [ValidatorSet.heapIncrementAccum_eq hnodup, hturn] at hheap
    cases hheap
    refine ⟨hwf, .inr ?_⟩
    rw [hlast]
    exact h
  · exact ⟨h, .inl rfl⟩

/-- **Validator sets stay well formed.** For every accepted document the first set is well formed exactly if the
document is sound; from a well-formed set the next one is built and well formed exactly if the list of the application
keeps it so; and along all blocks with such lists the validators of the chain state are well formed, those of the
block before as well, and no set is built with a panic. -/
theorem chain_wellFormed (P : Primitives) (B : BlockCodec) (now : Int) (file completed : GenesisFile)
    (haccepted : file.validateAndComplete now = .ok completed) :
    ((∃ state, file.makeGenesisState P now = some (.ok state) ∧ state.validators.WellFormed P) ↔ file.Sound P) ∧
    (∀ (valSet : ValidatorSet) (vals : List AbciValidator), valSet.WellFormed P →
      ((∃ next, buildNext valSet vals = some (.ok next) ∧ next.WellFormed P) ↔ KeepsWellFormed valSet vals)) ∧
    (file.Sound P → ∃ genesis, file.makeGenesisState P now = some (.ok genesis) ∧ ∀ blocks : List AppliedBlock,
      Runs.Along (stateAfterBlock P B) (fun state block => KeepsWellFormed state.validators
        block.responses.getValidatorSet)
        genesis blocks →
      ∀ before, before <+: blocks → (before.foldl (stateAfterBlock P B) genesis).validators.WellFormed P ∧
        (before.foldl (stateAfterBlock P B) genesis = genesis ∨
          (before.foldl (stateAfterBlock P B) genesis).lastValidators.WellFormed P) ∧
        ∀ block, before ++ [block] <+: blocks →
          ∃ next, buildNext (before.foldl (stateAfterBlock P B) genesis).validators
          block.responses.getValidatorSet = some (.ok next)) := by
  refine ⟨GenesisFile.wellFormed_genesis_iff haccepted, fun valSet vals h => wellFormed_next_iff h vals,
    fun hsound => ?_⟩
  obtain ⟨genesis, hgenesis, hwf⟩ := (GenesisFile.wellFormed_genesis_iff haccepted).2 hsound
  refine ⟨genesis, hgenesis, fun blocks halong before hbefore => ?_⟩
  have hinv := Runs.always_of_along
    (I := fun state => state.validators.WellFormed P ∧ (state = genesis ∨ state.lastValidators.WellFormed P))
    (fun state block hI hQ => by
      obtain ⟨hvals, hlast⟩ := wellFormed_stateAfterBlock (B := B) hI.1 hQ
      refine ⟨hvals, ?_⟩
      rcases hlast with hsame | hlast
      · rw [hsame]
        exact hI.2
      · exact .inr hlast)
    ⟨hwf, .inl rfl⟩ halong before hbefore
  refine ⟨hinv.1, hinv.2, fun block hblock => ?_⟩
  obtain ⟨next, hbuild, -⟩ := (wellFormed_next_iff hinv.1 _).2 (halong.at_input hblock)
  exact ⟨next, hbuild⟩

end

/-! ## Small chains -/

namespace Genesis

def withValidators (vals : List (Bytes × Int)) : GenesisFile where
  genesisTime := none
  chainID := ascii "c"
  consensusParams := none
  validators := vals.map fun val => ⟨some (.ed25519 val.1), val.2⟩
  appHash := []

def addressOf (key : Bytes) : Bytes := (PubKey.ed25519 key).address .checked

def listing (vals : List AbciValidator) : AppliedBlock where
  blockID := BlockID.empty
  header := {
    chainID := ascii "c", height := 1, time := 0, numTxs := 0, lastBlockID := BlockID.empty, totalTxs :=
      0, dataHash := []
    validatorsHash := [], consensusHash := [], appHash := [], lastResultsHash := [] }
  responses := ⟨[], none, vals⟩
  appHash := []

def first (file : GenesisFile) : Option SavedState :=
  match file.makeGenesisState .checked 0 with
  | some (.ok state) => some state
  | _ => none

def afterListing (file : GenesisFile) (vals : List AbciValidator) : Option (List Validator) :=
  (first file).map fun state => (stateAfterBlock .checked .plain state (listing vals)).validators.validators

def pair : GenesisFile := withValidators [([1], 5), ([2], 7)]

end Genesis

open Genesis in
/-- Two validators, of which the application removes one. -/
theorem chain_wellFormed_pair : ∃ completed, pair.validateAndComplete 0 = .ok completed ∧
      ∃ genesis, pair.makeGenesisState .checked 0 = some (.ok genesis) ∧ genesis.validators.WellFormed .checked ∧
        (stateAfterBlock .checked .plain genesis (listing [⟨addressOf [1], 0⟩])).validators.WellFormed .checked := by
  obtain ⟨completed, hcompleted⟩ : ∃ completed, pair.validateAndComplete 0 = .ok completed := ⟨_, rfl⟩
  obtain ⟨-, -, hchain⟩ := chain_wellFormed .checked .plain 0 pair completed hcompleted
  obtain ⟨genesis, hgenesis, hrun⟩ := hchain (by decide +kernel)
  have hkeeps : ∀ state ∈ first pair, KeepsWellFormed state.validators [⟨addressOf [1], 0⟩] := by decide +kernel
  have hfirst : genesis ∈ first pair := by
    rw [mem_def, first, hgenesis]
  have hall := hrun [listing [⟨addressOf [1], 0⟩]] ⟨hkeeps genesis hfirst, trivial⟩
  exact ⟨completed, hcompleted, genesis, hgenesis, (hall [] nil_prefix).1, (hall _ (prefix_refl _)).1⟩

open Genesis in
/-- Accepted documents and lists after which a set is not well formed: a double or missing key makes
`MakeGenesisState` panic, a negative power is taken over; a validator on the list loses its key, a new one without
power is added, and removing the only one makes `updateState` panic. -/
theorem validator_sets_broken :
    ((withValidators [([1], 5), ([1], 5)]).validateAndComplete 0).toOption.isSome ∧
    (withValidators [([1], 5), ([1], 5)]).makeGenesisState .checked 0 = none ∧
    ({ pair with validators := [⟨none, 5⟩] }.validateAndComplete 0).toOption.isSome ∧
    { pair with validators := [⟨none, 5⟩] }.makeGenesisState .checked 0 = none ∧
    ((first (withValidators [([1], -5)])).map fun state => state.validators.validators.map Validator.votingPower) =
      some [-5] ∧
    (afterListing (withValidators [([1], 5)]) [⟨addressOf [1], 6⟩]).map (List.map Validator.pubKey) = some [none] ∧
    (afterListing (withValidators [([1], 5)]) [⟨[], 0⟩]).map (List.map Validator.votingPower) = some [0, 5] ∧
    ((first (withValidators [([1], 5)])).map fun state =>
      (buildNext state.validators [⟨addressOf [1], 0⟩], updateState .checked .plain state BlockID.empty
        (listing []).header (listing [⟨addressOf [1], 0⟩]).responses)) = some (none, none) := by
  decide +kernel

end Demars
