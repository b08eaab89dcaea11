import Demars.Lib.ChangeLog
import Demars.Lib.Table
import Demars.State.Update

/-!
# The state store

`state/store.go`: `SaveState` writes the state and, for the next height, the validators and the parameters, in full
where they changed with this height and as the height of their last change otherwise. Both are a `ChangeLog`, with
the next height as the position.
-/

namespace Demars.StateStore

open Table ChangeLog List Option

structure ValidatorsInfo where
  validatorSet : Option ValidatorSet
  lastHeightChanged : Int
deriving DecidableEq

structure ConsensusParamsInfo where
  consensusParams : ConsensusParams
  lastHeightChanged : Int
deriving DecidableEq

def emptyParams : ConsensusParams := ⟨0, 0, 0, 0, 0, 0, 0⟩

/-- The encodings of go-amino for the records. Only a record of zeros is written as nothing. -/
structure StateCodec where
  validatorsInfo : Blob ValidatorsInfo
  paramsInfo : Blob ConsensusParamsInfo
  state : SavedState → Bytes
  validatorsInfo_eq_nil : ∀ info, validatorsInfo.enc info = [] → info.lastHeightChanged = 0
  paramsInfo_eq_nil : ∀ info, paramsInfo.enc info = [] → info.lastHeightChanged = 0

inductive LoadError
  /-- `ErrNoValSetForHeight` -/
  | noValSet (height : Int)
  /-- `ErrNoConsensusParamsForHeight` -/
  | noConsensusParams (height : Int)

abbrev DB := Bytes → Bytes

def calcValidatorsKey (height : Int) : Bytes := ascii "validatorsKey:" ++ decimal height

def calcConsensusParamsKey (height : Int) : Bytes := ascii "consensusParamsKey:" ++ decimal height

def stateKey : Bytes := ascii "stateKey"

section

variable (C : StateCodec)

def saveValidatorsInfo (nextHeight changeHeight : Int) (valSet : ValidatorSet) (db : DB) : DB :=
  Function.update db (calcValidatorsKey nextHeight)
    (C.validatorsInfo.enc ⟨if changeHeight = nextHeight then some valSet else none, changeHeight⟩)

def saveConsensusParamsInfo (nextHeight changeHeight : Int) (params : ConsensusParams) (db : DB) : DB :=
  Function.update db (calcConsensusParamsKey nextHeight)
    (C.paramsInfo.enc ⟨if changeHeight = nextHeight then params else emptyParams, changeHeight⟩)

def saveState (state : SavedState) (db : DB) : DB :=
  let nextHeight := state.lastBlockHeight + 1
  let db := saveValidatorsInfo C nextHeight state.lastHeightValidatorsChanged state.validators db
  let db := saveConsensusParamsInfo C nextHeight state.lastHeightConsensusParamsChanged state.consensusParams db
  Function.update db stateKey (C.state state)

/-- `LoadValidators`; `none` is a panic, or the exit on a record that cannot be read. -/
def loadValidators (db : DB) (height : Int) : Option (Except LoadError (Option ValidatorSet)) :=
  (C.validatorsInfo.load db (calcValidatorsKey height)).bind fun valInfo =>
    match valInfo with
    | none => some (.error (.noValSet height))
    | some valInfo =>
      match valInfo.validatorSet with
      | some valSet => some (.ok (some valSet))
      | none => (C.validatorsInfo.load db (calcValidatorsKey valInfo.lastHeightChanged)).bind fun valInfo2 =>
          valInfo2.map fun valInfo2 => .ok valInfo2.validatorSet

def loadConsensusParams (db : DB) (height : Int) : Option (Except LoadError ConsensusParams) :=
  (C.paramsInfo.load db (calcConsensusParamsKey height)).bind fun paramsInfo =>
    match paramsInfo with
    | none => some (.error (.noConsensusParams height))
    | some paramsInfo =>
      if paramsInfo.consensusParams = emptyParams then
        (C.paramsInfo.load db (calcConsensusParamsKey paramsInfo.lastHeightChanged)).bind fun paramsInfo =>
          paramsInfo.map fun paramsInfo => .ok paramsInfo.consensusParams
      else some (.ok paramsInfo.consensusParams)

/-- The database after some states were saved, the latest first. -/
def saved : List SavedState → DB
  | [] => fun _ => []
  | state :: older => saveState C state (saved older)

end

/-- What a state says about the validators of the next height. -/
def validatorsPoint (state : SavedState) : Point ValidatorSet :=
  ⟨state.lastBlockHeight + 1, state.lastHeightValidatorsChanged, state.validators⟩

def paramsPoint (state : SavedState) : Point ConsensusParams :=
  ⟨state.lastBlockHeight + 1, state.lastHeightConsensusParamsChanged, state.consensusParams⟩

/-! ## Encodings that can be evaluated -/

def plainPubKey : Code PubKey :=
  (Code.byte.prod Plain.bytes).map (fun p => if p.1 = 0 then .ed25519 p.2 else .secp256k1 p.2)
    (fun key => match key with
      | .ed25519 bz => (0, bz)
      | .secp256k1 bz => (1, bz)) fun key => by cases key <;> rfl

def plainValidator : Code Validator :=
  (Plain.bytes.prod (plainPubKey.option.prod (Code.int.prod Code.int))).map (fun p => ⟨p.1, p.2.1, p.2.2.1, p.2.2.2⟩)
    (fun val => (val.address, val.pubKey, val.votingPower, val.accum)) fun _ => rfl

def plainValidatorsInfo : Code ValidatorsInfo :=
  (Code.int.prod ((plainValidator.list.prod plainValidator.option).map (fun p => (⟨p.1, p.2⟩ : ValidatorSet))
    (fun vals => (vals.validators, vals.proposer)) fun _ => rfl).option).map (fun p => ⟨p.2, p.1⟩)
    (fun info => (info.lastHeightChanged, info.validatorSet)) fun _ => rfl

def plainParamsInfo : Code ConsensusParamsInfo :=
  (Code.int.prod (Code.int.prod
    (Code.int.prod (Code.int.prod (Code.int.prod (Code.int.prod (Code.int.prod Code.int))))))).map
    (fun p => ⟨⟨p.2.1, p.2.2.1, p.2.2.2.1, p.2.2.2.2.1, p.2.2.2.2.2.1, p.2.2.2.2.2.2.1, p.2.2.2.2.2.2.2⟩, p.1⟩)
    (fun info => (info.lastHeightChanged, info.consensusParams.blockMaxBytes, info.consensusParams.blockMaxTxs,
      info.consensusParams.blockMaxGas, info.consensusParams.txMaxBytes, info.consensusParams.txMaxGas,
      info.consensusParams.blockPartSizeBytes, info.consensusParams.evidenceMaxAge)) fun _ => rfl

/-- Encodings that leave out what is zero; of the state, only the height. -/
def StateCodec.plain : StateCodec where
  validatorsInfo := plainValidatorsInfo.omitting ⟨none, 0⟩ fun _ => Code.prod_ne_nil _ _ Code.int_ne_nil _
  paramsInfo := plainParamsInfo.omitting ⟨emptyParams, 0⟩ fun _ => Code.prod_ne_nil _ _ Code.int_ne_nil _
  state state := Code.int.enc state.lastBlockHeight
  validatorsInfo_eq_nil info h := by rw [(Code.omitting_enc_eq_nil _).1 h]
  paramsInfo_eq_nil info h := by rw [(Code.omitting_enc_eq_nil _).1 h]

variable {C : StateCodec} {states : List SavedState}

/-! ## The records -/

theorem calcValidatorsKey_inj {h h' : Int} : calcValidatorsKey h = calcValidatorsKey h' ↔ h = h' :=
  ⟨fun heq => decimal_injective (append_cancel_left heq), fun heq => by rw [heq]⟩

theorem calcConsensusParamsKey_inj {h h' : Int} : calcConsensusParamsKey h = calcConsensusParamsKey h' ↔ h = h' :=
  ⟨fun heq => decimal_injective (append_cancel_left heq), fun heq => by rw [heq]⟩

theorem keys_ne (h h' : Int) : calcValidatorsKey h ≠ calcConsensusParamsKey h' ∧ calcValidatorsKey h ≠ stateKey ∧
    calcConsensusParamsKey h ≠ stateKey := by
  refine ⟨fun heq => ?_, fun heq => ?_, fun heq => ?_⟩
  · exact absurd (show some (118 : UInt8) = some 99 from congrArg List.head? heq) (by decide)
  · exact absurd (show some (118 : UInt8) = some 115 from congrArg List.head? heq) (by decide)
  · exact absurd (show some (99 : UInt8) = some 115 from congrArg List.head? heq) (by decide)

/-- Each save writes the record of the next height and leaves the others. -/
theorem saved_key {β : Type} {point : SavedState → Point β} {key : Int → Bytes} {enc : Entry β → Bytes}
    (hsave : ∀ state db height, saveState C state db (key height) =
      if height = (point state).pos then enc (point state).entry else db (key height)) (height : Int) :
    ∀ states : List SavedState, saved C states (key height) = ((table (states.map point) height).map enc).getD []
  | [] => rfl
  | state :: older => by
    rw [saved, hsave, map_cons, table]
    split_ifs with heq
    · rw [heq, Function.update_self]
      rfl
    · rw [Function.update_of_ne heq, saved_key hsave height older]

theorem saved_validatorsKey (states : List SavedState) (height : Int) : saved C states (calcValidatorsKey height) =
    ((table (states.map validatorsPoint) height).map fun e => C.validatorsInfo.enc ⟨e.value, e.changed⟩).getD [] := by
  refine saved_key (fun state db height => ?_) height states
  have hkeys := keys_ne height (state.lastBlockHeight + 1)
  rw [saveState, Function.update_of_ne hkeys.2.1, saveConsensusParamsInfo, Function.update_of_ne hkeys.1,
    saveValidatorsInfo]
  simp only [Function.update_apply, calcValidatorsKey_inj]
  rfl

theorem saved_paramsKey (states : List SavedState) (height : Int) : saved C states (calcConsensusParamsKey height) =
    ((table (states.map paramsPoint) height).map fun e => C.paramsInfo.enc ⟨e.value.getD emptyParams, e.changed⟩).getD
      [] := by
  refine saved_key (fun state db height => ?_) height states
  have hkeys := keys_ne (state.lastBlockHeight + 1) height
  rw [saveState, Function.update_of_ne (keys_ne height height).2.2, saveConsensusParamsInfo, saveValidatorsInfo]
  simp only [Function.update_apply, calcConsensusParamsKey_inj, if_neg hkeys.1.symm]
  refine if_congr Iff.rfl ?_ rfl
  change _ = C.paramsInfo.enc ⟨(if state.lastHeightConsensusParamsChanged = state.lastBlockHeight + 1 then
    some state.consensusParams else none).getD emptyParams, _⟩
  split_ifs <;> rfl

/-! ## Reading -/

section

variable {β γ : Type} {f : ValidatorSet → β} {g : ConsensusParams → γ} {height : Int}

theorem load_validatorsInfo {p : Point ValidatorSet} (hp : inForce (states.map validatorsPoint) height = some p)
    (hpos : p.changed ≠ 0) : C.validatorsInfo.load (saved C states) (calcValidatorsKey height) =
      some (some ⟨p.entry.value, p.changed⟩) := by
  refine Blob.load_some ?_ fun hnil => hpos (C.validatorsInfo_eq_nil _ hnil)
  rw [saved_validatorsKey, table_eq, hp]
  rfl

theorem changed_ne_zero {α : Type} {point : SavedState → Point α} {p : Point α}
    (hpos : ∀ state ∈ states, (point state).changed ≠ 0) (hp : inForce (states.map point) height = some p) :
    p.changed ≠ 0 := by
  obtain ⟨state, hstate, rfl⟩ := List.mem_map.1 (mem_of_inForce hp)
  exact hpos state hstate

theorem loadValidators_saved (hrun : Run f (states.map validatorsPoint))
    (hpos : ∀ state ∈ states, state.lastHeightValidatorsChanged ≠ 0) {p : Point ValidatorSet}
    (hp : inForce (states.map validatorsPoint) height = some p) :
    loadValidators C (saved C states) height = some (.ok (find (table (states.map validatorsPoint)) height)) := by
  rw [loadValidators, load_validatorsInfo hp (changed_ne_zero hpos hp), bind_some]
  by_cases hfull : p.changed = p.pos
  · rw [find_of_full hp hfull, Point.entry_of_full hfull]
  · obtain ⟨q, hq, hqfull⟩ := hrun.pointer hp
    rw [find_of_pointer hp hfull hq hqfull, Point.entry_of_pointer hfull]
    simp only [load_validatorsInfo hq (changed_ne_zero hpos hq), bind_some, map_some, Point.entry_of_full hqfull]

theorem load_paramsInfo {p : Point ConsensusParams} (hp : inForce (states.map paramsPoint) height = some p)
    (hpos : p.changed ≠ 0) : C.paramsInfo.load (saved C states) (calcConsensusParamsKey height) =
      some (some ⟨p.entry.value.getD emptyParams, p.changed⟩) := by
  refine Blob.load_some ?_ fun hnil => hpos (C.paramsInfo_eq_nil _ hnil)
  rw [saved_paramsKey, table_eq, hp]
  rfl

/-- `LoadConsensusParams` finds what the log says. Empty parameters in full are taken for a pointer. -/
theorem loadConsensusParams_saved (hrun : Run g (states.map paramsPoint))
    (hpos : ∀ state ∈ states, state.lastHeightConsensusParamsChanged ≠ 0) {p : Point ConsensusParams}
    (hp : inForce (states.map paramsPoint) height = some p) :
    loadConsensusParams C (saved C states) height = (find (table (states.map paramsPoint)) height).map .ok := by
  rw [loadConsensusParams, load_paramsInfo hp (changed_ne_zero hpos hp), bind_some]
  by_cases hfull : p.changed = p.pos
  · rw [find_of_full hp hfull, map_some]
    have hat : p.changed = height := hfull.trans (pos_of_inForce hp)
    simp only [hat, load_paramsInfo hp (changed_ne_zero hpos hp), Point.entry_of_full hfull, getD_some, bind_some,
      map_some, ite_self]
  · obtain ⟨q, hq, hqfull⟩ := hrun.pointer hp
    rw [find_of_pointer hp hfull hq hqfull, map_some]
    simp only [load_paramsInfo hq (changed_ne_zero hpos hq), Point.entry_of_pointer hfull, Point.entry_of_full hqfull,
      getD_none, getD_some, bind_some, map_some, if_true]

end

end Demars.StateStore
