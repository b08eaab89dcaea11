import Demars.State.App
import Demars.Types.ValidatorUpdates

/-!
# The first state, and the state after a block

`MakeGenesisState` of `state/state.go` and `updateState` of `state/execution.go`, with the update and the checks of
the consensus parameters (`types/params.go`) and the hash of the results of a block (`types/results.go`).
-/

namespace Demars

open Option

/-- `state.State` with the fields that block validation does not read. -/
structure SavedState extends ChainState where
  lastBlockTime : Int
  lastHeightValidatorsChanged : Int
  lastHeightConsensusParamsChanged : Int
deriving DecidableEq

/-! ## Consensus parameters -/

def maxBlockSizeBytes : Int := 104857600

inductive ParamsError
  /-- `BlockSize.MaxBytes must be greater than 0. Got %d` -/
  | maxBytes (got : Int)
  /-- `BlockGossip.BlockPartSizeBytes must be greater than 0. Got %d` -/
  | blockPartSizeBytes (got : Int)
  /-- `BlockSize.MaxBytes is too big. %d > %d` -/
  | maxBytesTooBig (got : Int)
deriving DecidableEq

namespace ConsensusParams

def validate (params : ConsensusParams) : Except ParamsError Unit :=
  if params.blockMaxBytes ≤ 0 then .error (.maxBytes params.blockMaxBytes)
  else if params.blockPartSizeBytes ≤ 0 then .error (.blockPartSizeBytes params.blockPartSizeBytes)
  else if params.blockMaxBytes > maxBlockSizeBytes then .error (.maxBytesTooBig params.blockMaxBytes)
  else .ok ()

/-- A field of an update counts when it is positive. -/
def updated (old new : Int) : Int := if new > 0 then new else old

def update (params : ConsensusParams) (params2 : AbciConsensusParams) : ConsensusParams where
  blockMaxBytes := params2.blockSize.elim params.blockMaxBytes fun size => updated params.blockMaxBytes size.maxBytes
  blockMaxTxs := params2.blockSize.elim params.blockMaxTxs fun size => updated params.blockMaxTxs size.maxTxs
  blockMaxGas := params2.blockSize.elim params.blockMaxGas fun size => updated params.blockMaxGas size.maxGas
  txMaxBytes := params2.txSize.elim params.txMaxBytes fun size => updated params.txMaxBytes size.maxBytes
  txMaxGas := params2.txSize.elim params.txMaxGas fun size => updated params.txMaxGas size.maxGas
  blockPartSizeBytes :=
    params2.blockPartSizeBytes.elim params.blockPartSizeBytes fun size => updated params.blockPartSizeBytes size
  evidenceMaxAge := params.evidenceMaxAge

end ConsensusParams

/-! ## Genesis -/

/-- `types.GenesisDoc`, as it is after `ValidateAndComplete`, without the names of the validators. -/
structure GenesisDoc where
  genesisTime : Int
  chainID : Bytes
  consensusParams : ConsensusParams
  validators : List (PubKey × Int)
  appHash : Bytes
  appStateJSON : Bytes

inductive GenesisError
  /-- `Genesis doc must include non-empty chain_id` -/
  | chainID
  | params (err : ParamsError)
  /-- `The genesis file must have at least one validator` -/
  | noValidators
  /-- `The genesis file cannot contain validators with no voting power: %v` -/
  | noPower (pubKey : PubKey)
deriving DecidableEq

/-- `GenesisDoc.ValidateAndComplete`, of a complete document. -/
def GenesisDoc.validate (genDoc : GenesisDoc) : Except GenesisError Unit :=
  if genDoc.chainID = [] then .error .chainID
  else match genDoc.consensusParams.validate with
    | .error err => .error (.params err)
    | .ok _ =>
      if genDoc.validators = [] then .error .noValidators
      else match genDoc.validators.find? fun val => val.2 = 0 with
        | some val => .error (.noPower val.1)
        | none => .ok ()

/-- `MakeGenesisState`; `none` is a panic. -/
def makeGenesisState (P : Primitives) (genDoc : GenesisDoc) : Option (Except GenesisError SavedState) :=
  match genDoc.validate with
  | .error err => some (.error err)
  | .ok _ =>
    (ValidatorSet.newValidatorSet
      (genDoc.validators.map fun val => ⟨val.1.address P, some val.1, val.2, 0⟩)).map fun valSet => .ok {
        chainID := genDoc.chainID
        lastBlockHeight := 0
        lastBlockTotalTx := 0
        lastBlockID := BlockID.empty
        lastBlockTime := genDoc.genesisTime
        validators := valSet
        lastValidators := ⟨[], none⟩
        lastHeightValidatorsChanged := 1
        consensusParams := genDoc.consensusParams
        lastHeightConsensusParamsChanged := 1
        lastResultsHash := []
        appHash := genDoc.appHash }

theorem lastBlockHeight_makeGenesisState {P : Primitives} {genDoc : GenesisDoc} {state : SavedState}
    (h : makeGenesisState P genDoc = some (.ok state)) : state.lastBlockHeight = 0 := by
  unfold makeGenesisState at h
  split at h
  · cases h
  · obtain ⟨valSet, -, heq⟩ := map_eq_some_iff.1 h
    cases heq
    rfl

/-! ## The update -/

/-- `PB2TM.Validators`: the keys are not taken over. -/
def pb2tmValidators (vals : List AbciValidator) : List Validator :=
  vals.map fun val => ⟨val.address, none, val.power, 0⟩

/-- `ABCIResponses.ResultsHash`; `none` is the panic on a response that was not received. -/
def ABCIResponses.resultsHash (P : Primitives) (B : BlockCodec) (responses : ABCIResponses) : Option Bytes :=
  (responses.deliverTx.mapM id).map fun results =>
    Merkle.simpleHashFromHashes P (results.map fun res => aminoHash P B (.result res.code res.data))

inductive ApplyError
  /-- `ErrInvalidBlock` -/
  | invalidBlock (err : BlockError)
  /-- `Error changing validator set: %v` -/
  | validators (err : UpdateError)
  /-- `Error updating consensus params: %v` -/
  | params (err : ParamsError)
deriving DecidableEq

/-- The validators of the next height, before their accumulators turn. -/
def nextValidators (valSet : ValidatorSet) (vals : List AbciValidator) : Except UpdateError ValidatorSet :=
  if vals = [] then .ok valSet else updateValidators valSet (pb2tmValidators vals)

def nextParams (params : ConsensusParams) (updates : Option AbciConsensusParams) : Except ParamsError ConsensusParams :=
  match updates with
  | none => .ok params
  | some params2 =>
    match (params.update params2).validate with
    | .error err => .error err
    | .ok _ => .ok (params.update params2)

section

variable (P : Primitives) (B : BlockCodec)

/-- `updateState`; `none` is a panic. -/
def updateState (state : SavedState) (blockID : BlockID) (header : Header) (responses : ABCIResponses) :
    Option (Except ApplyError SavedState) :=
  match nextValidators state.validators responses.getValidatorSet with
  | .error err => some (.error (.validators err))
  | .ok nextValSet =>
    (nextValSet.incrementAccum 1).bind fun nextValSet =>
      match nextParams state.consensusParams responses.endBlock with
      | .error err => some (.error (.params err))
      | .ok params =>
        (responses.resultsHash P B).map fun lastResultsHash => .ok {
          chainID := state.chainID
          lastBlockHeight := header.height
          lastBlockTotalTx := state.lastBlockTotalTx + header.numTxs
          lastBlockID := blockID
          lastBlockTime := header.time
          validators := nextValSet
          lastValidators := state.validators
          lastHeightValidatorsChanged :=
            if responses.getValidatorSet = [] then state.lastHeightValidatorsChanged else header.height + 1
          consensusParams := params
          lastHeightConsensusParamsChanged :=
            if responses.endBlock = none then state.lastHeightConsensusParamsChanged else header.height + 1
          lastResultsHash
          appHash := [] }

end

variable {P : Primitives} {B : BlockCodec} {state state' : SavedState} {blockID : BlockID} {header : Header}
  {responses : ABCIResponses}

theorem updateState_eq_ok (h : updateState P B state blockID header responses = some (.ok state')) :
    (∃ nextValSet, nextValidators state.validators responses.getValidatorSet = .ok nextValSet ∧
      nextValSet.incrementAccum 1 = some state'.validators) ∧
    state'.lastBlockHeight = header.height ∧ state'.lastValidators = state.validators ∧
    state'.lastHeightValidatorsChanged =
      if responses.getValidatorSet = [] then state.lastHeightValidatorsChanged else header.height + 1 := by
  unfold updateState at h
  split at h
  · cases h
  · next nextValSet hnext =>
    obtain ⟨turned, hturn, h⟩ := bind_eq_some_iff.1 h
    split at h
    · cases h
    · obtain ⟨hash, -, heq⟩ := map_eq_some_iff.1 h
      cases heq
      exact ⟨⟨nextValSet, hnext, hturn⟩, rfl, rfl, rfl⟩

theorem consensusParams_updateState (h : updateState P B state blockID header responses = some (.ok state')) :
    nextParams state.consensusParams responses.endBlock = .ok state'.consensusParams ∧
    state'.lastHeightConsensusParamsChanged =
      if responses.endBlock = none then state.lastHeightConsensusParamsChanged else header.height + 1 := by
  unfold updateState at h
  split at h
  · cases h
  · obtain ⟨turned, -, h⟩ := bind_eq_some_iff.1 h
    split at h
    · cases h
    · next params hparams =>
      obtain ⟨hash, -, heq⟩ := map_eq_some_iff.1 h
      cases heq
      exact ⟨hparams, rfl⟩

theorem nextValidators_built {valSet nextValSet : ValidatorSet} {vals : List AbciValidator} (h : valSet.Built)
    (hnext : nextValidators valSet vals = .ok nextValSet) : nextValSet.Built := by
  unfold nextValidators at hnext
  split_ifs at hnext
  · cases hnext
    exact h
  · exact h.updateValidators _ hnext

theorem updateState_built (hbuilt : state.validators.Built)
    (h : updateState P B state blockID header responses = some (.ok state')) : state'.validators.Built := by
  obtain ⟨⟨nextValSet, hnext, hturn⟩, -⟩ := updateState_eq_ok h
  exact (nextValidators_built hbuilt hnext).turned hturn

end Demars
