import Demars.Lib.Crash
import Demars.State.Update

/-!
# Applying a block

`BlockExecutor.ApplyBlock` of `state/execution.go` as a program over what a node keeps on disk. Each of its three
writes is a point at which the process may be stopped. It runs any application, with a parameter for what its
`Commit` keeps; so the stand-in that the handshake uses is applied by the same text.
-/

namespace Demars

open Crash

structure StoredBlock where
  block : Block
  blockID : BlockID

/-- What survives the process. The block store holds the blocks from height one on. -/
structure Disk (σ : Type) where
  blocks : List StoredBlock
  endHeights : List Int
  responses : Int → Option ABCIResponses
  state : Option SavedState
  app : σ

/-- A panic, an error that the process does not survive, and the sanity checks of the handshake. -/
inductive Stop
  | panic
  | genesis (err : GenesisError)
  | apply (err : ApplyError)
  /-- `BlockStore can only save contiguous blocks. Wanted %v, got %v` -/
  | notContiguous (wanted got : Int)
  /-- `Got a negative last block height (%d) from the app` -/
  | negativeAppHeight (height : Int)
  /-- `ErrAppBlockHeightTooHigh` -/
  | appHeightTooHigh (store app : Int)
  /-- `StateBlockHeight (%d) > StoreBlockHeight (%d)` -/
  | stateAhead (state store : Int)
  /-- `StoreBlockHeight (%d) > StateBlockHeight + 1 (%d)` -/
  | storeAhead (store state : Int)
  /-- `Should never happen` -/
  | neverHappens
  /-- `ErrNoABCIResponsesForHeight` -/
  | noResponses (height : Int)
  /-- `Demars-DMC state.AppHash does not match AppHash after replay. Got %X, expected %X` -/
  | appHash (got expected : Bytes)
  /-- `state (%v) and store (%v) height mismatch` -/
  | heightMismatch (state store : Int)
deriving DecidableEq

namespace Disk

variable {σ : Type}

def height (d : Disk σ) : Int := d.blocks.length

/-- `BlockStore.LoadBlock` and `LoadBlockMeta`. -/
def loadBlock (d : Disk σ) (height : Int) : Option StoredBlock :=
  if height ≤ 0 then none else d.blocks[(height - 1).toNat]?

def saveResponses (height : Int) (responses : ABCIResponses) (d : Disk σ) : Disk σ :=
  { d with responses := fun h => if h = height then some responses else d.responses h }

def saveState (state : SavedState) (d : Disk σ) : Disk σ := { d with state := some state }

/-- What the application's `Commit` keeps. -/
def saveApp (s : σ) (d : Disk σ) : Disk σ := { d with app := s }

end Disk

def orPanic {α : Type} (x : Option α) : Except Stop α := x.elim (.error .panic) .ok

def orStop {α : Type} (x : Option (Except ApplyError α)) : Except Stop α :=
  match x with
  | none => .error .panic
  | some (.error err) => .error (.apply err)
  | some (.ok a) => .ok a

section

variable {σ τ : Type} (P : Primitives) (A : Amino) (B : BlockCodec)

def checkBlock (state : SavedState) (block : Block) : Except Stop Header :=
  match state.validateBlock P A B (some block) with
  | none => .error .panic
  | some (.error err) => .error (.apply (.invalidBlock err))
  | some (.ok _) => orPanic block.header

/-- `ApplyBlock` from the application state `s`: the new chain state and the application afterwards. -/
def applyBlock (app : Application τ) (keep : τ → Prog (Disk σ) Stop Unit) (state : SavedState) (blockID : BlockID)
    (block : Block) (s : τ) : Prog (Disk σ) Stop (SavedState × τ) := do
  let header ← Prog.lift (checkBlock P A B state block)
  let (s, responses) ← Prog.lift (orPanic (execBlockOnProxyApp P B app block state.lastValidators s))
  Prog.write (Disk.saveResponses header.height responses)
  let state ← Prog.lift (orStop (updateState P B state blockID header responses))
  let (s, appHash) := app.commit s
  keep s
  let state := { state with appHash }
  Prog.write (Disk.saveState state)
  return (state, s)

/-- What `ApplyBlock` computes where it succeeds: the header, the application and its responses, and the state but for
the hash of the application. -/
structure Applies (app : Application τ) (state : SavedState) (blockID : BlockID) (block : Block) (s : τ)
    (header : Header)
    (executed : τ) (responses : ABCIResponses) (updated : SavedState) : Prop where
  check : checkBlock P A B state block = .ok header
  exec : execBlockOnProxyApp P B app block state.lastValidators s = some (executed, responses)
  update : updateState P B state blockID header responses = some (.ok updated)

end

section

variable {σ τ : Type} {P : Primitives} {A : Amino} {B : BlockCodec} {app : Application τ}
  {keep : τ → Prog (Disk σ) Stop Unit} {state : SavedState} {blockID : BlockID} {block : Block} {s : τ} {d : Disk σ}

theorem orPanic_eq_ok {α : Type} {x : Option α} {a : α} : orPanic x = .ok a ↔ x = some a := by
  cases x <;> simp [orPanic]

theorem orStop_eq_ok {α : Type} {x : Option (Except ApplyError α)} {a : α} : orStop x = .ok a ↔ x = some (.ok a) := by
  rcases x with _ | _ | _ <;> simp [orStop]

theorem applyBlock_eq {header : Header} {executed : τ} {responses : ABCIResponses} {updated : SavedState}
    (h : Applies P A B app state blockID block s header executed responses updated) {kept : List (Disk σ)}
    (hkeep : keep (app.commit executed).1 (d.saveResponses header.height responses) = (kept, .ok ())) :
    applyBlock P A B app keep state blockID block s d = (d.saveResponses header.height responses :: kept ++
        [(last (d.saveResponses header.height responses) kept).saveState
          { updated with appHash := (app.commit executed).2 }],
        .ok ({ updated with appHash := (app.commit executed).2 }, (app.commit executed).1)) := by
  rw [applyBlock, Prog.lift_bind _ _ h.check, Prog.lift_bind _ _ (orPanic_eq_ok.2 h.exec)]
  refine Prog.seq (t := [d.saveResponses header.height responses]) (a := ()) rfl ?_
  rw [Prog.lift_bind _ _ (orStop_eq_ok.2 h.update)]
  exact Prog.seq (t := kept) (a := ()) hkeep rfl

theorem applyBlock_panic {header : Header} {executed : τ} {responses : ABCIResponses}
    (hcheck : checkBlock P A B state block = .ok header)
    (hexec : execBlockOnProxyApp P B app block state.lastValidators s = some (executed, responses))
    (hupdate : updateState P B state blockID header responses = none) :
    applyBlock P A B app keep state blockID block s d = ([d.saveResponses header.height responses], .error .panic) := by
  rw [applyBlock, Prog.lift_bind _ _ hcheck, Prog.lift_bind _ _ (orPanic_eq_ok.2 hexec)]
  refine Prog.seq (t := [d.saveResponses header.height responses]) (a := ()) rfl ?_
  rw [hupdate]
  rfl

theorem applies_of_ok {state' : SavedState} {s' : τ}
    (h : (applyBlock P A B app keep state blockID block s d).2 = .ok (state', s')) :
    ∃ header executed responses updated, Applies P A B app state blockID block s header executed responses updated ∧
      state' = { updated with appHash := (app.commit executed).2 } ∧ s' = (app.commit executed).1 := by
  obtain ⟨header, hcheck, h, -⟩ := Prog.bind_eq_ok h
  obtain ⟨⟨executed, responses⟩, hexec, h, -⟩ := Prog.bind_eq_ok h
  obtain ⟨_, -, h, -⟩ := Prog.bind_eq_ok h
  obtain ⟨updated, hupdate, h, -⟩ := Prog.bind_eq_ok h
  obtain ⟨_, -, h, -⟩ := Prog.bind_eq_ok h
  cases h
  exact ⟨header, executed, responses, updated, ⟨hcheck, orPanic_eq_ok.1 hexec, orStop_eq_ok.1 hupdate⟩, rfl, rfl⟩

end

/-! ## Who is a validator -/

theorem map_toAbci_pb2tmValidators (vals : List AbciValidator) :
    (pb2tmValidators vals).map Validator.toAbci = vals := by
  rw [pb2tmValidators, List.map_map]
  exact List.map_id vals

/-- When the validators after a block are exactly the ones that the application names. -/
theorem validators_named_iff {σ τ : Type} (P : Primitives) (A : Amino) (B : BlockCodec) (app : Application τ)
    (keep : τ → Prog (Disk σ) Stop Unit) (state : SavedState) (hbuilt : state.validators.Built) (blockID : BlockID)
    (block : Block) (s : τ) (d : Disk σ) {executed : τ} {responses : ABCIResponses}
    (hexec : execBlockOnProxyApp P B app block state.lastValidators s = some (executed, responses))
    (hne : responses.getValidatorSet ≠ []) (hnodup : (responses.getValidatorSet.map Coin.ValidatorEntry.address).Nodup)
    (hpos : ∀ val ∈ responses.getValidatorSet, 0 < val.power) {state' : SavedState} {s' : τ}
    (happly : (applyBlock P A B app keep state blockID block s d).2 = .ok (state', s')) :
    (state'.validators.validators.map Validator.toAbci).Perm responses.getValidatorSet ↔
      (state.validators.validators.map Validator.address).Nodup ∧
        ∀ val ∈ state.validators.validators, val.address ∈ responses.getValidatorSet.map
          Coin.ValidatorEntry.address := by
  obtain ⟨header, executed', responses', updated, happlies, rfl, -⟩ := applies_of_ok happly
  have hsame := happlies.exec
  rw [hexec] at hsame
  cases hsame
  obtain ⟨⟨nextValSet, hnext, hturn⟩, -⟩ := updateState_eq_ok happlies.update
  rw [nextValidators, if_neg hne] at hnext
  have haddr : (pb2tmValidators responses.getValidatorSet).map Validator.address =
      responses.getValidatorSet.map Coin.ValidatorEntry.address := by
    rw [pb2tmValidators, List.map_map]
    rfl
  have hall := upsertsAll_updateValidators _ hbuilt.ordered (by rw [haddr]; exact hnodup) (by
    intro val hval
    obtain ⟨entry, hentry, rfl⟩ := List.mem_map.1 hval
    exact (hpos entry hentry).ne') hnext
  have hperm := hall.perm_iff (by rw [haddr]; exact hnodup) Validator.toAbci Coin.ValidatorEntry.address (fun _ => rfl)
  rw [map_toAbci_pb2tmValidators, haddr] at hperm
  rw [← hperm, ← ValidatorSet.incrementAccum_map Validator.toAbci (fun _ _ => rfl) hturn]

/-! ## A small application -/

def Application.keeper (vals : Int → List AbciValidator) : Application Int where
  info s := (s, if s = 0 then [] else [s.toNat.toUInt8])
  initChain s _ := (s, ⟨[], none⟩)
  beginBlock _ req := req.header.height
  deliverTx s _ _ := some (s, ⟨0, []⟩)
  endBlock s := (s, none)
  getValidatorSet s height := (s, vals height)
  commit s := (s, if s = 0 then [] else [s.toNat.toUInt8])

/-- A chain before its first block, with one validator of power ten. -/
def soloState : SavedState where
  chainID := ascii "c"
  lastBlockHeight := 0
  lastBlockTotalTx := 0
  lastBlockID := BlockID.empty
  validators := ⟨[⟨[1], none, 10, 0⟩], some ⟨[1], none, 10, 0⟩⟩
  lastValidators := ⟨[], none⟩
  consensusParams := defaultConsensusParams
  lastResultsHash := []
  appHash := []
  lastBlockTime := 0
  lastHeightValidatorsChanged := 1
  lastHeightConsensusParamsChanged := 1

def soloBlock : Block where
  header := some {
    chainID := ascii "c", height := 1, time := 0, numTxs := 0, lastBlockID := BlockID.empty, totalTxs := 0
    dataHash := dataHash .transparent (some ⟨[]⟩)
    validatorsHash := soloState.validators.hash .transparent .plain
    consensusHash := soloState.consensusParams.hash .transparent .plain
    appHash := [], lastResultsHash := [] }
  data := some ⟨[]⟩
  commit := some ⟨BlockID.empty, []⟩

def blankDisk : Disk Int := ⟨[], [], fun _ => none, none, 0⟩

def soloApplied (vals : List AbciValidator) : Except Stop (SavedState × Int) :=
  (applyBlock .transparent .plain .plain (.keeper fun _ => vals) (fun s => Prog.write (Disk.saveApp s)) soloState
    BlockID.empty soloBlock 0 blankDisk).2

theorem validators_named_all :
    (soloApplied [⟨[1], 7⟩, ⟨[2], 3⟩]).toOption.isSome ∧
      ∀ state' s', soloApplied [⟨[1], 7⟩, ⟨[2], 3⟩] = .ok (state', s') →
        (state'.validators.validators.map Validator.toAbci).Perm [⟨[1], 7⟩, ⟨[2], 3⟩] :=
  ⟨by decide +kernel, fun _ _ happly => (validators_named_iff .transparent .plain .plain
    (.keeper fun _ => [⟨[1], 7⟩, ⟨[2], 3⟩]) (fun s => Prog.write (Disk.saveApp s)) soloState
    (.new (by decide +kernel : ValidatorSet.newValidatorSet [⟨[1], none, 10, 0⟩] = some soloState.validators))
      BlockID.empty
    soloBlock 0 blankDisk
    (by decide +kernel : execBlockOnProxyApp .transparent .plain (.keeper fun _ => [⟨[1], 7⟩, ⟨[2], 3⟩]) soloBlock
      soloState.lastValidators 0 = some (1, ⟨[], none, [⟨[1], 7⟩, ⟨[2], 3⟩]⟩)) (by decide +kernel) (by decide +kernel)
        (by decide +kernel) happly).2 (by decide +kernel)⟩

/-- The application names one new validator; the old one keeps its power. -/
theorem unnamed_validator_stays :
    (soloApplied [⟨[2], 3⟩]).toOption.map (fun res => res.1.validators.validators.map Validator.toAbci) =
      some [⟨[1], 10⟩, ⟨[2], 3⟩] := by
  decide +kernel

end Demars
