import Demars.State.Apply

/-!
# Committing a block and coming back

What `finalizeCommit` writes to disk, and what a node does when it is started: the handshake with the application
and the replay of blocks in `consensus/replay.go`, up to the checks of `NewNode`. For a block that the application
has already committed, `mockProxyApp` gives the saved responses again.
-/

namespace Demars

open Crash

/-! ## InitChain -/

/-- `TM2PB.ConsensusParams`: sizes are cut to 32 bits. -/
def ConsensusParams.toAbci (params : ConsensusParams) : AbciConsensusParams where
  blockSize := some ⟨params.blockMaxBytes.bmod (2 ^ 32), params.blockMaxTxs.bmod (2 ^ 32), params.blockMaxGas⟩
  txSize := some ⟨params.txMaxBytes.bmod (2 ^ 32), params.txMaxGas⟩
  blockPartSizeBytes := some (params.blockPartSizeBytes.bmod (2 ^ 32))

/-- `PB2TM.ConsensusParams`; a `nil` part panics. The evidence parameters are not taken over. -/
def pb2tmConsensusParams (csp : AbciConsensusParams) : Option ConsensusParams :=
  csp.blockSize.bind fun blockSize => csp.txSize.bind fun txSize => csp.blockPartSizeBytes.map fun partSize =>
    { blockMaxBytes := blockSize.maxBytes, blockMaxTxs := blockSize.maxTxs, blockMaxGas := blockSize.maxGas
      txMaxBytes := txSize.maxBytes, txMaxGas := txSize.maxGas, blockPartSizeBytes := partSize
      evidenceMaxAge := 0 }

/-- The request that `ReplayBlocks` sends to an application at height zero. -/
def initChainRequest (genDoc : GenesisDoc) (state : SavedState) : RequestInitChain where
  time := genDoc.genesisTime / 1000000000
  chainID := genDoc.chainID
  consensusParams := genDoc.consensusParams.toAbci
  validators := state.validators.validators.map Validator.toAbci
  appStateBytes := genDoc.appStateJSON

/-- The state with the validators and the parameters that the application answered, if any. -/
def initChainState (state : SavedState) (res : ResponseInitChain) : Option SavedState :=
  (if res.validators = [] then some state.validators
    else ValidatorSet.newValidatorSet (pb2tmValidators res.validators)).bind fun validators =>
      (match res.consensusParams with
        | none => some state.consensusParams
        | some csp => pb2tmConsensusParams csp).map fun consensusParams => { state with validators, consensusParams }

/-! ## The stand-in -/

/-- `mockProxyApp`; its state is `txCount`. `GetValidatorSet` is that of `BaseApplication`. -/
def mockProxyApp (appHash : Bytes) (responses : ABCIResponses) : Application Nat where
  info _ := (0, [])
  initChain s _ := (s, ⟨[], none⟩)
  beginBlock s _ := s
  deliverTx txCount _ _ := ((responses.deliverTx[txCount]?).join).map fun res => (txCount + 1, res)
  endBlock _ := (0, responses.endBlock)
  getValidatorSet s _ := (s, [])
  commit s := (s, appHash)

section

variable {σ : Type} (P : Primitives) (A : Amino) (B : BlockCodec) (app : Application σ) (genDoc : GenesisDoc)

/-- The `Commit` of the real application keeps its state. -/
def keepApp (s : σ) : Prog (Disk σ) Stop Unit := Prog.write (Disk.saveApp s)

def Disk.addBlock (block : Block) (parts : PartSet) (d : Disk σ) : Disk σ :=
  { d with blocks := d.blocks ++ [⟨block, ⟨Block.hash P B (some block), parts.header⟩⟩] }

def Disk.addEndHeight (height : Int) (d : Disk σ) : Disk σ := { d with endHeights := d.endHeights ++ [height] }

/-- `BlockStore.SaveBlock`: without its last write, the height of the store, the others are not seen, so it is one
write. -/
def saveBlock (height : Int) (block : Block) (parts : PartSet) : Prog (Disk σ) Stop Unit := do
  let d ← Prog.get
  if height ≠ d.height + 1 then Prog.stop (.notContiguous (d.height + 1) height)
  else if parts.isComplete = false then Prog.stop .panic
  else Prog.write (Disk.addBlock P B block parts)

/-- The block is saved unless the store has its height already. -/
def saveNewBlock (height : Int) (block : Block) (parts : PartSet) : Prog (Disk σ) Stop Unit := do
  let d ← Prog.get
  if d.height < height then saveBlock P B height block parts else pure ()

/-- `wal.WriteSync(EndHeightMessage{height})`. -/
def writeEndHeight (height : Int) : Prog (Disk σ) Stop Unit := Prog.write (Disk.addEndHeight height)

/-- `finalizeCommit` from where the block is found complete: it is validated, saved if it is not there, the end of the
height recorded, and the block applied. -/
def finalizeCommit (state : SavedState) (block : Block) (parts : PartSet) (s : σ) :
    Prog (Disk σ) Stop (SavedState × σ) := do
  let header ← Prog.lift (checkBlock P A B state block)
  saveNewBlock P B header.height block parts
  writeEndHeight (state.lastBlockHeight + 1)
  applyBlock P A B app keepApp state ⟨Block.hash P B (some block), parts.header⟩ block s

/-! ## Replay -/

def checkAppHash (state : SavedState) (appHash : Bytes) : Except Stop Unit :=
  if state.appHash = appHash then .ok () else .error (.appHash appHash state.appHash)

def execCommitBlock (block : Block) (lastValSet : ValidatorSet) (s : σ) : Prog (Disk σ) Stop (σ × Bytes) := do
  let (s, _) ← Prog.lift (orPanic (execBlockOnProxyApp P B app block lastValSet s))
  let (s, appHash) := app.commit s
  keepApp s
  return (s, appHash)

/-- `Handshaker.replayBlock`, on any application. -/
def replayBlock {τ : Type} (app : Application τ) (keep : τ → Prog (Disk σ) Stop Unit) (state : SavedState)
    (height : Int) (s : τ) : Prog (Disk σ) Stop (SavedState × τ) := do
  let d ← Prog.get
  let stored ← Prog.lift (orPanic (d.loadBlock height))
  applyBlock P A B app keep state stored.blockID stored.block s

/-- The loop of `replayBlocks`, over so many blocks from a height on. -/
def replayLoop (state : SavedState) : Nat → Int → σ → Bytes → Prog (Disk σ) Stop (σ × Bytes)
  | 0, _, s, appHash => return (s, appHash)
  | n + 1, i, s, _ => do
    let d ← Prog.get
    let stored ← Prog.lift (orPanic (d.loadBlock i))
    let (s, appHash) ← execCommitBlock P B app stored.block state.lastValidators s
    replayLoop state n (i + 1) s appHash

/-- `replayBlocks` executes every block with the last validators of the current state. -/
def replayBlocks (state : SavedState) (appBlockHeight storeBlockHeight : Int) (mutateState : Bool) (s : σ) :
    Prog (Disk σ) Stop σ := do
  let finalBlock := if mutateState then storeBlockHeight - 1 else storeBlockHeight
  let (s, appHash) ← replayLoop P B app state (finalBlock - appBlockHeight).toNat (appBlockHeight + 1) s []
  if mutateState then
    let (state, s) ← replayBlock P A B app keepApp state storeBlockHeight s
    Prog.lift (checkAppHash state state.appHash)
    return s
  else
    Prog.lift (checkAppHash state appHash)
    return s

/-- The start of `ReplayBlocks`: `InitChain` for an application at height zero. -/
def initChain (state : SavedState) (appBlockHeight : Int) (s : σ) : Prog (Disk σ) Stop (SavedState × σ) :=
  if appBlockHeight = 0 then do
    let (s, res) := app.initChain s (initChainRequest genDoc state)
    let state ← Prog.lift (orPanic (initChainState state res))
    Prog.write (Disk.saveState state)
    return (state, s)
  else return (state, s)

/-- `Handshaker.ReplayBlocks` after `InitChain`. -/
def replayCases (state : SavedState) (appHash : Bytes) (appBlockHeight : Int) (s : σ) : Prog (Disk σ) Stop σ := do
  let d ← Prog.get
  if d.height = 0 then
    Prog.lift (checkAppHash state appHash)
    return s
  else if d.height < appBlockHeight then Prog.stop (.appHeightTooHigh d.height appBlockHeight)
  else if d.height < state.lastBlockHeight then Prog.stop (.stateAhead state.lastBlockHeight d.height)
  else if d.height > state.lastBlockHeight + 1 then Prog.stop (.storeAhead d.height (state.lastBlockHeight + 1))
  else if d.height = state.lastBlockHeight then
    if appBlockHeight < d.height then replayBlocks P A B app state appBlockHeight d.height false s
    else if appBlockHeight = d.height then
      Prog.lift (checkAppHash state appHash)
      return s
    else Prog.stop .neverHappens
  else if d.height = state.lastBlockHeight + 1 then
    if appBlockHeight < state.lastBlockHeight then replayBlocks P A B app state appBlockHeight d.height true s
    else if appBlockHeight = state.lastBlockHeight then
      let (_, s) ← replayBlock P A B app keepApp state d.height s
      return s
    else if appBlockHeight = d.height then
      let responses ← Prog.lift ((d.responses d.height).elim (.error (.noResponses d.height)) .ok)
      let _ ← replayBlock P A B (mockProxyApp appHash responses) (fun _ => pure ()) state d.height 0
      return s
    else Prog.stop .neverHappens
  else Prog.stop .neverHappens

def handshake (state : SavedState) (s : σ) : Prog (Disk σ) Stop σ := do
  let (appBlockHeight, appHash) := app.info s
  if appBlockHeight < 0 then Prog.stop (.negativeAppHeight appBlockHeight)
  else
    let (state, s) ← initChain app genDoc state appBlockHeight s
    replayCases P A B app state appHash appBlockHeight s

/-! ## Starting a node -/

def loadStateOrGenesis : Prog (Disk σ) Stop SavedState := do
  let d ← Prog.get
  match d.state with
  | some state => return state
  | none =>
    let state ← Prog.lift (match makeGenesisState P genDoc with
      | none => .error .panic
      | some (.error err) => .error (.genesis err)
      | some (.ok state) => .ok state)
    Prog.write (Disk.saveState state)
    return state

/-- `LoadState` after the handshake, and the check of `NewBlockchainReactor`. -/
def loadState : Prog (Disk σ) Stop SavedState := do
  let d ← Prog.get
  let state ← Prog.lift (orPanic d.state)
  if state.lastBlockHeight ≠ d.height then Prog.stop (.heightMismatch state.lastBlockHeight d.height) else return state

/-- `OnStart` of the log begins an empty file with a record of height zero. -/
def startLog (emptyLog : Bool) : Prog (Disk σ) Stop Unit := if emptyLog then writeEndHeight 0 else pure ()

/-- `NewNode` loads the state, shakes hands with the application and loads it again; then the log is started. -/
def startNode (emptyLog : Bool) : Prog (Disk σ) Stop (SavedState × σ) := do
  let state ← loadStateOrGenesis P genDoc
  let d ← Prog.get
  let s ← handshake P A B app genDoc state d.app
  let state ← loadState
  startLog emptyLog
  return (state, s)

end

end Demars
