import Demars.Coin.App
import Demars.State.Validation
import Demars.Types.Bucketing

/-!
# Executing a block on an application

The consensus connection of `abci/types/application.go` as an abstract application with a state of its own, and
`execBlockOnProxyApp` of `state/execution.go`, which drives it through one block. `Application.recorded` also
writes down the calls an application gets.
-/

namespace Demars

open List Option

/-- `abci.Validator`, without the public key, which neither conversion passes on. -/
abbrev AbciValidator := Coin.ValidatorEntry

structure SigningValidator where
  validator : AbciValidator
  signedLastBlock : Bool
deriving DecidableEq

/-- `abci.Header`, as far as `TM2PB.Header` fills it. -/
structure AbciHeader where
  chainID : Bytes
  height : Int
  time : Int
  numTxs : Int
  totalTxs : Int
  lastBlockHash : Bytes
  validatorsHash : Bytes
  appHash : Bytes
deriving DecidableEq

structure RequestBeginBlock where
  hash : Bytes
  header : AbciHeader
  validators : List SigningValidator
deriving DecidableEq

/-- The fields of `abci.ResponseDeliverTx` that are part of the results of a block. -/
structure ResponseDeliverTx where
  code : UInt32
  data : Bytes
deriving DecidableEq

structure AbciBlockSize where
  maxBytes : Int
  maxTxs : Int
  maxGas : Int
deriving DecidableEq

structure AbciTxSize where
  maxBytes : Int
  maxGas : Int
deriving DecidableEq

/-- `abci.ConsensusParams`, with the one field of `abci.BlockGossip`. -/
structure AbciConsensusParams where
  blockSize : Option AbciBlockSize
  txSize : Option AbciTxSize
  blockPartSizeBytes : Option Int
deriving DecidableEq

structure RequestInitChain where
  time : Int
  chainID : Bytes
  consensusParams : AbciConsensusParams
  validators : List AbciValidator
  appStateBytes : Bytes
deriving DecidableEq

structure ResponseInitChain where
  validators : List AbciValidator
  consensusParams : Option AbciConsensusParams

/-- An application behind its connections, with a state. `deliverTx` may panic, and `commit` returns the state that it
keeps when it is stopped. -/
structure Application (σ : Type) where
  /-- the height and the hash of the last block committed -/
  info : σ → Int × Bytes
  initChain : σ → RequestInitChain → σ × ResponseInitChain
  beginBlock : σ → RequestBeginBlock → σ
  deliverTx : σ → Bytes → Int → Option (σ × ResponseDeliverTx)
  /-- the updates of the parameters in `ResponseEndBlock` -/
  endBlock : σ → σ × Option AbciConsensusParams
  getValidatorSet : σ → Int → σ × List AbciValidator
  commit : σ → σ × Bytes

/-- `ABCIResponses`; a response that was not received is `nil`. -/
structure ABCIResponses where
  deliverTx : List (Option ResponseDeliverTx)
  endBlock : Option AbciConsensusParams
  getValidatorSet : List AbciValidator
deriving DecidableEq

/-! ## Conversions -/

def Validator.toAbci (val : Validator) : AbciValidator := ⟨val.address, val.votingPower⟩

/-- `TM2PB.Header`: the number of transactions is cut to 32 bits. -/
def Header.toAbci (header : Header) : AbciHeader where
  chainID := header.chainID
  height := header.height
  time := header.time / 1000000000
  numTxs := header.numTxs.bmod (2 ^ 32)
  totalTxs := header.totalTxs
  lastBlockHash := header.lastBlockID.hash
  validatorsHash := header.validatorsHash
  appHash := header.appHash

/-! ## Execution -/

section

variable {σ : Type} (P : Primitives) (B : BlockCodec) (app : Application σ)

/-- `getBeginBlockValidatorInfo`; a commit of another size, or none, panics. -/
def getBeginBlockValidatorInfo (header : Header) (commit : Option Commit) (lastValSet : ValidatorSet) :
    Option (List SigningValidator) :=
  match commit with
  | none => if header.height > 1 ∨ lastValSet.validators ≠ [] then none else some []
  | some commit =>
    if header.height > 1 ∧ commit.precommits.length ≠ lastValSet.size then none
    else some (lastValSet.validators.mapIdx fun i val => ⟨val.toAbci, ((commit.precommits[i]?).join).isSome⟩)

/-- The delivery of one transaction, whose answer goes to index `txIndex`. -/
def deliverStep (height : Int) (st : σ × List (Option ResponseDeliverTx) × Nat) (tx : Bytes) :
    Option (σ × List (Option ResponseDeliverTx) × Nat) :=
  (app.deliverTx st.1 tx height).bind fun res =>
    if st.2.2 < st.2.1.length then some (res.1, st.2.1.set st.2.2 (some res.2), st.2.2 + 1) else none

/-- `execBlockOnProxyApp`; `none` is a panic. -/
def execBlockOnProxyApp (block : Block) (lastValSet : ValidatorSet) (s : σ) : Option (σ × ABCIResponses) :=
  block.header.bind fun header =>
    if header.numTxs < 0 then none
    else
      (getBeginBlockValidatorInfo header block.commit lastValSet).bind fun signVals =>
        let begun := app.beginBlock s ⟨Block.hash P B (some block), header.toAbci, signVals⟩
        block.data.bind fun data =>
          ((data.txBuckets.flatMap TxBucket.txs).foldlM (deliverStep app header.height)
            (begun, List.replicate header.numTxs.toNat none, 0)).map fun st =>
              let ended := app.endBlock st.1
              let vals := app.getValidatorSet ended.1 (header.height + 1)
              (vals.1, ⟨st.2.1, ended.2, vals.2⟩)

end

/-! ## The calls an application gets -/

inductive AppCall
  | initChain (req : RequestInitChain)
  | beginBlock (req : RequestBeginBlock)
  | deliverTx (tx : Bytes) (height : Int)
  | endBlock
  | getValidatorSet (height : Int)
  | commit
deriving DecidableEq

def AppCall.delivered : AppCall → Option Bytes
  | .deliverTx tx _ => some tx
  | _ => none

def Application.recorded {σ : Type} (app : Application σ) : Application (σ × List AppCall) where
  info s := app.info s.1
  initChain s req := (((app.initChain s.1 req).1, s.2 ++ [.initChain req]), (app.initChain s.1 req).2)
  beginBlock s req := (app.beginBlock s.1 req, s.2 ++ [.beginBlock req])
  deliverTx s tx height := (app.deliverTx s.1 tx height).map fun res => ((res.1, s.2 ++ [.deliverTx tx height]), res.2)
  endBlock s := (((app.endBlock s.1).1, s.2 ++ [.endBlock]), (app.endBlock s.1).2)
  getValidatorSet s height :=
    (((app.getValidatorSet s.1 height).1, s.2 ++ [.getValidatorSet height]), (app.getValidatorSet s.1 height).2)
  commit s := (((app.commit s.1).1, s.2 ++ [.commit]), (app.commit s.1).2)

/-- The calls of `execBlockOnProxyApp`, where it does not panic. -/
def blockCalls (P : Primitives) (B : BlockCodec) (block : Block) (lastValSet : ValidatorSet) : List AppCall :=
  (block.header.bind fun header =>
    (getBeginBlockValidatorInfo header block.commit lastValSet).map fun signVals =>
      .beginBlock ⟨Block.hash P B (some block), header.toAbci, signVals⟩ ::
        block.txs.map (.deliverTx · header.height) ++ [.endBlock, .getValidatorSet (header.height + 1)]).getD []

section

variable {σ : Type} {P : Primitives} {B : BlockCodec} {app : Application σ}

theorem deliverStep_recorded (height : Int) : ∀ (txs : List Bytes) (s : σ) (log : List AppCall)
    (responses : List (Option ResponseDeliverTx)) (i : Nat), txs.foldlM (deliverStep app.recorded height)
      ((s, log), responses, i) =
      (txs.foldlM (deliverStep app height) (s, responses, i)).map fun st =>
        ((st.1, log ++ txs.map (.deliverTx · height)), st.2)
  | [], s, log, responses, i => by simp
  | tx :: txs, s, log, responses, i => by
    rw [foldlM_cons, foldlM_cons]
    cases hres : app.deliverTx s tx height with
    | none => simp [deliverStep, Application.recorded, hres]
    | some res =>
      by_cases hlt : i < responses.length
      · have hrec := deliverStep_recorded height txs res.1 (log ++ [.deliverTx tx height])
          (responses.set i (some res.2)) (i + 1)
        simp only [deliverStep, Application.recorded, hres, hlt, map_some, bind_some, if_true, bind_eq_bind] at hrec ⊢
        rw [hrec, append_assoc]
        rfl
      · simp [deliverStep, Application.recorded, hres, hlt]

theorem execBlockOnProxyApp_recorded (block : Block) (lastValSet : ValidatorSet) (s : σ) (log : List AppCall) :
    execBlockOnProxyApp P B app.recorded block lastValSet (s, log) =
      (execBlockOnProxyApp P B app block lastValSet s).map fun res =>
        ((res.1, log ++ blockCalls P B block lastValSet), res.2) := by
  unfold execBlockOnProxyApp blockCalls Block.txs
  cases hheader : block.header with
  | none => rfl
  | some header =>
    simp only [bind_some]
    split_ifs with hneg
    · rfl
    · cases hinfo : getBeginBlockValidatorInfo header block.commit lastValSet with
      | none => rfl
      | some signVals =>
        cases hdata : block.data with
        | none => rfl
        | some data =>
          simp only [bind_some, map_some, getD_some]
          have hbegin : app.recorded.beginBlock (s, log) ⟨Block.hash P B (some block), header.toAbci, signVals⟩ =
              (app.beginBlock s ⟨Block.hash P B (some block), header.toAbci, signVals⟩,
                log ++ [.beginBlock ⟨Block.hash P B (some block), header.toAbci, signVals⟩]) := rfl
          rw [hbegin, deliverStep_recorded, Option.map_map, Option.map_map]
          congr 1
          funext st
          simp [Application.recorded]

theorem deliverStep_ne_none (happ : ∀ s tx height, app.deliverTx s tx height ≠ none) (height : Int) :
    ∀ (txs : List Bytes) (st : σ × List (Option ResponseDeliverTx) × Nat), st.2.2 + txs.length ≤ st.2.1.length →
      txs.foldlM (deliverStep app height) st ≠ none
  | [], st, _ => by simp
  | tx :: txs, st, hle => by
    rw [length_cons] at hle
    obtain ⟨res, hres⟩ := ne_none_iff_exists'.1 (happ st.1 tx height)
    rw [foldlM_cons, deliverStep, hres, bind_some, if_pos (by omega)]
    apply deliverStep_ne_none happ height txs
    simp only [length_set]
    omega

theorem delivered_blockCalls {block : Block} {lastValSet : ValidatorSet} {s s' : σ} {responses : ABCIResponses}
    (h : execBlockOnProxyApp P B app block lastValSet s = some (s', responses)) :
    (blockCalls P B block lastValSet).filterMap AppCall.delivered = block.txs := by
  obtain ⟨header, hheader, h⟩ := bind_eq_some_iff.1 h
  split_ifs at h
  obtain ⟨signVals, hinfo, -⟩ := bind_eq_some_iff.1 h
  simp only [blockCalls, hheader, bind_some, hinfo, map_some, getD_some, filterMap_append,
    filterMap_cons, filterMap_map, AppCall.delivered, filterMap_nil, append_nil]
  exact filterMap_some

end

/-! ## Every transaction once -/

section

variable {σ : Type} (P : Primitives) (T : TxJson) (B : BlockCodec) (app : Application σ)

def DeliversOnce (now height : Int) (txs : List Bytes) (commit : Commit) (lastValSet : ValidatorSet) (s : σ) : Prop :=
  ∃ block s' log responses, makeBlock P T now height txs commit = some block ∧
    execBlockOnProxyApp P B app.recorded block lastValSet (s, []) = some ((s', log), responses) ∧
    (log.filterMap AppCall.delivered).Perm txs

variable {P T B app}

theorem execBlockOnProxyApp_makeBlock (happ : ∀ s tx height, app.deliverTx s tx height ≠ none) {now height : Int}
    {txs : List Bytes} {commit : Commit} {block : Block} (hmake : makeBlock P T now height txs commit = some block)
    (hlen : block.txs.length ≤ txs.length) {lastValSet : ValidatorSet}
    (hsize : height ≤ 1 ∨ commit.precommits.length = lastValSet.size) (s : σ) :
    execBlockOnProxyApp P B app block lastValSet s ≠ none := by
  obtain ⟨header, data, rfl, rfl, hnum⟩ : ∃ header data, block = ⟨some header, some data, some commit⟩ ∧
      header.height = height ∧ header.numTxs = txs.length := by
    obtain ⟨buckets, -, rfl⟩ := map_eq_some_iff.1 hmake
    exact ⟨_, _, rfl, rfl, rfl⟩
  have hinfo : getBeginBlockValidatorInfo header (some commit) lastValSet ≠ none := by
    unfold getBeginBlockValidatorInfo
    simp only
    rw [if_neg (by omega)]
    exact some_ne_none _
  obtain ⟨signVals, hsign⟩ := ne_none_iff_exists'.1 hinfo
  unfold execBlockOnProxyApp
  simp only [bind_some, hsign, hnum]
  rw [if_neg (by omega), ne_eq, map_eq_none_iff]
  apply deliverStep_ne_none happ
  simpa [Block.txs] using hlen

end

/-- **Every transaction is executed exactly once, exactly when**: for different transactions, an application that does
not panic and a commit with a slot for each last validator, the block made of the transactions delivers each of them
once if and only if each lands in exactly one bucket. -/
theorem delivered_once_iff {σ : Type} (P : Primitives) (T : TxJson) (B : BlockCodec) (app : Application σ)
    (happ : ∀ s tx height, app.deliverTx s tx height ≠ none) (now height : Int) (txs : List Bytes)
    (hnodup : txs.Nodup) (commit : Commit) (lastValSet : ValidatorSet)
    (hsize : height ≤ 1 ∨ commit.precommits.length = lastValSet.size) (s : σ) :
    DeliversOnce P T B app now height txs commit lastValSet s ↔ ∀ tx ∈ txs, landings T height tx = some 1 := by
  constructor
  · rintro ⟨block, s', log, responses, hmake, hexec, hperm⟩
    rw [execBlockOnProxyApp_recorded] at hexec
    obtain ⟨res, hres, heq⟩ := map_eq_some_iff.1 hexec
    simp only [nil_append, Prod.mk.injEq] at heq
    rw [← heq.1.2, delivered_blockCalls hres] at hperm
    exact (perm_txs_makeBlock_iff hnodup hmake).1 hperm
  · intro hone
    have hshort : ∀ tx ∈ txs, landings T height tx ≠ none := by
      intro tx htx
      rw [hone tx htx]
      exact some_ne_none 1
    obtain ⟨block, hmake⟩ :=
      ne_none_iff_exists'.1 (makeBlock_ne_none.2 hshort : makeBlock P T now height txs commit ≠ none)
    have hperm := (perm_txs_makeBlock_iff hnodup hmake).2 hone
    obtain ⟨res, hres⟩ := ne_none_iff_exists'.1
      (execBlockOnProxyApp_makeBlock happ hmake hperm.length_eq.le hsize s : execBlockOnProxyApp P B app _ _ _ ≠ none)
    refine ⟨block, res.1, blockCalls P B block lastValSet, res.2, hmake, ?_, ?_⟩
    · rw [execBlockOnProxyApp_recorded, hres]
      rfl
    · rw [delivered_blockCalls hres]
      exact hperm

def Application.idle : Application Unit where
  info _ := (0, [])
  initChain _ _ := ((), ⟨[], none⟩)
  beginBlock _ _ := ()
  deliverTx _ _ _ := some ((), ⟨0, []⟩)
  endBlock _ := ((), none)
  getValidatorSet _ _ := ((), [])
  commit _ := ((), [])

/-- A transfer between addresses with one first digit. -/
theorem delivered_once_within :
    [transferText "12" "15"].Nodup ∧
      DeliversOnce .transparent .transfers .plain .idle 0 1 [transferText "12" "15"] ⟨BlockID.empty, []⟩
        ⟨[], none⟩ () :=
  ⟨nodup_singleton _, (delivered_once_iff .transparent .transfers .plain .idle (by simp [Application.idle]) 0 1 _
    (nodup_singleton _) ⟨BlockID.empty, []⟩ ⟨[], none⟩ (.inl le_rfl) ()).2 (by decide +kernel)⟩

/-- A transfer between two segments is delivered twice, and the node panics on the second answer. A snapshot
transaction whose address is the id of no bucket is not delivered at all. -/
theorem transfer_delivered_twice :
    ((makeBlock .transparent .transfers 0 1 [transferText "12" "34"] ⟨BlockID.empty, []⟩).map fun block =>
        (block.txs, (execBlockOnProxyApp .transparent .plain .idle block ⟨[], none⟩ ()).isSome)) =
      some ([transferText "12" "34", transferText "12" "34"], false) ∧
    ((makeBlock .transparent .plain 0 101 [[123, 0, 5, 6]] ⟨BlockID.empty, []⟩).bind fun block =>
        (execBlockOnProxyApp .transparent .plain Application.idle.recorded block ⟨[], none⟩ ((), [])).map
          fun res => res.1.2.filterMap AppCall.delivered) = some [] := by
  decide +kernel

end Demars
