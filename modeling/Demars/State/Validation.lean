import Demars.Types.Block

/-!
# The chain state and block validation

The fields of `state.State` that blocks are made from and checked against, `State.MakeBlock` and `validateBlock`.
`validateBlock` looks at the header, at the number of transactions and at the commit, never at what a transaction says.
-/

namespace Demars

open Option

/-- The fields of `types.ConsensusParams` that are hashed. -/
structure ConsensusParams where
  blockMaxBytes : Int
  blockMaxTxs : Int
  blockMaxGas : Int
  txMaxBytes : Int
  txMaxGas : Int
  blockPartSizeBytes : Int
  evidenceMaxAge : Int
deriving DecidableEq

def defaultConsensusParams : ConsensusParams where
  blockMaxBytes := 22020096
  blockMaxTxs := 10000
  blockMaxGas := -1
  txMaxBytes := 10240
  txMaxGas := -1
  blockPartSizeBytes := 65536
  evidenceMaxAge := 100000

structure ChainState where
  chainID : Bytes
  lastBlockHeight : Int
  lastBlockTotalTx : Int
  lastBlockID : BlockID
  validators : ValidatorSet
  lastValidators : ValidatorSet
  consensusParams : ConsensusParams
  lastResultsHash : Bytes
  appHash : Bytes
deriving DecidableEq

section

variable (P : Primitives) (A : Amino) (B : BlockCodec)

def ConsensusParams.hash (params : ConsensusParams) : Bytes :=
  Merkle.simpleHashFromMap P [
    (ascii "block_gossip_part_size_bytes", aminoHash P B (.int params.blockPartSizeBytes)),
    (ascii "block_size_max_bytes", aminoHash P B (.int params.blockMaxBytes)),
    (ascii "block_size_max_gas", aminoHash P B (.int params.blockMaxGas)),
    (ascii "block_size_max_txs", aminoHash P B (.int params.blockMaxTxs)),
    (ascii "tx_size_max_bytes", aminoHash P B (.int params.txMaxBytes)),
    (ascii "tx_size_max_gas", aminoHash P B (.int params.txMaxGas))]

def ValidatorSet.hash (valSet : ValidatorSet) : Bytes :=
  Merkle.simpleHashFromHashes P
    (valSet.validators.map fun val => aminoHash P B (.validator val.address val.pubKey val.votingPower))

namespace ChainState

def makeBlock (T : TxJson) (state : ChainState) (now height : Int) (txs : List Bytes) (commit : Commit) :
    Option (Block × PartSet) :=
  (Demars.makeBlock P T now height txs commit).bind fun base =>
    let block : Block := { base with
      header := base.header.map fun header => { header with
        chainID := state.chainID
        totalTxs := state.lastBlockTotalTx + header.numTxs
        lastBlockID := state.lastBlockID
        validatorsHash := state.validators.hash P B
        appHash := state.appHash
        consensusHash := state.consensusParams.hash P B
        lastResultsHash := state.lastResultsHash } }
    (block.makePartSet P B state.consensusParams.blockPartSizeBytes).map fun parts => (block, parts)

def validateHeader (state : ChainState) (header : Header) (newTxs : Int) : Except BlockError Unit :=
  if header.chainID ≠ state.chainID then .error (.chainID state.chainID header.chainID)
  else if header.height ≠ state.lastBlockHeight + 1 then .error (.height (state.lastBlockHeight + 1) header.height)
  else if header.lastBlockID ≠ state.lastBlockID then .error (.lastBlockID state.lastBlockID header.lastBlockID)
  else if header.totalTxs ≠ state.lastBlockTotalTx + newTxs then
    .error (.totalTxs (state.lastBlockTotalTx + newTxs) header.totalTxs)
  else if header.appHash ≠ state.appHash then .error (.appHash state.appHash header.appHash)
  else if header.consensusHash ≠ state.consensusParams.hash P B then
    .error (.consensusHash (state.consensusParams.hash P B) header.consensusHash)
  else if header.lastResultsHash ≠ state.lastResultsHash then
    .error (.lastResultsHash state.lastResultsHash header.lastResultsHash)
  else if header.validatorsHash ≠ state.validators.hash P B then
    .error (.validatorsHash (state.validators.hash P B) header.validatorsHash)
  else .ok ()

/-- The check of `validateBlock` on the commit of the block before; a `nil` commit panics. -/
def validateLastCommit (state : ChainState) (header : Header) (commit : Option Commit) :
    Option (Except BlockError Unit) :=
  commit.bind fun commit =>
    if header.height = 1 then
      if commit.precommits.length ≠ 0 then some (.error .firstCommit) else some (.ok ())
    else if commit.precommits.length ≠ state.lastValidators.size then
      some (.error (.commitSize state.lastValidators.size commit.precommits.length))
    else
      (state.lastValidators.verifyCommit P A state.chainID state.lastBlockID (header.height - 1) commit).map fun res =>
        match res with
        | .error err => .error (.verifyCommit err)
        | .ok _ => .ok ()

/-- `validateBlock`; `none` is a panic. -/
def validateBlock (state : ChainState) (block : Option Block) : Option (Except BlockError Unit) :=
  match block with
  | none => some (.error .nilBlock)
  | some block =>
    match block.validateBasic P with
    | none => none
    | some (.error err) => some (.error err)
    | some (.ok _) =>
      block.header.bind fun header =>
        match state.validateHeader P B header (totalTxsInBuckets block.data) with
        | .error err => some (.error err)
        | .ok _ => state.validateLastCommit P A header block.commit

end ChainState

end

section

variable {P : Primitives} {A : Amino} {B : BlockCodec} {state : ChainState} {block : Block}

theorem ChainState.validateBlock_eq_ok (h : state.validateBlock P A B (some block) = some (.ok ())) :
    ∃ header, block.header = some header ∧ block.validateBasic P = some (.ok ()) ∧
      state.validateHeader P B header (totalTxsInBuckets block.data) = .ok () ∧
      state.validateLastCommit P A header block.commit = some (.ok ()) := by
  unfold ChainState.validateBlock at h
  dsimp only at h
  split at h
  · cases h
  · cases h
  · next hbasic =>
    obtain ⟨header, hheader, h⟩ := bind_eq_some_iff.1 h
    split at h
    · cases h
    · next hok => exact ⟨header, hheader, hbasic, hok, h⟩

theorem ChainState.validateHeader_height {header : Header} {newTxs : Int}
    (h : state.validateHeader P B header newTxs = .ok ()) : header.height = state.lastBlockHeight + 1 := by
  unfold ChainState.validateHeader at h
  by_contra hne
  split_ifs at h

end

theorem ChainState.mem_txs_makeBlock {P : Primitives} {B : BlockCodec} {T : TxJson} {state : ChainState}
    {now height : Int} {txs : List Bytes} {commit : Commit} {block : Block} {parts : PartSet}
    (h : state.makeBlock P B T now height txs commit = some (block, parts)) : ∀ tx ∈ block.txs, tx ∈ txs := by
  unfold ChainState.makeBlock at h
  obtain ⟨base, hbase, hmap⟩ := bind_eq_some_iff.1 h
  obtain ⟨_, _, heq⟩ := map_eq_some_iff.1 hmap
  cases heq
  exact fun tx htx => Demars.mem_txs_makeBlock hbase tx htx

end Demars
