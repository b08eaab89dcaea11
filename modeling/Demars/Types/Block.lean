import Demars.Coin.Tx
import Demars.Types.Commit
import Demars.Types.PartSet

/-!
# Blocks

`types/block.go` and the hash of `types/tx.go`. A block points to its header, its data and the commit of the block
before it; after decoding any of them may be `nil`.
-/

namespace Demars

open List

/-- `types.LastBucketHashes`: the pairs of the map in the order of its keys. -/
structure LastBucketHashes where
  bucketHashes : List (Bytes × Bytes)
deriving DecidableEq

structure Header where
  chainID : Bytes
  height : Int
  time : Int
  numTxs : Int
  lastBlockID : BlockID
  totalTxs : Int
  dataHash : Bytes
  validatorsHash : Bytes
  consensusHash : Bytes
  appHash : Bytes
  lastResultsHash : Bytes
  lastBucketHashes : Option LastBucketHashes := none
deriving DecidableEq

structure TxBucket where
  bucketId : Bytes
  txs : List Bytes
deriving DecidableEq

structure Data where
  txBuckets : List TxBucket
deriving DecidableEq

structure Block where
  header : Option Header
  data : Option Data
  commit : Option Commit
deriving DecidableEq

/-- The values that `aminoHasher` is applied to. -/
inductive AminoItem
  | string (s : Bytes)
  | int (n : Int)
  | time (t : Int)
  | blockID (id : BlockID)
  | bytes (bz : Bytes)
  | validator (address : Bytes) (pubKey : Option PubKey) (votingPower : Int)
  | result (code : UInt32) (data : Bytes)

/-- The encodings of go-amino for blocks. Decoding writes into the block it is given, and may leave something when it
fails. -/
structure BlockCodec where
  /-- `cdc.MarshalBinaryBare` -/
  marshalItem : AminoItem → Bytes
  /-- `cdc.MarshalBinary` of a block -/
  marshalBlock : Block → Bytes
  /-- `cdc.UnmarshalBinaryReader` of so many bytes into a `*Block`: the pointer afterwards, and whether there was no
  error -/
  unmarshalBlock : Int → Option Block → Bytes → Option Block × Bool

def AminoItem.isEmpty : AminoItem → Bool
  | .string s => s.isEmpty
  | .bytes bz => bz.isEmpty
  | _ => false

section

variable (P : Primitives) (B : BlockCodec)

def aminoHash (item : AminoItem) : Bytes := P.tmhash (if item.isEmpty then [] else B.marshalItem item)

def ascii (s : String) : Bytes := s.toList.map fun c => c.toNat.toUInt8

/-- `Header.Hash`, of a header that is not `nil`; the keys of the map are in their order. -/
def Header.hash (h : Header) : Bytes :=
  if h.validatorsHash = [] then []
  else Merkle.simpleHashFromMap P [
    (ascii "App", aminoHash P B (.bytes h.appHash)),
    (ascii "ChainID", aminoHash P B (.string h.chainID)),
    (ascii "Consensus", aminoHash P B (.bytes h.consensusHash)),
    (ascii "Data", aminoHash P B (.bytes h.dataHash)),
    (ascii "Height", aminoHash P B (.int h.height)),
    (ascii "LastBlockID", aminoHash P B (.blockID h.lastBlockID)),
    (ascii "NumTxs", aminoHash P B (.int h.numTxs)),
    (ascii "Results", aminoHash P B (.bytes h.lastResultsHash)),
    (ascii "Time", aminoHash P B (.time h.time)),
    (ascii "TotalTxs", aminoHash P B (.int h.totalTxs)),
    (ascii "Validators", aminoHash P B (.bytes h.validatorsHash))]

def txsHash (txs : List Bytes) : Bytes := Merkle.simpleHashFromHashes P (txs.map P.tmhash)

def bucketsHashLoop (combined : Bytes) (buckets : List TxBucket) : Bytes :=
  buckets.foldl (fun combined bucket => Merkle.simpleHashFromTwoHashes P combined (txsHash P bucket.txs)) combined

/-- `TxBuckets.Hash`: the transactions of the first bucket do not enter. -/
def bucketsHash : List TxBucket → Bytes
  | [] => []
  | _ :: buckets => bucketsHashLoop P (P.sha256 [0]) buckets

/-- `Data.Hash`; that of `nil` is the hash of no transactions. -/
def dataHash (data : Option Data) : Bytes :=
  match data with
  | none => []
  | some data => bucketsHash P data.txBuckets

def totalTxsInBuckets (data : Option Data) : Int :=
  match data with
  | none => 0
  | some data => (data.txBuckets.map fun bucket => (bucket.txs.length : Int)).sum

end

namespace Block

variable (P : Primitives) (B : BlockCodec)

/-- `fillHeader` writes a missing data hash into the header of a complete block. -/
def fillHeader (b : Block) : Block :=
  match b.header, b.data, b.commit with
  | some header, some data, some commit =>
    { header := some (if header.dataHash = [] then { header with dataHash := dataHash P (some data) } else header)
      data := some data, commit := some commit }
  | header, data, commit => { header, data, commit }

def hash (b : Option Block) : Bytes :=
  match b with
  | none => []
  | some b =>
    match (b.fillHeader P).header, b.data, b.commit with
    | some header, some _, some _ => header.hash P B
    | _, _, _ => []

def hashesTo (b : Option Block) (hash : Bytes) : Bool :=
  match b with
  | none => false
  | some b => if hash = [] then false else decide (Block.hash P B (some b) = hash)

def makePartSet (b : Block) (partSize : Int) : Option PartSet :=
  PartSet.newPartSetFromData P (B.marshalBlock b) partSize

def txs (b : Block) : List Bytes := (b.data.map fun data => data.txBuckets.flatMap TxBucket.txs).getD []

end Block

/-! ## Basic validation -/

inductive CommitBasicError
  | nilBlock
  | noPrecommits
  | notPrecommit (type_ : UInt8)
  | wrongHeight (height got : Int)
  | wrongRound (round got : Int)
deriving DecidableEq

namespace Commit

def validatePrecommits (height round : Int) : List (Option Vote) → Except CommitBasicError Unit
  | [] => .ok ()
  | none :: slots => validatePrecommits height round slots
  | some precommit :: slots =>
    if precommit.type_ ≠ voteTypePrecommit then .error (.notPrecommit precommit.type_)
    else if precommit.height ≠ height then .error (.wrongHeight height precommit.height)
    else if precommit.round ≠ round then .error (.wrongRound round precommit.round)
    else validatePrecommits height round slots

/-- `Commit.ValidateBasic`, of a commit that is not `nil`. -/
def validateBasic (commit : Commit) : Except CommitBasicError Unit :=
  if commit.blockID.isZero then .error .nilBlock
  else if commit.precommits.length = 0 then .error .noPrecommits
  else validatePrecommits commit.height commit.round commit.precommits

end Commit

inductive BlockError
  | nilBlock
  | numTxs (expected got : Int)
  | commit (err : CommitBasicError)
  | dataHash (expected got : Bytes)
  | chainID (expected got : Bytes)
  | height (expected got : Int)
  | lastBlockID (expected got : BlockID)
  | totalTxs (expected got : Int)
  | appHash (expected got : Bytes)
  | consensusHash (expected got : Bytes)
  | lastResultsHash (expected got : Bytes)
  | validatorsHash (expected got : Bytes)
  | firstCommit
  | commitSize (expected got : Nat)
  | verifyCommit (err : CommitError)
deriving DecidableEq

/-- `Block.ValidateBasic`; a `nil` header, or a `nil` commit after the first height, panics. -/
def Block.validateBasic (P : Primitives) (b : Block) : Option (Except BlockError Unit) :=
  b.header.bind fun header =>
    if header.numTxs ≠ totalTxsInBuckets b.data then some (.error (.numTxs (totalTxsInBuckets b.data) header.numTxs))
    else
      let rest : Except BlockError Unit :=
        if header.dataHash ≠ dataHash P b.data then .error (.dataHash header.dataHash (dataHash P b.data)) else .ok ()
      if header.height ≠ 1 then
        b.commit.map fun commit => match commit.validateBasic with
          | .error err => .error (.commit err)
          | .ok _ => rest
      else some rest

/-! ## Making a block -/

def hexDigit (n : Nat) : UInt8 := if n < 10 then (48 + n).toUInt8 else (87 + n).toUInt8

/-- `fmt.Sprintf("%x", bz)`. -/
def hexString (bz : Bytes) : Bytes := bz.flatMap fun b => [hexDigit (b.toNat / 16), hexDigit (b.toNat % 16)]

/-- `fmt.Sprintf("%x", i)` of a number below 256: one digit or two. -/
def hexNat (i : Nat) : Bytes := if i < 16 then [hexDigit i] else [hexDigit (i / 16), hexDigit (i % 16)]

/-- `s[:2]`, which panics on a string that is shorter. -/
def firstTwo (s : Bytes) : Option Bytes := if s.length < 2 then none else some (s.take 2)

def upperDigit (n : Nat) : UInt8 := if n < 10 then (48 + n).toUInt8 else (55 + n).toUInt8

/-- The JSON of transactions, and the printing of their addresses. The text of a struct starts with a brace; what
cannot be read leaves zero. -/
structure TxJson where
  marshalUTXO : Coin.TxUTXO → Bytes
  head_marshalUTXO : ∀ tx, (marshalUTXO tx).head? = some 123
  unmarshalUTXO : Bytes → Coin.TxUTXO
  unmarshalDMC : Bytes → Coin.DMCTx
  /-- `data.Bytes.String`: the digits of the bytes in upper case -/
  text : Bytes → Bytes
  text_nil : text [] = []
  head_text : ∀ b bz, (text (b :: bz)).head? = some (upperDigit (b.toNat / 16))

/-- The heights of snapshots; Go's remainder has the sign of the height. -/
def isSnapshotHeight (height : Int) : Bool := decide (height.tmod 100 = 1) && decide (height > 1)

section

variable (P : Primitives) (T : TxJson)

/-- `getBucketId`; a short address panics. An address has a `String` method, so `%x` prints its text in hex. -/
def getBucketId (tx : Bytes) (height : Int) : Option (Bytes × Bytes) :=
  if isSnapshotHeight height then (firstTwo (T.unmarshalUTXO tx).address).map fun segment => (segment, [])
  else
    (firstTwo (hexString (T.text (T.unmarshalDMC tx).input.address))).bind fun segment1 =>
      (firstTwo (hexString (T.text (T.unmarshalDMC tx).output.address))).map fun segment2 => (segment1, segment2)

def putTx (segments : Bytes × Bytes) (tx : Bytes) (bucket : TxBucket) : TxBucket :=
  if bucket.bucketId = segments.1 ∨ bucket.bucketId = segments.2 then { bucket with txs := bucket.txs ++ [tx] }
  else bucket

/-- The loop of `MakeBlock` over the transactions. -/
def bucketLoop (height : Int) : List Bytes → List TxBucket → Option (List TxBucket)
  | [], buckets => some buckets
  | tx :: txs, buckets =>
    (getBucketId T tx height).bind fun segments => bucketLoop height txs (buckets.map (putTx segments tx))

def emptyBuckets : List TxBucket := (List.range 255).map fun i => { bucketId := hexNat i, txs := [] }

def makeBlock (now height : Int) (txs : List Bytes) (commit : Commit) : Option Block :=
  (bucketLoop T height txs emptyBuckets).map fun buckets =>
    { header := some {
        chainID := [], height, time := now, numTxs := txs.length, lastBlockID := BlockID.empty, totalTxs := 0
        dataHash := dataHash P (some ⟨buckets⟩)
        validatorsHash := [], consensusHash := [], appHash := [], lastResultsHash := [] }
      data := some ⟨buckets⟩
      commit := some commit }

end

theorem txs_putTx (segments : Bytes × Bytes) (tx : Bytes) (bucket : TxBucket) :
    (putTx segments tx bucket).txs = bucket.txs ∨ (putTx segments tx bucket).txs = bucket.txs ++ [tx] := by
  unfold putTx
  split_ifs
  · exact .inr rfl
  · exact .inl rfl

theorem mem_txs_bucketLoop {T : TxJson} {height : Int} : ∀ {txs : List Bytes} {buckets buckets' : List TxBucket},
    bucketLoop T height txs buckets = some buckets' → ∀ tx ∈ buckets'.flatMap TxBucket.txs,
      tx ∈ buckets.flatMap TxBucket.txs ∨ tx ∈ txs
  | [], _, _, h, tx, htx => by
    cases h
    exact .inl htx
  | tx' :: txs, buckets, buckets', h, tx, htx => by
    obtain ⟨segments, _, hloop⟩ := Option.bind_eq_some_iff.1 h
    rcases mem_txs_bucketLoop hloop tx htx with hmem | hmem
    · rw [mem_flatMap] at hmem
      obtain ⟨bucket, hbucket, hin⟩ := hmem
      obtain ⟨old, hold, rfl⟩ := List.mem_map.1 hbucket
      rcases txs_putTx segments tx' old with heq | heq <;> rw [heq] at hin
      · exact .inl (mem_flatMap.2 ⟨old, hold, hin⟩)
      · rcases mem_append.1 hin with hin | hin
        · exact .inl (mem_flatMap.2 ⟨old, hold, hin⟩)
        · exact .inr (mem_cons.2 (.inl (mem_singleton.1 hin)))
    · exact .inr (mem_cons_of_mem _ hmem)

theorem mem_txs_makeBlock {P : Primitives} {T : TxJson} {now height : Int} {txs : List Bytes} {commit : Commit}
    {block : Block} (h : makeBlock P T now height txs commit = some block) : ∀ tx ∈ block.txs, tx ∈ txs := by
  intro tx htx
  obtain ⟨buckets, hloop, rfl⟩ := Option.map_eq_some_iff.1 h
  rcases mem_txs_bucketLoop hloop tx htx with hmem | hmem
  · rw [mem_flatMap] at hmem
    obtain ⟨bucket, hbucket, hin⟩ := hmem
    obtain ⟨i, _, rfl⟩ := List.mem_map.1 hbucket
    exact absurd hin not_mem_nil
  · exact hmem

/-! ## A plain encoding -/

namespace Plain

open Code

def signature : Code Signature :=
  (byte.prod bytes).map (fun p => if p.1 = 0 then .ed25519 p.2 else .secp256k1 p.2)
    (fun s => match s with
      | .ed25519 bz => (0, bz)
      | .secp256k1 bz => (1, bz)) fun s => by cases s <;> rfl

def vote : Code Vote :=
  (bytes.prod (int.prod (int.prod (int.prod (int.prod (byte.prod (blockID.prod signature.option))))))).map
    (fun p => ⟨p.1, p.2.1, p.2.2.1, p.2.2.2.1, p.2.2.2.2.1, p.2.2.2.2.2.1, p.2.2.2.2.2.2.1, p.2.2.2.2.2.2.2⟩)
    (fun v => (v.validatorAddress, v.validatorIndex, v.height, v.round, v.timestamp, v.type_, v.blockID, v.signature))
    fun _ => rfl

def commit : Code Commit :=
  (blockID.prod vote.option.list).map (fun p => ⟨p.1, p.2⟩) (fun c => (c.blockID, c.precommits)) fun _ => rfl

def data : Code Data :=
  ((bytes.prod bytes.list).map (fun p => (⟨p.1, p.2⟩ : TxBucket)) (fun b => (b.bucketId, b.txs)) fun _ => rfl).list.map
    Data.mk Data.txBuckets fun _ => rfl

def lastBucketHashes : Code LastBucketHashes :=
  (bytes.prod bytes).list.map LastBucketHashes.mk LastBucketHashes.bucketHashes fun _ => rfl

def header : Code Header :=
  (bytes.prod (int.prod (int.prod (int.prod (blockID.prod (int.prod (bytes.prod (bytes.prod (bytes.prod
    (bytes.prod (bytes.prod lastBucketHashes.option))))))))))).map
    (fun p => ⟨p.1, p.2.1, p.2.2.1, p.2.2.2.1, p.2.2.2.2.1, p.2.2.2.2.2.1, p.2.2.2.2.2.2.1, p.2.2.2.2.2.2.2.1,
      p.2.2.2.2.2.2.2.2.1, p.2.2.2.2.2.2.2.2.2.1, p.2.2.2.2.2.2.2.2.2.2.1, p.2.2.2.2.2.2.2.2.2.2.2⟩)
    (fun h => (h.chainID, h.height, h.time, h.numTxs, h.lastBlockID, h.totalTxs, h.dataHash, h.validatorsHash,
      h.consensusHash, h.appHash, h.lastResultsHash, h.lastBucketHashes)) fun _ => rfl

def block : Code Block :=
  (header.option.prod (data.option.prod commit.option)).map (fun p => ⟨p.1, p.2.1, p.2.2⟩)
    (fun b => (b.header, b.data, b.commit)) fun _ => rfl

end Plain

/-- Encodings of blocks that can be evaluated. -/
def BlockCodec.plain : BlockCodec where
  marshalItem item := match item with
    | .string s => s
    | .int n => Plain.bytes.enc [n.natAbs.toUInt8]
    | .time t => Plain.bytes.enc [t.natAbs.toUInt8]
    | .blockID id => Plain.blockID.enc id
    | .bytes bz => bz
    | .validator address _ votingPower => votingPower.natAbs.toUInt8 :: address
    | .result code data => code.toNat.toUInt8 :: data
  marshalBlock := Plain.block.enc
  unmarshalBlock maxBytes old bz :=
    if bz.length > maxBytes then (old, false)
    else match Plain.block.decode bz with
      | none => (old, false)
      | some block => (some block, true)

/-- JSON of transactions that can be evaluated: a brace, the balance in one byte, the address. -/
def TxJson.plain : TxJson where
  marshalUTXO tx := 123 :: tx.balance.toUInt8 :: tx.address
  head_marshalUTXO _ := rfl
  unmarshalUTXO bz := match bz with
    | 123 :: n :: address => { address, balance := n.toUInt64 }
    | _ => Coin.emptyTxUTXO
  unmarshalDMC _ := Coin.emptyDMCTx
  text bz := bz.flatMap fun b => [upperDigit (b.toNat / 16), upperDigit (b.toNat % 16)]
  text_nil := rfl
  head_text _ _ := rfl

end Demars
