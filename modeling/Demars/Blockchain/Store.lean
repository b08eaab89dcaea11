import Demars.Lib.Table
import Demars.Types.Block

/-!
# The block store

`blockchain/store.go`: meta, parts, commits and buckets, each under a key of its own, in a table that reads as
empty where nothing was written. A program of the store is a `Crash.Prog`, so that a save can be stopped between
two of its writes.
-/

namespace Demars

open List

structure BlockMeta where
  blockID : BlockID
  header : Header

def Commit.empty : Commit := ⟨BlockID.empty, []⟩

def Part.empty : Part := ⟨0, [], []⟩

namespace Blockchain

open Crash Table

/-- The encodings of go-amino for the records of the store. A pointer that is not `nil` is written. -/
structure StoreCodec where
  /-- `cdc.MarshalBinaryBare` and `cdc.UnmarshalBinaryBare` -/
  blockMeta : Blob BlockMeta
  part : Blob Part
  commit : Blob Commit
  /-- `cdc.MarshalBinaryBare` of a bucket -/
  bucket : TxBucket → Bytes
  /-- `cdc.MarshalJSON` and `cdc.UnmarshalJSON` of `BlockStoreStateJSON` -/
  height : Blob Int
  /-- `cdc.UnmarshalBinary` into a new block -/
  unmarshalBlock : Bytes → Option Block
  blockMeta_ne_nil : ∀ m, blockMeta.enc m ≠ []
  part_eq_nil : ∀ part', part.enc part' = [] → part' = Part.empty
  commit_ne_nil : ∀ commit', commit.enc commit' ≠ []
  height_ne_nil : ∀ h, height.enc h ≠ []
  unmarshalBlock_nil : unmarshalBlock [] = none

abbrev DB := Bytes → Bytes

structure BlockStore where
  height : Int
  db : DB

inductive StorePanic
  | nilBlock
  | notContiguous (wanted got : Int)
  | incomplete
  | nilPointer

def deref {α : Type} (pointer : Option α) : Except StorePanic α := pointer.elim (.error .nilPointer) .ok

/-! ## Keys -/

def calcBlockMetaKey (height : Int) : Bytes := ascii "H:" ++ decimal height

def calcBlockPartKey (height partIndex : Int) : Bytes := ascii "P:" ++ (decimal height ++ 58 :: decimal partIndex)

def calcBlockCommitKey (height : Int) : Bytes := ascii "C:" ++ decimal height

def calcSeenCommitKey (height : Int) : Bytes := ascii "SC:" ++ decimal height

def blockStoreKey : Bytes := ascii "blockStore"

def bucketKey (height : Int) (bucketID : Bytes) : Bytes := decimal height ++ 32 :: bucketID

section

variable (P : Primitives) (B : BlockCodec) (C : StoreCodec)

/-! ## Loading

A load gives `nil` where there is no record, and panics where the record cannot be read. -/

def loadBlockMeta (db : DB) (height : Int) : Option (Option BlockMeta) :=
  C.blockMeta.load db (calcBlockMetaKey height)

def loadBlockPart (db : DB) (height index : Int) : Option (Option Part) :=
  C.part.load db (calcBlockPartKey height index)

def loadBlockCommit (db : DB) (height : Int) : Option (Option Commit) :=
  C.commit.load db (calcBlockCommitKey height)

def loadSeenCommit (db : DB) (height : Int) : Option (Option Commit) :=
  C.commit.load db (calcSeenCommitKey height)

/-- The loop of `LoadBlock` over the parts; a part that is `nil` panics. -/
def loadParts (db : DB) (height : Int) : Nat → Nat → Option Bytes
  | 0, _ => some []
  | n + 1, i => (loadBlockPart C db height i).join.bind fun part =>
      (loadParts db height n (i + 1)).map fun buf => part.bytes ++ buf

def loadBlock (db : DB) (height : Int) : Option (Option Block) :=
  (loadBlockMeta C db height).bind fun blockMeta =>
    match blockMeta with
    | none => some none
    | some blockMeta =>
      (loadParts C db height blockMeta.blockID.partsHeader.total.toNat 0).bind fun buf =>
        (C.unmarshalBlock buf).map some

def newBlockStore (db : DB) : Option BlockStore :=
  (C.height.load db blockStoreKey).map fun height => ⟨height.getD 0, db⟩

/-! ## Saving -/

/-- `NewBlockMeta`, of a block with a header; its hash fills in the header. -/
def newBlockMeta (block : Block) (header : Header) (parts : PartSet) : BlockMeta :=
  ⟨⟨Block.hash P B (some block), parts.header⟩, ((block.fillHeader P).header).getD header⟩

def saveBlockPart (storeHeight height index : Int) (part : Option Part) : Prog DB StorePanic Unit := do
  if height ≠ storeHeight + 1 then Prog.stop (.notContiguous (storeHeight + 1) height)
  else do
    let part ← Prog.lift (deref part)
    set (calcBlockPartKey height index) (C.part.enc part)

/-- The loop of `SaveBlock` over so many parts from an index on. -/
def saveParts (storeHeight height : Int) (parts : PartSet) : Nat → Nat → Prog DB StorePanic Unit
  | 0, _ => pure ()
  | n + 1, i => do
    saveBlockPart C storeHeight height i (parts.parts[i]?).join
    saveParts storeHeight height parts n (i + 1)

/-- The writes of `SaveBlock` after the parts, the last of them to flush. -/
def saveRest (height : Int) (commit seenCommit : Option Commit) : Prog DB StorePanic Int := do
  let commit ← Prog.lift (deref commit)
  set (calcBlockCommitKey (height - 1)) (C.commit.enc commit)
  let seenCommit ← Prog.lift (deref seenCommit)
  set (calcSeenCommitKey height) (C.commit.enc seenCommit)
  set blockStoreKey (C.height.enc height)
  set [] []
  return height

/-- `SaveBlock` of a store of some height, which it returns with one more. -/
def saveBlock (storeHeight : Int) (block : Option Block) (blockParts : Option PartSet) (seenCommit : Option Commit) :
    Prog DB StorePanic Int := do
  let block ← Prog.lift (block.elim (.error .nilBlock) .ok)
  let header ← Prog.lift (deref block.header)
  if header.height ≠ storeHeight + 1 then Prog.stop (.notContiguous (storeHeight + 1) header.height)
  else do
    let parts ← Prog.lift (deref blockParts)
    if parts.isComplete = false then Prog.stop .incomplete
    else do
      set (calcBlockMetaKey header.height) (C.blockMeta.enc (newBlockMeta P B block header parts))
      saveParts C storeHeight header.height parts parts.total.toNat 0
      saveRest C header.height block.commit seenCommit

def saveBucket (height : Int) (bucketID : Bytes) (bucket : Option TxBucket) : Prog DB StorePanic Unit := do
  let bucket ← Prog.lift (deref bucket)
  set (bucketKey height bucketID) (C.bucket bucket)

inductive StoreCall
  | saveBlock (block : Option Block) (parts : Option PartSet) (seenCommit : Option Commit)
  | saveBucket (height : Int) (bucketID : Bytes) (bucket : Option TxBucket)

def BlockStore.call (bs : BlockStore) : StoreCall → Option BlockStore
  | .saveBlock block parts seenCommit =>
    let p := Blockchain.saveBlock P B C bs.height block parts seenCommit
    (p bs.db).2.toOption.map fun height => ⟨height, p.final bs.db⟩
  | .saveBucket height bucketID bucket =>
    let p := Blockchain.saveBucket C height bucketID bucket
    (p bs.db).2.toOption.map fun _ => ⟨bs.height, p.final bs.db⟩

def BlockStore.calls (bs : BlockStore) : List StoreCall → Option BlockStore
  | [] => some bs
  | c :: cs => (bs.call P B C c).bind fun bs => bs.calls cs

end

def BlockStore.empty : BlockStore := ⟨0, fun _ => []⟩

/-! ## Encodings that can be evaluated -/

def plainPart : Code Part :=
  (Code.int.prod (Plain.bytes.prod Plain.bytes.list)).map (fun p => ⟨p.1, p.2.1, p.2.2⟩)
    (fun part => (part.index, part.bytes, part.proof)) fun _ => rfl

def plainMeta : Code BlockMeta :=
  (Plain.blockID.prod Plain.header).map (fun p => ⟨p.1, p.2⟩) (fun m => (m.blockID, m.header)) fun _ => rfl

theorem blockID_ne_nil (id : BlockID) : Plain.blockID.enc id ≠ [] := by
  have hbytes : ∀ bz : Bytes, Plain.bytes.enc bz ≠ [] := fun bz hnil => by
    have hlen := congrArg List.length hnil
    simp [Plain.bytes, Code.list, Code.encNat] at hlen
  exact Code.prod_ne_nil _ _ hbytes _

/-- Encodings that leave out a zero part. -/
def StoreCodec.plain : StoreCodec where
  blockMeta := plainMeta.blob
  part := plainPart.omitting Part.empty fun _ => Code.prod_ne_nil _ _ Code.int_ne_nil _
  commit := Plain.commit.blob
  bucket bucket := bucket.bucketId
  height := Code.int.blob
  unmarshalBlock := Plain.block.decode
  blockMeta_ne_nil _ := Code.prod_ne_nil _ _ blockID_ne_nil _
  part_eq_nil _ h := (Code.omitting_enc_eq_nil _).1 h
  commit_ne_nil _ := Code.prod_ne_nil _ _ blockID_ne_nil _
  height_ne_nil := Code.int_ne_nil
  unmarshalBlock_nil := rfl

/-! ## Records -/

inductive Record
  | blockMeta (height : Int)
  | part (height index : Int)
  | commit (height : Int)
  | seenCommit (height : Int)
  | state
  | bucket (height : Int) (bucketID : Bytes)
  | flush
deriving DecidableEq

def Record.key : Record → Bytes
  | .blockMeta height => calcBlockMetaKey height
  | .part height index => calcBlockPartKey height index
  | .commit height => calcBlockCommitKey height
  | .seenCommit height => calcSeenCommitKey height
  | .state => blockStoreKey
  | .bucket height bucketID => bucketKey height bucketID
  | .flush => []

/-- The first byte of a key; that of a bucket is a digit or a sign. -/
def Record.initial : Record → Option UInt8
  | .blockMeta _ => some 72
  | .part _ _ => some 80
  | .commit _ => some 67
  | .seenCommit _ => some 83
  | .state => some 98
  | .bucket height _ => (decimal height).head?
  | .flush => none

theorem Record.head?_key (r : Record) : r.key.head? = r.initial := by
  cases r with
  | bucket height bucketID =>
    exact head?_append_of_ne_nil _ (decimal_ne_nil height)
  | _ => rfl

theorem toNat_of_head?_decimal {z : Int} {b : UInt8} (h : (decimal z).head? = some b) : b.toNat < 58 := by
  rcases mem_decimal (mem_of_mem_head? h) with rfl | hb
  · decide
  · exact hb.2

theorem Record.key_injective : Function.Injective Record.key := by
  intro r r' h
  have hinitial : r.initial = r'.initial := by rw [← head?_key, ← head?_key, h]
  have hbucket : ∀ height (b : UInt8), 58 ≤ b.toNat → (decimal height).head? ≠ some b := fun height b hb heq =>
    absurd (toNat_of_head?_decimal heq) (by omega)
  have hflush : ∀ height, (decimal height).head? ≠ none := fun height heq =>
    decimal_ne_nil height (head?_eq_none_iff.1 heq)
  cases r <;> cases r' <;> simp only [initial] at hinitial <;>
    first
    | exact absurd hinitial (by decide)
    | exact absurd hinitial (hbucket _ _ (by decide))
    | exact absurd hinitial.symm (hbucket _ _ (by decide))
    | exact absurd hinitial (hflush _)
    | exact absurd hinitial.symm (hflush _)
    | skip
  · rw [decimal_injective (append_cancel_left h)]
  · obtain ⟨rfl, htail⟩ := decimal_append_cons_inj (by decide) (by decide) (append_cancel_left h)
    rw [decimal_injective htail]
  · rw [decimal_injective (append_cancel_left h)]
  · rw [decimal_injective (append_cancel_left h)]
  · rfl
  · obtain ⟨rfl, rfl⟩ := decimal_append_cons_inj (by decide) (by decide) h
    rfl
  · rfl

theorem puts_key_of_ne {db : DB} {ws : List (Record × Bytes)} {r : Record} (h : ∀ w ∈ ws, w.1 ≠ r) :
    puts db (ws.map fun w => (w.1.key, w.2)) r.key = db r.key := by
  refine puts_of_ne fun w hw => ?_
  obtain ⟨w', hw', rfl⟩ := List.mem_map.1 hw
  exact fun heq => h w' hw' (Record.key_injective heq)

theorem puts_key_of_mem {db : DB} {ws : List (Record × Bytes)} {r : Record} {v : Bytes} (hmem : (r, v) ∈ ws)
    (h : ∀ w ∈ ws, w.1 = r → w.2 = v) : puts db (ws.map fun w => (w.1.key, w.2)) r.key = v := by
  refine puts_of_mem (List.mem_map.2 ⟨_, hmem, rfl⟩) fun w hw heq => ?_
  obtain ⟨w', hw', rfl⟩ := List.mem_map.1 hw
  exact h w' hw' (Record.key_injective heq)

end Blockchain

end Demars
