import Demars.Lib.HashTree
import Demars.Types.Block

/-!
# What the hashes of a block bind

The hashes of `types/block.go` are trees of hashes: the Merkle tree over the transactions of a bucket, the chain
over the buckets, and the tree over the fields of a header. Each is the digest of a `HashTree`.
-/

namespace Demars

open HashTree List

/-! ## Merkle trees -/

namespace Merkle

variable (P : Primitives)

theorem digest_balanced (fuel : Nat) (ts : List (HashTree Bytes Bytes)) :
    (balanced [] fuel ts).digest P.tmhash P.pair = rootLoop P fuel (ts.map (digest P.tmhash P.pair)) := by
  induction fuel generalizing ts with
  | zero =>
    match ts with
    | [] => rfl
    | [t] => rfl
    | _ :: _ :: _ => rfl
  | succ fuel ih =>
    match ts with
    | [] => rfl
    | [t] => rfl
    | t :: u :: ts =>
      generalize hl : t :: u :: ts = l
      have htwo : 2 ≤ l.length := by simp [← hl]
      rw [balanced_of_two_le htwo, digest, ih, ih, map_take, map_drop, ← hl]
      simp only [map_cons, rootLoop, length_cons, length_map]
      rfl

theorem tmhash_ne {bz : Bytes} (h : bz.length ≠ 20) (m : Bytes) : P.tmhash m ≠ bz := by
  rintro rfl
  exact h (P.length_tmhash m)

end Merkle

open Merkle

/-! ## Transactions -/

section

variable (P : Primitives)

def txsTree (txs : List Bytes) : HashTree Bytes Bytes := balanced [] txs.length (txs.map leaf)

/-- The tree of `TxBuckets.Hash`: a chain with a fixed hash in the place of the first bucket. -/
def bucketsTree : List TxBucket → HashTree Bytes Bytes
  | [] => const []
  | _ :: buckets => buckets.foldl (fun combined bucket => node combined (txsTree bucket.txs)) (const (P.sha256 [0]))

/-- What `TxBuckets.Hash` hashes, the transactions of the first bucket included. -/
def bucketsInputs (buckets : List TxBucket) : List Bytes :=
  (buckets.head?.elim [] fun bucket => (txsTree bucket.txs).inputs P.tmhash P.pair) ++
    (bucketsTree P buckets).inputs P.tmhash P.pair

/-- What is hashed of two lists is alike: whether there are buckets, and the trees of those after the first. -/
def HashedAlike (xs ys : List TxBucket) : Prop :=
  (xs = [] ↔ ys = []) ∧ List.Forall₂ (fun x y => Alike P.tmhash P.pair (txsTree x.txs) (txsTree y.txs)) xs.tail ys.tail

variable {P}

theorem digest_txsTree (txs : List Bytes) : (txsTree txs).digest P.tmhash P.pair = txsHash P txs := by
  rw [txsTree, digest_balanced, List.map_map, txsHash, simpleHashFromHashes, length_map]
  rfl

theorem digest_foldl (buckets : List TxBucket) (t : HashTree Bytes Bytes) :
    (buckets.foldl (fun combined bucket => node combined (txsTree bucket.txs)) t).digest P.tmhash P.pair =
      bucketsHashLoop P (t.digest P.tmhash P.pair) buckets := by
  induction buckets generalizing t with
  | nil => rfl
  | cons bucket buckets ih =>
    rw [foldl_cons, ih, digest, digest_txsTree]
    rfl

theorem digest_bucketsTree (buckets : List TxBucket) :
    (bucketsTree P buckets).digest P.tmhash P.pair = bucketsHash P buckets := by
  cases buckets with
  | nil => rfl
  | cons bucket buckets => exact digest_foldl buckets _

theorem closed_txsTree (txs : List Bytes) : (txsTree txs).Closed P.tmhash := by
  refine balanced_induct (tmhash_ne P (by decide)) (fun left right hl hr => ⟨hl, hr⟩) _ ?_
  intro t ht
  obtain ⟨tx, -, rfl⟩ := List.mem_map.1 ht
  trivial

theorem closed_foldl (buckets : List TxBucket) {t : HashTree Bytes Bytes} (ht : t.Closed P.tmhash) :
    (buckets.foldl (fun combined bucket => node combined (txsTree bucket.txs)) t).Closed P.tmhash := by
  induction buckets generalizing t with
  | nil => exact ht
  | cons bucket buckets ih => exact ih ⟨ht, closed_txsTree bucket.txs⟩

theorem closed_bucketsTree (buckets : List TxBucket) : (bucketsTree P buckets).Closed P.tmhash := by
  cases buckets with
  | nil => exact tmhash_ne P (by decide)
  | cons bucket buckets => exact closed_foldl buckets (tmhash_ne P (by rw [P.sha256_length]; decide))

theorem alike_foldl_iff (d : Bytes) (xs ys : List TxBucket) :
    Alike P.tmhash P.pair (xs.foldl (fun combined bucket => node combined (txsTree bucket.txs)) (const d))
        (ys.foldl (fun combined bucket => node combined (txsTree bucket.txs)) (const d)) ↔
      List.Forall₂ (fun x y => Alike P.tmhash P.pair (txsTree x.txs) (txsTree y.txs)) xs ys := by
  rw [← forall₂_reverse_iff, foldl_eq_foldr_reverse, foldl_eq_foldr_reverse]
  generalize xs.reverse = l
  generalize ys.reverse = l'
  induction l generalizing l' with
  | nil =>
    cases l' with
    | nil => exact iff_of_true rfl .nil
    | cons y l' => exact iff_of_false (fun h => h) (fun h => nomatch h)
  | cons x l ih =>
    cases l' with
    | nil => exact iff_of_false (fun h => h) (fun h => nomatch h)
    | cons y l' => rw [foldr_cons, foldr_cons, Alike, ih, forall₂_cons, and_comm]

theorem bucketsHashLoop_ne_nil (buckets : List TxBucket) {combined : Bytes} (h : combined ≠ []) :
    bucketsHashLoop P combined buckets ≠ [] := by
  induction buckets generalizing combined with
  | nil => exact h
  | cons bucket buckets ih => exact ih (tmhash_ne P (by decide) _)

theorem bucketsHash_eq_nil (buckets : List TxBucket) : bucketsHash P buckets = [] ↔ buckets = [] := by
  cases buckets with
  | nil => exact iff_of_true rfl rfl
  | cons bucket buckets =>
    have hstart : P.sha256 [0] ≠ [] := ne_nil_of_length_pos (by rw [P.sha256_length]; decide)
    exact iff_of_false (bucketsHashLoop_ne_nil buckets hstart) (cons_ne_nil bucket buckets)

theorem alike_bucketsTree_iff (xs ys : List TxBucket) :
    Alike P.tmhash P.pair (bucketsTree P xs) (bucketsTree P ys) ↔ HashedAlike P xs ys := by
  -- the hash tells whether there are buckets at all
  have hnil : Alike P.tmhash P.pair (bucketsTree P xs) (bucketsTree P ys) → (xs = [] ↔ ys = []) := by
    intro h
    have heq := h.digest_eq
    rw [digest_bucketsTree, digest_bucketsTree] at heq
    rw [← bucketsHash_eq_nil (P := P), heq, bucketsHash_eq_nil]
  rw [← and_iff_right_of_imp hnil]
  refine and_congr_right fun hboth => ?_
  cases xs with
  | nil =>
    obtain rfl : ys = [] := hboth.1 rfl
    exact iff_of_true rfl .nil
  | cons x xs =>
    cases ys with
    | nil => exact absurd (hboth.2 rfl) (cons_ne_nil x xs)
    | cons y ys => exact alike_foldl_iff _ xs ys

theorem bucketsHash_eq_iff {xs ys : List TxBucket}
    (hno : ¬ Collides P.tmhash (bucketsInputs P xs ++ bucketsInputs P ys)) :
    bucketsHash P xs = bucketsHash P ys ↔ HashedAlike P xs ys := by
  rw [← alike_bucketsTree_iff, ← digest_bucketsTree, ← digest_bucketsTree]
  refine digest_eq_iff_alike P.pair_injective (closed_bucketsTree xs) (closed_bucketsTree ys) fun hc => hno (hc.mono ?_)
  intro m hm
  simp only [bucketsInputs, mem_append] at hm ⊢
  tauto

theorem leaves_txsTree (txs : List Bytes) : (txsTree txs).leaves = txs := by
  rw [txsTree, leaves_balanced _ (length_map ..).le, flatMap_map]
  exact flatMap_pure_eq_map id txs |>.trans (List.map_id txs)

end

/-- **The data hash binds the transactions, exactly when**: an equal hash of two lists of buckets means that they are
equal or that two of the strings hashed collide, if and only if they are equal, or something that is hashed of them
differs, or two of the strings collide. -/
theorem bucketsHash_binds_iff (P : Primitives) (xs ys : List TxBucket) :
    (bucketsHash P xs = bucketsHash P ys → xs = ys ∨ Collides P.tmhash (bucketsInputs P xs ++ bucketsInputs P ys)) ↔
      xs = ys ∨ ¬ HashedAlike P xs ys ∨ Collides P.tmhash (bucketsInputs P xs ++ bucketsInputs P ys) := by
  by_cases hno : Collides P.tmhash (bucketsInputs P xs ++ bucketsInputs P ys)
  · exact iff_of_true (fun _ => .inr hno) (.inr (.inr hno))
  · rw [bucketsHash_eq_iff hno]
    tauto

/-- A transaction of the first bucket leaves no trace in the hash. -/
theorem first_bucket_unhashed : [(⟨ascii "0", [[1]]⟩ : TxBucket)] ≠ [⟨ascii "0", []⟩] ∧ ∀ P : Primitives,
      bucketsHash P [⟨ascii "0", [[1]]⟩] = bucketsHash P [⟨ascii "0", []⟩] ∧
        ¬ Collides P.tmhash (bucketsInputs P [⟨ascii "0", [[1]]⟩] ++ bucketsInputs P [⟨ascii "0", []⟩]) := by
  refine ⟨by decide, fun P => ⟨rfl, ?_⟩⟩
  rintro ⟨m, hm, m', hm', hne, -⟩
  exact hne ((mem_singleton.1 hm).trans (mem_singleton.1 hm').symm)

/-! ## Headers -/

def Header.hashed (h : Header) : Header := { h with lastBucketHashes := none }

/-- The map in `Header.Hash`, in the order of its keys. -/
def headerItems (h : Header) : List (Bytes × AminoItem) := [
  (ascii "App", .bytes h.appHash), (ascii "ChainID", .string h.chainID), (ascii "Consensus", .bytes h.consensusHash),
  (ascii "Data", .bytes h.dataHash), (ascii "Height", .int h.height), (ascii "LastBlockID", .blockID h.lastBlockID),
  (ascii "NumTxs", .int h.numTxs), (ascii "Results", .bytes h.lastResultsHash), (ascii "Time", .time h.time),
  (ascii "TotalTxs", .int h.totalTxs), (ascii "Validators", .bytes h.validatorsHash)]

/-- The encoding of each field is injective, and not empty unless the field is. -/
structure BlockCodec.FieldsInjective (B : BlockCodec) : Prop where
  string : ∀ s s', B.marshalItem (.string s) = B.marshalItem (.string s') → s = s'
  string_ne_nil : ∀ s, s ≠ [] → B.marshalItem (.string s) ≠ []
  bytes : ∀ bz bz', B.marshalItem (.bytes bz) = B.marshalItem (.bytes bz') → bz = bz'
  bytes_ne_nil : ∀ bz, bz ≠ [] → B.marshalItem (.bytes bz) ≠ []
  int : ∀ n n', B.marshalItem (.int n) = B.marshalItem (.int n') → n = n'
  time : ∀ t t', B.marshalItem (.time t) = B.marshalItem (.time t') → t = t'
  blockID : ∀ id id', B.marshalItem (.blockID id) = B.marshalItem (.blockID id') → id = id'

section

variable (P : Primitives) (B : BlockCodec)

/-- What `aminoHash` gives to the hash function. -/
def itemBytes (item : AminoItem) : Bytes := if item.isEmpty then [] else B.marshalItem item

def headerTree (h : Header) : HashTree Bytes Bytes :=
  balanced [] 11 ((headerItems h).map fun kv => node (const kv.1) (leaf (itemBytes B kv.2)))

def headerInputs (h : Header) : List Bytes :=
  if h.validatorsHash = [] then [] else (headerTree B h).inputs P.tmhash P.pair

variable {P B} {h h' : Header}

theorem hash_eq_digest :
    h.hash P B = if h.validatorsHash = [] then [] else (headerTree B h).digest P.tmhash P.pair := by
  rw [headerTree, digest_balanced]
  rfl

/-- No key is as long as a hash. -/
theorem length_headerItems (h : Header) : ∀ kv ∈ headerItems h, kv.1.length ≠ 20 := by
  simp only [headerItems, forall_mem_cons]
  exact ⟨by decide, by decide, by decide, by decide, by decide, by decide, by decide, by decide, by decide, by decide,
    by decide, fun _ hmem => absurd hmem not_mem_nil⟩

theorem closed_headerTree (h : Header) : (headerTree B h).Closed P.tmhash := by
  refine balanced_induct (tmhash_ne P (by decide)) (fun left right hl hr => ⟨hl, hr⟩) _ ?_
  intro t ht
  obtain ⟨kv, hkv, rfl⟩ := List.mem_map.1 ht
  exact ⟨tmhash_ne P (length_headerItems h kv hkv), trivial⟩

theorem digest_headerTree_ne_nil (h : Header) :
    (headerTree B h).digest P.tmhash P.pair ≠ [] := tmhash_ne P (by decide) _

/-- An injective code, with an empty string for the empty value, is injective. -/
theorem ite_nil_inj {f : Bytes → Bytes} (hf : ∀ x y, f x = f y → x = y) (hne : ∀ x, x ≠ [] → f x ≠ []) {x y : Bytes} :
    (if x.isEmpty then [] else f x) = (if y.isEmpty then [] else f y) ↔ x = y := by
  rcases x with _ | ⟨b, x⟩ <;> rcases y with _ | ⟨c, y⟩
  · simp
  · simpa using (hne (c :: y) (by simp)).symm
  · simpa using hne (b :: x) (by simp)
  · exact ⟨hf _ _, congrArg f⟩

theorem alike_headerTree_iff (hinj : B.FieldsInjective) :
    Alike P.tmhash P.pair (headerTree B h) (headerTree B h') ↔ h.hashed = h'.hashed := by
  have hint : ∀ n n', itemBytes B (.int n) = itemBytes B (.int n') ↔ n = n' := fun n n' =>
    ⟨hinj.int n n', fun heq => by rw [heq]⟩
  have htime : ∀ t t', itemBytes B (.time t) = itemBytes B (.time t') ↔ t = t' := fun t t' =>
    ⟨hinj.time t t', fun heq => by rw [heq]⟩
  have hid : ∀ id id', itemBytes B (.blockID id) = itemBytes B (.blockID id') ↔ id = id' := fun id id' =>
    ⟨hinj.blockID id id', fun heq => by rw [heq]⟩
  have hstring : ∀ s s', itemBytes B (.string s) = itemBytes B (.string s') ↔ s = s' := fun s s' =>
    ite_nil_inj hinj.string hinj.string_ne_nil
  have hbytes : ∀ bz bz', itemBytes B (.bytes bz) = itemBytes B (.bytes bz') ↔ bz = bz' := fun bz bz' =>
    ite_nil_inj hinj.bytes hinj.bytes_ne_nil
  rw [headerTree, headerTree, alike_balanced_iff 11 (by simp [headerItems]) (by simp [headerItems])]
  simp only [headerItems, map_cons, map_nil, forall₂_cons, Alike, true_and, hint, htime, hid, hstring, hbytes,
    Header.hashed, Header.mk.injEq, forall₂_nil_left_iff, and_true]
  tauto

theorem hash_eq_iff (hinj : B.FieldsInjective) (hno : ¬ Collides P.tmhash (headerInputs P B h ++ headerInputs P B h')) :
    h.hash P B = h'.hash P B ↔ (h.validatorsHash = [] ∧ h'.validatorsHash = []) ∨ h.hashed = h'.hashed := by
  have hfield : h.hashed = h'.hashed → h.validatorsHash = h'.validatorsHash := fun heq =>
    (congrArg Header.validatorsHash heq : h.hashed.validatorsHash = h'.hashed.validatorsHash)
  rw [hash_eq_digest, hash_eq_digest]
  unfold headerInputs at hno
  by_cases hv : h.validatorsHash = [] <;> by_cases hv' : h'.validatorsHash = []
  · rw [if_pos hv, if_pos hv']
    exact iff_of_true rfl (.inl ⟨hv, hv'⟩)
  · rw [if_pos hv, if_neg hv']
    refine iff_of_false (digest_headerTree_ne_nil h').symm ?_
    rintro (hboth | heq)
    · exact hv' hboth.2
    · exact hv' ((hfield heq).symm.trans hv)
  · rw [if_neg hv, if_pos hv']
    refine iff_of_false (digest_headerTree_ne_nil h) ?_
    rintro (hboth | heq)
    · exact hv hboth.1
    · exact hv ((hfield heq).trans hv')
  · rw [if_neg hv, if_neg hv'] at hno ⊢
    rw [digest_eq_iff_alike P.pair_injective (closed_headerTree h) (closed_headerTree h') hno,
      alike_headerTree_iff hinj]
    exact ⟨.inr, fun hor => hor.resolve_left fun hboth => hv hboth.1⟩

theorem Block.hash_of_validateBasic {data : Data} {commit : Commit}
    (hbasic : Block.validateBasic P ⟨some h, some data, some commit⟩ = some (.ok ())) :
    Block.hash P B (some ⟨some h, some data, some commit⟩) = h.hash P B := by
  have hdata : h.dataHash = dataHash P (some data) := by
    unfold Block.validateBasic at hbasic
    simp only [Option.bind_some, Option.map_some] at hbasic
    by_contra hne
    split_ifs at hbasic
    · cases hbasic
    · cases hvalid : commit.validateBasic with
      | error err | ok _ =>
        rw [hvalid] at hbasic
        cases hbasic
    · cases hbasic
  have hfill : (if h.dataHash = [] then { h with dataHash := dataHash P (some data) } else h) = h := by
    split_ifs with hnil
    · rw [← hdata]
    · rfl
  simp only [Block.hash, Block.fillHeader, hfill]

end

/-- **The block hash binds the block, exactly when**: for two complete blocks that pass `ValidateBasic`, an equal hash
means that headers and commits are equal or that two of the strings hashed collide, if and only if they are equal, or
one has a hash of validators and a field that is hashed differs, or two of the strings collide. -/
theorem blockHash_binds_iff (P : Primitives) (B : BlockCodec) (hinj : B.FieldsInjective) (h h' : Header)
    (data data' : Data) (commit commit' : Commit)
    (hbasic : Block.validateBasic P ⟨some h, some data, some commit⟩ = some (.ok ()))
    (hbasic' : Block.validateBasic P ⟨some h', some data', some commit'⟩ = some (.ok ())) :
    (Block.hash P B (some ⟨some h, some data, some commit⟩) =
      Block.hash P B (some ⟨some h', some data', some commit'⟩) →
        (h = h' ∧ commit = commit') ∨ Collides P.tmhash (headerInputs P B h ++ headerInputs P B h')) ↔
      (h = h' ∧ commit = commit') ∨ (¬ (h.validatorsHash = [] ∧ h'.validatorsHash = []) ∧ h.hashed ≠ h'.hashed) ∨
        Collides P.tmhash (headerInputs P B h ++ headerInputs P B h') := by
  rw [Block.hash_of_validateBasic hbasic, Block.hash_of_validateBasic hbasic']
  by_cases hno : Collides P.tmhash (headerInputs P B h ++ headerInputs P B h')
  · exact iff_of_true (fun _ => .inr hno) (.inr (.inr hno))
  · rw [hash_eq_iff hinj hno]
    tauto

/-! ## Two blocks -/

/-- Encodings of fields that can be evaluated and are injective. -/
def BlockCodec.itemwise : BlockCodec := { BlockCodec.plain with
  marshalItem := fun item => match item with
    | .string s => Plain.bytes.enc s
    | .int n => Code.int.enc n
    | .time t => Code.int.enc t
    | .blockID id => Plain.blockID.enc id
    | .bytes bz => Plain.bytes.enc bz
    | .validator address _ votingPower => Code.int.enc votingPower ++ address
    | .result code data => code.toNat.toUInt8 :: data }

theorem itemwise_fieldsInjective : BlockCodec.itemwise.FieldsInjective where
  string s s' h := Plain.bytes.enc_injective h
  string_ne_nil s hs := by
    cases s with
    | nil => exact absurd rfl hs
    | cons b s => exact cons_ne_nil _ _
  bytes bz bz' h := Plain.bytes.enc_injective h
  bytes_ne_nil bz hbz := by
    cases bz with
    | nil => exact absurd rfl hbz
    | cons b bz => exact cons_ne_nil _ _
  int n n' h := Code.int.enc_injective h
  time t t' h := Code.int.enc_injective h
  blockID id id' h := Plain.blockID.enc_injective h

def bareHeader : Header where
  chainID := ascii "c"
  height := 1
  time := 5
  numTxs := 0
  lastBlockID := BlockID.empty
  totalTxs := 0
  dataHash := []
  validatorsHash := [9]
  consensusHash := [8]
  appHash := []
  lastResultsHash := []

def laterHeader : Header := { bareHeader with time := 6 }

theorem blockHash_binds_time :
    bareHeader.hashed ≠ laterHeader.hashed ∧
      (Block.hash .checked .itemwise (some ⟨some bareHeader, some ⟨[]⟩, some ⟨BlockID.empty, []⟩⟩) =
          Block.hash .checked .itemwise (some ⟨some laterHeader, some ⟨[]⟩, some ⟨BlockID.empty, []⟩⟩) →
        (bareHeader = laterHeader ∧ (⟨BlockID.empty, []⟩ : Commit) = ⟨BlockID.empty, []⟩) ∨
          Collides Primitives.checked.tmhash
            (headerInputs .checked .itemwise bareHeader ++ headerInputs .checked .itemwise laterHeader)) :=
  ⟨by decide +kernel, (blockHash_binds_iff .checked .itemwise itemwise_fieldsInjective bareHeader laterHeader ⟨[]⟩ ⟨[]⟩
    ⟨BlockID.empty, []⟩ ⟨BlockID.empty, []⟩ (by decide +kernel) (by decide +kernel)).2
      (.inr (.inl (by decide +kernel)))⟩

/-- Two blocks that differ in their `LastBucketHashes` and their commits and have one hash. -/
theorem commit_unhashed :
    Block.validateBasic .checked ⟨some bareHeader, some ⟨[]⟩, some ⟨BlockID.empty, []⟩⟩ = some (.ok ()) ∧
      Block.validateBasic .checked ⟨some { bareHeader with lastBucketHashes := some ⟨[(ascii "12", [7])]⟩ }, some ⟨[]⟩,
        some ⟨⟨[3], PartSetHeader.empty⟩, []⟩⟩ = some (.ok ()) ∧
      Block.hash .checked .itemwise (some ⟨some bareHeader, some ⟨[]⟩, some ⟨BlockID.empty, []⟩⟩) =
        Block.hash .checked .itemwise (some ⟨some { bareHeader with lastBucketHashes := some ⟨[(ascii "12", [7])]⟩ },
          some ⟨[]⟩, some ⟨⟨[3], PartSetHeader.empty⟩, []⟩⟩) ∧
      bareHeader ≠ { bareHeader with lastBucketHashes := some ⟨[(ascii "12", [7])]⟩ } ∧
      (⟨BlockID.empty, []⟩ : Commit) ≠ ⟨⟨[3], PartSetHeader.empty⟩, []⟩ ∧
      ¬ Collides Primitives.checked.tmhash (headerInputs .checked .itemwise bareHeader ++
        headerInputs .checked .itemwise { bareHeader with lastBucketHashes := some ⟨[(ascii "12", [7])]⟩ }) := by
  decide +kernel

end Demars
