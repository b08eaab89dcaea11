import Demars.Crypto.Proofs
import Demars.Types.Binding
import Demars.Types.Bucketing

/-!
# Proofs of transactions

`Txs.Proof` and `TxProof.Validate` of `types/tx.go`, and the use that the RPC function `Tx` and the light client
make of them.
-/

namespace Demars

open Machine HashTree Merkle List Option

structure TxProof where
  index : Int
  total : Int
  rootHash : Bytes
  data : Bytes
  proof : List Bytes
deriving DecidableEq

inductive TxProofError
  /-- `Proof matches different data hash` -/
  | differentDataHash
  /-- `Proof index cannot be negative` -/
  | negativeIndex
  /-- `Proof total must be positive` -/
  | nonPositiveTotal
  /-- `Proof is not internally consistent` -/
  | inconsistent
deriving DecidableEq

namespace TxProof

variable (P : Primitives)

def leafHash (tp : TxProof) : Bytes := P.tmhash tp.data

def validate (tp : TxProof) (dataHash : Bytes) : Except TxProofError Unit :=
  if dataHash ≠ tp.rootHash then .error .differentDataHash
  else if tp.index < 0 then .error .negativeIndex
  else if tp.total ≤ 0 then .error .nonPositiveTotal
  else if verifyProof P tp.proof tp.index tp.total (tp.leafHash P) tp.rootHash then .ok ()
  else .error .inconsistent

/-- What `Validate` hashes: the transaction, and the pairs on the way to the root. -/
def inputs (tp : TxProof) : List Bytes := climbInputs P.tmhash P.pair (proofPath tp.proof tp.index tp.total) tp.data

variable {P} in
theorem validate_eq_ok_iff {tp : TxProof} {dataHash : Bytes} : tp.validate P dataHash = .ok () ↔
    tp.rootHash = dataHash ∧ 0 ≤ tp.index ∧ 0 < tp.total ∧
      verifyProof P tp.proof tp.index tp.total (tp.leafHash P) tp.rootHash = true := by
  unfold validate
  split_ifs with hhash hindex htotal hverify
  · exact iff_of_false nofun fun h => hhash h.1.symm
  · exact iff_of_false nofun fun h => by omega
  · exact iff_of_false nofun fun h => by omega
  · exact iff_of_true rfl ⟨(not_not.1 hhash).symm, by omega, by omega, hverify⟩
  · exact iff_of_false nofun fun h => hverify h.2.2.2

end TxProof

/-- `Txs.Proof`, which panics where there is no such transaction. -/
def txsProof (P : Primitives) (txs : List Bytes) (i : Nat) : Option TxProof := do
  let (root, proofs) ← simpleProofsFromHashers P (txs.map P.tmhash)
  let data ← txs[i]?
  let proof ← proofs[i]?
  return ⟨i, txs.length, root, data, proof⟩

/-! ## What a list can be proved to hold -/

/-- What `Txs.Hash` gives to the hash function. -/
def txsInputs (P : Primitives) (txs : List Bytes) : List Bytes := (txsTree txs).inputs P.tmhash P.pair

/-- Every message of an inner node is a transaction of the list, and what a transaction holds the hash of is one, too;
or there is a collision. -/
def Sealed (P : Primitives) (txs : List Bytes) : Prop :=
  Collides P.tmhash (txsInputs P txs) ∨
    ((∀ m ∈ txsInputs P txs, m ∈ txs) ∧
      ∀ tx ∈ txs, ∀ below, Holds P.tmhash P.pair tx below → below ∈ txs ∨ Collides P.tmhash (below :: txsInputs P txs))

section

variable {P : Primitives}

/-- Every way down is taken by some index of a power of two. -/
theorem exists_index (turns : List Bool) (hlen : turns.length ≤ 62) :
    ∃ index : Int, 0 ≤ index ∧ index < 2 ^ turns.length ∧ sides turns.length index (2 ^ turns.length) = turns ∧
      ∀ (leafHash : Bytes) (aunts : List Bytes), aunts.length = turns.length →
        (computeHashFromAunts P index (2 ^ turns.length) leafHash aunts).isSome := by
  induction turns with
  | nil =>
    refine ⟨0, le_rfl, by norm_num, rfl, fun leafHash aunts haunts => ?_⟩
    obtain rfl : aunts = [] := length_eq_zero_iff.1 haunts
    simp [computeHashFromAunts]
  | cons side turns ih =>
    rw [length_cons] at hlen ⊢
    obtain ⟨index, h0, hlt, hsides, hcompute⟩ := ih (by omega)
    have hmax : (2 : Int) ^ (turns.length + 1) < maxInt64 := by
      have hle : (2 : Int) ^ (turns.length + 1) ≤ 2 ^ 62 := pow_le_pow_right₀ (by norm_num) hlen
      unfold maxInt64
      omega
    have hhalf : ((2 : Int) ^ (turns.length + 1) + 1) / 2 = 2 ^ turns.length := by omega
    have hrest : (2 : Int) ^ (turns.length + 1) - 2 ^ turns.length = 2 ^ turns.length := by omega
    have hnum : numLeft (2 ^ (turns.length + 1)) = 2 ^ turns.length := by rw [numLeft_eq (by omega) hmax, hhalf]
    cases side with
    | true =>
      refine ⟨index, h0, by omega, by rw [sides, hnum, if_pos hlt, hsides], fun leafHash aunts haunts => ?_⟩
      obtain ⟨aunt, aunts, rfl⟩ := exists_cons_of_length_eq_add_one haunts
      rw [computeHashFromAunts_left h0 (by omega) hmax (by omega), hhalf, isSome_map]
      exact hcompute leafHash aunts (by simpa using haunts)
    | false =>
      have hback : (2 : Int) ^ turns.length + index - 2 ^ turns.length = index := by omega
      refine ⟨2 ^ turns.length + index, by omega, by omega, ?_, fun leafHash aunts haunts => ?_⟩
      · rw [sides, hnum, if_neg (by omega), hback, hrest, wrap64_eq (by unfold minInt64; omega) (by omega),
          wrap64_eq (by unfold minInt64; omega) (by omega), hsides]
      · obtain ⟨aunt, aunts, rfl⟩ := exists_cons_of_length_eq_add_one haunts
        rw [computeHashFromAunts_right (by omega) (by omega) hmax (by omega), hhalf, hback, hrest, isSome_map]
        exact hcompute leafHash aunts (by simpa using haunts)

theorem exists_txProof {path : List (Bool × Bytes)} (hlen : path.length ≤ 62) (data : Bytes) :
    ∃ tp : TxProof, tp.validate P (climb (simpleHashFromTwoHashes P) path (P.tmhash data)) = .ok () ∧ tp.data = data ∧
      tp.inputs P = climbInputs P.tmhash P.pair path data := by
  obtain ⟨index, h0, -, hsides, hcompute⟩ := exists_index (P := P) (path.map Prod.fst) (by rwa [length_map])
  rw [length_map] at hsides hcompute
  let aunts := (path.map Prod.snd).reverse
  have hpath : proofPath aunts index (2 ^ path.length) = path := by
    rw [proofPath, reverse_reverse, length_reverse, length_map, hsides]
    exact (zip_of_prod rfl rfl).symm
  obtain ⟨root, hroot⟩ := isSome_iff_exists.1 (hcompute (P.tmhash data) (path.map Prod.snd) (length_map ..))
  have hclimb : root = climb (simpleHashFromTwoHashes P) path (P.tmhash data) := by
    have hzip := computeHashFromAunts_eq_climb hroot
    rwa [length_map, hsides, ← zip_of_prod rfl rfl] at hzip
  refine ⟨⟨index, 2 ^ path.length, root, data, aunts⟩, ?_, rfl, by rw [TxProof.inputs, hpath]⟩
  refine TxProof.validate_eq_ok_iff.2 ⟨hclimb, h0, by positivity, ?_⟩
  show verifyProof P aunts index (2 ^ path.length) (P.tmhash data) root = true
  rw [verifyProof, reverse_reverse, hroot]
  simp

variable {txs : List Bytes}

theorem subset_txsInputs : txs ⊆ txsInputs P txs := by
  have hsub : (txsTree txs).leaves ⊆ txsInputs P txs := leaves_subset_inputs _
  rwa [leaves_txsTree] at hsub

theorem depth_txsTree (hlen : (txs.length : Int) ≤ maxSliceLen) : (txsTree txs).depth ≤ 45 := by
  refine depth_balanced 45 _ ?_ ?_
  · intro t ht
    obtain ⟨tx, -, rfl⟩ := List.mem_map.1 ht
    rfl
  · rw [length_map]
    unfold maxSliceLen at hlen
    omega

theorem exists_path (hlen : (txs.length : Int) ≤ maxSliceLen) {m : Bytes} (hm : m ∈ txsInputs P txs) :
    ∃ path, climb (simpleHashFromTwoHashes P) path (P.tmhash m) = txsHash P txs ∧
      climbInputs P.tmhash P.pair path m ⊆ txsInputs P txs ∧ path.length ≤ 45 := by
  obtain ⟨path, hclimb, hpairs, hdepth⟩ := exists_climb hm
  rw [digest_txsTree] at hclimb
  refine ⟨path, hclimb, ?_, hdepth.trans (depth_txsTree hlen)⟩
  intro x hx
  rcases mem_cons.1 hx with rfl | hx
  · exact hm
  · obtain ⟨p, hp, rfl⟩ := List.mem_map.1 hx
    exact hpairs p hp

theorem mem_of_validate (hsealed : Sealed P txs) {tp : TxProof} (h : tp.validate P (txsHash P txs) = .ok ()) :
    tp.data ∈ txs ∨ Collides P.tmhash (tp.inputs P ++ txsInputs P txs) := by
  by_cases hno : Collides P.tmhash (tp.inputs P ++ txsInputs P txs)
  · exact .inr hno
  left
  rcases hsealed with hcollides | ⟨hinner, hholds⟩
  · exact absurd (hcollides.mono (subset_append_right _ _)) hno
  obtain ⟨hroot, -, -, hverify⟩ := TxProof.validate_eq_ok_iff.1 h
  have hclimb := verifyProof_eq_climb hverify
  rw [hroot, ← digest_txsTree] at hclimb
  -- the root is the digest of a message of the list, which is a transaction
  obtain ⟨top, -, htop⟩ : ∃ top ∈ tp.inputs P, _ = P.tmhash top := exists_climb_eq_hash _ tp.data
  obtain ⟨w, hw, hdigest⟩ := exists_input_of_digest (closed_txsTree txs) (htop.symm.trans hclimb)
  have hsub : w :: tp.inputs P ⊆ tp.inputs P ++ txsInputs P txs := by
    intro x hx
    rcases mem_cons.1 hx with rfl | hx
    · exact mem_append_right _ hw
    · exact mem_append_left _ hx
  refine mem_of_climb (S := (· ∈ txs)) _ ?_ (fun hc => hno (hc.mono hsub)) (hinner w hw) (hclimb.trans hdigest)
  intro tx htx below hbelow hstep
  refine (hholds tx htx below hstep).resolve_right fun hc => hno (hc.mono ?_)
  intro x hx
  rcases mem_cons.1 hx with rfl | hx
  · exact mem_append_left _ hbelow
  · exact mem_append_right _ hx

end

/-- A list is only proved to hold its own transactions exactly if it is `Sealed`: the prover chooses index and total,
so a proof may stop at an inner node, or go on below a transaction that is a pair of hashes. -/
theorem txProof_sound_iff (P : Primitives) (txs : List Bytes) (hlen : (txs.length : Int) ≤ maxSliceLen) :
    (∀ tp : TxProof, tp.validate P (txsHash P txs) = .ok () →
        tp.data ∈ txs ∨ Collides P.tmhash (tp.inputs P ++ txsInputs P txs)) ↔ Sealed P txs := by
  refine ⟨fun hsound => ?_, fun hsealed tp h => mem_of_validate hsealed h⟩
  by_cases hno : Collides P.tmhash (txsInputs P txs)
  · exact .inl hno
  refine .inr ⟨fun m hm => ?_, fun tx htx below hstep => ?_⟩
  · obtain ⟨path, hclimb, hsub, hshort⟩ := exists_path hlen hm
    obtain ⟨tp, hvalid, hdata, hinputs⟩ := exists_txProof (P := P) (show path.length ≤ 62 by omega) m
    rw [hclimb] at hvalid
    rcases hsound tp hvalid with hmem | hcollides
    · rwa [hdata] at hmem
    · rw [hinputs] at hcollides
      exact absurd (hcollides.mono (append_subset.2 ⟨hsub, List.Subset.refl _⟩)) hno
  · obtain ⟨path, hclimb, hsub, hshort⟩ := exists_path hlen (subset_txsInputs htx)
    obtain ⟨step, hbelow, hmore⟩ := exists_climb_holds path hstep
    have hlong : (path ++ [step]).length ≤ 62 := by
      rw [length_append, length_singleton]
      omega
    obtain ⟨tp, hvalid, hdata, hinputs⟩ := exists_txProof (P := P) hlong below
    rw [show climb (simpleHashFromTwoHashes P) (path ++ [step]) (P.tmhash below) = _ from hbelow.trans hclimb] at hvalid
    rcases hsound tp hvalid with hmem | hcollides
    · rw [hdata] at hmem
      exact .inl hmem
    · rw [hinputs] at hcollides
      refine .inr (hcollides.mono (append_subset.2 ⟨fun x hx => ?_, subset_cons_self _ _⟩))
      rcases mem_cons.1 (hmore hx) with rfl | hx
      · exact mem_cons_self
      · exact mem_cons_of_mem _ (hsub hx)

theorem ne_pair_of_dec {P : Primitives} {bz : Bytes} (h : (P.byteSlice.prod P.byteSlice).dec bz = none) (l r : Bytes) :
    bz ≠ P.pair l r := by
  rintro rfl
  have hdec := (P.byteSlice.prod P.byteSlice).dec_enc (l, r) []
  rw [append_nil] at hdec
  exact some_ne_none _ (hdec.symm.trans h)

theorem sealed_singleton {P : Primitives} {tx : Bytes} (h : ∀ l r, tx ≠ P.pair l r) : Sealed P [tx] := by
  refine .inr ⟨fun m hm => hm, fun tx' htx' below hstep => ?_⟩
  obtain rfl : tx' = tx := mem_singleton.1 htx'
  obtain ⟨aunt, heq | heq⟩ := hstep
  · exact absurd heq (h _ _)
  · exact absurd heq (h _ _)

/-- A list that nothing else is proved of. -/
theorem txProof_sound_one :
    Sealed .checked [[1]] ∧ ∀ tp : TxProof, tp.validate .checked (txsHash .checked [[1]]) = .ok () →
    tp.data ∈ ([[1]] : List Bytes) ∨
    Collides Primitives.checked.tmhash (tp.inputs .checked ++ txsInputs .checked [[1]]) := by
  have hsealed : Sealed .checked [[1]] := sealed_singleton (ne_pair_of_dec (by decide))
  exact ⟨hsealed, (txProof_sound_iff .checked [[1]] (by decide)).2 hsealed⟩

/-- The message of an inner node is proved to be a transaction. -/
theorem inner_node_proved :
    ∃ tp : TxProof, tp.validate .checked (txsHash .checked [[1], [2]]) = .ok () ∧ tp.data ∉ ([[1], [2]] : List Bytes) ∧
      ¬ Collides Primitives.checked.tmhash (tp.inputs .checked ++ txsInputs .checked [[1], [2]]) :=
  ⟨⟨0, 1, txsHash .checked [[1], [2]], Primitives.checked.pair (Primitives.checked.tmhash [1])
    (Primitives.checked.tmhash [2]), []⟩, by decide +kernel⟩

/-! ## The proofs of the RPC -/

/-- The proof that `Tx` answers with for a transaction at a place of a block. -/
def rpcTxProof (P : Primitives) (block : Block) (bucketIndex index : Nat) : Option TxProof := do
  let data ← block.data
  let bucket ← data.txBuckets[bucketIndex]?
  txsProof P bucket.txs index

section

variable {P : Primitives} {txs : List Bytes} {buckets : List TxBucket}

theorem txsProof_spec (hmax : (txs.length : Int) < maxInt64) {i : Nat} {tx : Bytes} (htx : txs[i]? = some tx) :
    ∃ tp, txsProof P txs i = some tp ∧ tp.rootHash = txsHash P txs ∧ tp.data = tx ∧
      tp.validate P (txsHash P txs) = .ok () := by
  have hne : txs.map P.tmhash ≠ [] := by
    rw [ne_eq, map_eq_nil_iff]
    rintro rfl
    simp at htx
  have hleaf : (txs.map P.tmhash)[i]? = some (P.tmhash tx) := by rw [getElem?_map, htx, map_some]
  obtain ⟨aunts, haunts, hverify⟩ := exists_proof (P := P) (by rwa [length_map]) hleaf
  rw [length_map] at hverify
  refine ⟨⟨i, txs.length, txsHash P txs, tx, aunts⟩, ?_, rfl, rfl, ?_⟩
  · rw [txsProof, simpleProofsFromHashers_eq hne]
    simp [haunts, htx, fst_simpleProofsFromHashes, txsHash]
  · have hi : i < txs.length := (List.getElem?_eq_some_iff.1 htx).1
    have hpos : (0 : Int) < txs.length := by omega
    exact TxProof.validate_eq_ok_iff.2 ⟨rfl, Int.natCast_nonneg i, hpos, hverify⟩

theorem length_bucketLoop {T : TxJson} {height : Int} {buckets' : List TxBucket}
    (h : bucketLoop T height txs buckets = some buckets') : buckets'.length = buckets.length := by
  induction txs generalizing buckets with
  | nil =>
    cases h
    rfl
  | cons tx txs ih =>
    obtain ⟨segments, -, hloop⟩ := bind_eq_some_iff.1 h
    rw [ih hloop, length_map]

theorem length_txs_bucketLoop {T : TxJson} {height : Int} {buckets' : List TxBucket} {n : Nat}
    (hn : ∀ bucket ∈ buckets, bucket.txs.length ≤ n) (h : bucketLoop T height txs buckets = some buckets') :
    ∀ bucket ∈ buckets', bucket.txs.length ≤ n + txs.length := by
  induction txs generalizing buckets n with
  | nil =>
    cases h
    exact hn
  | cons tx txs ih =>
    obtain ⟨segments, -, hloop⟩ := bind_eq_some_iff.1 h
    have hput : ∀ bucket ∈ buckets.map (putTx segments tx), bucket.txs.length ≤ n + 1 := by
      intro bucket hbucket
      obtain ⟨old, hold, rfl⟩ := List.mem_map.1 hbucket
      have hle := hn old hold
      rcases txs_putTx segments tx old with heq | heq
      · rw [heq]
        omega
      · rw [heq, length_append, length_singleton]
        omega
    intro bucket hbucket
    have hle := ih hput hloop bucket hbucket
    rw [length_cons]
    omega

variable {T : TxJson} {now height : Int} {made : List Bytes} {commit : Commit} {block : Block}

theorem makeBlock_data (hmake : makeBlock P T now height made commit = some block) :
    ∃ header data, block.header = some header ∧ block.data = some data ∧
      header.dataHash = bucketsHash P data.txBuckets ∧
      data.txBuckets.length = 255 ∧ ∀ bucket ∈ data.txBuckets, bucket.txs.length ≤ made.length := by
  obtain ⟨buckets, hloop, rfl⟩ := map_eq_some_iff.1 hmake
  refine ⟨_, _, rfl, rfl, rfl, ?_, ?_⟩
  · rw [length_bucketLoop hloop, emptyBuckets, length_map, length_range]
  · have hempty : ∀ bucket ∈ emptyBuckets, bucket.txs.length ≤ 0 := by
      intro bucket hbucket
      obtain ⟨i, -, rfl⟩ := List.mem_map.1 hbucket
      exact le_rfl
    intro bucket hbucket
    have hle := length_txs_bucketLoop hempty hloop bucket hbucket
    omega

end

/-- The length of a short string is the first byte of its encoding. -/
def Primitives.LengthFirst (P : Primitives) : Prop :=
  ∀ bz : Bytes, bz.length < 128 → (P.byteSlice.enc bz).head? = some bz.length.toUInt8

/-- A text that starts with a control character, but for white space, is no JSON. -/
def TxJson.NoControl (T : TxJson) : Prop :=
  ∀ bz c, bz.head? = some c → c < 32 → c ∉ ([9, 10, 13] : List UInt8) →
    T.unmarshalDMC bz = Coin.emptyDMCTx ∧ T.unmarshalUTXO bz = Coin.emptyTxUTXO

section

variable {P : Primitives} {T : TxJson} {buckets : List TxBucket}

theorem spine_foldl (buckets : List TxBucket) (t : HashTree Bytes Bytes) :
    (buckets.foldl (fun combined bucket => node combined (txsTree bucket.txs)) t).spine = t.spine + buckets.length := by
  induction buckets generalizing t with
  | nil => rfl
  | cons bucket buckets ih =>
    rw [foldl_cons, ih, spine, length_cons]
    omega

/-- The pair of two hashes has no bucket: its first byte is 20. -/
theorem landings_pair (hslice : P.LengthFirst) (hjson : T.NoControl) (height : Int) (a d : Bytes) :
    landings T height (P.pair (P.tmhash a) d) = none := by
  have hhead : (P.pair (P.tmhash a) d).head? = some 20 := by
    have hfirst := hslice (P.tmhash a) (by rw [P.length_tmhash]; decide)
    rw [P.length_tmhash] at hfirst
    rw [Primitives.pair, head?_append, hfirst]
    rfl
  obtain ⟨hdmc, hutxo⟩ := hjson _ 20 hhead (by decide) (by decide)
  unfold landings
  rw [hdmc, hutxo]
  split_ifs <;> rfl

/-- The hash of a bucket is not that of the chain: down the left edges of the two trees, a transaction meets a pair of
hashes. -/
theorem collides_of_txsHash_eq (hslice : P.LengthFirst) (hjson : T.NoControl) {height : Int} {txs : List Bytes}
    (hlands : ∀ tx ∈ txs, landings T height tx ≠ none) (hne : txs ≠ []) (hlen : (txs.length : Int) < maxInt64)
    (hbuckets : buckets.length = 255) (h : txsHash P txs = bucketsHash P buckets) :
    Collides P.tmhash (txsInputs P txs ++ bucketsInputs P buckets) := by
  by_contra hno
  rw [← digest_txsTree, ← digest_bucketsTree] at h
  have halike := alike_of_digest_eq P.pair_injective (closed_txsTree txs) (closed_bucketsTree buckets)
    (fun hc => hno (hc.mono ?_)) h
  · have hpow : txs.length ≤ 2 ^ 63 := by unfold maxInt64 at hlen; omega
    obtain ⟨hspine, tx, htx, hend⟩ := balanced_leftEnd (d := ([] : Bytes)) le_rfl hne hpow
    have hchain : (bucketsTree P buckets).spine = 254 := by
      cases buckets with
      | nil => cases hbuckets
      | cons bucket buckets =>
        rw [bucketsTree, spine_foldl, spine]
        simpa using hbuckets
    obtain ⟨a, d, rfl⟩ :=
      halike.leftEnd_eq_pair hend (by rw [hchain]; exact Nat.lt_of_le_of_lt (Nat.succ_le_succ hspine) (by decide))
    exact hlands _ htx (landings_pair hslice hjson height a d)
  · intro m hm
    rcases mem_append.1 hm with hm | hm
    · exact mem_append_left _ hm
    · exact mem_append_right _ (mem_append_right _ hm)

end

/-- **The proofs of the RPC are refused**: for every transaction in a bucket of a made block the node serves a proof,
and no header of the node accepts it, unless two of the messages hashed for the block collide. -/
theorem rpcTx_proof_refused_all (P : Primitives) (T : TxJson) (hslice : P.LengthFirst) (hjson : T.NoControl)
    (now height : Int) (made : List Bytes) (commit : Commit) {block : Block}
    (hmake : makeBlock P T now height made commit = some block) (hlen : (made.length : Int) < maxInt64) :
    ∃ header data, block.header = some header ∧ block.data = some data ∧
      ∀ (bucketIndex index : Nat) (bucket : TxBucket) (tx : Bytes), data.txBuckets[bucketIndex]? = some bucket →
        bucket.txs[index]? = some tx → ∃ tp, rpcTxProof P block bucketIndex index = some tp ∧ tp.data = tx ∧
          (tp.validate P header.dataHash = .ok () →
            Collides P.tmhash (txsInputs P bucket.txs ++ bucketsInputs P data.txBuckets)) := by
  obtain ⟨header, data, hheader, hdata, hhash, hcount, hbuckets⟩ := makeBlock_data hmake
  refine ⟨header, data, hheader, hdata, fun bucketIndex index bucket tx hbucket htx => ?_⟩
  have hmem := mem_of_getElem? hbucket
  have hmax : (bucket.txs.length : Int) < maxInt64 := by
    have hle := hbuckets bucket hmem
    omega
  obtain ⟨tp, hproof, hroot, hof, -⟩ := txsProof_spec (P := P) hmax htx
  refine ⟨tp, by simp [rpcTxProof, hdata, hbucket, hproof], hof, fun hvalid => ?_⟩
  have heq : txsHash P bucket.txs = bucketsHash P data.txBuckets := by
    rw [← hroot, (TxProof.validate_eq_ok_iff.1 hvalid).1, hhash]
  have hlands := makeBlock_ne_none.1 (by rw [hmake]; exact some_ne_none _)
  refine collides_of_txsHash_eq hslice hjson (fun tx' htx' => hlands tx' ?_) (ne_nil_of_mem (mem_of_getElem? htx))
    hmax hcount
    heq
  refine mem_txs_makeBlock hmake tx' ?_
  rw [Block.txs, hdata]
  exact mem_flatMap.2 ⟨bucket, hmem, htx'⟩

theorem lengthFirst_checked : Primitives.checked.LengthFirst := by
  intro bz hlt
  show (Code.encUvarint bz.length bz.length ++ bz).head? = _
  cases hn : bz.length with
  | zero => rfl
  | succ n =>
    rw [Code.encUvarint, if_pos (by omega)]
    rfl

theorem noControl_transfers : TxJson.transfers.NoControl := by
  intro bz c hhead hlt hblank
  have hbrace : bz.head? ≠ some 123 := by
    rintro heq
    rw [hhead, Option.some.injEq] at heq
    subst heq
    exact absurd hlt (by decide)
  constructor
  · have hne : ∀ input output, bz ≠ transferText input output := by
      rintro input output rfl
      refine hbrace ?_
      simp [transferText, ascii]
    simp [TxJson.transfers, hne]
  · show TxJson.plain.unmarshalUTXO bz = _
    unfold TxJson.plain
    dsimp only
    split
    · exact absurd rfl hbrace
    · rfl

def transferBlock : Option Block := makeBlock .checked .transfers 0 1 [transferText "12" "34"] ⟨BlockID.empty, []⟩

/-- A block with one transfer. -/
theorem rpcTx_proof_transfer :
    Primitives.checked.LengthFirst ∧ TxJson.transfers.NoControl ∧ ∃ block, transferBlock = some block ∧
      ∃ header data, block.header = some header ∧ block.data = some data ∧
        ∀ (bucketIndex index : Nat) (bucket : TxBucket) (tx : Bytes), data.txBuckets[bucketIndex]? = some bucket →
          bucket.txs[index]? = some tx → ∃ tp, rpcTxProof .checked block bucketIndex index = some tp ∧ tp.data = tx ∧
            (tp.validate .checked header.dataHash = .ok () →
              Collides Primitives.checked.tmhash (txsInputs .checked bucket.txs ++
                bucketsInputs .checked data.txBuckets)) :=
  ⟨lengthFirst_checked, noControl_transfers, transferBlock.get (by decide +kernel), (some_get _).symm,
    rpcTx_proof_refused_all .checked .transfers lengthFirst_checked noControl_transfers 0 1 _ _ (some_get _).symm
      (by decide)⟩

/-- The proofs of its transfer, in both its buckets, are refused with the data hash of its header. -/
theorem rpcTx_proof_refused : ∃ block header tp tp', transferBlock = some block ∧ block.header = some header ∧
    rpcTxProof .checked block 49 0 = some tp ∧ rpcTxProof .checked block 51 0 = some tp' ∧
      tp.data = transferText "12" "34" ∧ tp.validate .checked header.dataHash = .error .differentDataHash ∧
      tp'.data = transferText "12" "34" ∧ tp'.validate .checked header.dataHash = .error .differentDataHash := by
  refine ⟨transferBlock.get (by decide +kernel), _, _, _, (some_get _).symm, rfl, (some_get (by decide +kernel)).symm,
    (some_get (by decide +kernel)).symm, by decide +kernel, by decide +kernel, by decide +kernel, by decide +kernel⟩

end Demars
