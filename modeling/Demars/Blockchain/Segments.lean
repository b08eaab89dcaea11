import Demars.Blockchain.Pool
import Demars.Coin.Validators
import Demars.Types.Bucketing

/-!
# Whose turn it is

The validators of a height are meant to come from one segment of the accounts, which `GetValidatorSet` names by the
height modulo 100 and `BlockPool.AddBlock` by the node's own account.
-/

namespace Demars.Blockchain

open BlockPool List Option

/-- The value of a lowercase hexadecimal digit. -/
def hexValue (c : UInt8) : Int := if c ≤ 57 then c.toNat - 48 else c.toNat - 87

/-- `strconv.ParseInt(text, 16, 64)` of a short text of lowercase digits. -/
def parseHex (text : Bytes) : Int := text.foldl (fun n c => n * 16 + hexValue c) 0

/-- The number that `Receive` hands to `AddBlock`: the segment of the node itself. -/
def segmentNumber (n : NodeID) : Int := parseHex n.segmentID

/-- The segment whose accounts `GetValidatorSet` asks for. -/
def validatorSegment (height : Int) : Bytes := Coin.hexOf (height % 100)

variable {height : Int}

theorem hexValue_hexDigit {n : Nat} (h : n < 16) : hexValue (hexDigit n) = n := by
  have hall : ∀ n < 16, hexValue (hexDigit n) = n := by decide
  exact hall n h

theorem segmentID_eq (n : NodeID) : ∃ b : UInt8, n.segmentID = hexByte b.toNat ∧ segmentNumber n = b.toNat := by
  obtain ⟨ID, hlen⟩ := n
  cases ID with
  | nil => cases hlen
  | cons b rest =>
    have htext : (⟨b :: rest, hlen⟩ : NodeID).segmentID = hexByte b.toNat := by
      simp [NodeID.segmentID, hexString, hexByte]
    refine ⟨b, htext, ?_⟩
    have hb := b.toNat_lt
    rw [segmentNumber, htext, parseHex, hexByte, foldl_cons, foldl_cons, foldl_nil,
      hexValue_hexDigit (by omega), hexValue_hexDigit (by omega)]
    omega

theorem hexOf_eq {n : Nat} (h : n < 100) : Coin.hexOf n = hexNat n := by
  have hall : ∀ n < 100, Coin.hexOf (n : Nat) = hexNat n := by decide
  exact hall n h

/-- `GetValidatorSet` uses one digit below 16, and then names no node's segment. -/
theorem segmentID_eq_validatorSegment (n : NodeID) (height : Int) :
    n.segmentID = validatorSegment height ↔ 16 ≤ segmentNumber n ∧ segmentNumber n = height % 100 := by
  obtain ⟨b, htext, hnumber⟩ := segmentID_eq n
  obtain ⟨k, hk⟩ := Int.eq_ofNat_of_zero_le (Int.emod_nonneg height (by decide : (100 : Int) ≠ 0))
  have hlt : k < 100 := by omega
  rw [htext, validatorSegment, hk, hexOf_eq hlt]
  by_cases h16 : k < 16
  · have hne : hexByte b.toNat ≠ hexNat k := by
      intro heq
      have hlen := congrArg List.length heq
      rw [length_hexNat_of_lt h16] at hlen
      cases hlen
    exact iff_of_false hne (by omega)
  · rw [hexNat_of_le (by omega)]
    constructor
    · intro heq
      have := hexByte_inj b.toNat_lt (by omega) heq
      omega
    · rintro ⟨-, heq⟩
      rw [show b.toNat = k by omega]

theorem inProposerRegion_iff (n : NodeID) (h : 0 ≤ height) :
    inProposerRegion (segmentNumber n) height = true ↔ segmentNumber n % 100 = height % 100 + 1 := by
  obtain ⟨b, -, hnumber⟩ := segmentID_eq n
  rw [inProposerRegion, beq_iff_eq, Int.tmod_eq_emod_of_nonneg h, Int.tmod_eq_emod_of_nonneg (by omega)]

/-- **Whose turn it is**: the test of `AddBlock` agrees with the segment of `GetValidatorSet` exactly for the nodes in
neither, since it holds in the segment after the one of the height. -/
theorem proposer_region_iff (n : NodeID) (height : Int) (h : 0 ≤ height) :
    (inProposerRegion (segmentNumber n) height = true ↔ n.segmentID = validatorSegment height) ↔
      segmentNumber n % 100 ≠ height % 100 + 1 ∧ ¬ (16 ≤ segmentNumber n ∧ segmentNumber n = height % 100) := by
  rw [inProposerRegion_iff n h, segmentID_eq_validatorSegment]
  constructor
  · intro hiff
    by_cases htest : segmentNumber n % 100 = height % 100 + 1
    · have := (hiff.1 htest).2
      omega
    · exact ⟨htest, fun hnamed => htest (hiff.2 hnamed)⟩
  · rintro ⟨htest, hnamed⟩
    exact iff_of_false htest hnamed

/-- A node of a third segment. -/
theorem proposer_region_fifty : (0 : Int) ≤ 21 ∧
    (inProposerRegion (segmentNumber (nodeOf 50)) 21 = true ↔ (nodeOf 50).segmentID = validatorSegment 21) :=
  ⟨by decide, (proposer_region_iff (nodeOf 50) 21 (by decide)).2 (by decide)⟩

/-- The test does not hold for the segment of the block's height, and holds for another one. -/
theorem segments_differ :
    (nodeOf 21).segmentID = validatorSegment 21 ∧ inProposerRegion (segmentNumber (nodeOf 21)) 21 = false ∧
    inProposerRegion (segmentNumber (nodeOf 22)) 21 = true ∧ (nodeOf 22).segmentID ≠ validatorSegment 21 := by
  decide

/-! ## The accounts of a segment -/

def segmentText (height : Int) : Bytes := hexByte (height % 100).toNat

/-- An account whose address starts with the segment of a height. -/
def inSegment (height : Int) (e : Sigma fun _ : Bytes => Coin.Value) : Bool :=
  (Coin.accountKey (segmentText height)).isPrefixOf e.1 && !e.2.isEmpty

def accountsInSegment (J : Coin.Json) (S : Coin.Store) (height : Int) : List Coin.Account :=
  (S.entries.filter (inSegment height)).map fun e => J.unmarshal e.2

def ReadsSegment (J : Coin.Json) (sort : List Coin.Account → List Coin.Account) (S : Coin.Store) (height : Int) :
    Prop :=
  (∃ accs, Coin.getAllAccountsInSegment J S (validatorSegment height) 2 = some accs ∧
    accs.Perm (accountsInSegment J S height)) ∧ (Coin.getValidatorSet J sort S height).isSome

theorem take_of_inSegment {e : Sigma fun _ : Bytes => Coin.Value} (h : inSegment height e = true) :
    e.1.take 2 = Coin.accountPrefix.take 2 := by
  rw [inSegment, Bool.and_eq_true, isPrefixOf_iff_prefix] at h
  obtain ⟨rest, hrest⟩ := h.1
  rw [← hrest]
  rfl

/-- A filter that keeps fewer elements keeps as many only where it keeps the same. -/
theorem filter_perm_map_iff {α β : Type*} {p q : α → Bool} {f : α → β} {l : List α}
    (hpq : ∀ x ∈ l, q x = true → p x = true) :
    ((l.filter p).map f).Perm ((l.filter q).map f) ↔ ∀ x ∈ l, p x = true → q x = true := by
  have hsub : l.filter q = (l.filter p).filter q := by
    rw [List.filter_filter]
    refine filter_congr fun x hx => ?_
    have hx' := hpq x hx
    cases hq : q x
    · simp
    · simp [hx' hq]
  constructor
  · intro hperm x hx hp
    have hlen := hperm.length_eq
    rw [length_map, length_map, hsub] at hlen
    exact (length_filter_eq_length_iff.1 hlen.symm) x (mem_filter.2 ⟨hx, hp⟩)
  · intro hqp
    have heq : l.filter p = l.filter q :=
      filter_congr fun x hx => Bool.eq_iff_iff.2 ⟨hqp x hx, hpq x hx⟩
    rw [heq]

/-- `GetValidatorSet` looks for the accounts of a segment by the first two bytes of their keys, which are the same for
all. -/
theorem readsSegment_iff (J : Coin.Json) (sort : List Coin.Account → List Coin.Account) (S : Coin.Store) (height : Int)
    (h : 0 ≤ height) : ReadsSegment J sort S height ↔
      (∀ e ∈ S.entries, 2 ≤ e.1.length) ∧ (∃ e ∈ S.entries, inSegment height e = true) ∧
        ∀ e ∈ S.entries, e.1.take 2 = Coin.accountPrefix.take 2 → inSegment height e = true := by
  have hfilter := filter_perm_map_iff (p := fun e : Sigma fun _ : Bytes => Coin.Value =>
      decide (e.1.take 2 = Coin.accountPrefix.take 2)) (q := inSegment height) (f := fun e => J.unmarshal e.2)
    (l := S.entries) fun e _ he => decide_eq_true (take_of_inSegment he)
  simp only [decide_eq_true_eq] at hfilter
  have hread : Coin.getAllAccountsInSegment J S (validatorSegment height) 2 =
      if ∀ e ∈ S.entries, 2 ≤ e.1.length then some (Coin.segmentAccounts J S) else none := by
    rw [Coin.getAllAccountsInSegment, Coin.getAll_eq]
    split_ifs
    · rw [map_some, List.map_map]
      rfl
    · rfl
  have hsome : (Coin.getValidatorSet J sort S height).isSome ↔
      (∀ e ∈ S.entries, 2 ≤ e.1.length) ∧ Coin.segmentAccounts J S ≠ [] := by
    rw [Coin.getValidatorSet_eq h]
    split_ifs with hok hold
    · exact iff_of_true rfl hok
    · exact iff_of_true rfl hok
    · exact iff_of_false (by simp) hok
  rw [ReadsSegment, hread, hsome, ← hfilter]
  constructor
  · rintro ⟨⟨accs, hif, hperm⟩, hlong, hne⟩
    rw [if_pos hlong] at hif
    cases hif
    refine ⟨hlong, ?_, hperm⟩
    -- some account is read, and what is read is in the segment
    obtain ⟨acc, hacc⟩ := exists_mem_of_ne_nil _ hne
    obtain ⟨e, he, -⟩ := List.mem_map.1 (hperm.subset hacc)
    exact ⟨e, mem_filter.1 he⟩
  · rintro ⟨hlong, ⟨e, he, hin⟩, hperm⟩
    rw [if_pos hlong]
    refine ⟨⟨_, rfl, hperm⟩, hlong, ne_nil_of_mem (a := J.unmarshal e.2) ?_⟩
    exact List.mem_map.2 ⟨e, mem_filter.2 ⟨he, decide_eq_true (take_of_inSegment hin)⟩, rfl⟩

def oneAccount (text : String) : Coin.Store :=
  (∅ : Coin.Store).setAccount (ascii text) ⟨none, 0, 5, ascii text⟩

theorem readsSegment_twenty : (0 : Int) ≤ 20 ∧ ReadsSegment .faithful Coin.balanceSort (oneAccount "14ab") 20 :=
  ⟨by decide, (readsSegment_iff .faithful Coin.balanceSort (oneAccount "14ab") 20 (by decide)).2 (by decide)⟩

/-- The account of another segment is considered, and so is the chain id; on an empty store it panics. -/
theorem other_segments_read :
    Coin.getAllAccountsInSegment .faithful (oneAccount "99ab") (validatorSegment 20) 2 =
      some [⟨none, 0, 5, ascii "99ab"⟩] ∧
    accountsInSegment .faithful (oneAccount "99ab") 20 = [] ∧
    (Coin.getAllAccountsInSegment .faithful ((oneAccount "14ab").insert (ascii "base/chain_id") (.bytes (ascii "c")))
      (validatorSegment 20) 2).map List.length = some 2 ∧
    Coin.getValidatorSet .faithful Coin.balanceSort ∅ 20 = none := by
  decide

/-! ## The bucket of an address -/

/-- One name for the bucket of an address, in a snapshot transaction `u`, a transfer `i` from it and one `o` to it,
and for the segment of a node; and each block has this bucket. -/
def OneBucket (T : TxJson) (u i o : Bytes) (snapshot height : Int) (n : NodeID) : Prop :=
  ∃ segment, (getBucketId T u snapshot).map Prod.fst = some segment ∧
    (getBucketId T i height).map Prod.fst = some segment ∧ (getBucketId T o height).map Prod.snd = some segment ∧
    n.segmentID = segment ∧
    ∀ P now height txs commit block, makeBlock P T now height txs commit = some block →
      ∃ data, block.data = some data ∧ segment ∈ data.txBuckets.map TxBucket.bucketId

theorem firstTwo_eq_some {bz two : Bytes} : firstTwo bz = some two ↔ 2 ≤ bz.length ∧ bz.take 2 = two := by
  unfold firstTwo
  split_ifs with hlen
  · exact iff_of_false (by simp) (by omega)
  · rw [Option.some.injEq, and_iff_right (by omega)]

section

variable {T : TxJson} {tx : Bytes} {b : UInt8} {bs : Bytes} (hheight : isSnapshotHeight height = false)
include hheight

theorem getBucketId_input (haddr : (T.unmarshalDMC tx).input.address = b :: bs) :
    (getBucketId T tx height).map Prod.fst =
    if (T.unmarshalDMC tx).output.address = [] then none else some (digitSegment (b.toNat / 16)) := by
  unfold getBucketId
  rw [hheight, haddr, firstTwo_text]
  cases (T.unmarshalDMC tx).output.address with
  | nil => rw [T.text_nil]; rfl
  | cons c cs => rw [firstTwo_text]; rfl

theorem getBucketId_output (haddr : (T.unmarshalDMC tx).output.address = b :: bs) :
    (getBucketId T tx height).map Prod.snd =
    if (T.unmarshalDMC tx).input.address = [] then none else some (digitSegment (b.toNat / 16)) := by
  unfold getBucketId
  rw [hheight, haddr, firstTwo_text]
  cases (T.unmarshalDMC tx).input.address with
  | nil => rw [T.text_nil]; rfl
  | cons c cs => rw [firstTwo_text]; rfl

end

/-- Only the digit 3 is the first digit of its own code. -/
theorem hexByte_eq_pair {c d : UInt8} : hexByte c.toNat = [c, d] ↔ c = 51 ∧ d = 51 := by
  have hfirst : ∀ k : Fin 256, hexDigit (k.val / 16) = UInt8.ofFin k → k = 51 := by decide +kernel
  constructor
  · intro h
    simp only [hexByte, List.cons.injEq, and_true] at h
    have hc : c = 51 := by
      have hk := hfirst c.toFin h.1
      rw [← UInt8.ofFin_toFin c, hk]
      rfl
    subst hc
    exact ⟨rfl, h.2.symm⟩
  · rintro ⟨rfl, rfl⟩
    rfl

/-- **One address, one bucket, exactly when** the address starts with the text `33`. -/
theorem oneBucket_iff (T : TxJson) (addr u i o : Bytes) (snapshot height : Int) (n : NodeID)
    (hsnapshot : isSnapshotHeight snapshot = true) (hheight : isSnapshotHeight height = false)
    (hu : (T.unmarshalUTXO u).address = addr) (hi : (T.unmarshalDMC i).input.address = addr)
    (ho : (T.unmarshalDMC o).output.address = addr) (hn : n.ID.head? = addr.head?) :
    OneBucket T u i o snapshot height n ↔
      addr.take 2 = [51, 51] ∧ (T.unmarshalDMC i).output.address ≠ [] ∧ (T.unmarshalDMC o).input.address ≠ [] := by
  obtain ⟨b, bs, haddr⟩ : ∃ b bs, addr = b :: bs := by
    cases addr with
    | nil =>
      rw [head?_nil, head?_eq_none_iff] at hn
      exact absurd (hn ▸ n.length_ID) (by decide)
    | cons b bs => exact ⟨b, bs, rfl⟩
  have hnode : n.segmentID = hexByte b.toNat := by
    obtain ⟨ID, hlen⟩ := n
    cases ID with
    | nil => cases hlen
    | cons c cs =>
      rw [haddr, head?_cons, head?_cons, Option.some.injEq] at hn
      subst hn
      simp [NodeID.segmentID, hexString, hexByte]
  have hutxo : ∀ segment, (getBucketId T u snapshot).map Prod.fst = some segment ↔
      2 ≤ addr.length ∧ addr.take 2 = segment := by
    intro segment
    rw [getBucketId, if_pos hsnapshot, Option.map_map, hu]
    simp only [map_eq_some_iff, firstTwo_eq_some, Function.comp_apply, exists_eq_right]
  unfold OneBucket
  simp only [hutxo, getBucketId_input hheight (hi.trans haddr), getBucketId_output hheight (ho.trans haddr), hnode]
  constructor
  · rintro ⟨segment, ⟨hlen, htwo⟩, hin, hout, rfl, -⟩
    refine ⟨?_, fun hnil => by simp [hnil] at hin, fun hnil => by simp [hnil] at hout⟩
    cases bs with
    | nil =>
      rw [haddr] at hlen
      exact absurd hlen (by simp)
    | cons d ds =>
      rw [haddr] at htwo ⊢
      obtain ⟨rfl, rfl⟩ := hexByte_eq_pair.1 htwo.symm
      rfl
  · rintro ⟨htwo, hin, hout⟩
    have hlen : 2 ≤ addr.length := by
      have := congrArg List.length htwo
      rw [length_take] at this
      exact le_trans this.ge (Nat.min_le_right _ _)
    have hb : b = 51 := by
      rw [haddr] at htwo
      exact (List.cons.inj htwo).1
    subst hb
    refine ⟨[51, 51], ⟨hlen, htwo⟩, by rw [if_neg hin]; rfl, by rw [if_neg hout]; rfl, rfl, ?_⟩
    intro P now height txs commit block hmake
    obtain ⟨data, hdata, hids⟩ := bucketIds_makeBlock hmake
    exact ⟨data, hdata, by rw [hids]; decide⟩

def utxoText (address : String) : Bytes := ascii ("\x7b\"address\":\"" ++ address ++ "\",\"coins\":0\x7d")

/-- The snapshot transaction for one address, and the transfer from it to itself. -/
def TxJson.textsOf (address : String) (addr : Bytes) : TxJson :=
  { TxJson.plain with
    unmarshalUTXO := fun bz => if bz = utxoText address then ⟨addr, 0⟩ else Coin.emptyTxUTXO
    unmarshalDMC := fun bz => if bz = transferText address address then transfer addr addr else Coin.emptyDMCTx }

theorem oneBucket_threes : isSnapshotHeight 101 = true ∧ isSnapshotHeight 2 = false ∧
    OneBucket (TxJson.textsOf "333307" [0x33, 0x33, 7]) (utxoText "333307") (transferText "333307" "333307")
      (transferText "333307" "333307") 101 2 (nodeOf 0x33) :=
  ⟨rfl, rfl, (oneBucket_iff (TxJson.textsOf "333307" [0x33, 0x33, 7]) [0x33, 0x33, 7] (utxoText "333307")
    (transferText "333307" "333307") (transferText "333307" "333307") 101 2 (nodeOf 0x33) rfl rfl rfl rfl rfl rfl).2
    (by decide)⟩

/-- Three names for the address `0506`: its first two bytes, `30` for a transfer, and `05` for a node. An address of
one byte panics. -/
theorem buckets_differ : (getBucketId (TxJson.textsOf "0506" [5, 6]) (utxoText "0506") 101).map Prod.fst = some [5, 6] ∧
    (getBucketId (TxJson.textsOf "0506" [5, 6]) (transferText "0506" "0506") 2).map Prod.fst = some (ascii "30") ∧
    (nodeOf 5).segmentID = ascii "05" ∧ [5, 6] ∉ emptyBuckets.map TxBucket.bucketId ∧
    ascii "05" ∉ emptyBuckets.map TxBucket.bucketId ∧ getBucketId (TxJson.textsOf "05" [5]) (utxoText "05") 101 =
      none := by
  decide

end Demars.Blockchain
