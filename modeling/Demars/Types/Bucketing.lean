import Demars.Types.Block

/-!
# How transactions fall into buckets

`MakeBlock` puts a transaction into every bucket whose id is the segment of one of its addresses; there are 255,
with the ids `0` to `fe`. The segment of a transfer is the code of the first digit of an address, `30` to `39` or
`41` to `46`. The address of a snapshot transaction is taken for the id itself, and may have none.
-/

namespace Demars

open List Option

/-! ## Bucket ids -/

def bucketIds : List Bytes := (List.range 255).map hexNat

def hexByte (n : Nat) : Bytes := [hexDigit (n / 16), hexDigit (n % 16)]

variable {n : Nat}

theorem hexDigit_inj {m : Nat} (hn : n < 16) (hm : m < 16) (h : hexDigit n = hexDigit m) : n = m := by
  have hall : ∀ n < 16, ∀ m < 16, hexDigit n = hexDigit m → n = m := by decide
  exact hall n hn m hm h

theorem hexByte_inj {m : Nat} (hn : n < 256) (hm : m < 256) (h : hexByte n = hexByte m) : n = m := by
  simp only [hexByte, List.cons.injEq, and_true] at h
  have hhigh := hexDigit_inj (by omega) (by omega) h.1
  have hlow := hexDigit_inj (by omega) (by omega) h.2
  omega

theorem hexNat_of_le (h : 16 ≤ n) : hexNat n = hexByte n := by
  rw [hexNat, if_neg (by omega), hexByte]

theorem length_hexNat_of_lt (h : n < 16) : (hexNat n).length = 1 := by
  rw [hexNat, if_pos h]
  rfl

theorem hexNat_inj {m : Nat} (hn : n < 256) (hm : m < 256) (h : hexNat n = hexNat m) : n = m := by
  have hlen := congrArg List.length h
  by_cases hn16 : n < 16 <;> by_cases hm16 : m < 16
  · rw [hexNat, hexNat, if_pos hn16, if_pos hm16] at h
    exact hexDigit_inj hn16 hm16 (List.cons.inj h).1
  · rw [length_hexNat_of_lt hn16, hexNat_of_le (by omega)] at hlen
    cases hlen
  · rw [length_hexNat_of_lt hm16, hexNat_of_le (by omega)] at hlen
    cases hlen
  · rw [hexNat_of_le (by omega), hexNat_of_le (by omega)] at h
    exact hexByte_inj hn hm h

theorem nodup_bucketIds : bucketIds.Nodup := by
  apply List.Nodup.map_on _ nodup_range
  intro n hn m hm h
  rw [mem_range] at hn hm
  exact hexNat_inj (by omega) (by omega) h

theorem mem_bucketIds_of_length {id : Bytes} (hid : id.length = 2) :
    id ∈ bucketIds ↔ ∃ n, 16 ≤ n ∧ n < 255 ∧ hexByte n = id := by
  simp only [bucketIds, List.mem_map, mem_range]
  constructor
  · rintro ⟨n, hn, rfl⟩
    have h16 : 16 ≤ n := by
      by_contra hlt
      rw [length_hexNat_of_lt (by omega)] at hid
      cases hid
    exact ⟨n, h16, hn, (hexNat_of_le h16).symm⟩
  · rintro ⟨n, h16, hn, rfl⟩
    exact ⟨n, hn, hexNat_of_le h16⟩

theorem nil_not_mem_bucketIds : [] ∉ bucketIds := by
  simp only [bucketIds, List.mem_map, not_exists, not_and]
  intro n _ h
  unfold hexNat at h
  split_ifs at h

/-! ## Where a transaction lands -/

def isHexDigit (c : UInt8) : Bool := (48 ≤ c && c ≤ 57) || (97 ≤ c && c ≤ 102)

/-- Two digits of `%x` that are the id of a bucket. -/
def isBucketId (c d : UInt8) : Bool := isHexDigit c && isHexDigit d && c ≠ 48 && !(c == 102 && d == 102)

/-- The number of buckets that a transaction goes to; `none` where an address is too short. -/
def landings (T : TxJson) (height : Int) (tx : Bytes) : Option Nat :=
  if isSnapshotHeight height then
    match (T.unmarshalUTXO tx).address with
    | c :: d :: _ => some (if isBucketId c d then 1 else 0)
    | _ => none
  else match (T.unmarshalDMC tx).input.address, (T.unmarshalDMC tx).output.address with
    | a :: _, b :: _ => some (if a.toNat / 16 = b.toNat / 16 then 1 else 2)
    | _, _ => none

/-- The segment of the addresses with a first digit. -/
def digitSegment (n : Nat) : Bytes := hexByte (upperDigit n).toNat

theorem digitSegment_mem (h : n < 16) : digitSegment n ∈ bucketIds := by
  have hall : ∀ n < 16, 16 ≤ (upperDigit n).toNat ∧ (upperDigit n).toNat < 255 := by decide
  exact (mem_bucketIds_of_length rfl).2 ⟨_, (hall n h).1, (hall n h).2, rfl⟩

theorem digitSegment_inj {m : Nat} (hn : n < 16) (hm : m < 16) : digitSegment n = digitSegment m ↔ n = m := by
  have hall : ∀ n < 16, ∀ m < 16, digitSegment n = digitSegment m → n = m := by decide
  exact ⟨hall n hn m hm, congrArg _⟩

theorem firstTwo_text (T : TxJson) (b : UInt8) (bz : Bytes) :
    firstTwo (hexString (T.text (b :: bz))) = some (digitSegment (b.toNat / 16)) := by
  obtain ⟨rest, hrest⟩ := head?_eq_some_iff.1 (T.head_text b bz)
  rw [hrest]
  rfl

theorem exists_hexDigit {c : UInt8} (h : isHexDigit c = true) : ∃ n < 16, hexDigit n = c := by
  have hall : ∀ k : Fin 256, isHexDigit (UInt8.ofFin k) = true → ∃ n < 16, hexDigit n = UInt8.ofFin k := by
    decide +kernel
  exact hall c.toFin h

theorem pair_mem_bucketIds (c d : UInt8) : [c, d] ∈ bucketIds ↔ isBucketId c d = true := by
  rw [mem_bucketIds_of_length rfl]
  have hdigits : ∀ n < 16, ∀ m < 16, isBucketId (hexDigit n) (hexDigit m) = true ↔ 16 ≤ 16 * n + m ∧
    16 * n + m < 255 := by
    decide
  constructor
  · rintro ⟨n, h16, hn, heq⟩
    simp only [hexByte, List.cons.injEq, and_true] at heq
    rw [← heq.1, ← heq.2, hdigits _ (by omega) _ (by omega)]
    omega
  · intro h
    have hc : isHexDigit c = true := by simp only [isBucketId, Bool.and_eq_true] at h; exact h.1.1.1
    have hd : isHexDigit d = true := by simp only [isBucketId, Bool.and_eq_true] at h; exact h.1.1.2
    obtain ⟨n, hn, rfl⟩ := exists_hexDigit hc
    obtain ⟨m, hm, rfl⟩ := exists_hexDigit hd
    rw [hdigits n hn m hm] at h
    refine ⟨16 * n + m, h.1, h.2, ?_⟩
    rw [hexByte, show (16 * n + m) / 16 = n by omega, show (16 * n + m) % 16 = m by omega]

/-- In a list without repetitions, how many elements are one of two values. -/
theorem countP_eq_or {α : Type*} [DecidableEq α] (a b : α) : ∀ {l : List α}, l.Nodup →
    l.countP (fun x => decide (x = a ∨ x = b)) = (if a ∈ l then 1 else 0) + if b ∈ l ∧ b ≠ a then 1 else 0
  | [], _ => by simp
  | x :: l, h => by
    rw [nodup_cons] at h
    rw [countP_cons, countP_eq_or a b h.2]
    by_cases hxa : x = a
    · subst hxa
      by_cases hbx : b = x
      · subst hbx
        simp [h.1]
      · simp [h.1, hbx]
        omega
    · by_cases hxb : x = b
      · subst hxb
        simp [h.1, hxa, Ne.symm hxa]
      · simp [hxa, hxb, Ne.symm hxa, Ne.symm hxb]

def segmentCount (segments : Bytes × Bytes) : Nat :=
  bucketIds.countP fun id => decide (id = segments.1 ∨ id = segments.2)

theorem landings_eq (T : TxJson) (height : Int) (tx : Bytes) :
    landings T height tx = (getBucketId T tx height).map segmentCount := by
  unfold landings getBucketId
  split_ifs with hsnap
  · cases (T.unmarshalUTXO tx).address with
    | nil => rfl
    | cons c rest =>
      cases rest with
      | nil => rfl
      | cons d rest =>
        have htwo : firstTwo (c :: d :: rest) = some [c, d] := rfl
        simp only [htwo, map_some, segmentCount, countP_eq_or [c, d] [] nodup_bucketIds,
          pair_mem_bucketIds, nil_not_mem_bucketIds, false_and, if_false, Nat.add_zero]
  · have hnone : firstTwo (hexString (T.text [])) = none := by rw [T.text_nil]; rfl
    cases (T.unmarshalDMC tx).input.address with
    | nil => rw [hnone]; rfl
    | cons a as =>
      cases (T.unmarshalDMC tx).output.address with
      | nil => rw [hnone]; simp
      | cons b bs =>
        have ha : a.toNat / 16 < 16 := by have := a.toNat_lt; omega
        have hb : b.toNat / 16 < 16 := by have := b.toNat_lt; omega
        simp only [firstTwo_text, bind_some, map_some, segmentCount, countP_eq_or _ _ nodup_bucketIds,
          digitSegment_mem ha, digitSegment_mem hb, ne_eq, digitSegment_inj hb ha, true_and, if_true]
        by_cases hab : a.toNat / 16 = b.toNat / 16
        · simp [hab]
        · simp [hab, Ne.symm hab]

/-! ## The loop of `MakeBlock` -/

theorem bucketId_putTx (segments : Bytes × Bytes) (tx : Bytes) (bucket : TxBucket) :
    (putTx segments tx bucket).bucketId = bucket.bucketId := by
  unfold putTx
  split_ifs <;> rfl

variable {T : TxJson} {height : Int}

theorem bucketLoop_ids : ∀ {txs : List Bytes} {buckets buckets' : List TxBucket},
    bucketLoop T height txs buckets = some buckets' → buckets'.map TxBucket.bucketId = buckets.map TxBucket.bucketId
  | [], _, _, h => by
    cases h
    rfl
  | tx :: txs, buckets, buckets', h => by
    obtain ⟨segments, _, hloop⟩ := bind_eq_some_iff.1 h
    rw [bucketLoop_ids hloop, List.map_map]
    exact map_congr_left fun bucket _ => bucketId_putTx segments tx bucket

theorem countP_putTx (p : Bytes → Bool) (segments : Bytes × Bytes) (tx : Bytes) : ∀ buckets : List TxBucket,
    ((buckets.map (putTx segments tx)).flatMap TxBucket.txs).countP p = (buckets.flatMap TxBucket.txs).countP p +
        if p tx then (buckets.map TxBucket.bucketId).countP fun id => decide (id = segments.1 ∨ id = segments.2) else 0
  | [] => by simp
  | bucket :: buckets => by
    have ih := countP_putTx p segments tx buckets
    rw [map_cons, flatMap_cons, flatMap_cons, countP_append, countP_append, ih, map_cons, countP_cons]
    by_cases hmatch : bucket.bucketId = segments.1 ∨ bucket.bucketId = segments.2
    · have hput : (putTx segments tx bucket).txs = bucket.txs ++ [tx] := by rw [putTx, if_pos hmatch]
      rw [hput, countP_append]
      by_cases hp : p tx = true
      · simp only [hp, hmatch, countP_singleton, decide_true, if_true]
        omega
      · simp [hp]
    · have hput : (putTx segments tx bucket).txs = bucket.txs := by rw [putTx, if_neg hmatch]
      rw [hput]
      by_cases hp : p tx = true
      · simp only [hp, hmatch, decide_false, Bool.false_eq_true, if_true, if_false]
        omega
      · simp [hp]

theorem countP_bucketLoop (p : Bytes → Bool) :
    ∀ {txs : List Bytes} {buckets buckets' : List TxBucket}, buckets.map TxBucket.bucketId = bucketIds →
    bucketLoop T height txs buckets = some buckets' → (buckets'.flatMap TxBucket.txs).countP p =
      (buckets.flatMap TxBucket.txs).countP p +
        (txs.map fun tx => if p tx then (landings T height tx).getD 0 else 0).sum
  | [], buckets, buckets', _, h => by
    cases h
    simp
  | tx :: txs, buckets, buckets', hids, h => by
    obtain ⟨segments, hseg, hloop⟩ := bind_eq_some_iff.1 h
    have hids' : (buckets.map (putTx segments tx)).map TxBucket.bucketId = bucketIds := by
      rw [List.map_map, ← hids]
      exact map_congr_left fun bucket _ => bucketId_putTx segments tx bucket
    have hland : landings T height tx = some (segmentCount segments) := by rw [landings_eq, hseg, map_some]
    rw [countP_bucketLoop p hids' hloop, countP_putTx, hids, map_cons, sum_cons, hland, getD_some]
    rw [segmentCount, Nat.add_assoc]

theorem bucketLoop_ne_none : ∀ {txs : List Bytes} {buckets : List TxBucket},
    bucketLoop T height txs buckets ≠ none ↔ ∀ tx ∈ txs, landings T height tx ≠ none
  | [], _ => by simp [bucketLoop]
  | tx :: txs, buckets => by
    rw [bucketLoop, forall_mem_cons, landings_eq]
    cases getBucketId T tx height with
    | none => simp
    | some segments =>
      rw [bind_some, bucketLoop_ne_none]
      simp

theorem emptyBuckets_ids : emptyBuckets.map TxBucket.bucketId = bucketIds := by
  rw [emptyBuckets, List.map_map]
  rfl

theorem emptyBuckets_txs : emptyBuckets.flatMap TxBucket.txs = [] := by
  rw [emptyBuckets]
  simp

theorem totalTxsInBuckets_eq (buckets : List TxBucket) :
    totalTxsInBuckets (some ⟨buckets⟩) = ((buckets.flatMap TxBucket.txs).length : Int) := by
  rw [totalTxsInBuckets, length_flatMap]
  induction buckets with
  | nil => rfl
  | cons bucket buckets ih =>
    simp only [map_cons, sum_cons] at ih ⊢
    rw [ih, Nat.cast_add]

/-! ## Made blocks -/

/-- Counts that are all at most one, or all at least one, add up to their number only if all are one. -/
theorem sum_eq_length_iff {α : Type*} {f : α → Nat} {l : List α} (h : (∀ x ∈ l, f x ≤ 1) ∨ ∀ x ∈ l, 1 ≤ f x) :
    (l.map f).sum = l.length ↔ ∀ x ∈ l, f x = 1 := by
  induction l with
  | nil => simp
  | cons x l ih =>
    simp only [forall_mem_cons] at h ⊢
    rw [map_cons, sum_cons, length_cons, ← ih (h.imp And.right And.right)]
    rcases h with ⟨hx, hl⟩ | ⟨hx, hl⟩
    · have := sum_le_card_nsmul (l.map f) 1 (by simpa using hl)
      simp only [length_map, smul_eq_mul, mul_one] at this
      omega
    · have := card_nsmul_le_sum (l.map f) 1 (by simpa using hl)
      simp only [length_map, smul_eq_mul, mul_one] at this
      omega

/-- A snapshot transaction goes to one bucket at most, a transfer to one at least. -/
theorem landings_bound (T : TxJson) (height : Int) : (∀ tx n, landings T height tx = some n → n ≤ 1) ∨
    ∀ tx n, landings T height tx = some n → 1 ≤ n := by
  unfold landings
  cases isSnapshotHeight height with
  | true =>
    refine .inl fun tx n h => ?_
    simp only [if_true] at h
    split at h
    · cases h
      split_ifs <;> omega
    · cases h
  | false =>
    refine .inr fun tx n h => ?_
    simp only [Bool.false_eq_true, if_false] at h
    split at h
    · cases h
      split_ifs <;> omega
    · cases h

theorem sum_landings_iff {txs : List Bytes} (hsome : ∀ tx ∈ txs, landings T height tx ≠ none) :
    (txs.map fun tx => (landings T height tx).getD 0).sum = txs.length ↔ ∀ tx ∈ txs, landings T height tx = some 1 := by
  have hget : ∀ tx ∈ txs, landings T height tx = some ((landings T height tx).getD 0) := fun tx htx => by
    obtain ⟨n, hn⟩ := ne_none_iff_exists'.1 (hsome tx htx)
    rw [hn, getD_some]
  rw [sum_eq_length_iff ((landings_bound T height).imp (fun h tx htx => h tx _ (hget tx htx)) fun h tx htx =>
    h tx _ (hget tx htx))]
  refine forall₂_congr fun tx htx => ?_
  rw [hget tx htx, getD_some, Option.some.injEq]

section

variable {P : Primitives} {T : TxJson} {now height : Int} {txs : List Bytes} {commit : Commit} {block : Block}

theorem makeBlock_ne_none : makeBlock P T now height txs commit ≠ none ↔ ∀ tx ∈ txs, landings T height tx ≠ none := by
  rw [makeBlock, ne_eq, map_eq_none_iff]
  exact bucketLoop_ne_none

section

variable (h : makeBlock P T now height txs commit = some block)
include h

theorem bucketIds_makeBlock : ∃ data, block.data = some data ∧ data.txBuckets.map TxBucket.bucketId = bucketIds := by
  obtain ⟨buckets, hloop, rfl⟩ := map_eq_some_iff.1 h
  exact ⟨⟨buckets⟩, rfl, by rw [bucketLoop_ids hloop, emptyBuckets_ids]⟩

theorem countP_txs_makeBlock (p : Bytes → Bool) :
    block.txs.countP p = (txs.map fun tx => if p tx then (landings T height tx).getD 0 else 0).sum := by
  obtain ⟨buckets, hloop, rfl⟩ := map_eq_some_iff.1 h
  show (buckets.flatMap TxBucket.txs).countP p = _
  rw [countP_bucketLoop p emptyBuckets_ids hloop, emptyBuckets_txs, countP_nil, Nat.zero_add]

theorem length_txs_makeBlock : block.txs.length = (txs.map fun tx => (landings T height tx).getD 0).sum := by
  have hcount := countP_txs_makeBlock h fun _ => true
  simpa using hcount

end

theorem validateBasic_makeBlock (hcommit : commit.validateBasic = .ok ())
    (h : makeBlock P T now height txs commit = some block) :
    block.validateBasic P = some (.ok ()) ↔ block.txs.length = txs.length := by
  obtain ⟨buckets, -, rfl⟩ := map_eq_some_iff.1 h
  simp only [Block.validateBasic, totalTxsInBuckets_eq buckets, hcommit, map_some]
  show _ ↔ (buckets.flatMap TxBucket.txs).length = txs.length
  generalize (buckets.flatMap TxBucket.txs).length = n
  by_cases hlen : n = txs.length
  · simp [hlen]
  · have hne : (txs.length : Int) ≠ (n : Int) := by
      intro heq
      exact hlen (by exact_mod_cast heq.symm)
    simp [hlen, hne]

end

/-- **A made block is valid, exactly when** each transaction lands in one bucket. -/
theorem validateBasic_makeBlock_iff (P : Primitives) (T : TxJson) (now height : Int) (txs : List Bytes)
    (commit : Commit) (hcommit : commit.validateBasic = .ok ()) :
    (∃ block, makeBlock P T now height txs commit = some block ∧ block.validateBasic P = some (.ok ())) ↔
      ∀ tx ∈ txs, landings T height tx = some 1 := by
  constructor
  · rintro ⟨block, hmake, hvalid⟩
    have hlen := (validateBasic_makeBlock hcommit hmake).1 hvalid
    rw [length_txs_makeBlock hmake] at hlen
    exact (sum_landings_iff (makeBlock_ne_none.1 (by rw [hmake]; exact some_ne_none _))).1 hlen
  · intro hone
    have hsome : ∀ tx ∈ txs, landings T height tx ≠ none := fun tx htx => by simp [hone tx htx]
    obtain ⟨block, hmake⟩ :=
      ne_none_iff_exists'.1 (makeBlock_ne_none.2 hsome : makeBlock P T now height txs commit ≠ none)
    refine ⟨block, hmake, (validateBasic_makeBlock hcommit hmake).2 ?_⟩
    rw [length_txs_makeBlock hmake, (sum_landings_iff hsome).2 hone]

/-! A transfer between two segments is put into two buckets and counted once. -/

def transferText (input output : String) : Bytes :=
  ascii ("\x7b\"Input\":\x7b\"address\":\"" ++ input ++ "\"\x7d,\"Output\":\x7b\"address\":\"" ++ output ++
    "\"\x7d\x7d")

def transfer (input output : Bytes) : Coin.DMCTx :=
  { Coin.emptyDMCTx with
    input := { Coin.emptyDMCTx.input with address := input }, output :=
      { Coin.emptyDMCTx.output with address := output } }

/-- JSON that reads the transfers between one-byte addresses used here. -/
def TxJson.transfers : TxJson :=
  { TxJson.plain with unmarshalDMC := fun bz =>
      if bz = transferText "12" "34" then transfer [0x12] [0x34]
      else if bz = transferText "12" "15" then transfer [0x12] [0x15]
      else Coin.emptyDMCTx }

def someCommit : Commit := ⟨⟨[7], ⟨1, [8]⟩⟩, [none]⟩

/-- A transfer between addresses with one first digit. -/
theorem validateBasic_makeBlock_within :
    someCommit.validateBasic = .ok () ∧ ∃ block,
      makeBlock .transparent .transfers 0 2 [transferText "12" "15"] someCommit = some block ∧
        block.validateBasic .transparent = some (.ok ()) :=
  ⟨rfl, (validateBasic_makeBlock_iff .transparent .transfers 0 2 _ someCommit rfl).2 (by decide +kernel)⟩

/-- A block of one transfer between two segments is invalid, and so is one of a snapshot transaction whose address is
the id of no bucket. -/
theorem transfer_makes_invalid_block :
    someCommit.validateBasic = .ok () ∧
      (makeBlock .transparent .transfers 0 2 [transferText "12" "34"] someCommit).bind (·.validateBasic .transparent) =
        some (.error (.numTxs 2 1)) ∧
      (makeBlock .transparent .plain 0 101 [[123, 0, 5, 6]] someCommit).bind (·.validateBasic .transparent) =
        some (.error (.numTxs 0 1)) := by
  decide +kernel

theorem sum_map_ite_eq {α : Type*} [DecidableEq α] [BEq α] [LawfulBEq α] (f : α → Nat) (a : α) : ∀ l : List α,
    (l.map fun x => if x = a then f x else 0).sum = l.count a * f a
  | [] => by simp
  | x :: l => by
    rw [map_cons, sum_cons, sum_map_ite_eq f a l, count_cons]
    by_cases hx : x = a
    · subst hx
      simp
      ring
    · simp [hx]

theorem perm_txs_makeBlock_iff {P : Primitives} {now : Int} {txs : List Bytes} {commit : Commit}
    {block : Block} (hnodup : txs.Nodup) (h : makeBlock P T now height txs commit = some block) :
    block.txs.Perm txs ↔ ∀ tx ∈ txs, landings T height tx = some 1 := by
  have hcount : ∀ tx, block.txs.count tx = txs.count tx * (landings T height tx).getD 0 := by
    intro tx
    have hsum := countP_txs_makeBlock h (· == tx)
    simp only [beq_iff_eq] at hsum
    exact hsum.trans (sum_map_ite_eq (fun x => (landings T height x).getD 0) tx txs)
  have hsome := makeBlock_ne_none.1 (by rw [h]; exact some_ne_none _)
  rw [perm_iff_count]
  constructor
  · intro hperm tx htx
    have hone := hperm tx
    rw [hcount, count_eq_one_of_mem hnodup htx, Nat.one_mul] at hone
    obtain ⟨n, hn⟩ := ne_none_iff_exists'.1 (hsome tx htx)
    rw [hn, getD_some] at hone
    rw [hn, hone]
  · intro hone tx
    rw [hcount]
    by_cases htx : tx ∈ txs
    · rw [hone tx htx, getD_some, Nat.mul_one]
    · rw [count_eq_zero_of_not_mem htx, Nat.zero_mul]

end Demars
