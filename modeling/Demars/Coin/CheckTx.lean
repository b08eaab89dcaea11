import Demars.Coin.App

/-!
# Checking a transaction

`DMCCoinApplication.CheckTx`, which the mempool calls for every transaction of a peer. An error of the decoder is
dropped, so that the zero transaction goes on, and its account and address are used as if they were there.
-/

namespace Demars.Coin

/-- The JSON of transactions, and the capacity of the slice decoded for the address of a snapshot transaction, up to
which Go slices it. -/
structure CheckCodec where
  json : TxJson
  addressCap : Bytes → Nat
  length_le_addressCap : ∀ bz, (json.unmarshalUTXO bz).address.length ≤ addressCap bz

/-- `fmt.Sprintf("%s", address)`. -/
def CheckCodec.text (C : CheckCodec) : Bytes → Bytes := C.json.text

structure ResponseCheckTx where
  code : UInt32 := 0
  bucketIDs : List Bytes := []

/-- `DMCCoinApplication.CheckTx`; `none` is a panic. -/
def checkTx (C : CheckCodec) (J : Json) (S : Store) (txBytes : Bytes) (height : Int) : Option ResponseCheckTx :=
  if txBytes.length > maxTxSize then some { code := 1 }
  else if isSnapshotHeight height then
    let trx := C.json.unmarshalUTXO txBytes
    -- the height of a `nil` account
    (S.getAccount J trx.address).bind fun acc =>
      if acc.height ≠ height - 1 then
        -- the bucket id goes into a local variable
        if C.addressCap txBytes < 2 then none else some {}
      else some {}
  else
    let trs := C.json.unmarshalDMC txBytes
    if trs.input.sequence ≠ height then some { code := 1 }
    else (firstTwo (C.text trs.input.address)).map fun bucketID => { bucketIDs := [bucketID] }

theorem isSome_firstTwo (bz : Bytes) : (firstTwo bz).isSome ↔ 2 ≤ bz.length := by
  unfold firstTwo
  split_ifs with h
  · exact iff_of_false (by simp) (by omega)
  · exact iff_of_true rfl (by omega)

/-- `CheckTx` returns exactly on what is too long, on a snapshot transaction for an account of the height before or
with an address of two bytes, and on a transfer with another sequence number or with an address. -/
theorem checkTx_returns_iff (C : CheckCodec) (J : Json) (S : Store) (txBytes : Bytes) (height : Int) :
    (checkTx C J S txBytes height).isSome ↔
      maxTxSize < txBytes.length ∨
      (isSnapshotHeight height = true ∧ ∃ acc, S.getAccount J (C.json.unmarshalUTXO txBytes).address = some acc ∧
        (acc.height = height - 1 ∨ 2 ≤ C.addressCap txBytes)) ∨
      (isSnapshotHeight height = false ∧ ((C.json.unmarshalDMC txBytes).input.sequence ≠ height ∨
        2 ≤ (C.text (C.json.unmarshalDMC txBytes).input.address).length)) := by
  unfold checkTx
  by_cases hlong : txBytes.length > maxTxSize
  · rw [if_pos hlong]
    exact iff_of_true rfl (.inl hlong)
  rw [if_neg hlong, or_iff_right hlong]
  cases hsnap : isSnapshotHeight height with
  | true =>
    simp only [if_true, true_and, reduceCtorEq, false_and, or_false]
    cases hacc : S.getAccount J (C.json.unmarshalUTXO txBytes).address with
    | none => simp
    | some acc =>
      simp only [Option.bind_some, Option.some.injEq, exists_eq_left']
      split_ifs with hheight hcap
      · exact iff_of_false (by simp) (by omega)
      · exact iff_of_true rfl (.inr (by omega))
      · exact iff_of_true rfl (.inl (not_not.1 hheight))
  | false =>
    simp only [Bool.false_eq_true, if_false, false_and, false_or, true_and]
    split_ifs with hseq
    · exact iff_of_true rfl (.inl hseq)
    · rw [Option.isSome_map, isSome_firstTwo, or_iff_right hseq]

def bareTransfer : Bytes := ascii "\x7b\"Input\":\x7b\"sequence\":2\x7d\x7d"

/-- JSON that reads this transfer; slices are as long as they are. -/
def CheckCodec.bare : CheckCodec where
  json := { TxJson.plain with
    unmarshalUTXO := fun _ => emptyTxUTXO
    unmarshalDMC := fun bz =>
      if bz = bareTransfer then { emptyDMCTx with input := { emptyDMCTx.input with sequence := 2 } } else emptyDMCTx }
  addressCap := fun _ => 0
  length_le_addressCap := fun _ => le_rfl

/-- Two texts that stop a node: a transfer without an address at height 2, and the empty text at height 101. -/
theorem checkTx_panics : checkTx .bare .faithful ∅ bareTransfer 2 = none ∧ checkTx .bare .faithful ∅ [] 101 = none := by
  decide

end Demars.Coin
