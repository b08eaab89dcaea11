import Demars.Coin.Conserve

/-!
# Histories of transactions

`encoding/json` cannot fill an interface with methods, such as `Account.PubKey`, so an account is always read with
a `nil` key (`Json.NilKeys`). `validateInputAdvanced` calls that key, and the panic comes before every write.
-/

namespace Demars.Coin

open List

section

variable (P : Primitives) (J : Json) (W : Wire)

def run (S : Store) (txs : List (Tx × Int)) : Store := txs.foldl (fun S e => afterTx P J W S e.1 e.2) S

/-- The store before the transaction with index `k`. -/
def storeAt (S : Store) (txs : List (Tx × Int)) (k : Nat) : Store := run P J W S (txs.take k)

def ChangesAt (S : Store) (txs : List (Tx × Int)) (k : Nat) : Prop :=
  ¬ Unchanged J (storeAt P J W S txs k) (storeAt P J W S txs (k + 1))

/-- The transaction with index `k` is a transfer that was signed alike at `j`. -/
def Repeats (txs : List (Tx × Int)) (j k : Nat) (tx : DMCTx) : Prop :=
  j < k ∧ (∃ h, txs[k]? = some (.dmc tx, h)) ∧ ∃ tx' h', txs[j]? = some (.dmc tx', h') ∧
    tx'.signBytes W = tx.signBytes W ∧ tx'.input.signature = tx.input.signature

/-- A signed `DMCTx` changes balances at most once. -/
def NoReplay (S : Store) (txs : List (Tx × Int)) : Prop :=
  ∀ j k tx, Repeats W txs j k tx → ChangesAt P J W S txs j → ¬ ChangesAt P J W S txs k

end

/-- The key of an account reads back `nil`, whatever was stored. -/
def Json.NilKeys (J : Json) : Prop := ∀ v, (J.unmarshal v).pubKey = none

/-- The fields that `encoding/json` reads back. -/
def Json.nilKeys : Json where
  unmarshal v := { Json.faithful.unmarshal v with pubKey := none }
  balance_unmarshal _ := rfl

variable {P : Primitives} {J : Json} {W : Wire} {S : Store} {txs : List (Tx × Int)}

/-- A transfer is checked against a key that was read from the store. -/
theorem not_accepts_of_nilKeys (hJ : J.NilKeys) (tx : DMCTx) : ¬ accepts P J W S tx := by
  rintro ⟨-, -, -, hadv, -⟩
  obtain ⟨-, key, hkey, -⟩ := validateInputAdvanced_eq_one.1 hadv
  have hnone : (outAccount J S tx).pubKey = none := by
    unfold outAccount Store.getAccount
    cases S.lookup (accountKey tx.output.address) with
    | none => rfl
    | some v => cases hv : v.isEmpty <;> simp [hv, hJ v, emptyAccount]
  rw [hnone] at hkey
  cases hkey

theorem storeAt_succ {k : Nat} {tx : Tx} {height : Int} (h : txs[k]? = some (tx, height)) :
    storeAt P J W S txs (k + 1) = afterTx P J W (storeAt P J W S txs k) tx height := by
  rw [storeAt, take_add_one, h, run, foldl_append]
  rfl

theorem not_changesAt_dmc (hJ : J.NilKeys) {k : Nat} {tx : DMCTx} {height : Int}
    (h : txs[k]? = some (.dmc tx, height)) :
    ¬ ChangesAt P J W S txs k := by
  rw [ChangesAt, storeAt_succ h, afterTx_dmc_of_not_accepts (not_accepts_of_nilKeys hJ tx)]
  simp [Unchanged]

/-- **No replay**: whatever is stored and executed, the balances change at most once for a signed transfer. -/
theorem noReplay (P : Primitives) {J : Json} (W : Wire) (hJ : J.NilKeys) (S : Store) (txs : List (Tx × Int)) :
    NoReplay P J W S txs := by
  rintro j k tx ⟨-, ⟨h, hk⟩, -⟩ -
  exact not_changesAt_dmc hJ hk

/-- A transfer that comes twice, with accounts that hold enough coins. -/
theorem payTx_not_replayed : Json.nilKeys.NilKeys ∧
    Repeats .plain [(.dmc payTx, 5), (.utxo { address := payee, balance := 90 }, 5), (.dmc payTx, 6)] 0 2 payTx ∧
    NoReplay .transparent .nilKeys .plain payStore
      [(.dmc payTx, 5), (.utxo { address := payee, balance := 90 }, 5), (.dmc payTx, 6)] :=
  ⟨fun _ => rfl, ⟨by decide, ⟨6, rfl⟩, payTx, 5, rfl, rfl, rfl⟩, noReplay .transparent .plain (fun _ => rfl) _ _⟩

end Demars.Coin
