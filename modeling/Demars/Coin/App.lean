import Demars.Coin.Exec
import Demars.Types.Block

/-!
# The coin application

`dmccoin.DMCCoinApplication` as the consensus engine calls it. `accountBalances` is `GetValidatorSet` at a negative
height, which answers with all accounts.
-/

namespace Demars.Coin

def maxTxSize : Nat := 10240

section

variable (P : Primitives) (J : Json) (W : Wire)

/-- `DeliverTx`. A `nil` transaction panics in `ExecTx`, whose response is dropped. -/
def deliverTx (S : Store) (txBytes : Bytes) (height : Int) : Option (Store × ResponseDeliverTx) :=
  if txBytes.length > maxTxSize then some (S, { code := 1 })
  else match W.readTx txBytes with
    | none => some (S, { code := 1 })
    | some none => none
    | some (some tx) => (execTx P J W S tx false height).map fun res => (res.1, {})

/-- `DeliverBucketedTx`. The two transactions it works on are declared and never read. -/
def deliverBucketedTx (S : Store) (txBytes : Bytes) (height : Int) (bucketID : Bytes) :
    Option (Store × ResponseDeliverTx) :=
  if txBytes.length > maxTxSize then some (S, { code := 1 })
  else
    let trs := emptyDMCTx
    let trx := emptyTxUTXO
    let S := if isSnapshotHeight height then
        S.setAccount trs.input.address { pubKey := none, height, balance := trx.balance, address := [] }
      else S
    match firstTwo trs.output.address with
    | none => none
    | some segment =>
      if segment = bucketID then
        (S.getAccount J trs.output.address).map fun acc =>
          (S.setAccount trs.output.address
            { pubKey := none, height, balance := acc.balance - trs.output.coins, address := [] }, {})
      else some (S, {})

/-- `GetAllAccounts`: every value of the store read as an account. -/
def getAllAccounts (S : Store) : List Account := S.entries.map fun e => J.unmarshal e.2

/-- An `abci.Validator` as `GetValidatorSet` fills it. -/
structure ValidatorEntry where
  address : Bytes
  power : Int
deriving DecidableEq

/-- `GetValidatorSet` at a negative height: all balances as powers; without accounts it panics. -/
def accountBalances (S : Store) : Option (List ValidatorEntry) :=
  match getAllAccounts J S with
  | [] => none
  | accounts => some (accounts.map fun acc => ⟨acc.address, Machine.wrap64 acc.balance.toNat⟩)

/-- The balance stored at an address, if there is an account. -/
def Store.balance? (S : Store) (addr : Bytes) : Option UInt64 := (S.getAccount J addr).map Account.balance

end

variable {P : Primitives} {J : Json} {W : Wire} {S : Store} {txBytes : Bytes} {height : Int}

theorem deliverTx_of_head {b : UInt8} (h : txBytes.head? = some b) (hb : 3 < b) :
    deliverTx P J W S txBytes height = some (S, { code := 1 }) := by
  unfold deliverTx
  split_ifs
  · rfl
  cases hr : W.readTx txBytes with
  | none => rfl
  | some tx =>
    exfalso
    have hne : ∀ n : UInt8, n ≤ 3 → txBytes.head? ≠ some n := fun n hn he => by
      rw [h] at he
      cases he
      exact absurd hb (by simpa using hn)
    cases tx with
    | none => exact hne 0 (by decide) (W.readTx_nil _ hr)
    | some tx =>
      rcases W.readTx_typeByte _ _ hr with h1 | h2 | h3
      · exact hne 1 (by decide) h1
      · exact hne 2 (by decide) h2
      · exact hne 3 (by decide) h3

theorem deliverBucketedTx_eq (bucketID : Bytes) : deliverBucketedTx J S txBytes height bucketID =
    if txBytes.length > maxTxSize then some (S, { code := 1 }) else none := rfl

end Demars.Coin
