import Demars.Coin.Exec

/-!
# What a transfer does to the money

`Unchanged` and `Transferred` are the two outcomes a transfer should have. An accepted `DMCTx` never has the second
one (`accepts.not_transferred`), because both writes are made from the output's account.
-/

namespace Demars.Coin

section

variable (P : Primitives) (J : Json) (W : Wire)

def Unchanged (S S' : Store) : Prop := ∀ a, S'.balanceOf J a = S.balanceOf J a

/-- The balances after a transfer. -/
structure Transferred (S S' : Store) (tx : DMCTx) : Prop where
  debit : tx.input.address ≠ tx.output.address →
    (S'.balanceOf J tx.input.address).toNat + tx.input.coins.toNat = (S.balanceOf J tx.input.address).toNat
  credit : tx.input.address ≠ tx.output.address →
    (S'.balanceOf J tx.output.address).toNat = (S.balanceOf J tx.output.address).toNat + tx.output.coins.toNat
  net : tx.input.address = tx.output.address →
    (S'.balanceOf J tx.input.address).toNat + tx.input.coins.toNat =
      (S.balanceOf J tx.input.address).toNat + tx.output.coins.toNat
  other : ∀ a, a ≠ tx.input.address → a ≠ tx.output.address → S'.balanceOf J a = S.balanceOf J a
  total : S'.totalBalance J + tx.fee.toNat = S.totalBalance J

/-- The two balances that the transfer would write are the ones already stored. -/
def Rewrites (S : Store) (tx : DMCTx) : Prop :=
  inBalance J S tx = S.balanceOf J tx.input.address ∧ outBalance J S tx = S.balanceOf J tx.output.payAddress

def SpentByOwner (S S' : Store) (tx : Tx) : Prop :=
  ∀ a, S'.balanceOf J a < S.balanceOf J a → ∃ t, tx = .dmc t ∧ t.input.address = a ∧
    ∃ key : PubKey, key.address P = a ∧ key.verifyBytes P (t.signBytes W) t.input.signature = true

/-- The transaction writes no balance below the stored one. -/
def LowersNothing (S : Store) : Tx → Prop
  | .dmc tx => accepts P J W S tx → S.balanceOf J tx.input.address ≤ inBalance J S tx ∧
      S.balanceOf J tx.output.payAddress ≤ outBalance J S tx
  | .utxo tx => S.balanceOf J tx.address ≤ tx.balance
  | .app _ => True

end

variable {P : Primitives} {J : Json} {W : Wire} {S : Store} {tx : DMCTx}

/-! ## Facts about an accepted transfer -/

theorem balance_outAccount : (outAccount J S tx).balance = S.balanceOf J tx.output.address := by
  unfold outAccount Store.balanceOf
  cases S.getAccount J tx.output.address <;> rfl

section

variable (h : accepts P J W S tx)
include h

theorem accepts.coins : 0 < tx.input.coins.toNat ∧ 0 < tx.output.coins.toNat ∧
    tx.input.coins.toNat ≤ (S.balanceOf J tx.output.address).toNat := by
  have hin := (TxInput.validateBasic_eq_one h.1).2.1
  have hout := (TxOutput.validateBasic_eq_one h.2.1).2.1
  have hle := (validateInputAdvanced_eq_one.1 h.2.2.2.1).1
  rw [balance_outAccount] at hle
  refine ⟨Nat.pos_of_ne_zero fun hz => hin ?_, Nat.pos_of_ne_zero fun hz => hout ?_, hle⟩
  · exact UInt64.toNat_inj.1 hz
  · exact UInt64.toNat_inj.1 hz

theorem accepts.toNat_inBalance :
    (inBalance J S tx).toNat = (S.balanceOf J tx.output.address).toNat - tx.input.coins.toNat := by
  have hle := (validateInputAdvanced_eq_one.1 h.2.2.2.1).1
  rw [inBalance, UInt64.toNat_sub_of_le _ _ hle, balance_outAccount]

/-- The balance written at the address paid to is no credit: the coins of the input were taken off it. -/
theorem accepts.toNat_outBalance_lt :
    (outBalance J S tx).toNat < (S.balanceOf J tx.output.address).toNat + tx.output.coins.toNat := by
  have hcoins := h.coins
  have hin := h.toNat_inBalance
  rw [outBalance, UInt64.toNat_add]
  omega

theorem accepts.no_key (key : PubKey) : key.address P ≠ tx.input.address := by
  intro he
  have h64 := (TxInput.validateBasic_eq_one h.1).1
  have h20 := key.length_address P
  rw [he] at h20
  omega

theorem accepts.unchanged_iff (height : Int) : Unchanged J S (afterTx P J W S (.dmc tx) height) ↔ Rewrites J S tx := by
  constructor
  · intro hu
    have hin := hu tx.input.address
    have hout := hu tx.output.payAddress
    rw [balanceOf_afterTx_dmc h, if_neg h.address_ne, if_pos rfl] at hin
    rw [balanceOf_afterTx_dmc h, if_pos rfl] at hout
    exact ⟨hin, hout⟩
  · rintro ⟨hin, hout⟩ a
    rw [balanceOf_afterTx_dmc h]
    split_ifs with h1 h2
    · rw [h1]; exact hout
    · rw [h2]; exact hin
    · rfl

theorem accepts.not_transferred (height : Int) : ¬ Transferred J S (afterTx P J W S (.dmc tx) height) tx := by
  intro ht
  have hcoins := h.coins
  by_cases heq : tx.input.address = tx.output.address
  · have hnet := ht.net heq
    rw [balanceOf_afterTx_dmc h, if_neg h.address_ne, if_pos rfl, h.toNat_inBalance, heq] at hnet
    omega
  · have hcredit := ht.credit heq
    rw [balanceOf_afterTx_dmc h, if_neg (Ne.symm heq)] at hcredit
    split_ifs at hcredit with hpay
    · have := h.toNat_outBalance_lt
      omega
    · omega

end

/-! ## Conservation -/

/-- **Coin conservation, exactly**: `ExecTx` moves the coins of a `DMCTx` or leaves every balance alone, exactly when
the transaction fails a check or rewrites the balances it finds. -/
theorem execTx_conserves_iff (P : Primitives) (J : Json) (W : Wire) (S : Store) (tx : DMCTx) (height : Int) :
    (Unchanged J S (afterTx P J W S (.dmc tx) height) ∨ Transferred J S (afterTx P J W S (.dmc tx) height) tx) ↔
      (¬ accepts P J W S tx ∨ Rewrites J S tx) := by
  by_cases h : accepts P J W S tx
  · rw [or_iff_left (h.not_transferred height), h.unchanged_iff]
    simp [h]
  · refine iff_of_true (.inl fun a => ?_) (.inl h)
    rw [afterTx_dmc_of_not_accepts h]

/-! An ordinary transfer: 10 coins from an account of 50 to an account of 30, of which 8 arrive. It leaves 20 where 40
should be left and 28 where 38 should be. -/

def payer : Bytes := List.replicate 64 1

def payee : Bytes := List.replicate 20 2

def payStore : Store :=
  (Store.setAccount ∅ payer { pubKey := some (.ed25519 [7]), height := 1, balance := 50, address := payer }).setAccount
    payee { pubKey := some (.ed25519 [9]), height := 1, balance := 30, address := payee }

def payTx : DMCTx where
  fee := 2
  input := { address := payer, coins := 10, sequence := 1, signature := some (.ed25519 (9 :: (payer ++ payee))),
             pubKey := some (.ed25519 [7]) }
  output := { address := payee, coins := 8 }

theorem payTx_not_conserved :
    ¬ (Unchanged .faithful payStore (afterTx .transparent .faithful .plain payStore (.dmc payTx) 5) ∨
      Transferred .faithful payStore (afterTx .transparent .faithful .plain payStore (.dmc payTx) 5) payTx) := by
  rintro (hu | ht)
  · exact absurd (hu payee) (by decide +kernel)
  · exact absurd (ht.debit (by decide +kernel)) (by decide +kernel)

/-! ## Who lowers a balance -/

/-- Who may lower a balance: a `TxUTXO` sets any, and the key of a transfer is not tied to the input address. -/
theorem execTx_spends_iff (P : Primitives) (J : Json) (W : Wire) (S : Store) (tx : Tx) (height : Int) :
    SpentByOwner P J W S (afterTx P J W S tx height) tx ↔ LowersNothing P J W S tx := by
  cases tx with
  | dmc tx =>
    constructor
    · intro hs h
      constructor
      · by_contra hlt
        obtain ⟨t, ht, ha, key, hkey, -⟩ := hs tx.input.address (by
          rw [balanceOf_afterTx_dmc h, if_neg h.address_ne]
          simpa using hlt)
        exact h.no_key key hkey
      · by_contra hlt
        obtain ⟨t, ht, ha, -⟩ := hs tx.output.payAddress (by
          rw [balanceOf_afterTx_dmc h]
          simpa using hlt)
        cases ht
        exact h.address_ne ha
    · intro hl a hlt
      by_cases h : accepts P J W S tx
      · obtain ⟨hin, hout⟩ := hl h
        rw [balanceOf_afterTx_dmc h] at hlt
        split_ifs at hlt with h1 h2
        · rw [h1] at hlt; exact absurd hout (by simpa using hlt)
        · rw [h2] at hlt; exact absurd hin (by simpa using hlt)
        · exact absurd hlt (by simp)
      · rw [afterTx_dmc_of_not_accepts h] at hlt
        exact absurd hlt (by simp)
  | utxo tx =>
    constructor
    · intro hs
      show S.balanceOf J tx.address ≤ tx.balance
      by_contra hlt
      obtain ⟨t, ht, -⟩ := hs tx.address (by
        rw [balanceOf_afterTx_utxo]
        simpa using hlt)
      cases ht
    · intro hl a hlt
      rw [balanceOf_afterTx_utxo] at hlt
      split_ifs at hlt with h1
      · rw [h1] at hlt; exact absurd (show S.balanceOf J tx.address ≤ tx.balance from hl) (by simpa using hlt)
      · exact absurd hlt (by simp)
  | app tx =>
    refine iff_of_true (fun a hlt => ?_) trivial
    exact absurd hlt (by simp [afterTx, execTx])

/-- The balance of `payee` is taken by a `TxUTXO`, which nobody signs. -/
theorem utxo_not_spentByOwner : ¬ SpentByOwner .transparent .faithful .plain payStore
    (afterTx .transparent .faithful .plain payStore (.utxo { address := payee, balance := 0 }) 5)
    (.utxo { address := payee, balance := 0 }) := by
  intro hs
  obtain ⟨t, ht, -⟩ := hs payee (by decide +kernel)
  cases ht

end Demars.Coin
