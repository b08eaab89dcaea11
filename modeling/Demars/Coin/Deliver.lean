import Demars.Coin.App
import Demars.Coin.Conserve

/-!
# Good and bad transactions

A transfer made with `NewTxInput` by the owner of an account ought to be applied, and everything else refused with
a response that says so.
-/

namespace Demars.Coin

section

variable (P : Primitives) (J : Json) (W : Wire)

def newTxInput (pubKey : PubKey) (coins : UInt64) (sequence : Int) : TxInput where
  address := pubKey.address P
  coins := coins
  sequence := sequence
  signature := none
  pubKey := if sequence = 1 then some pubKey else none

/-- A transfer that is signed, funded and balanced. -/
structure WellFormed (S : Store) (tx : DMCTx) (key : PubKey) : Prop where
  input : tx.input = { newTxInput P key tx.input.coins tx.input.sequence with signature := tx.input.signature }
  account : ∃ acc, S.getAccount J tx.input.address = some acc ∧ tx.input.coins ≤ acc.balance
  coins_pos : 1 ≤ tx.input.coins
  coins_le : tx.input.coins ≤ 100
  total : tx.input.coins.toNat = tx.output.coins.toNat + tx.fee.toNat
  sequence : 1 ≤ tx.input.sequence
  output : tx.output.address.length = Primitives.tmhashSize
  signed : key.verifyBytes P (tx.signBytes W) tx.input.signature = true

def GoodTransfer (S : Store) (tx : Tx) : Prop := ∃ d key, tx = .dmc d ∧ WellFormed P J W S d key

/-- Nothing is stored, or stored otherwise, than before. -/
def Store.Same (S S' : Store) : Prop := ∀ key, S'.lookup key = S.lookup key

/-- A good transfer is applied; any other transaction is refused without a panic or a change, with a code that is not
zero. -/
def Behaves (S : Store) (tx : Tx) (height : Int) : Prop :=
  (∀ d key, tx = .dmc d → WellFormed P J W S d key →
    ∃ S' res, execTx P J W S tx false height = some (S', res) ∧ Transferred J S S' d) ∧
  (¬ GoodTransfer P J W S tx →
    (∃ S' res, execTx P J W S tx false height = some (S', res) ∧ S.Same S') ∧
    ∀ txBytes, W.readTx txBytes = some (some tx) →
      ∃ S' res, deliverTx P J W S txBytes height = some (S', res) ∧ res.code ≠ 0)

/-- One of the checks of `ExecTx` refuses the transfer, and none of those before it panics. -/
def Refuses (S : Store) (tx : DMCTx) : Prop :=
  tx.input.validateBasic P = some 0 ∨
  (tx.input.validateBasic P = some 1 ∧
    (tx.output.validateBasic = 0 ∨
      ((S.getAccount J tx.input.address).isSome ∧
        (validateInputAdvanced P (outAccount J S tx) (tx.signBytes W) tx.input = some 0 ∨
          (validateInputAdvanced P (outAccount J S tx) (tx.signBytes W) tx.input = some 1 ∧
            tx.input.coins ≠ outPlusFees tx)))))

/-- The records that the transfer would write are already there. -/
def WritesNothing (S : Store) (tx : DMCTx) : Prop :=
  let paid := debited (outAccount J S tx) tx.input
  S.lookup (accountKey tx.input.address) = some (.account paid) ∧
    S.lookup (accountKey tx.output.payAddress) = some (.account (credited paid tx.output))

/-- The transaction neither panics nor changes the store. -/
def Quiet (S : Store) (height : Int) : Tx → Prop
  | .dmc tx => Refuses P J W S tx ∨ (accepts P J W S tx ∧ WritesNothing J S tx)
  | .utxo tx => S.lookup (accountKey tx.address) = some (.account ⟨none, height, tx.balance, tx.address⟩)
  | .app _ => True

end

variable {P : Primitives} {J : Json} {W : Wire} {S : Store} {tx : DMCTx} {height : Int}

/-! ## What becomes of a transfer -/

theorem execDMC_cases (P : Primitives) (J : Json) (W : Wire) (S : Store) (tx : DMCTx) :
    (Refuses P J W S tx ∧ ∃ res, execDMC P J W S tx false = some (S, res)) ∨ accepts P J W S tx ∨
      (¬ Refuses P J W S tx ∧ ¬ accepts P J W S tx ∧ execDMC P J W S tx false = none) := by
  unfold execDMC validateInputBasic validateOutputBasic getInput
  cases hin : tx.input.validateBasic P with
  | none =>
    refine .inr (.inr ⟨?_, fun h => absurd h.1 (by simp [hin]), rfl⟩)
    rintro (h | ⟨h, -⟩) <;> simp [hin] at h
  | some res =>
    rcases TxInput.validateBasic_zero_or_one hin with rfl | rfl
    · exact .inl ⟨.inl hin, _, rfl⟩
    rcases TxOutput.validateBasic_zero_or_one tx.output with hout | hout
    · exact .inl ⟨.inr ⟨hin, .inl hout⟩, _, by simp only [hout]; rfl⟩
    cases hacc : S.getAccount J tx.input.address with
    | none =>
      refine .inr (.inr ⟨?_, fun h => absurd h.2.2.1 (by simp [hacc]), by simp only [hout, one_ne_zero, if_false]⟩)
      rintro (h | ⟨-, h | ⟨h, -⟩⟩)
      · simp [hin] at h
      · simp [hout] at h
      · simp [hacc] at h
    | some acc =>
      have hmake : ∀ account₀, getOrMakeOutput J S account₀ tx.output = outAccount J S tx := fun _ => rfl
      simp only [hout, one_ne_zero, if_false, hmake]
      cases hadv : validateInputAdvanced P (outAccount J S tx) (tx.signBytes W) tx.input with
      | none =>
        refine .inr (.inr ⟨?_, fun h => absurd h.2.2.2.1 (by simp [hadv]), rfl⟩)
        rintro (h | ⟨-, h | ⟨-, h | ⟨h, -⟩⟩⟩)
        · simp [hin] at h
        · simp [hout] at h
        · simp [hadv] at h
        · simp [hadv] at h
      | some res =>
        rcases validateInputAdvanced_zero_or_one hadv with rfl | rfl
        · refine .inl ⟨.inr ⟨hin, .inr ⟨by simp [hacc], .inl hadv⟩⟩, { log := "in validateInputAdvanced()" }, ?_⟩
          rfl
        · by_cases hsum : tx.input.coins = outPlusFees tx
          · exact .inr (.inl ⟨hin, hout, by simp [hacc], hadv, hsum⟩)
          · refine .inl ⟨.inr ⟨hin, .inr ⟨by simp [hacc], .inr ⟨hadv, hsum⟩⟩⟩,
              { log := s!"Input total ({tx.input.coins}) != output total + fees ({outPlusFees tx})" }, ?_⟩
            simp only [one_ne_zero, if_false, hsum, ne_eq, not_false_eq_true, if_true]

/-- A store that is changed back by writing what is there. -/
theorem Store.same_setAccount {addr : Bytes} {acc : Account} :
    S.Same (S.setAccount addr acc) ↔ S.lookup (accountKey addr) = some (.account acc) := by
  constructor
  · intro h
    rw [← h (accountKey addr), Store.setAccount, AList.lookup_insert]
  · intro h key
    by_cases hkey : key = accountKey addr
    · subst hkey
      rw [Store.setAccount, AList.lookup_insert, h]
    · rw [Store.setAccount, AList.lookup_insert_ne hkey]

theorem Store.same_setAccount_setAccount {a b : Bytes} (acc acc' : Account) (hne : a ≠ b) :
    S.Same ((S.setAccount a acc).setAccount b acc') ↔
      S.lookup (accountKey a) = some (.account acc) ∧ S.lookup (accountKey b) = some (.account acc') := by
  have hkey : accountKey a ≠ accountKey b := fun h => hne (accountKey_inj.1 h)
  have hlookup : ∀ key, ((S.setAccount a acc).setAccount b acc').lookup key =
      if key = accountKey b then some (.account acc') else if key = accountKey a then some (.account acc)
        else S.lookup key := by
    intro key
    unfold Store.setAccount
    split_ifs with hb ha
    · rw [hb, AList.lookup_insert]
    · rw [AList.lookup_insert_ne hb, ha, AList.lookup_insert]
    · rw [AList.lookup_insert_ne hb, AList.lookup_insert_ne ha]
  constructor
  · intro h
    refine ⟨?_, ?_⟩
    · rw [← h, hlookup, if_neg hkey, if_pos rfl]
    · rw [← h, hlookup, if_pos rfl]
  · rintro ⟨ha, hb⟩ key
    rw [hlookup]
    split_ifs with hkb hka
    · rw [hkb, hb]
    · rw [hka, ha]
    · rfl

theorem execTx_quiet_iff (P : Primitives) (J : Json) (W : Wire) (S : Store) (tx : Tx) (height : Int) :
    (∃ S' res, execTx P J W S tx false height = some (S', res) ∧ S.Same S') ↔ Quiet P J W S height tx := by
  cases tx with
  | dmc tx =>
    rcases execDMC_cases P J W S tx with ⟨hrefuses, res, hexec⟩ | haccepts | ⟨hnot, hnot', hexec⟩
    · exact iff_of_true ⟨S, res, hexec, fun _ => rfl⟩ (.inl hrefuses)
    · have hsame := Store.same_setAccount_setAccount (S := S) (debited (outAccount J S tx) tx.input)
        (credited (debited (outAccount J S tx) tx.input) tx.output) haccepts.address_ne
      have hrefuses : ¬ Refuses P J W S tx := by
        obtain ⟨hin, hout, hacc, hadv, hsum⟩ := haccepts
        rintro (h | ⟨-, h | ⟨-, h | ⟨-, h⟩⟩⟩)
        · simp [hin] at h
        · simp [hout] at h
        · simp [hadv] at h
        · exact h hsum
      rw [execTx_dmc_of_accepts haccepts, Quiet, or_iff_right hrefuses, and_iff_right haccepts, WritesNothing, ← hsame]
      constructor
      · rintro ⟨S', res, heq, hS'⟩
        cases heq
        exact hS'
      · exact fun h => ⟨_, _, rfl, h⟩
    · refine iff_of_false ?_ (by rintro (h | ⟨h, -⟩) <;> contradiction)
      rintro ⟨S', res, h, -⟩
      rw [execTx, hexec] at h
      cases h
  | utxo tx =>
    rw [Quiet, ← Store.same_setAccount]
    constructor
    · rintro ⟨S', res, h, hsame⟩
      cases h
      exact hsame
    · exact fun h => ⟨_, _, rfl, h⟩
  | app tx => exact iff_of_true ⟨S, _, rfl, fun _ => rfl⟩ trivial

/-! ## Good transfers -/

theorem execTx_of_wellFormed {key : PubKey} (h : WellFormed P J W S tx key) (height : Int) :
    execTx P J W S (.dmc tx) false height = some (S, { log := "In validateinputBasic()" }) := by
  have haddr : tx.input.address.length ≠ 64 := by
    rw [h.input]
    change (key.address P).length ≠ 64
    rw [PubKey.length_address]
    decide
  have hbasic : tx.input.validateBasic P = some 0 := by rw [TxInput.validateBasic, if_pos haddr]
  rw [execTx, execDMC, validateInputBasic, hbasic]
  rfl

/-- A transfer that changes nothing goes from an account to itself without a fee. -/
theorem transferred_self_iff {key : PubKey} (h : WellFormed P J W S tx key) :
    Transferred J S S tx ↔ tx.input.address = tx.output.address ∧ tx.fee = 0 := by
  have hpos : 0 < tx.input.coins.toNat := by
    have := UInt64.le_iff_toNat_le.1 h.coins_pos
    exact this
  have htotal := h.total
  have hfee : tx.fee = 0 ↔ tx.fee.toNat = 0 := by rw [← UInt64.toNat_inj]; rfl
  rw [hfee]
  constructor
  · intro ht
    have hself : tx.input.address = tx.output.address := by
      by_contra hne
      have := ht.debit hne
      omega
    have hsum := ht.total
    exact ⟨hself, by omega⟩
  · rintro ⟨hself, hzero⟩
    exact ⟨fun hne => absurd hself hne, fun hne => absurd hself hne, fun _ => by omega, fun _ _ _ => rfl, by omega⟩

/-! ## The response -/

theorem deliverTx_code_iff {tx : Tx} {txBytes : Bytes} (h : W.readTx txBytes = some (some tx)) :
    (∃ S' res, deliverTx P J W S txBytes height = some (S', res) ∧ res.code ≠ 0) ↔ maxTxSize < txBytes.length := by
  unfold deliverTx
  split_ifs with hlong
  · exact iff_of_true ⟨S, _, rfl, by decide⟩ hlong
  · refine iff_of_false ?_ hlong
    rintro ⟨S', res, hexec, hcode⟩
    rw [h] at hexec
    obtain ⟨_, -, heq⟩ := Option.map_eq_some_iff.1 hexec
    cases heq
    exact hcode rfl

/-- `ExecTx` asks for an input address of 64 bytes, which no key has, and `DeliverTx` drops its response: a good
transfer is right only where it moves nothing, another transaction only where it is too long to be read. -/
theorem behaves_iff (P : Primitives) (J : Json) (W : Wire) (S : Store) (tx : Tx) (height : Int) :
    Behaves P J W S tx height ↔
      (∀ d key, tx = .dmc d → WellFormed P J W S d key → d.input.address = d.output.address ∧ d.fee = 0) ∧
      (¬ GoodTransfer P J W S tx →
        Quiet P J W S height tx ∧ ∀ txBytes, W.readTx txBytes = some (some tx) → maxTxSize < txBytes.length) := by
  refine and_congr ?_ (imp_congr_right fun _ => and_congr (execTx_quiet_iff P J W S tx height) ?_)
  · refine forall_congr' fun d => forall_congr' fun key => imp_congr_right fun htx => imp_congr_right fun hwf => ?_
    subst htx
    rw [← transferred_self_iff hwf, execTx_of_wellFormed hwf]
    constructor
    · rintro ⟨S', res, heq, ht⟩
      cases heq
      exact ht
    · exact fun ht => ⟨S, _, rfl, ht⟩
  · exact forall_congr' fun txBytes => forall_congr' fun hread => deliverTx_code_iff hread

/-! ## A payment -/

def payerKey : PubKey := .ed25519 [1]

def payerStore : Store := (∅ : Store).setAccount (payerKey.address .transparent) ⟨some payerKey, 0, 50, []⟩

/-- Ten coins to another address, the first transfer of the key, with its signature. -/
def payment : DMCTx where
  fee := 2
  input := { newTxInput .transparent payerKey 10 1 with
    signature := some (.ed25519 ([1] ++ (payerKey.address .transparent ++ padTo 20 [2]))) }
  output := ⟨padTo 20 [2], 8⟩

theorem payment_wellFormed : WellFormed .transparent .faithful .plain payerStore payment payerKey where
  input := rfl
  account := ⟨⟨some payerKey, 0, 50, []⟩, by decide, by decide⟩
  coins_pos := by decide
  coins_le := by decide
  total := by decide
  sequence := by decide
  output := by decide
  signed := by decide

/-- The payment is refused, and the response says nothing of it. With an address of 64 bytes and no key it panics, and
a `TxUTXO` sets any balance as a success. -/
theorem payment_refused : WellFormed .transparent .faithful .plain payerStore payment payerKey ∧
    execTx .transparent .faithful .plain payerStore (.dmc payment) false 2 =
      some (payerStore, { code := 0, log := "In validateinputBasic()" }) ∧
    ¬ Behaves .transparent .faithful .plain payerStore (.dmc payment) 2 ∧
    execTx .transparent .faithful .plain payerStore
      (.dmc { payment with input := { payment.input with address := padTo 64 [1], pubKey := none } }) false 2 = none ∧
    deliverTx .transparent .faithful .plain payerStore (1 :: 7 :: payerKey.address .transparent) 2 =
      some (payerStore.setAccount (payerKey.address .transparent) ⟨none, 2, 7, payerKey.address .transparent⟩, {}) := by
  refine ⟨payment_wellFormed, execTx_of_wellFormed payment_wellFormed 2, ?_, by decide, rfl⟩
  intro hbehaves
  obtain ⟨S', res, hexec, htransferred⟩ := hbehaves.1 payment payerKey rfl payment_wellFormed
  cases hexec
  exact absurd ((transferred_self_iff payment_wellFormed).1 htransferred).2 (by decide)

end Demars.Coin
