import Demars.Coin.Tx

/-!
# ExecTx

`execTx` follows `ExecTx`: a panic is `none`, otherwise the store and the response. The account that a `DMCTx` is
validated against and that both adjustments write is the one read by `getOrMakeOutput`, since the source assigns
its result to the variable that held the input's account. `accepts` collects the checks.
-/

namespace Demars.Coin

structure ResponseDeliverTx where
  code : UInt32 := 0
  log : String := ""

section

variable (P : Primitives) (J : Json) (W : Wire)

def validateInputBasic (txIn : TxInput) : Option Nat :=
  match txIn.validateBasic P with
  | none => none
  | some res => if res = 0 then some res else some 1

def validateOutputBasic (out : TxOutput) : Nat := if out.validateBasic = 0 then 0 else 1

/-- `getInput`: the account of the input; a missing one panics. -/
def getInput (S : Store) (txIn : TxInput) : Option Account :=
  match S.getAccount J txIn.address with
  | none => none
  | some acc => some (if txIn.pubKey = acc.pubKey then acc else { acc with pubKey := txIn.pubKey })

/-- `getOrMakeOutput`: the account at the whole output address, with the chain. -/
def getOrMakeOutput (S : Store) (_account : Account) (out : TxOutput) : Account :=
  (S.getAccount J out.address).getD emptyAccount

/-- `validateInputAdvanced`: `VerifyBytes` on a `nil` key panics. -/
def validateInputAdvanced (acc : Account) (signBytes : Bytes) (txIn : TxInput) : Option Nat :=
  if acc.balance < txIn.coins then some 0
  else
    match acc.pubKey with
    | none => none
    | some key => if key.verifyBytes P signBytes txIn.signature then some 1 else some 0

/-- `outPlusFees` of `ExecTx` leaves out a fee of 1. -/
def outPlusFees (tx : DMCTx) : UInt64 := if tx.fee ≠ 1 then tx.output.coins + tx.fee else tx.output.coins

def debited (acc : Account) (txIn : TxInput) : Account :=
  { acc with balance := acc.balance - txIn.coins, height := acc.height + 1 }

/-- `adjustByInput` panics on insufficient funds. The account is shared, so it is returned. -/
def adjustByInput (S : Store) (acc : Account) (txIn : TxInput) : Option (Store × Account) :=
  if acc.balance < txIn.coins then none
  else some (S.setAccount txIn.address (debited acc txIn), debited acc txIn)

def credited (acc : Account) (out : TxOutput) : Account := { acc with balance := acc.balance + out.coins }

def adjustByOutput (S : Store) (acc : Account) (out : TxOutput) (isCheckTx : Bool) : Store :=
  if isCheckTx then S else S.setAccount out.payAddress (credited acc out)

def execDMC (S : Store) (tx : DMCTx) (isCheckTx : Bool) : Option (Store × ResponseDeliverTx) :=
  match validateInputBasic P tx.input with
  | none => none
  | some res =>
    if res = 0 then some (S, { log := "In validateinputBasic()" })
    else if validateOutputBasic tx.output = 0 then some (S, { log := "in validateOutputBasic()" })
    else
      match getInput J S tx.input with
      | none => none
      | some account₀ =>
        let account := getOrMakeOutput J S account₀ tx.output
        match validateInputAdvanced P account (tx.signBytes W) tx.input with
        | none => none
        | some res =>
          if res = 0 then some (S, { log := "in validateInputAdvanced()" })
          else if tx.input.coins ≠ outPlusFees tx then
            some (S, { log := s!"Input total ({tx.input.coins}) != output total + fees ({outPlusFees tx})" })
          else
            match adjustByInput S account tx.input with
            | none => none
            | some (S', account') =>
              some (adjustByOutput S' account' tx.output isCheckTx, { log := W.txIDLog (tx.signBytes W) })

def execTx (S : Store) (tx : Tx) (isCheckTx : Bool) (height : Int) : Option (Store × ResponseDeliverTx) :=
  match tx with
  | .dmc tx => execDMC P J W S tx isCheckTx
  | .utxo tx =>
    some (S.setAccount tx.address { pubKey := none, height := height, balance := tx.balance, address := tx.address },
      { log := W.txIDLog ((Tx.utxo tx).signBytes W) })
  | .app tx => some (S, { log := W.txIDLog ((Tx.app tx).signBytes W) })

/-- The store after `ExecTx` outside of check mode; a panic comes before every write. -/
def afterTx (S : Store) (tx : Tx) (height : Int) : Store := ((execTx P J W S tx false height).map Prod.fst).getD S

def outAccount (S : Store) (tx : DMCTx) : Account := (S.getAccount J tx.output.address).getD emptyAccount

def accepts (S : Store) (tx : DMCTx) : Prop :=
  tx.input.validateBasic P = some 1 ∧ tx.output.validateBasic = 1 ∧ (S.getAccount J tx.input.address).isSome ∧
    validateInputAdvanced P (outAccount J S tx) (tx.signBytes W) tx.input = some 1 ∧ tx.input.coins = outPlusFees tx

instance (S : Store) (tx : DMCTx) : Decidable (accepts P J W S tx) :=
  inferInstanceAs (Decidable (_ ∧ _ ∧ _ ∧ _ ∧ _))

/-- The balance that an accepted transfer leaves at the input address. -/
def inBalance (S : Store) (tx : DMCTx) : UInt64 := (outAccount J S tx).balance - tx.input.coins

/-- The balance that an accepted transfer leaves at the address it pays to. -/
def outBalance (S : Store) (tx : DMCTx) : UInt64 := inBalance J S tx + tx.output.coins

end

variable {P : Primitives} {J : Json} {W : Wire} {S : Store} {tx : DMCTx}

/-! ## The value of the checks -/

variable {txIn : TxInput}

theorem TxInput.validateBasic_zero_or_one {res : Nat} (h : txIn.validateBasic P = some res) : res = 0 ∨ res = 1 := by
  unfold TxInput.validateBasic at h
  split_ifs at h
  iterate 4 exact .inl (Option.some.inj h).symm
  cases hk : txIn.pubKey with
  | none => rw [hk] at h; cases h
  | some key =>
    rw [hk] at h
    dsimp only at h
    split_ifs at h
    · exact .inl (Option.some.inj h).symm
    · exact .inl (Option.some.inj h).symm
    · exact .inr (Option.some.inj h).symm

theorem TxOutput.validateBasic_zero_or_one (out : TxOutput) : out.validateBasic = 0 ∨ out.validateBasic = 1 := by
  unfold TxOutput.validateBasic
  cases out.chainAndAddress with
  | none => exact .inl rfl
  | some p =>
    split_ifs
    · exact .inl rfl
    · exact .inl rfl
    · exact .inr rfl

theorem validateInputAdvanced_zero_or_one {acc : Account} {bz : Bytes} {res : Nat}
    (h : validateInputAdvanced P acc bz txIn = some res) : res = 0 ∨ res = 1 := by
  unfold validateInputAdvanced at h
  split_ifs at h
  · exact .inl (Option.some.inj h).symm
  · cases hk : acc.pubKey with
    | none => rw [hk] at h; cases h
    | some key =>
      rw [hk] at h
      dsimp only at h
      split_ifs at h
      · exact .inr (Option.some.inj h).symm
      · exact .inl (Option.some.inj h).symm

theorem validateInputAdvanced_eq_one {acc : Account} {bz : Bytes} : validateInputAdvanced P acc bz txIn = some 1 ↔
      txIn.coins ≤ acc.balance ∧ ∃ key, acc.pubKey = some key ∧ key.verifyBytes P bz txIn.signature = true := by
  unfold validateInputAdvanced
  by_cases hb : acc.balance < txIn.coins
  · simp [hb]
  · cases hk : acc.pubKey with
    | none => simp
    | some key => cases hv : key.verifyBytes P bz txIn.signature <;> simp [hv]

/-! ## What ExecTx does to a transfer -/

/-- An accepted transfer writes the output's account twice, debited at the input address and credited at the one it
pays to. -/
theorem execTx_dmc_of_accepts (h : accepts P J W S tx) (height : Int) : execTx P J W S (.dmc tx) false height =
      some ((S.setAccount tx.input.address (debited (outAccount J S tx) tx.input)).setAccount tx.output.payAddress
        (credited (debited (outAccount J S tx) tx.input) tx.output), { log := W.txIDLog (tx.signBytes W) }) := by
  obtain ⟨hin, hout, hsome, hadv, hsum⟩ := h
  obtain ⟨acc, hacc⟩ := Option.isSome_iff_exists.1 hsome
  have hbal : ¬ (outAccount J S tx).balance < tx.input.coins := by
    simpa using (validateInputAdvanced_eq_one.1 hadv).1
  have hget : getOrMakeOutput J S (if tx.input.pubKey = acc.pubKey then acc else { acc with pubKey := tx.input.pubKey })
      tx.output = outAccount J S tx := rfl
  simp only [execTx, execDMC, validateInputBasic, hin, validateOutputBasic, hout, getInput, hacc, hget, hadv,
    adjustByInput, hbal, adjustByOutput, one_ne_zero, if_false, ne_eq, hsum.symm, not_true_eq_false, Bool.false_eq_true]

theorem afterTx_dmc_of_not_accepts (h : ¬ accepts P J W S tx) (height : Int) :
    afterTx P J W S (.dmc tx) height = S := by
  simp only [afterTx, execTx, execDMC, validateInputBasic, validateOutputBasic, getInput]
  cases hin : tx.input.validateBasic P with
  | none => rfl
  | some res =>
    rcases TxInput.validateBasic_zero_or_one hin with rfl | rfl
    · rfl
    · rcases TxOutput.validateBasic_zero_or_one tx.output with hout | hout
      · simp [hout]
      · cases hacc : S.getAccount J tx.input.address with
        | none => simp [hout]
        | some acc =>
          simp only [hout]
          show (Option.map Prod.fst (match validateInputAdvanced P (outAccount J S tx) (tx.signBytes W) tx.input with
            | none => none
            | some res => _)).getD S = S
          cases hadv : validateInputAdvanced P (outAccount J S tx) (tx.signBytes W) tx.input with
          | none => rfl
          | some res =>
            rcases validateInputAdvanced_zero_or_one hadv with rfl | rfl
            · rfl
            · have hsum : tx.input.coins ≠ outPlusFees tx := fun hs => h ⟨hin, hout, by simp [hacc], hadv, hs⟩
              simp [hsum]

/-! ## Balances after a transfer -/

/-- The input address and the address paid to are different: they have 64 and 20 bytes. -/
theorem accepts.address_ne (h : accepts P J W S tx) : tx.input.address ≠ tx.output.payAddress := by
  intro he
  have h64 := (TxInput.validateBasic_eq_one h.1).1
  have h20 := (TxOutput.validateBasic_eq_one h.2.1).1
  rw [he] at h64
  omega

theorem accepts.afterTx_eq (h : accepts P J W S tx) (height : Int) : afterTx P J W S (.dmc tx) height =
    (S.setAccount tx.input.address (debited (outAccount J S tx) tx.input)).setAccount tx.output.payAddress
      (credited (debited (outAccount J S tx) tx.input) tx.output) := by
  rw [afterTx, execTx_dmc_of_accepts h]
  rfl

/-- After an accepted transfer both addresses have what was left on the output's account. -/
theorem balanceOf_afterTx_dmc (h : accepts P J W S tx) (height : Int) (a : Bytes) :
    (afterTx P J W S (.dmc tx) height).balanceOf J a =
      if a = tx.output.payAddress then outBalance J S tx else if a = tx.input.address then inBalance J S tx
        else S.balanceOf J a := by
  rw [h.afterTx_eq, Store.balanceOf_setAccount, Store.balanceOf_setAccount]
  rfl

theorem balanceOf_afterTx_utxo (tx : TxUTXO) (height : Int) (a : Bytes) :
    (afterTx P J W S (.utxo tx) height).balanceOf J a = if a = tx.address then tx.balance else S.balanceOf J a :=
  Store.balanceOf_setAccount _ _ _

end Demars.Coin
