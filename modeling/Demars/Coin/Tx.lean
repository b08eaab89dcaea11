import Demars.Coin.Account

/-!
# Transactions

The three kinds of `dmccoin.Tx`, their basic validation and their sign bytes. The go-wire codec is the parameter
`Wire`. Validation answers 0 (refused) or 1; a method call on a `nil` public key panics (`none`).
-/

namespace Demars.Coin

structure TxInput where
  address : Bytes
  coins : UInt64
  sequence : Int
  signature : Option Signature
  pubKey : Option PubKey

structure TxOutput where
  address : Bytes
  coins : UInt64

structure TxUTXO where
  address : Bytes
  balance : UInt64

structure DMCTx where
  fee : UInt64
  input : TxInput
  output : TxOutput

def emptyDMCTx : DMCTx where
  fee := 0
  input := { address := [], coins := 0, sequence := 0, signature := none, pubKey := none }
  output := { address := [], coins := 0 }

def emptyTxUTXO : TxUTXO := { address := [], balance := 0 }

structure AppTx where
  gas : Int
  fee : UInt64
  name : String
  input : TxInput
  data : Bytes

inductive Tx
  | dmc (tx : DMCTx)
  | utxo (tx : TxUTXO)
  | app (tx : AppTx)

/-- The transaction without its signature, which is what `SignBytes` encodes. -/
def DMCTx.unsigned (tx : DMCTx) : DMCTx := { tx with input := { tx.input with signature := none } }

/-- The go-wire codec. `readTx` is `ReadBinaryBytes` into a `Tx`: an error, `nil`, or a transaction. -/
structure Wire where
  binaryBytes : DMCTx → Bytes
  binaryBytesApp : AppTx → Bytes
  txIDLog : Bytes → String
  readTx : Bytes → Option (Option Tx)
  readTx_typeByte : ∀ bz tx, readTx bz = some (some tx) → bz.head? = some 1 ∨ bz.head? = some 2 ∨ bz.head? = some 3
  readTx_nil : ∀ bz, readTx bz = some none → bz.head? = some 0

/-- A codec that can be evaluated. Only a `TxUTXO` with an address of 20 bytes and a balance of one is read. -/
def Wire.plain : Wire where
  binaryBytes := fun tx => tx.input.address ++ tx.output.address
  binaryBytesApp := fun tx => tx.data
  txIDLog := fun _ => ""
  readTx := fun bz => match bz with
    | 1 :: n :: addr => if addr.length = 20 then some (some (.utxo { address := addr, balance := n.toUInt64 }))
        else none
    | _ => none
  readTx_typeByte := by
    intro bz tx h
    split at h
    · exact .inl rfl
    · cases h
  readTx_nil := by
    intro bz h
    split at h
    · split_ifs at h
      cases Option.some.inj h
    · cases h

variable (P : Primitives) (W : Wire)

/-! ## Inputs -/

namespace TxInput

def validateBasic (txIn : TxInput) : Option Nat :=
  if txIn.address.length ≠ 64 then some 0
  else if txIn.coins > 100 ∨ txIn.coins < 0 then some 0
  else if txIn.coins = 0 then some 0
  else if txIn.sequence ≤ 0 then some 0
  else
    -- `PubKey.Bytes()` on a `nil` key panics in both of the remaining tests, and one of them is reached
    match txIn.pubKey with
    | none => none
    | some key =>
      if txIn.sequence = 1 ∧ (P.pubKeyBytes key).length = 0 then some 0
      else if txIn.sequence > 1 ∧ (P.pubKeyBytes key).length > 0 then some 0
      else some 1

variable {P}

theorem validateBasic_eq_one {txIn : TxInput} (h : txIn.validateBasic P = some 1) :
    txIn.address.length = 64 ∧ txIn.coins ≠ 0 ∧ txIn.coins ≤ 100 ∧ txIn.sequence = 1 ∧ txIn.pubKey.isSome := by
  unfold validateBasic at h
  split_ifs at h with h1 h2 h3 h4
  iterate 4 cases Option.some.inj h
  cases hk : txIn.pubKey with
  | none => rw [hk] at h; cases h
  | some key =>
    rw [hk] at h
    dsimp only at h
    have hlen : 0 < (P.pubKeyBytes key).length := List.length_pos_of_ne_nil (P.pubKeyBytes_ne_nil key)
    split_ifs at h with h5 h6
    · cases Option.some.inj h
    · cases Option.some.inj h
    have h1' : txIn.address.length = 64 := not_ne_iff.1 h1
    have hseq : txIn.sequence = 1 := by
      by_contra hne
      exact h6 ⟨by omega, hlen⟩
    exact ⟨h1', h3, by simpa using fun hc => h2 (.inl hc), hseq, rfl⟩

end TxInput

/-! ## Outputs -/

/-- `bytes.SplitN(bz, "/", 2)`, when it has two parts. -/
def splitSlash (bz : Bytes) : Option (Bytes × Bytes) :=
  match bz.span (· != 47) with
  | (_, []) => none
  | (pre, _ :: post) => some (pre, post)

namespace TxOutput

/-- `TxOutput.ChainAndAddress`: the chain prefix and the address, or the third result 0. -/
def chainAndAddress (txOut : TxOutput) : Option (Option Bytes × Bytes) :=
  if txOut.address.length > 20 then
    match splitSlash txOut.address with
    | none => none
    | some (chain, addr) => if addr.length ≠ 20 then none else some (some chain, addr)
  else if txOut.address.length ≠ 20 then none
  else some (none, txOut.address)

def validateBasic (txOut : TxOutput) : Nat :=
  match txOut.chainAndAddress with
  | none => 0
  | some _ =>
    if txOut.coins > 100 then 0
    else if txOut.coins = 0 then 0
    else 1

/-- The address that `adjustByOutput` writes to. -/
def payAddress (txOut : TxOutput) : Bytes := (txOut.chainAndAddress.map Prod.snd).getD []

theorem length_chainAndAddress {txOut : TxOutput} {c : Option Bytes} {a : Bytes}
    (h : txOut.chainAndAddress = some (c, a)) : a.length = 20 := by
  unfold chainAndAddress at h
  split_ifs at h with h1 h2
  · cases hs : splitSlash txOut.address with
    | none => rw [hs] at h; cases h
    | some p =>
      obtain ⟨chain, addr⟩ := p
      rw [hs] at h
      dsimp only at h
      split_ifs at h with h3
      cases h
      exact not_ne_iff.1 h3
  · cases h
    exact not_ne_iff.1 h2

theorem validateBasic_eq_one {txOut : TxOutput} (h : txOut.validateBasic = 1) :
    txOut.payAddress.length = 20 ∧ txOut.coins ≠ 0 ∧ txOut.coins ≤ 100 := by
  unfold validateBasic at h
  cases hc : txOut.chainAndAddress with
  | none => rw [hc] at h; cases h
  | some p =>
    obtain ⟨c, a⟩ := p
    rw [hc] at h
    dsimp only at h
    split_ifs at h with h1 h2
    exact ⟨by simpa [payAddress, hc] using length_chainAndAddress hc, h2, by simpa using h1⟩

end TxOutput

/-! ## Sign bytes -/

def DMCTx.signBytes (tx : DMCTx) : Bytes := W.binaryBytes tx.unsigned

def Tx.signBytes : Tx → Bytes
  | .dmc tx => tx.signBytes W
  | .utxo _ => []
  | .app tx => W.binaryBytesApp tx

end Demars.Coin
