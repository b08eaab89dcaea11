import Demars.Crypto.Keys

/-!
# The account store

`dmccoin.State` keeps accounts as JSON text in a key-value store. The model keeps the record that was written in
place of its text; what reading the text back gives is the parameter `Json.unmarshal`, of which only the balance is
assumed to survive.
-/

namespace Demars.Coin

structure Account where
  pubKey : Option PubKey
  height : Int
  balance : UInt64
  address : Bytes
deriving DecidableEq

inductive Value
  | account (acc : Account)
  | bytes (bz : Bytes)

/-- Reading a stored value into a zero `Account`, the error ignored. -/
structure Json where
  unmarshal : Value → Account
  balance_unmarshal : ∀ acc, (unmarshal (.account acc)).balance = acc.balance

def emptyAccount : Account := { pubKey := none, height := 0, balance := 0, address := [] }

/-- A store that gives back the records as they were written. -/
def Json.faithful : Json where
  unmarshal := fun v => match v with
    | .account acc => acc
    | .bytes _ => emptyAccount
  balance_unmarshal := fun _ => rfl

/-- `MemKVS`. -/
abbrev Store := AList (fun _ : Bytes => Value)

def accountPrefix : Bytes := [98, 97, 115, 101, 47, 97, 47]

def accountKey (addr : Bytes) : Bytes := accountPrefix ++ addr

theorem accountKey_inj {a b : Bytes} : accountKey a = accountKey b ↔ a = b := List.append_right_inj accountPrefix

def Value.isEmpty : Value → Bool
  | .account _ => false
  | .bytes bz => bz.isEmpty

namespace Store

variable (J : Json)

/-- `GetAccount`: `nil` where nothing, or the empty string, is stored. -/
def getAccount (S : Store) (addr : Bytes) : Option Account :=
  match S.lookup (accountKey addr) with
  | none => none
  | some v => if v.isEmpty then none else some (J.unmarshal v)

def setAccount (S : Store) (addr : Bytes) (acc : Account) : Store := S.insert (accountKey addr) (.account acc)

def balanceOf (S : Store) (addr : Bytes) : UInt64 := ((getAccount J S addr).map Account.balance).getD 0

def totalBalance (S : Store) : Nat :=
  ((S.entries.filter fun e => accountPrefix.isPrefixOf e.1).map fun e =>
    if e.2.isEmpty then 0 else (J.unmarshal e.2).balance.toNat).sum

variable {J} {S : Store}

theorem getAccount_setAccount_self (addr : Bytes) (acc : Account) :
    getAccount J (setAccount S addr acc) addr = some (J.unmarshal (.account acc)) := by
  simp [getAccount, setAccount, Value.isEmpty]

theorem getAccount_setAccount_ne {addr b : Bytes} (h : b ≠ addr) (acc : Account) :
    getAccount J (setAccount S addr acc) b = getAccount J S b := by
  have hk : accountKey b ≠ accountKey addr := fun e => h (accountKey_inj.1 e)
  simp [getAccount, setAccount, AList.lookup_insert_ne hk]

theorem balanceOf_setAccount (addr b : Bytes) (acc : Account) :
    balanceOf J (setAccount S addr acc) b = if b = addr then acc.balance else balanceOf J S b := by
  unfold balanceOf
  by_cases h : b = addr
  · subst h
    rw [getAccount_setAccount_self, if_pos rfl]
    exact J.balance_unmarshal acc
  · rw [getAccount_setAccount_ne h, if_neg h]

end Store

end Demars.Coin
