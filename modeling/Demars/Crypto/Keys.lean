import Demars.Lib.Codec
import Mathlib.Data.List.AList
import Mathlib.Tactic

/-!
# Keys, signatures and addresses

The package `crypto` wraps signature schemes and hash functions that are not part of the repository; they are the
fields of `Primitives`. A `crypto.PubKey` or `crypto.Signature` is an interface that may be `nil`: where the code
can meet the `nil`, the model has an `Option`.
-/

namespace Demars

abbrev Bytes := List UInt8

instance : LawfulBEq Bytes := List.instLawfulBEq

/-- `crypto.PubKey` without the `nil` interface. -/
inductive PubKey
  | ed25519 (key : Bytes)
  | secp256k1 (key : Bytes)
deriving DecidableEq

/-- `crypto.Signature` without the `nil` interface. -/
inductive Signature
  | ed25519 (bz : Bytes)
  | secp256k1 (bz : Bytes)
deriving DecidableEq

/-- What `crypto` takes from elsewhere: the hash functions, the two verifiers, the amino encoding of a key and
`amino.EncodeByteSlice`. -/
structure Primitives where
  sha256 : Bytes → Bytes
  sha256_length : ∀ bz, (sha256 bz).length = 32
  ripemd160 : Bytes → Bytes
  ripemd160_length : ∀ bz, (ripemd160 bz).length = 20
  ed25519Verify : Bytes → Bytes → Bytes → Bool
  secp256k1Verify : Bytes → Bytes → Bytes → Bool
  pubKeyBytes : PubKey → Bytes
  pubKeyBytes_ne_nil : ∀ key, pubKeyBytes key ≠ []
  byteSlice : Code Bytes

namespace Primitives

variable (P : Primitives)

def tmhashSize : Nat := 20

/-- `tmhash.Sum`: the first 20 bytes of SHA256. -/
def tmhash (bz : Bytes) : Bytes := (P.sha256 bz).take tmhashSize

/-- The message that two hashes, or a key and a hash, are hashed as. -/
def pair (left right : Bytes) : Bytes := P.byteSlice.enc left ++ P.byteSlice.enc right

theorem pair_injective (a b a' b' : Bytes) (h : P.pair a b = P.pair a' b') : a = a' ∧ b = b' := by
  have hcode : (P.byteSlice.prod P.byteSlice).enc (a, b) = (P.byteSlice.prod P.byteSlice).enc (a', b') := h
  exact Prod.mk.inj ((P.byteSlice.prod P.byteSlice).enc_injective hcode)

theorem length_tmhash (bz : Bytes) : (P.tmhash bz).length = 20 := by
  simp [tmhash, tmhashSize, P.sha256_length]

end Primitives

namespace PubKey

variable (P : Primitives)

def address : PubKey → Bytes
  | .ed25519 key => P.tmhash key
  | .secp256k1 key => P.ripemd160 (P.sha256 key)

/-- `PubKey.VerifyBytes`: a signature of the other scheme, or none, never verifies. -/
def verifyBytes : PubKey → Bytes → Option Signature → Bool
  | .ed25519 key, msg, some (.ed25519 sig) => P.ed25519Verify key msg sig
  | .secp256k1 key, msg, some (.secp256k1 sig) => P.secp256k1Verify key msg sig
  | _, _, _ => false

theorem length_address (key : PubKey) : (key.address P).length = 20 := by
  cases key with
  | ed25519 k => exact P.length_tmhash k
  | secp256k1 k => exact P.ripemd160_length _

theorem verifyBytes_none (key : PubKey) (msg : Bytes) : key.verifyBytes P msg none = false := by
  cases key <;> rfl

end PubKey

/-! ## Transparent primitives

Padding in place of a hash, and a signature that repeats the key and the message: enough to run the model. -/

/-- The first `n` bytes, padded with zeros. -/
def padTo (n : Nat) (bz : Bytes) : Bytes := (bz ++ List.replicate n 0).take n

theorem length_padTo (n : Nat) (bz : Bytes) : (padTo n bz).length = n := by simp [padTo]

def Primitives.transparent : Primitives where
  sha256 := padTo 32
  sha256_length := length_padTo 32
  ripemd160 := padTo 20
  ripemd160_length := length_padTo 20
  ed25519Verify := fun key msg sig => sig == key ++ msg
  secp256k1Verify := fun key msg sig => sig == key ++ msg
  pubKeyBytes := fun key => match key with
    | .ed25519 key => 1 :: key
    | .secp256k1 key => 2 :: key
  pubKeyBytes_ne_nil := by intro key; cases key <;> simp
  byteSlice := Code.byteSlice

/-- The last `n` digits in base 256, the lowest first. -/
def digits256 : Nat → Nat → Bytes
  | 0, _ => []
  | n + 1, sum => sum.toUInt8 :: digits256 n (sum / 256)

theorem length_digits256 (n sum : Nat) : (digits256 n sum).length = n := by
  induction n generalizing sum with
  | zero => rfl
  | succ n ih => simp [digits256, ih]

def checksum (n : Nat) (bz : Bytes) : Bytes := digits256 n (bz.foldl (fun sum b => sum * 257 + b.toNat + 1) 0)

/-- Transparent signatures with hashes that depend on the whole message. -/
def Primitives.checked : Primitives :=
  { Primitives.transparent with
    sha256 := checksum 32
    sha256_length := fun _ => length_digits256 32 _
    ripemd160 := checksum 20
    ripemd160_length := fun _ => length_digits256 20 _ }

/-- `Signature.Equals`: same scheme and same bytes; `nil` equals nothing. -/
def Signature.equals (sig : Signature) (other : Option Signature) : Bool := decide (other = some sig)

end Demars
