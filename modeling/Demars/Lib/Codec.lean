import Mathlib.Tactic

/-!
# Codes of values as bytes

A `Code α` writes values of `α` as byte strings that can be read back from the front of a longer string, so codes
can be written one after the other. A `Blob α` writes values that are only read back as a whole, so that one of
them may be written as nothing.
-/

structure Code (α : Type*) where
  enc : α → List UInt8
  dec : List UInt8 → Option (α × List UInt8)
  dec_enc : ∀ a rest, dec (enc a ++ rest) = some (a, rest)

namespace Code

variable {α β : Type*}

/-- Reading the whole string. -/
def decode (c : Code α) (bz : List UInt8) : Option α :=
  match c.dec bz with
  | some (a, []) => some a
  | _ => none

theorem decode_enc (c : Code α) (a : α) : c.decode (c.enc a) = some a := by
  have h := c.dec_enc a []
  rw [List.append_nil] at h
  simp [decode, h]

theorem enc_injective (c : Code α) : Function.Injective c.enc := by
  intro a b h
  have ha := c.decode_enc a
  rw [h, c.decode_enc b] at ha
  exact (Option.some.inj ha).symm

/-! ## Numbers and bytes -/

/-- Numbers in unary. -/
def encNat (n : Nat) : List UInt8 := List.replicate n 1 ++ [0]

def decNat : List UInt8 → Option (Nat × List UInt8)
  | [] => none
  | b :: bz => if b = 0 then some (0, bz) else (decNat bz).map fun r => (r.1 + 1, r.2)

theorem decNat_encNat : ∀ (n : Nat) (rest : List UInt8), decNat (encNat n ++ rest) = some (n, rest)
  | 0, _ => rfl
  | n + 1, rest => by
    have ih := decNat_encNat n rest
    have h : encNat (n + 1) ++ rest = 1 :: (encNat n ++ rest) := by simp [encNat, List.replicate_succ]
    rw [h, decNat, if_neg (by decide), ih, Option.map_some]

def nat : Code Nat := ⟨encNat, decNat, decNat_encNat⟩

def byte : Code UInt8 where
  enc b := [b]
  dec bz := match bz with
    | [] => none
    | b :: bz => some (b, bz)
  dec_enc _ _ := rfl

/-- Numbers in groups of seven bits, the lowest first, with the number itself as a bound on the groups. -/
def encUvarint : Nat → Nat → List UInt8
  | 0, n => [n.toUInt8]
  | fuel + 1, n => if n < 128 then [n.toUInt8] else (n % 128 + 128).toUInt8 :: encUvarint fuel (n / 128)

def decUvarint : List UInt8 → Option (Nat × List UInt8)
  | [] => none
  | b :: bz => if b.toNat < 128 then some (b.toNat, bz) else (decUvarint bz).map fun r =>
      (b.toNat - 128 + 128 * r.1, r.2)

theorem decUvarint_encUvarint : ∀ (fuel n : Nat), n ≤ fuel → ∀ rest : List UInt8,
    decUvarint (encUvarint fuel n ++ rest) = some (n, rest)
  | 0, n, hn, rest => by
    obtain rfl : n = 0 := by omega
    rfl
  | fuel + 1, n, hn, rest => by
    unfold encUvarint
    split_ifs with hlt
    · simp [decUvarint, Nat.mod_eq_of_lt (show n < 256 by omega), hlt]
    · have hbyte : (n % 128 + 128) % 256 = n % 128 + 128 := by omega
      rw [List.cons_append, decUvarint]
      simp only [Nat.toUInt8, UInt8.toNat_ofNat', Nat.reducePow, hbyte]
      rw [if_neg (by omega), decUvarint_encUvarint fuel (n / 128) (by omega) rest, Option.map_some]
      congr 2
      omega

def uvarint : Code Nat := ⟨fun n => encUvarint n n, decUvarint, fun n => decUvarint_encUvarint n n le_rfl⟩

/-- Bytes with their number in front. -/
def byteSlice : Code (List UInt8) where
  enc bz := uvarint.enc bz.length ++ bz
  dec bz := (uvarint.dec bz).map fun r => (r.2.take r.1, r.2.drop r.1)
  dec_enc bz rest := by rw [List.append_assoc, uvarint.dec_enc, Option.map_some, List.take_left, List.drop_left]

/-! ## Composite values -/

/-- A code for the values that `f` makes from those of another code. -/
def map (c : Code α) (f : α → β) (g : β → α) (h : ∀ b, f (g b) = b) : Code β where
  enc b := c.enc (g b)
  dec bz := (c.dec bz).map fun r => (f r.1, r.2)
  dec_enc b rest := by rw [c.dec_enc, Option.map_some, h]

/-- One value after the other. -/
def prod (c : Code α) (d : Code β) : Code (α × β) where
  enc p := c.enc p.1 ++ d.enc p.2
  dec bz := (c.dec bz).bind fun r => (d.dec r.2).map fun q => ((r.1, q.1), q.2)
  dec_enc p rest := by rw [List.append_assoc, c.dec_enc, Option.bind_some, d.dec_enc, Option.map_some]

/-- `n` values one after the other. -/
def decList (c : Code α) : Nat → List UInt8 → Option (List α × List UInt8)
  | 0, bz => some ([], bz)
  | n + 1, bz => (c.dec bz).bind fun r => (decList c n r.2).map fun q => (r.1 :: q.1, q.2)

theorem decList_flatMap (c : Code α) :
    ∀ (l : List α) (rest : List UInt8), decList c l.length (l.flatMap c.enc ++ rest) = some (l, rest)
  | [], _ => rfl
  | a :: l, rest => by
    rw [List.flatMap_cons, List.append_assoc, List.length_cons, decList, c.dec_enc, Option.bind_some,
      decList_flatMap c l rest, Option.map_some]

def list (c : Code α) : Code (List α) where
  enc l := encNat l.length ++ l.flatMap c.enc
  dec bz := (decNat bz).bind fun r => decList c r.1 r.2
  dec_enc l rest := by rw [List.append_assoc, decNat_encNat, Option.bind_some, decList_flatMap]

/-- Optional values, as lists of at most one. -/
def option (c : Code α) : Code (Option α) := c.list.map List.head? Option.toList fun o => by cases o <;> rfl

/-- Signed numbers: the sign as a byte, then the size. -/
def int : Code Int :=
  (byte.prod nat).map (fun p => if p.1 = 0 then (p.2 : Int) else -p.2) (fun z => (if 0 ≤ z then 0 else 1, z.natAbs))
    <| by
    intro z
    by_cases hz : 0 ≤ z
    · simp [hz]
    · simp [hz, abs_of_neg (not_le.1 hz)]

/-! ## Values read as a whole -/

end Code

structure Blob (α : Type*) where
  enc : α → List UInt8
  dec : List UInt8 → Option α
  dec_enc : ∀ a, dec (enc a) = some a

namespace Blob

variable {α K : Type*} {c : Blob α} {t : K → List UInt8} {k : K}

/-- A record of a table that reads as nothing where there is none; what cannot be read is `none`. -/
def load (c : Blob α) (t : K → List UInt8) (k : K) : Option (Option α) :=
  if t k = [] then some none else (c.dec (t k)).map some

theorem load_some {a : α} (h : t k = c.enc a) (hne : c.enc a ≠ []) : c.load t k = some (some a) := by
  rw [load, h, if_neg hne, c.dec_enc, Option.map_some]

theorem load_none (h : t k = []) : c.load t k = some none := if_pos h

theorem load_congr {t' : K → List UInt8} (h : t' k = t k) : c.load t' k = c.load t k := by rw [load, load, h]

end Blob

namespace Code

variable {α : Type*} (c : Code α)

/-- The code without anything after it. -/
def blob : Blob α := ⟨c.enc, c.decode, c.decode_enc⟩

/-- The code with one value written as nothing. -/
def omitting [DecidableEq α] (zero : α) (h : ∀ a, c.enc a ≠ []) : Blob α where
  enc a := if a = zero then [] else c.enc a
  dec bz := if bz = [] then some zero else c.decode bz
  dec_enc a := by
    by_cases ha : a = zero
    · simp [ha]
    · simp [ha, h, c.decode_enc]

theorem omitting_enc_eq_nil [DecidableEq α] {zero : α} {h : ∀ a, c.enc a ≠ []} {a : α} :
    (c.omitting zero h).enc a = [] ↔ a = zero := by
  by_cases ha : a = zero <;> simp [omitting, h]

theorem prod_ne_nil {β : Type*} (d : Code β) (h : ∀ a, c.enc a ≠ []) (p : α × β) : (c.prod d).enc p ≠ [] :=
  fun hnil => h p.1 (List.append_eq_nil_iff.1 hnil).1

theorem int_ne_nil (z : Int) : int.enc z ≠ [] := List.cons_ne_nil _ _

end Code
