import Demars.Crypto.Keys
import Demars.Lib.Machine

/-!
# Merkle trees

`crypto/merkle`: the root of a list of hashes, of a map with its keys in order, and the proof that a hash is among
the leaves. The recursions of the source halve a list; here they carry its length as a bound on their depth.
-/

namespace Demars.Merkle

open Machine List

variable (P : Primitives)

def simpleHashFromTwoHashes (left right : Bytes) : Bytes := P.tmhash (P.pair left right)

def rootLoop : Nat → List Bytes → Bytes
  | _, [] => []
  | _, [hash] => hash
  | 0, _ => []
  | fuel + 1, hashes =>
    simpleHashFromTwoHashes P (rootLoop fuel (hashes.take ((hashes.length + 1) / 2)))
      (rootLoop fuel (hashes.drop ((hashes.length + 1) / 2)))

def simpleHashFromHashes (hashes : List Bytes) : Bytes := rootLoop P hashes.length hashes

/-- `SimpleHashFromMap` of the pairs in the order of their keys. -/
def simpleHashFromMap (kvs : List (Bytes × Bytes)) : Bytes :=
  simpleHashFromHashes P (kvs.map fun kv => P.tmhash (P.pair kv.1 kv.2))

/-! ## Proofs -/

/-- `trailsFromHashers`: the root, and the aunts of each leaf, from its sibling up. -/
def trailsLoop : Nat → List Bytes → Bytes × List (List Bytes)
  | _, [] => ([], [])
  | _, [hash] => (hash, [[]])
  | 0, _ => ([], [])
  | fuel + 1, hashes =>
    let lefts := trailsLoop fuel (hashes.take ((hashes.length + 1) / 2))
    let rights := trailsLoop fuel (hashes.drop ((hashes.length + 1) / 2))
    (simpleHashFromTwoHashes P lefts.1 rights.1,
      lefts.2.map (· ++ [rights.1]) ++ rights.2.map (· ++ [lefts.1]))

def simpleProofsFromHashes (hashes : List Bytes) : Bytes × List (List Bytes) := trailsLoop P hashes.length hashes

/-- `numLeft` in `computeHashFromAunts`. -/
def numLeft (total : Int) : Int := (wrap64 (total + 1)).tdiv 2

/-- `computeHashFromAunts`, with the aunts in reverse order; `none` is its `nil`. -/
def computeHashFromAunts (index total : Int) (leafHash : Bytes) : List Bytes → Option Bytes
  | [] => if index ≥ total ∨ index < 0 ∨ total ≤ 0 ∨ total ≠ 1 then none else some leafHash
  | aunt :: aunts =>
    if index ≥ total ∨ index < 0 ∨ total ≤ 0 ∨ total = 1 then none
    else if index < numLeft total then
      (computeHashFromAunts index (numLeft total) leafHash aunts).map fun leftHash =>
        simpleHashFromTwoHashes P leftHash aunt
    else
      (computeHashFromAunts (wrap64 (index - numLeft total)) (wrap64 (total - numLeft total)) leafHash aunts).map
        fun rightHash => simpleHashFromTwoHashes P aunt rightHash

def verifyProof (aunts : List Bytes) (index total : Int) (leafHash rootHash : Bytes) : Bool :=
  (computeHashFromAunts P index total leafHash aunts.reverse).any (· == rootHash)

/-! ## What a proof says about the tree -/

theorem length_trailsLoop : ∀ (fuel : Nat) (hashes : List Bytes), hashes.length ≤ fuel →
    (trailsLoop P fuel hashes).2.length = hashes.length
  | _, [], _ => by simp [trailsLoop]
  | _, [_], _ => by simp [trailsLoop]
  | fuel + 1, a :: b :: hashes, h => by
    have hl := length_trailsLoop fuel ((a :: b :: hashes).take (((a :: b :: hashes).length + 1) / 2)) (by
      simp only [length_take, length_cons] at h ⊢; omega)
    have hr := length_trailsLoop fuel ((a :: b :: hashes).drop (((a :: b :: hashes).length + 1) / 2)) (by
      simp only [length_drop, length_cons] at h ⊢; omega)
    rw [trailsLoop, length_append, length_map, length_map, hl, hr, ← length_append, take_append_drop]
    · simp
    · simp

theorem length_simpleProofsFromHashes (hashes : List Bytes) :
    (simpleProofsFromHashes P hashes).2.length = hashes.length :=
  length_trailsLoop P hashes.length hashes le_rfl

variable {P} in
/-- Without aunts a proof is only about a tree of one leaf. -/
theorem total_of_verifyProof_nil {index total : Int} {leafHash rootHash : Bytes}
    (h : verifyProof P [] index total leafHash rootHash = true) : total = 1 := by
  unfold verifyProof at h
  rw [reverse_nil, computeHashFromAunts] at h
  split_ifs at h with hguard
  · cases h
  · omega

end Demars.Merkle
