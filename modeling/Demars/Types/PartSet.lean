import Demars.Common.RawBitArray
import Demars.Crypto.Merkle
import Demars.Types.Vote

/-!
# Part sets

`types/part_set.go`: a serialized block cut into parts, each with the proof that it belongs to the root in the
header. `Built` are the sets that are made full from data or empty from a header and then filled by `addPart`.
-/

namespace Demars

open List

structure Part where
  index : Int
  bytes : Bytes
  proof : List Bytes
deriving DecidableEq

/-- `types.PartSet`, of which the bit array repeats `parts`. -/
structure PartSet where
  total : Int
  hash : Bytes
  parts : List (Option Part)
  count : Int
deriving DecidableEq

inductive PartSetError
  | unexpectedIndex
  | invalidProof

namespace PartSet

def chunks (data : Bytes) (partSize : Nat) : List Bytes :=
  (List.range ((data.length + partSize - 1) / partSize)).map fun i => (data.drop (i * partSize)).take partSize

/-- The number of parts in `NewPartSetFromData`; the sum of the lengths may overflow. -/
def numParts (data : Bytes) (partSize : Int) : Int := (Machine.wrap64 (data.length + partSize - 1)).tdiv partSize

/-- `NewPartSetFromData`; a part size that is not positive, a number of parts that is negative or too large, and no
parts at all panic. -/
def newPartSetFromData (P : Primitives) (data : Bytes) (partSize : Int) : Option PartSet :=
  if partSize ≤ 0 ∨ numParts data partSize ≤ 0 ∨ maxSliceLen < numParts data partSize then none
  else
    let pieces := chunks data partSize.toNat
    let proofs := Merkle.simpleProofsFromHashes P (pieces.map P.tmhash)
    some {
      total := pieces.length
      hash := proofs.1
      parts := (pieces.zip proofs.2).zipIdx.map fun p => some { index := p.2, bytes := p.1.1, proof := p.1.2 }
      count := pieces.length }

/-- `NewPartSetFromHeader`; `make` panics on a negative total. -/
def newPartSetFromHeader (header : PartSetHeader) : Option PartSet :=
  if header.total < 0 then none
  else some { total := header.total, hash := header.hash, parts := List.replicate header.total.toNat none, count := 0 }

def header (ps : PartSet) : PartSetHeader := ⟨ps.total, ps.hash⟩

/-- `PartSet.HasHeader`; a `nil` set has none. -/
def hasHeader (ps : Option PartSet) (header : PartSetHeader) : Bool := ps.any fun ps => decide (ps.header = header)

def isComplete (ps : PartSet) : Bool := decide (ps.count = ps.total)

/-- `AddPart`: the set, whether the part was added, and the error; a negative index panics. -/
def addPart (P : Primitives) (ps : PartSet) (part : Part) : Option (PartSet × Bool × Option PartSetError) :=
  if part.index ≥ ps.total then some (ps, false, some .unexpectedIndex)
  else if part.index < 0 then none
  else match (ps.parts[part.index.toNat]?).join with
    | some _ => some (ps, false, none)
    | none =>
      if Merkle.verifyProof P part.proof part.index ps.total (P.tmhash part.bytes) ps.hash then
        some ({ ps with parts := ps.parts.set part.index.toNat (some part), count := ps.count + 1 }, true, none)
      else some (ps, false, some .invalidProof)

def data (ps : PartSet) : Bytes := ps.parts.flatMap fun part => (part.map Part.bytes).getD []

/-! ## Filling a set -/

variable {P : Primitives} {ps ps' : PartSet} {part : Part} {added : Bool} {err : Option PartSetError}

theorem addPart_cases (h : ps.addPart P part = some (ps', added, err)) : (added = false ∧ ps' = ps) ∨
      (added = true ∧ err = none ∧ 0 ≤ part.index ∧ part.index < ps.total ∧ (ps.parts[part.index.toNat]?).join = none ∧
        ps' = { ps with parts := ps.parts.set part.index.toNat (some part), count := ps.count + 1 }) := by
  unfold addPart at h
  cases hj : (ps.parts[part.index.toNat]?).join with
  | some _ =>
    rw [hj] at h
    split_ifs at h <;> cases h <;> exact .inl ⟨rfl, rfl⟩
  | none =>
    rw [hj] at h
    split_ifs at h with h1 h2 h3
    · cases h
      exact .inl ⟨rfl, rfl⟩
    · cases h
      exact .inr ⟨rfl, rfl, by omega, by omega, rfl, rfl⟩
    · cases h
      exact .inl ⟨rfl, rfl⟩

/-! ## Sets with a count that fits -/

/-- Total and count are right. -/
structure Wf (ps : PartSet) : Prop where
  total : ps.total = ps.parts.length
  count : ps.count = ps.parts.countP Option.isSome

theorem wf_newPartSetFromHeader {header : PartSetHeader} (h : newPartSetFromHeader header = some ps) : ps.Wf := by
  unfold newPartSetFromHeader at h
  split_ifs at h with hneg
  cases h
  have hz : List.countP Option.isSome (List.replicate header.total.toNat (none : Option Part)) = 0 :=
    countP_eq_zero.2 fun a ha => by simp [eq_of_mem_replicate ha]
  exact ⟨by simp; omega, by rw [hz]; rfl⟩

theorem countP_set_some {parts : List (Option Part)} {i : Nat} (hi : i < parts.length) (h : (parts[i]?).join = none)
    (part : Part) :
    (parts.set i (some part)).countP Option.isSome = parts.countP Option.isSome + 1 := by
  induction parts generalizing i with
  | nil => exact absurd hi (Nat.not_lt_zero i)
  | cons slot parts ih =>
    cases i with
    | zero =>
      have hslot : slot = none := by simpa using h
      subst hslot
      simp
    | succ i =>
      have := ih (Nat.lt_of_succ_lt_succ hi) (by simpa using h)
      simp only [set_cons_succ, countP_cons]
      omega

theorem Wf.addPart (hw : ps.Wf) (h : ps.addPart P part = some (ps', added, err)) : ps'.Wf := by
  rcases addPart_cases h with ⟨_, rfl⟩ | ⟨_, _, h0, hlt, hj, rfl⟩
  · exact hw
  · have hi : part.index.toNat < ps.parts.length := by have := hw.total; omega
    refine ⟨by rw [length_set]; exact hw.total, ?_⟩
    rw [countP_set_some hi hj, hw.count]
    rfl

theorem Wf.addPart_of_isComplete (hw : ps.Wf) (hc : ps.isComplete = true)
    (h : ps.addPart P part = some (ps', added, err)) : added = false ∧ ps' = ps := by
  rcases addPart_cases h with hsame | ⟨_, _, h0, hlt, hj, _⟩
  · exact hsame
  · have hi : part.index.toNat < ps.parts.length := by have := hw.total; omega
    have hone := countP_set_some hi hj part
    have hle := (ps.parts.set part.index.toNat (some part)).countP_le_length (p := Option.isSome)
    have hcount : ps.count = ps.total := by simpa [isComplete] using hc
    have ht := hw.total
    have hcnt := hw.count
    rw [length_set] at hle
    omega

theorem Wf.exists_part (hw : ps.Wf) (hc : ps.isComplete = true) {j : Nat} (hj : (j : Int) < ps.total) :
    ∃ part, ps.parts[j]? = some (some part) := by
  have htotal := hw.total
  have hcount := hw.count
  have hall : ps.parts.countP Option.isSome = ps.parts.length := by
    have : ps.count = ps.total := by simpa [PartSet.isComplete] using hc
    omega
  have hlt : j < ps.parts.length := by omega
  have hsome := countP_eq_length.1 hall _ (getElem_mem hlt)
  obtain ⟨part, hpart⟩ := Option.isSome_iff_exists.1 hsome
  exact ⟨part, by rw [getElem?_eq_getElem hlt, hpart]⟩

/-! ## Cutting data into parts -/

theorem flatten_pieces (data : Bytes) (n : Nat) : ∀ m,
    ((List.range m).map fun i => (data.drop (i * n)).take n).flatten = data.take (m * n)
  | 0 => by simp
  | m + 1 => by
    rw [range_succ, map_append, flatten_append, flatten_pieces data n m, Nat.succ_mul, take_add]
    simp

theorem flatten_chunks (data : Bytes) {partSize : Nat} (h : 0 < partSize) : (chunks data partSize).flatten = data := by
  rw [chunks, flatten_pieces]
  refine take_of_length_le ?_
  have hdiv := Nat.div_add_mod (data.length + partSize - 1) partSize
  have hmod := Nat.mod_lt (data.length + partSize - 1) h
  rw [Nat.mul_comm]
  omega

theorem ne_nil_of_mem_chunks {data piece : Bytes} {partSize : Nat} (h : 0 < partSize)
    (hmem : piece ∈ chunks data partSize) :
    piece ≠ [] := by
  obtain ⟨i, hi, rfl⟩ := List.mem_map.1 hmem
  have hi : i < (data.length + partSize - 1) / partSize := mem_range.1 hi
  have hle := Nat.mul_le_of_le_div partSize (i + 1) (data.length + partSize - 1) hi
  rw [Nat.add_mul] at hle
  intro hnil
  have hlen := congrArg List.length hnil
  rw [length_take, length_drop, length_nil] at hlen
  omega

/-- Complete, with the data, and no empty part. -/
structure CutFrom (data : Bytes) (ps : PartSet) : Prop where
  total : ps.total = ps.parts.length
  count : ps.count = ps.total
  data : ps.data = data
  slot : ∀ (i : Nat) (slot : Option Part), ps.parts[i]? = some slot → ∃ part, slot = some part ∧ part.bytes ≠ []

theorem cutFrom_newPartSetFromData {data : Bytes} {partSize : Int}
    (h : newPartSetFromData P data partSize = some ps) : CutFrom data ps := by
  unfold newPartSetFromData at h
  split_ifs at h with hguard
  cases h
  have hsize : 0 < partSize.toNat := by omega
  have hlen := Merkle.length_simpleProofsFromHashes P ((chunks data partSize.toNat).map P.tmhash)
  rw [length_map] at hlen
  refine ⟨by simp [hlen], rfl, ?_, fun i slot hslot => ?_⟩
  · have hbytes : ∀ l : List (Bytes × List Bytes), (l.zipIdx.map fun p => some (⟨p.2, p.1.1, p.1.2⟩ : Part)).flatMap
        (fun part => (part.map Part.bytes).getD []) = (l.map Prod.fst).flatten := fun l => by
      rw [← zipIdx_map_fst 0 l, List.map_map, flatMap_def]
      simp [Function.comp_def]
    rw [PartSet.data, hbytes, map_fst_zip hlen.ge, flatten_chunks data hsize]
  · simp only [getElem?_map, getElem?_zipIdx, Option.map_map, Option.map_eq_some_iff] at hslot
    obtain ⟨⟨piece, proof⟩, hget, rfl⟩ := hslot
    rw [getElem?_zip_eq_some] at hget
    exact ⟨_, rfl, ne_nil_of_mem_chunks hsize (mem_of_getElem? hget.1)⟩

theorem verifyProof_of_addPart (h : ps.addPart P part = some (ps', true, err)) :
    Merkle.verifyProof P part.proof part.index ps.total (P.tmhash part.bytes) ps.hash = true := by
  unfold addPart at h
  cases hj : (ps.parts[part.index.toNat]?).join with
  | some _ =>
    rw [hj] at h
    split_ifs at h <;> cases h
  | none =>
    rw [hj] at h
    split_ifs at h with _ _ hverify
    · cases h
    · exact hverify
    · cases h

/-! ## Sets that can be built -/

/-- What the program makes of part sets. -/
inductive Built (P : Primitives) : PartSet → Prop
  | fromData {data : Bytes} {partSize : Int} {ps : PartSet} (h : newPartSetFromData P data partSize = some ps) :
      Built P ps
  | fromHeader {header : PartSetHeader} {ps : PartSet} (h : newPartSetFromHeader header = some ps) : Built P ps
  | addPart {ps ps' : PartSet} {part : Part} {added : Bool} {err : Option PartSetError} (hps : Built P ps)
      (h : ps.addPart P part = some (ps', added, err)) : Built P ps'

theorem Built.wf (h : Built P ps) : ps.Wf := by
  induction h with
  | fromData h =>
    have hcut := cutFrom_newPartSetFromData h
    refine ⟨hcut.total, ?_⟩
    rw [hcut.count, hcut.total, countP_eq_length.2]
    intro slot hslot
    obtain ⟨i, hi⟩ := mem_iff_getElem?.1 hslot
    obtain ⟨part, rfl, -⟩ := hcut.slot i slot hi
    rfl
  | fromHeader h => exact wf_newPartSetFromHeader h
  | addPart _ h ih => exact ih.addPart h

theorem Built.bytes_or_proof (h : Built P ps) (htotal : ps.total ≠ 1)
    (hpart : some part ∈ ps.parts) : part.bytes ≠ [] ∨ part.proof ≠ [] := by
  induction h with
  | fromData h =>
    obtain ⟨i, hi⟩ := mem_iff_getElem?.1 hpart
    obtain ⟨part', heq, hbytes⟩ := (cutFrom_newPartSetFromData h).slot i _ hi
    cases heq
    exact .inl hbytes
  | fromHeader h =>
    unfold newPartSetFromHeader at h
    split_ifs at h
    cases h
    cases eq_of_mem_replicate hpart
  | addPart _ h ih =>
    rcases addPart_cases h with ⟨_, rfl⟩ | ⟨rfl, _, _, _, _, rfl⟩
    · exact ih htotal hpart
    · rcases mem_or_eq_of_mem_set hpart with hold | hnew
      · exact ih htotal hold
      · cases hnew
        refine .inr fun hnil => htotal ?_
        have hverify := verifyProof_of_addPart h
        rw [hnil] at hverify
        exact Merkle.total_of_verifyProof_nil hverify

end PartSet

end Demars
