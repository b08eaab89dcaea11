import Demars.Crypto.Proofs
import Demars.Types.Binding

/-!
# The transfer of a part set

A part set is made from data, its parts are sent in any order and more than once, they are added to a set that
knows the header only, and the data is read from the complete set with buffers of any size (`types/part_set.go`).
-/

namespace Demars.PartSet

open Machine Merkle HashTree List Option

/-! ## The reader -/

/-- `PartSetReader`: what is left of the current part, and the parts after it. -/
structure PartSetReader where
  rest : Bytes
  later : List (Option Part)

/-- `NewPartSetReader`, which reads the first part. -/
def newPartSetReader : List (Option Part) → Option PartSetReader
  | some part :: parts => some ⟨part.bytes, parts⟩
  | _ => none

def getReader (ps : PartSet) : Option PartSetReader := if ps.isComplete then newPartSetReader ps.parts else none

/-- `PartSetReader.Read`: what is read, and whether the end is reported. `emptyAtEnd` says whether `bytes.Reader.Read`
reports its end to an empty buffer, in which versions of the library differ. -/
def PartSetReader.readLoop (emptyAtEnd : Bool) :
    List (Option Part) → Bytes → Nat → Option ((Bytes × Bool) × PartSetReader)
  | later, rest, size =>
    if size ≤ rest.length then some ((rest.take size, decide (rest = []) && emptyAtEnd), ⟨rest.drop size, later⟩)
    else
      -- `Read(p[:readerLen])`, if it is called, gives the rest; the next part is read into `p[readerLen:]`
      match later with
      | [] => some ((rest, true), ⟨[], []⟩)
      | none :: _ => none
      | some part :: later =>
        (readLoop emptyAtEnd later part.bytes (size - rest.length)).map fun res => ((rest ++ res.1.1, res.1.2), res.2)

def PartSetReader.read (emptyAtEnd : Bool) (psr : PartSetReader) (size : Nat) :
    Option ((Bytes × Bool) × PartSetReader) :=
  readLoop emptyAtEnd psr.later psr.rest size

def PartSetReader.reads (emptyAtEnd : Bool) : List Nat → PartSetReader → Option (List (Bytes × Bool))
  | [], _ => some []
  | size :: sizes, psr =>
    (psr.read emptyAtEnd size).bind fun res => (reads emptyAtEnd sizes res.2).map fun outs => res.1 :: outs

/-- The reads give the data in order. The end is not reported before it, and it is where less is left than the buffer
has room for. -/
def PartSetReader.Yields (emptyAtEnd : Bool) (psr : PartSetReader) (data : Bytes) (sizes : List Nat) : Prop :=
  ∃ outs, psr.reads emptyAtEnd sizes = some outs ∧ ∀ (k size : Nat), sizes[k]? = some size →
    ∃ out eof, outs[k]? = some (out, eof) ∧ out = (data.drop (sizes.take k).sum).take size ∧
      (eof = true → data.length ≤ (sizes.take (k + 1)).sum) ∧ (out.length < size → eof = true)

/-! ## Delivery -/

/-- Parts added one after the other: the set, and what each call returns. -/
def deliver (P : Primitives) : PartSet → List Part → Option (PartSet × List (Bool × Option PartSetError))
  | ps, [] => some (ps, [])
  | ps, part :: parts =>
    (ps.addPart P part).bind fun res => (deliver P res.1 parts).map fun more => (more.1, res.2 :: more.2)

def received (full : PartSet) (seen : List Part) : PartSet :=
  { full with
    parts := full.parts.map fun slot => slot.filter (· ∈ seen)
    count := (full.parts.map fun slot => slot.filter (· ∈ seen)).countP Option.isSome }

/-- The data in parts of `n` bytes, with their proofs. -/
structure Cut (P : Primitives) (data : Bytes) (n : Nat) (full : PartSet) : Prop where
  total : full.total = full.parts.length
  length : full.parts.length = (data.length + n - 1) / n
  slot : ∀ (i : Nat) (slot : Option Part), full.parts[i]? = some slot → ∃ part, slot = some part ∧ part.index = i ∧
    part.bytes = (data.drop (i * n)).take n ∧
    verifyProof P part.proof i full.total (P.tmhash part.bytes) full.hash = true

section

variable {P : Primitives} {data : Bytes} {n : Nat} {full : PartSet}

theorem numParts_eq {partSize : Int} (hpos : 0 < partSize) (hmax : (data.length : Int) + partSize - 1 ≤ maxInt64) :
    numParts data partSize = ((data.length + partSize.toNat - 1) / partSize.toNat : Nat) := by
  rw [numParts, wrap64_eq (by unfold minInt64; omega) hmax, Int.tdiv_eq_ediv_of_nonneg (by omega), Int.natCast_ediv]
  congr 1 <;> omega

theorem Cut.of_newPartSetFromData {partSize : Int} (hmax : (data.length : Int) + partSize - 1 ≤ maxInt64)
    (h : newPartSetFromData P data partSize = some full) : Cut P data partSize.toNat full := by
  unfold newPartSetFromData at h
  split_ifs at h with hguard
  cases h
  rw [not_or, not_or] at hguard
  obtain ⟨hpos, -, hmemory⟩ := hguard
  have hchunks : (chunks data partSize.toNat).length = (data.length + partSize.toNat - 1) / partSize.toNat := by
    rw [chunks, length_map, length_range]
  have hlen := length_simpleProofsFromHashes P ((chunks data partSize.toNat).map P.tmhash)
  have hshort : ((chunks data partSize.toNat).length : Int) < maxInt64 := by
    rw [numParts_eq (by omega) hmax] at hmemory
    unfold maxSliceLen at hmemory
    unfold maxInt64
    omega
  refine ⟨by simp [hlen], by simp [hlen, hchunks], fun i slot hslot => ?_⟩
  simp only [getElem?_map, getElem?_zipIdx, Option.map_map, map_eq_some_iff] at hslot
  obtain ⟨⟨piece, proof⟩, hget, rfl⟩ := hslot
  rw [getElem?_zip_eq_some] at hget
  obtain ⟨hpiece, hproof⟩ := hget
  have hleaf : ((chunks data partSize.toNat).map P.tmhash)[i]? = some (P.tmhash piece) := by
    rw [getElem?_map, hpiece, map_some]
  obtain ⟨aunts, haunts, hverify⟩ := exists_proof (P := P) (by rwa [length_map]) hleaf
  obtain rfl : aunts = proof := Option.some.inj (haunts.symm.trans hproof)
  refine ⟨_, rfl, by simp, ?_, ?_⟩
  · rw [chunks, getElem?_map] at hpiece
    obtain ⟨j, hj, rfl⟩ := map_eq_some_iff.1 hpiece
    obtain rfl : i = j := by
      rw [getElem?_range (by simpa using (List.getElem?_eq_some_iff.1 hj).1)] at hj
      exact Option.some.inj hj
    rfl
  · rw [length_map] at hverify
    rwa [fst_simpleProofsFromHashes]

theorem Cut.mem (hcut : Cut P data n full) {part : Part} (h : some part ∈ full.parts) :
    0 ≤ part.index ∧ full.parts[part.index.toNat]? = some (some part) ∧
      verifyProof P part.proof part.index full.total (P.tmhash part.bytes) full.hash = true := by
  obtain ⟨i, hi⟩ := mem_iff_getElem?.1 h
  obtain ⟨part', heq, hindex, -, hverify⟩ := hcut.slot i _ hi
  obtain rfl : part = part' := Option.some.inj heq
  refine ⟨by omega, ?_, by rwa [hindex]⟩
  rw [hindex]
  exact hi

theorem Cut.newPartSetFromHeader (hcut : Cut P data n full) :
    newPartSetFromHeader full.header = some (received full []) := by
  have hslots : (full.parts.map fun slot => slot.filter (· ∈ ([] : List Part))) =
    List.replicate full.total.toNat none := by
    rw [hcut.total, Int.toNat_natCast, ← map_const']
    exact map_congr_left fun slot _ => by cases slot <;> simp
  have hcount : (List.replicate full.total.toNat (none : Option Part)).countP Option.isSome = 0 :=
    countP_eq_zero.2 fun slot hslot => by simp [eq_of_mem_replicate hslot]
  have hnonneg : 0 ≤ full.header.total := le_of_le_of_eq (Int.natCast_nonneg _) hcut.total.symm
  rw [received, hslots, hcount, PartSet.newPartSetFromHeader, if_neg (not_lt.2 hnonneg)]
  rfl

theorem received_congr {seen seen' : List Part} (h : ∀ part, part ∈ seen ↔ part ∈ seen') :
    received full seen = received full seen' := by simp only [received, h]

section

variable (hcut : Cut P data n full) (seen : List Part)
include hcut

theorem Cut.set_received {part : Part} (h : some part ∈ full.parts) :
    (received full seen).parts.set part.index.toNat (some part) = (received full (seen ++ [part])).parts := by
  obtain ⟨h0, hget, -⟩ := hcut.mem h
  apply ext_getElem?
  intro j
  rw [getElem?_set, received, received, getElem?_map, getElem?_map, length_map]
  split_ifs with heq hlt
  · subst heq
    simp [hget, Option.filter]
  · exact absurd (List.getElem?_eq_some_iff.1 hget).1 (heq ▸ hlt)
  · cases hj : full.parts[j]? with
    | none => rfl
    | some slot =>
      obtain ⟨part', rfl, hindex, -⟩ := hcut.slot j slot hj
      have hne : part' ≠ part := by
        rintro rfl
        omega
      simp [Option.filter, hne]

theorem Cut.addPart_received {part : Part} (h : some part ∈ full.parts) :
    (received full seen).addPart P part = some (received full (seen ++ [part]), decide (part ∉ seen), none) := by
  obtain ⟨h0, hget, hverify⟩ := hcut.mem h
  have hlt : part.index < full.total := by
    have hi := (List.getElem?_eq_some_iff.1 hget).1
    have htotal := hcut.total
    omega
  have hslot : ((received full seen).parts[part.index.toNat]?).join = if part ∈ seen then some part else none := by
    rw [received, getElem?_map, hget]
    simp [Option.filter]
  have hbound : ¬ part.index ≥ (received full seen).total := not_le.2 hlt
  unfold addPart
  rw [if_neg hbound, if_neg (by omega), hslot]
  by_cases hseen : part ∈ seen
  · have hsame : received full (seen ++ [part]) = received full seen := by
      refine received_congr fun part' => ?_
      rw [mem_append, mem_singleton]
      exact ⟨fun h => h.elim id fun heq => heq ▸ hseen, .inl⟩
    simp [hseen, hsame]
  · rw [if_neg hseen] at hslot
    have hparts := hcut.set_received seen h
    have hcount := countP_set_some (by rw [received, length_map]; exact (List.getElem?_eq_some_iff.1 hget).1) hslot part
    rw [hparts] at hcount
    have hverified : verifyProof P part.proof part.index (received full seen).total (P.tmhash part.bytes)
        (received full seen).hash = true := hverify
    have hnext : { received full seen with
          parts := (received full (seen ++ [part])).parts, count := (received full seen).count + 1 } =
        received full (seen ++ [part]) := by
      simp only [received, PartSet.mk.injEq, true_and] at hcount ⊢
      omega
    simp only [hseen, if_false, hverified, if_true, hparts, hnext, not_false_eq_true, decide_true]

theorem Cut.deliver_received {parts : List Part} (h : ∀ part ∈ parts, some part ∈ full.parts) :
    ∃ outs, deliver P (received full seen) parts = some (received full (seen ++ parts), outs) ∧
      ∀ (k : Nat) (part : Part), parts[k]? = some part →
        outs[k]? = some (decide (part ∉ seen ++ parts.take k), none) := by
  induction parts generalizing seen with
  | nil => exact ⟨[], by simp [deliver], by simp⟩
  | cons part parts ih =>
    rw [forall_mem_cons] at h
    obtain ⟨outs, hdeliver, houts⟩ := ih (seen ++ [part]) h.2
    refine ⟨(decide (part ∉ seen), none) :: outs, ?_, ?_⟩
    · rw [deliver, hcut.addPart_received seen h.1, bind_some, hdeliver]
      simp
    · intro k part' hk
      cases k with
      | zero =>
        obtain rfl : part = part' := by simpa using hk
        simp
      | succ k =>
        rw [getElem?_cons_succ] at hk ⊢
        rw [houts k part' hk, take_succ_cons, append_assoc, singleton_append]

theorem Cut.isComplete_received :
    (received full seen).isComplete = true ↔ ∀ part, some part ∈ full.parts → part ∈ seen := by
  have hlen : (received full seen).total = ((received full seen).parts.length : Nat) := by
    rw [received, length_map]
    exact hcut.total
  have hcount : (received full seen).count = ((received full seen).parts.countP Option.isSome : Nat) := rfl
  rw [isComplete, decide_eq_true_eq, hlen, hcount, Nat.cast_inj, countP_eq_length]
  simp only [received, List.forall_mem_map]
  constructor
  · intro hall part hpart
    simpa using hall _ hpart
  · intro hall slot hslot
    obtain ⟨i, hi⟩ := mem_iff_getElem?.1 hslot
    obtain ⟨part, rfl, -⟩ := hcut.slot i slot hi
    simpa using hall part hslot

end

theorem Cut.parts_received (hcut : Cut P data n full) {seen : List Part}
    (h : ∀ part, some part ∈ full.parts → part ∈ seen) :
    (received full seen).parts = full.parts := by
  conv_rhs => rw [← List.map_id full.parts]
  refine map_congr_left fun slot hslot => ?_
  obtain ⟨i, hi⟩ := mem_iff_getElem?.1 hslot
  obtain ⟨part, rfl, -⟩ := hcut.slot i slot hi
  simpa using h part hslot

end

/-! ## Reading -/

/-- The reader stands at byte `k`, in part `i`. -/
structure Place (data : Bytes) (n : Nat) (full : PartSet) (i k : Nat) (psr : PartSetReader) : Prop where
  part : i < full.parts.length
  later : psr.later = full.parts.drop (i + 1)
  rest : psr.rest = (data.drop k).take ((i + 1) * n - k)
  lower : i * n ≤ k
  upper : k ≤ (i + 1) * n
  le_length : k ≤ data.length

section

variable {P : Primitives} {data : Bytes} {n : Nat} {full : PartSet} {emptyAtEnd : Bool} {psr : PartSetReader}
  {i k : Nat}

theorem Cut.mul_lt_length (hcut : Cut P data n full) (h : i < full.parts.length) : i * n < data.length := by
  rw [hcut.length] at h
  have hn : 0 < n := Nat.pos_of_ne_zero fun h0 => by simp [h0] at h
  have hle := Nat.mul_le_of_le_div n (i + 1) (data.length + n - 1) h
  rw [Nat.add_mul] at hle
  omega

theorem Cut.length_le_mul (hcut : Cut P data n full) (hn : 0 < n) (h : full.parts.length ≤ i) :
    data.length ≤ i * n := by
  rw [hcut.length] at h
  have hdiv := Nat.div_add_mod (data.length + n - 1) n
  have hmod := Nat.mod_lt (data.length + n - 1) hn
  have hmul := Nat.mul_le_mul_left n h
  rw [Nat.mul_comm i n]
  omega

variable {rest : Bytes} {later : List (Option Part)} {size : Nat}

theorem Place.length_rest (h : Place data n full i k ⟨rest, later⟩) :
    rest.length = min ((i + 1) * n - k) (data.length - k) := by
  rw [show rest = _ from h.rest, length_take, length_drop]

/-- A read that the rest of the part is enough for. -/
theorem Place.within (h : Place data n full i k ⟨rest, later⟩) (hle : size ≤ rest.length) :
    rest.take size = (data.drop k).take size ∧
      Place data n full i (k + size) ⟨rest.drop size, later⟩ ∧ k + size ≤ data.length := by
  have hlen := h.length_rest
  have hrest : rest = (data.drop k).take ((i + 1) * n - k) := h.rest
  have hupper := h.upper
  have hlower := h.lower
  have hdata := h.le_length
  refine ⟨?_, ⟨h.part, h.later, ?_, by omega, by omega, by omega⟩, by omega⟩
  · rw [hrest, take_take, min_eq_left (by omega)]
  · rw [hrest, drop_take, drop_drop, Nat.sub_sub]

/-- A read from the `k`-th byte on gives what is there, and stays behind a byte of its part. -/
def ReadsAt (data : Bytes) (n : Nat) (full : PartSet) (emptyAtEnd : Bool) (k : Nat) (psr : PartSetReader) (size : Nat) :
    Prop :=
  ∃ i psr', psr.read emptyAtEnd size = some (((data.drop k).take size, decide (data.length < k + size)), psr') ∧
    Place data n full i (min data.length (k + size)) psr' ∧ i * n < min data.length (k + size)

theorem Place.readsAt_within (h : Place data n full i k ⟨rest, later⟩)
    (hsize : 0 < size) (hle : size ≤ rest.length) : ReadsAt data n full emptyAtEnd k ⟨rest, later⟩ size := by
  obtain ⟨htake, hplace, hend⟩ := h.within hle
  have hlower := h.lower
  have hne : rest ≠ [] := ne_nil_of_length_pos (by omega)
  refine ⟨i, _, ?_, by rwa [min_eq_right hend], by omega⟩
  unfold PartSetReader.read PartSetReader.readLoop
  rw [if_pos hle, htake, decide_eq_false hne, decide_eq_false (by omega)]
  rfl

/-- A read with room in the buffer goes over the borders of parts. -/
theorem Cut.readsAt (hcut : Cut P data n full) (hn : 0 < n) (emptyAtEnd : Bool)
    (h : Place data n full i k ⟨rest, later⟩) (hsize : 0 < size) :
    ReadsAt data n full emptyAtEnd k ⟨rest, later⟩ size := by
  induction later generalizing rest size i k with
  | nil =>
    by_cases hle : size ≤ rest.length
    · exact h.readsAt_within hsize hle
    · have hlast : full.parts.length ≤ i + 1 := drop_eq_nil_iff.1 h.later.symm
      have hend := hcut.length_le_mul hn hlast
      have hstart := hcut.mul_lt_length h.part
      have hall : rest = data.drop k := by
        rw [show rest = _ from h.rest]
        exact take_of_length_le (by rw [length_drop]; omega)
      have hover : data.length < k + size := by
        have hlen := h.length_rest
        omega
      refine ⟨i, ⟨[], []⟩, ?_, ⟨h.part, h.later, ?_, ?_, ?_, ?_⟩, ?_⟩
      · unfold PartSetReader.read PartSetReader.readLoop
        rw [if_neg hle, decide_eq_true hover, take_of_length_le (by rw [length_drop]; omega), hall]
      · rw [min_eq_left hover.le, drop_length, take_nil]
      all_goals omega
  | cons slot later ih =>
    by_cases hle : size ≤ rest.length
    · exact h.readsAt_within hsize hle
    · have hslot : full.parts[i + 1]? = some slot := by
        rw [← head?_drop, ← h.later]
        rfl
      have hpart : i + 1 < full.parts.length := (List.getElem?_eq_some_iff.1 hslot).1
      obtain ⟨part, rfl, -, hbytes, -⟩ := hcut.slot (i + 1) slot hslot
      have hborder := hcut.mul_lt_length hpart
      have hlen := h.length_rest
      have hupper := h.upper
      have hnext : (i + 1 + 1) * n = (i + 1) * n + n := Nat.succ_mul _ _
      -- the next part is read from its start on
      have hplace : Place data n full (i + 1) ((i + 1) * n) ⟨part.bytes, later⟩ := by
        refine ⟨hpart, ?_, ?_, le_rfl, by omega, by omega⟩
        · rw [← tail_drop, ← h.later]
          rfl
        · rw [hbytes, hnext, Nat.add_sub_cancel_left]
      obtain ⟨i', psr', hread, hplace', hin⟩ := ih hplace (show 0 < size - rest.length by omega)
      have htotal : (i + 1) * n + (size - rest.length) = k + size := by omega
      rw [htotal] at hread hplace' hin
      refine ⟨i', psr', ?_, hplace', hin⟩
      unfold PartSetReader.read at hread ⊢
      unfold PartSetReader.readLoop
      rw [if_neg hle]
      dsimp only at hread ⊢
      rw [hread, map_some]
      have hglue : rest ++ (data.drop ((i + 1) * n)).take (size - rest.length) = (data.drop k).take size := by
        have hsum : size = (i + 1) * n - k + (size - rest.length) := by omega
        conv_rhs => rw [hsum, take_add, drop_drop, ← show rest = _ from h.rest]
        rw [show k + ((i + 1) * n - k) = (i + 1) * n by omega]
      rw [hglue]

def At (data : Bytes) (n : Nat) (full : PartSet) (k : Nat) (psr : PartSetReader) : Prop :=
  ∃ i, Place data n full i k psr ∧ (i = 0 ∨ i * n < k)

/-- Nothing is left in the part at the end of the data and at the borders of parts. -/
theorem At.rest_eq_nil_iff (h : At data n full k psr) (hn : 0 < n) :
    psr.rest = [] ↔ k = data.length ∨ (0 < k ∧ n ∣ k) := by
  obtain ⟨i, hplace, hin⟩ := h
  have hlen := hplace.length_rest
  have hupper := hplace.upper
  have hk := hplace.le_length
  have hnext : (i + 1) * n = i * n + n := Nat.succ_mul _ _
  rw [← length_eq_zero_iff]
  constructor
  · intro hzero
    by_cases hend : k = data.length
    · exact .inl hend
    · have hborder : k = (i + 1) * n := by omega
      exact .inr ⟨by omega, hborder ▸ Nat.dvd_mul_left n (i + 1)⟩
  · rintro (hend | ⟨hpos, j, rfl⟩)
    · omega
    · have hlow : i < j := by
        by_contra hle
        have hmul := Nat.mul_le_mul_left n (not_lt.1 hle)
        rw [Nat.mul_comm n i] at hmul
        rcases hin with rfl | hin
        · omega
        · omega
      have hmul := Nat.mul_le_mul_left n hlow
      rw [Nat.mul_comm n (i + 1)] at hmul
      omega

/-- When the end is reported: less is left than the buffer has room for, or the buffer and the rest of the part are
empty. -/
def ReportsEnd (data : Bytes) (n : Nat) (emptyAtEnd : Bool) (k size : Nat) : Prop :=
  data.length < k + size ∨ (size = 0 ∧ emptyAtEnd = true ∧ (k = data.length ∨ (0 < k ∧ n ∣ k)))

theorem Cut.read_at (hcut : Cut P data n full) (hn : 0 < n) (emptyAtEnd : Bool) (h : At data n full k psr)
    (size : Nat) :
    ∃ eof psr', psr.read emptyAtEnd size = some (((data.drop k).take size, eof), psr') ∧
      At data n full (min data.length (k + size)) psr' ∧ (eof = true ↔ ReportsEnd data n emptyAtEnd k size) := by
  rcases Nat.eq_zero_or_pos size with rfl | hsize
  · refine ⟨decide (psr.rest = []) && emptyAtEnd, psr, ?_, ?_, ?_⟩
    · unfold PartSetReader.read PartSetReader.readLoop
      rfl
    · obtain ⟨i, hplace, hin⟩ := h
      rw [Nat.add_zero, min_eq_right hplace.le_length]
      exact ⟨i, hplace, hin⟩
    · have hk : k ≤ data.length := h.elim fun _ hplace => hplace.1.le_length
      rw [Bool.and_eq_true, decide_eq_true_eq, h.rest_eq_nil_iff hn]
      constructor
      · exact fun hend => .inr ⟨rfl, hend.2, hend.1⟩
      · rintro (hover | ⟨-, hempty, hend⟩)
        · omega
        · exact ⟨hend, hempty⟩
  · obtain ⟨i, hplace, hin⟩ := h
    obtain ⟨i', psr', hread, hplace', hin'⟩ := hcut.readsAt hn emptyAtEnd hplace hsize
    refine ⟨_, psr', hread, ⟨i', hplace', .inr hin'⟩, ?_⟩
    rw [decide_eq_true_eq]
    exact ⟨.inl, fun h => h.elim id fun hzero => absurd hzero.1 hsize.ne'⟩

theorem drop_min_length (data : Bytes) (k : Nat) : data.drop (min data.length k) = data.drop k := by
  rcases Nat.le_total data.length k with hle | hle
  · rw [min_eq_left hle, drop_length, drop_of_length_le hle]
  · rw [min_eq_right hle]

theorem Cut.reads_at (hcut : Cut P data n full) (hn : 0 < n) (emptyAtEnd : Bool) (sizes : List Nat)
    (h : At data n full (min data.length k) psr) :
    ∃ outs, psr.reads emptyAtEnd sizes = some outs ∧ ∀ (j size : Nat), sizes[j]? = some size →
      ∃ eof, outs[j]? = some ((data.drop (k + (sizes.take j).sum)).take size, eof) ∧
        (eof = true ↔ ReportsEnd data n emptyAtEnd (min data.length (k + (sizes.take j).sum)) size) := by
  induction sizes generalizing k psr with
  | nil => exact ⟨[], rfl, by simp⟩
  | cons size sizes ih =>
    obtain ⟨eof, psr', hread, hat, heof⟩ := hcut.read_at hn emptyAtEnd h size
    rw [show min data.length (min data.length k + size) = min data.length (k + size) by omega] at hat
    obtain ⟨outs, hreads, houts⟩ := ih hat
    refine ⟨((data.drop k).take size, eof) :: outs, ?_, ?_⟩
    · rw [PartSetReader.reads, hread, bind_some, hreads, map_some, drop_min_length]
    · intro j size' hj
      cases j with
      | zero =>
        obtain rfl : size = size' := by simpa using hj
        exact ⟨eof, rfl, by simpa using heof⟩
      | succ j =>
        rw [take_succ_cons, sum_cons, ← Nat.add_assoc]
        exact houts j size' hj

/-- No empty buffer is read with at the border of two parts. -/
def Undisturbed (data : Bytes) (n : Nat) (sizes : List Nat) : Prop :=
  ∀ j < sizes.length, sizes[j]? = some 0 →
    ¬ (0 < (sizes.take j).sum ∧ (sizes.take j).sum < data.length ∧ n ∣ (sizes.take j).sum)

instance (data : Bytes) (n : Nat) (sizes : List Nat) : Decidable (Undisturbed data n sizes) :=
  inferInstanceAs (Decidable (∀ j < sizes.length, _))

theorem sum_take_succ {sizes : List Nat} {j : Nat} (hj : sizes[j]? = some size) :
    (sizes.take (j + 1)).sum = (sizes.take j).sum + size := by
  rw [take_add_one, hj, sum_append, toList_some, sum_singleton]

theorem Cut.yields_iff (hcut : Cut P data n full) (hn : 0 < n) (h : At data n full 0 psr) (sizes : List Nat) :
    psr.Yields emptyAtEnd data sizes ↔ emptyAtEnd = true → Undisturbed data n sizes := by
  obtain ⟨outs, hreads, houts⟩ := hcut.reads_at (k := 0) hn emptyAtEnd sizes (by rwa [Nat.min_zero])
  simp only [Nat.zero_add] at houts
  constructor
  · rintro ⟨outs', hreads', hyields⟩ hempty j - hj ⟨hpos, hlt, hdvd⟩
    obtain rfl : outs = outs' := Option.some.inj (hreads.symm.trans hreads')
    obtain ⟨eof, hout, heof⟩ := houts j 0 hj
    obtain ⟨_, _, hout', -, hend, -⟩ := hyields j 0 hj
    cases hout.symm.trans hout'
    have hearly := hend (heof.2 (.inr ⟨rfl, hempty, .inr (by rw [min_eq_right hlt.le]; exact ⟨hpos, hdvd⟩)⟩))
    rw [sum_take_succ hj] at hearly
    omega
  · intro hcalm
    refine ⟨outs, hreads, fun j size hj => ?_⟩
    obtain ⟨eof, hout, heof⟩ := houts j size hj
    refine ⟨_, eof, hout, rfl, fun hend => ?_, fun hshort => heof.2 (.inl ?_)⟩
    · rw [sum_take_succ hj]
      rcases heof.1 hend with hover | ⟨rfl, hempty, hedge⟩
      · omega
      · by_contra hlt
        rw [Nat.min_eq_right (by omega)] at hedge
        rcases hedge with hedge | ⟨hpos, hdvd⟩
        · omega
        · exact hcalm hempty j (List.getElem?_eq_some_iff.1 hj).1 hj ⟨hpos, by omega, hdvd⟩
    · rw [length_take, length_drop] at hshort
      omega

theorem Cut.getReader_received (hcut : Cut P data n full) (hdata : data ≠ []) (hn : 0 < n) {seen : List Part}
    (h : (received full seen).isComplete = true) :
    ∃ psr, (received full seen).getReader = some psr ∧ At data n full 0 psr := by
  rw [getReader, if_pos h, hcut.parts_received ((hcut.isComplete_received seen).1 h)]
  have hpos : 0 < full.parts.length := by
    by_contra hzero
    have hle := hcut.length_le_mul (i := 0) hn (by omega)
    exact hdata (length_eq_zero_iff.1 (by omega))
  obtain ⟨slot, parts, hparts⟩ := exists_cons_of_length_pos hpos
  obtain ⟨part, rfl, -, hbytes, -⟩ := hcut.slot 0 slot (by rw [hparts]; rfl)
  rw [hparts]
  refine ⟨⟨part.bytes, parts⟩, rfl, 0, ⟨hpos, by rw [hparts]; rfl, ?_, by omega, by omega, by omega⟩, .inl rfl⟩
  rw [hbytes, Nat.zero_mul, Nat.one_mul, Nat.sub_zero]

end

/-! ## Forged parts -/

/-- What `AddPart` gives to the hash function for a part. -/
def partInputs (P : Primitives) (total : Int) (part : Part) : List Bytes :=
  climbInputs P.tmhash P.pair (proofPath part.proof part.index total) part.bytes

section

variable {P : Primitives} {data : Bytes} {n : Nat} {full : PartSet}

theorem collides_tmhash {pairs : List (Bytes × Bytes)}
    (h : Collides (fun p => simpleHashFromTwoHashes P p.1 p.2) pairs) :
    Collides P.tmhash (pairs.map fun p => P.pair p.1 p.2) := by
  obtain ⟨p, hp, q, hq, hne, heq⟩ := h
  refine ⟨_, List.mem_map_of_mem hp, _, List.mem_map_of_mem hq, fun hpair => hne ?_, heq⟩
  obtain ⟨hl, hr⟩ := P.pair_injective _ _ _ _ hpair
  exact Prod.ext hl hr

/-- A part accepted for the header of a cut set has the bytes of its place, or exhibits a collision. -/
theorem Cut.accepted (hcut : Cut P data n full) {ps ps' : PartSet} {part : Part} {err : Option PartSetError}
    (hheader : ps.header = full.header) (h : ps.addPart P part = some (ps', true, err)) :
    ∃ original, full.parts[part.index.toNat]? = some (some original) ∧
      original.bytes = (data.drop (part.index.toNat * n)).take n ∧
      (part.bytes = original.bytes ∨
        Collides P.tmhash (partInputs P full.total part ++ partInputs P full.total original)) := by
  have hverify := verifyProof_of_addPart h
  have hindex : 0 ≤ part.index ∧ part.index < ps.total := by
    rcases addPart_cases h with ⟨hfalse, -⟩ | ⟨-, -, h0, hlt, -⟩
    · cases hfalse
    · exact ⟨h0, hlt⟩
  obtain ⟨htotal, hhash⟩ : ps.total = full.total ∧ ps.hash = full.hash := by simpa [header] using hheader
  rw [htotal, hhash] at hverify
  rw [htotal, hcut.total] at hindex
  have hlt : part.index.toNat < full.parts.length := by omega
  have hslot := getElem?_eq_getElem hlt
  generalize full.parts[part.index.toNat] = slot at hslot
  obtain ⟨original, rfl, horiginal, hbytes, hverify'⟩ := hcut.slot _ slot hslot
  refine ⟨original, hslot, hbytes, ?_⟩
  have hplace : ((part.index.toNat : Nat) : Int) = part.index := by omega
  rw [hplace] at hverify' horiginal
  rcases leaf_unique hverify hverify' with hleaf | hcollides
  · by_cases heq : part.bytes = original.bytes
    · exact .inl heq
    · exact .inr ⟨_, by simp [partInputs, climbInputs], _, by simp [partInputs, climbInputs], heq, hleaf⟩
  · refine .inr ((collides_tmhash hcollides).mono ?_)
    intro m hm
    rw [map_append] at hm
    rcases mem_append.1 hm with hm | hm
    · exact mem_append_left _ (mem_cons_of_mem _ hm)
    · refine mem_append_right _ (mem_cons_of_mem _ ?_)
      rw [horiginal]
      exact hm

end

/-! ## The transfer -/

/-- The set is made; in whatever order its parts come, each is added the first time, the set is then complete and its
reader yields the data; no other bytes are accepted without a collision. -/
def Transfers (P : Primitives) (emptyAtEnd : Bool) (data : Bytes) (partSize : Int) (sizes : List Nat) : Prop :=
  ∃ full empty, newPartSetFromData P data partSize = some full ∧ newPartSetFromHeader full.header = some empty ∧
    (∀ deliveries : List Part, (∀ part ∈ deliveries, some part ∈ full.parts) →
      ∃ final outs, deliver P empty deliveries = some (final, outs) ∧
        (∀ (k : Nat) (part : Part), deliveries[k]? = some part →
          outs[k]? = some (decide (part ∉ deliveries.take k), none)) ∧
        (final.isComplete = true ↔ ∀ part, some part ∈ full.parts → part ∈ deliveries) ∧
        (final.isComplete = true → ∃ psr, final.getReader = some psr ∧ psr.Yields emptyAtEnd data sizes)) ∧
    ∀ (ps ps' : PartSet) (part : Part) (err : Option PartSetError), ps.header = full.header →
      ps.addPart P part = some (ps', true, err) →
      ∃ original, full.parts[part.index.toNat]? = some (some original) ∧
        original.bytes = (data.drop (part.index.toNat * partSize.toNat)).take partSize.toNat ∧
        (part.bytes = original.bytes ∨
          Collides P.tmhash (partInputs P full.total part ++ partInputs P full.total original))

theorem newPartSetFromData_ne_none_iff (P : Primitives) {data : Bytes} (hdata : data ≠ [])
    (hlen : (data.length : Int) ≤ maxInt64) {partSize : Int} (hpos : 0 < partSize) (hint : partSize ≤ maxInt64) :
    newPartSetFromData P data partSize ≠ none ↔
      (data.length : Int) + partSize - 1 ≤ maxInt64 ∧ ((data.length : Int) + partSize - 1) / partSize ≤
        maxSliceLen := by
  have hone : (1 : Int) ≤ data.length := by
    have hne := length_pos_of_ne_nil hdata
    omega
  have hiff : newPartSetFromData P data partSize ≠ none ↔ 0 < numParts data partSize ∧
    numParts data partSize ≤ maxSliceLen := by
    unfold newPartSetFromData
    split_ifs with hguard
    · exact iff_of_false (fun h => h rfl) (by omega)
    · exact iff_of_true (some_ne_none _) (by omega)
  rw [hiff]
  by_cases hmax : (data.length : Int) + partSize - 1 ≤ maxInt64
  · have heq : numParts data partSize = ((data.length : Int) + partSize - 1) / partSize := by
      rw [numParts, wrap64_eq (by unfold minInt64; omega) hmax, Int.tdiv_eq_ediv_of_nonneg (by omega)]
    have hparts : 0 < numParts data partSize := by
      rw [heq]
      exact (Int.le_ediv_iff_mul_le hpos).2 (by omega)
    rw [heq] at hparts ⊢
    exact ⟨fun h => ⟨hmax, h.2⟩, fun h => ⟨hparts, h.2⟩⟩
  · have hwrap : wrap64 ((data.length : Int) + partSize - 1) ≤ 0 := by
      rw [wrap64_of_maxInt64_lt (by omega) (by unfold maxInt64 at *; omega)]
      unfold maxInt64 at *
      omega
    have hparts : numParts data partSize ≤ 0 := by
      have hneg := Int.tdiv_nonneg (neg_nonneg.2 hwrap) hpos.le
      rw [Int.neg_tdiv] at hneg
      exact neg_nonneg.1 hneg
    exact iff_of_false (fun h => absurd h.1 (by omega)) (fun h => hmax h.1)

/-- **The transfer of a part set, exactly when it works**: for all data, part sizes and buffers, a part set is made,
transferred in any order with any repetitions and read, if and only if the number of parts can be computed and
allocated and, where the end of a part is reported to an empty buffer, none is used at the border of two parts. -/
theorem partSet_transfer_iff (P : Primitives) (emptyAtEnd : Bool) {data : Bytes} (hdata : data ≠ [])
    (hlen : (data.length : Int) ≤ maxInt64) {partSize : Int} (hpos : 0 < partSize) (hint : partSize ≤ maxInt64)
    (sizes : List Nat) : Transfers P emptyAtEnd data partSize sizes ↔
      ((data.length : Int) + partSize - 1 ≤ maxInt64 ∧ ((data.length : Int) + partSize - 1) / partSize ≤ maxSliceLen) ∧
        (emptyAtEnd = true → Undisturbed data partSize.toNat sizes) := by
  have hmade := newPartSetFromData_ne_none_iff P hdata hlen hpos hint
  have hn : 0 < partSize.toNat := by omega
  constructor
  · rintro ⟨full, empty, hnew, hempty, hdeliver, -⟩
    have hfits := hmade.1 (by rw [hnew]; exact some_ne_none _)
    have hcut := Cut.of_newPartSetFromData hfits.1 hnew
    obtain rfl : received full [] = empty := Option.some.inj (hcut.newPartSetFromHeader.symm.trans hempty)
    refine ⟨hfits, ?_⟩
    -- all parts, one after the other
    have hall : ∀ part, part ∈ full.parts.filterMap id ↔ some part ∈ full.parts := fun part => by simp
    obtain ⟨final, outs, hrun, -, hcomplete, hread⟩ := hdeliver (full.parts.filterMap id) fun part hpart =>
      (hall part).1 hpart
    have hdone : final.isComplete = true := hcomplete.2 fun part hpart => (hall part).2 hpart
    obtain ⟨outs', hrun', -⟩ := hcut.deliver_received [] (fun part hpart => (hall part).1 hpart)
    cases hrun.symm.trans hrun'
    obtain ⟨psr, hpsr, hyields⟩ := hread hdone
    obtain ⟨psr', hpsr', hat⟩ := hcut.getReader_received hdata hn hdone
    obtain rfl : psr = psr' := Option.some.inj (hpsr.symm.trans hpsr')
    exact (hcut.yields_iff hn hat sizes).1 hyields
  · rintro ⟨hfits, hcalm⟩
    obtain ⟨full, hnew⟩ := ne_none_iff_exists'.1 (hmade.2 hfits)
    have hcut := Cut.of_newPartSetFromData hfits.1 hnew
    refine ⟨full, received full [], hnew, hcut.newPartSetFromHeader, fun deliveries hfrom => ?_,
      fun ps ps' part err hheader hadd => hcut.accepted hheader hadd⟩
    obtain ⟨outs, hrun, houts⟩ := hcut.deliver_received [] hfrom
    refine ⟨_, outs, hrun, by simpa using houts, hcut.isComplete_received _, fun hdone => ?_⟩
    obtain ⟨psr, hpsr, hat⟩ := hcut.getReader_received hdata hn hdone
    exact ⟨psr, hpsr, (hcut.yields_iff hn hat sizes).2 hcalm⟩

/-- Three bytes in two parts. -/
theorem partSet_transfer_three : ([1, 2, 3] : Bytes) ≠ [] ∧ Transfers .checked true [1, 2, 3] 2 [1, 0, 5, 0] :=
  ⟨by decide, (partSet_transfer_iff .checked true (by decide) (by decide) (by decide) (by decide) _).2 (by decide)⟩

/-- With the largest part size there is no part set of two bytes; an empty buffer between two parts is told of the
end. -/
theorem partSet_transfer_fails : newPartSetFromData .checked [1, 2] maxInt64 = none ∧
    ∃ full psr, newPartSetFromData .checked [1, 2] 1 = some full ∧ full.getReader = some psr ∧
      psr.reads true [1, 0, 1] = some [([1], false), ([], true), ([2], false)] :=
  ⟨by decide +kernel, (newPartSetFromData .checked [1, 2] 1).get (by decide +kernel), ⟨[1], _⟩, (some_get _).symm, rfl,
    by decide +kernel⟩

end Demars.PartSet
