import Demars.Common.BitArray
import Demars.Lib.Machine

/-!
# Bit arrays from the network

`libs/common/bit_array.go` for arrays that come out of a decoder: the number of bits may be negative and need not
fit the words. An index is looked up by a division that rounds towards zero, and whatever lies outside of the words
is a panic, `none`. A `nil` array is the inner `none`.
-/

namespace Demars

open Machine List Option

/-- `cmn.BitArray`, with bits and words as they were sent. -/
structure RawBitArray where
  bits : Int
  elems : List UInt64

/-- What `PickRandom` draws: the word, and the bit in each word, to start at. -/
structure Random where
  elem : Nat
  bit : Nat → Nat

/-- The longest slice of words that `make` allocates on a 64-bit machine. -/
def maxSliceLen : Int := 2 ^ 45

def makeWords (bits : Int) : Option (List UInt64) :=
  let n := (wrap64 (bits + 63)).tdiv 64
  if n < 0 ∨ maxSliceLen < n then none else some (List.replicate n.toNat 0)

def copyWords (dst src : List UInt64) : List UInt64 := src.take dst.length ++ dst.drop src.length

namespace RawBitArray

def newBitArray (bits : Int) : Option (Option RawBitArray) :=
  if bits ≤ 0 then some none else (makeWords bits).map fun elems => some ⟨bits, elems⟩

/-- `bA.Elems[i/64]`. -/
def word (bA : RawBitArray) (i : Int) : Option UInt64 :=
  if i.tdiv 64 < 0 then none else bA.elems[(i.tdiv 64).toNat]?

/-- `uint64(1) << uint(i%64)`; a negative remainder shifts the bit out. -/
def mask (i : Int) : UInt64 := if i.tmod 64 < 0 then 0 else BitArray.mask (i.tmod 64).toNat

def getIndex (bA : RawBitArray) (i : Int) : Option Bool :=
  if i ≥ bA.bits then some false else (bA.word i).map fun w => decide (0 < w &&& mask i)

def setIndex (bA : RawBitArray) (i : Int) (v : Bool) : Option RawBitArray :=
  if i ≥ bA.bits then some bA
  else (bA.word i).map fun w =>
    { bA with elems := bA.elems.set (i.tdiv 64).toNat (if v then w ||| mask i else w &&& ~~~ mask i) }

def copyBits (bA : RawBitArray) (bits : Int) : Option RawBitArray :=
  (makeWords bits).map fun c => ⟨bits, copyWords c bA.elems⟩

/-- A loop over the words of the first array that reads the same words of the second. -/
def zipWords (f : UInt64 → UInt64 → UInt64) : List UInt64 → List UInt64 → Option (List UInt64)
  | [], _ => some []
  | _ :: _, [] => none
  | x :: xs, y :: ys => (zipWords f xs ys).map (f x y :: ·)

def or (bA o : RawBitArray) : Option RawBitArray :=
  (bA.copyBits (max bA.bits o.bits)).bind fun c =>
    (zipWords (· ||| ·) c.elems o.elems).map fun elems => { c with elems }

def and (bA o : RawBitArray) : Option RawBitArray :=
  (bA.copyBits (min bA.bits o.bits)).bind fun c =>
    (zipWords (· &&& ·) c.elems o.elems).map fun elems => { c with elems }

def not (bA : RawBitArray) : RawBitArray := { bA with elems := bA.elems.map (~~~ ·) }

/-- The first loop of `Sub`, over so many words. -/
def clearWords : Nat → List UInt64 → Option (List UInt64)
  | 0, elems => some elems
  | _ + 1, [] => none
  | n + 1, x :: xs => (clearWords n xs).map ((x &&& ~~~ x) :: ·)

/-- The second loop of `Sub`, over so many bits from an index on. -/
def subBits (o : RawBitArray) : Nat → Int → RawBitArray → Option RawBitArray
  | 0, _, c => some c
  | n + 1, idx, c =>
    (c.getIndex idx).bind fun mine =>
      (if mine then (o.getIndex idx).map (! ·) else some false).bind fun v =>
        (c.setIndex idx v).bind fun c => subBits o n (idx + 1) c

def sub (bA o : RawBitArray) : Option RawBitArray :=
  if bA.bits > o.bits then
    (clearWords (o.elems.length - 1) bA.elems).bind fun elems =>
      if o.elems.length = 0 then some { bA with elems }
      else
        let idx : Int := (o.elems.length - 1) * 64
        subBits o (o.bits - idx).toNat idx { bA with elems }
  else bA.and o.not

/-- The search for a bit of a word among the first `n`, in the order of `j`. -/
def pickBit (w : UInt64) (start n : Nat) : Option Nat :=
  ((List.range n).find? fun j => decide (0 < w &&& BitArray.mask ((j + start) % n))).map fun j => (j + start) % n

/-- `elemBits`: how many bits of the last word count. -/
def elemBits (bA : RawBitArray) : Int := if bA.bits.tmod 64 = 0 then 64 else bA.bits.tmod 64

/-- The body of the loop of `PickRandom` at a word; `some none` is to go on. -/
def pickWord (bA : RawBitArray) (rand : Random) (elemIdx : Nat) : Option (Option Nat) :=
  (bA.elems[elemIdx]?).bind fun w =>
    if elemIdx + 1 < bA.elems.length then
      if 0 < w then (pickBit w (rand.bit elemIdx % 64) 64).map fun bitIdx => some (64 * elemIdx + bitIdx)
      else some none
    else
      -- the last word, where the rest of the bits is ignored; `RandIntn` panics unless its bound is positive
      if bA.elemBits ≤ 0 then none
      else some ((pickBit w (rand.bit elemIdx % bA.elemBits.toNat) bA.elemBits.toNat).map fun bitIdx => 64 *
        elemIdx + bitIdx)

def pickWords (bA : RawBitArray) (rand : Random) : List Nat → Option (Option Nat)
  | [] => some none
  | elemIdx :: rest => (bA.pickWord rand elemIdx).bind fun
    | some index => some (some index)
    | none => pickWords bA rand rest

def pickRandom (bA : Option RawBitArray) (rand : Random) : Option (Option Nat) :=
  match bA with
  | none => some none
  | some bA => bA.pickWords rand
      ((List.range bA.elems.length).map fun i => (i + rand.elem % bA.elems.length) % bA.elems.length)

def update (bA o : RawBitArray) : RawBitArray := { bA with elems := copyWords bA.elems o.elems }

def subOf (bA o : Option RawBitArray) : Option (Option RawBitArray) :=
  match bA, o with
  | some bA, some o => (bA.sub o).map some
  | _, _ => some none

def orOf (bA o : Option RawBitArray) : Option (Option RawBitArray) :=
  match bA, o with
  | none, o => some o
  | some bA, none => some (some bA)
  | some bA, some o => (bA.or o).map some

/-! ## Arrays whose words are those of their bits -/

/-- There are bits, and as many words as they need, which fit into memory. -/
structure Agrees (bA : RawBitArray) : Prop where
  pos : 0 < bA.bits
  length : (bA.elems.length : Int) = (bA.bits + 63) / 64
  memory : (bA.elems.length : Int) ≤ maxSliceLen

instance (bA : RawBitArray) : Decidable bA.Agrees :=
  decidable_of_iff (0 < bA.bits ∧ (bA.elems.length : Int) = (bA.bits + 63) / 64 ∧ (bA.elems.length : Int) ≤ maxSliceLen)
    ⟨fun h => ⟨h.1, h.2.1, h.2.2⟩, fun h => ⟨h.1, h.2, h.3⟩⟩

def AgreesOf (bA : Option RawBitArray) : Prop := ∀ b, bA = some b → b.Agrees

instance (bA : Option RawBitArray) : Decidable (AgreesOf bA) :=
  match bA with
  | none => .isTrue fun _ h => nomatch h
  | some b => decidable_of_iff b.Agrees ⟨fun h _ heq => Option.some.inj heq ▸ h, fun h => h b rfl⟩

@[simp] theorem agreesOf_none : AgreesOf none := fun _ h => nomatch h

@[simp] theorem agreesOf_some {bA : RawBitArray} : AgreesOf (some bA) ↔ bA.Agrees :=
  ⟨fun h => h bA rfl, fun h _ heq => Option.some.inj heq ▸ h⟩

theorem makeWords_eq {bits : Int} (hpos : 0 < bits) (hmem : (bits + 63) / 64 ≤ maxSliceLen) :
    makeWords bits = some (List.replicate ((bits + 63) / 64).toNat 0) := by
  unfold maxSliceLen at hmem
  have hwrap : wrap64 (bits + 63) = bits + 63 := wrap64_eq (by unfold minInt64; omega) (by unfold maxInt64; omega)
  have hdiv : (bits + 63).tdiv 64 = (bits + 63) / 64 := Int.tdiv_eq_ediv_of_nonneg (by omega)
  have hok : ¬ ((bits + 63) / 64 < 0 ∨ maxSliceLen < (bits + 63) / 64) := by unfold maxSliceLen; omega
  simp only [makeWords, hwrap, hdiv, if_neg hok]

theorem newBitArray_spec {bits : Int} (hmem : (bits + 63) / 64 ≤ maxSliceLen) :
    ∃ bA, newBitArray bits = some bA ∧ AgreesOf bA := by
  unfold newBitArray
  split_ifs with hpos
  · exact ⟨none, rfl, agreesOf_none⟩
  · have hbits : 0 < bits := by omega
    refine ⟨_, by rw [makeWords_eq hbits hmem, map_some], agreesOf_some.2 ⟨hbits, ?_, ?_⟩⟩
    · simp only [length_replicate]
      omega
    · simp only [length_replicate]
      omega

namespace Agrees

variable {bA o : RawBitArray}

theorem bounds (h : bA.Agrees) : bA.bits ≤ 64 * bA.elems.length ∧ 64 * (bA.elems.length : Int) < bA.bits + 64 := by
  have := h.length
  omega

theorem of_elems {elems : List UInt64} (h : bA.Agrees) (hlen : elems.length = bA.elems.length) :
    ({ bA with elems } : RawBitArray).Agrees :=
      ⟨h.pos, by simpa only [hlen] using h.length, by simpa only [hlen] using h.memory⟩

/-- The word of an index from `-63` up to the last bit. -/
theorem word (h : bA.Agrees) {i : Int} (hlo : -64 < i) (hhi : i < bA.bits) :
    ∃ w, bA.word i = some w ∧ (i.tdiv 64).toNat < bA.elems.length := by
  have hb := h.bounds
  have hpos := h.pos
  have hlt : 0 ≤ i.tdiv 64 ∧ (i.tdiv 64).toNat < bA.elems.length := by
    rcases Int.le_total 0 i with h0 | h0
    · rw [Int.tdiv_eq_ediv_of_nonneg h0]
      omega
    · have hzero : i.tdiv 64 = 0 := by
        rw [show i = -(-i) by ring, Int.neg_tdiv, Int.tdiv_eq_ediv_of_nonneg (by omega)]
        omega
      omega
  refine ⟨bA.elems.get ⟨(i.tdiv 64).toNat, hlt.2⟩, ?_, hlt.2⟩
  rw [RawBitArray.word, if_neg (by omega), getElem?_eq_getElem hlt.2, get_eq_getElem]

theorem getIndex (h : bA.Agrees) {i : Int} (hlo : -64 < i) : ∃ b, bA.getIndex i = some b := by
  unfold RawBitArray.getIndex
  split_ifs with hhi
  · exact ⟨false, rfl⟩
  · obtain ⟨w, hw, -⟩ := h.word hlo (by omega)
    exact ⟨_, by rw [hw, map_some]⟩

theorem setIndex (h : bA.Agrees) {i : Int} (hlo : -64 < i) (v : Bool) :
    ∃ bA', bA.setIndex i v = some bA' ∧ bA'.Agrees ∧ bA'.bits = bA.bits := by
  by_cases hhi : i ≥ bA.bits
  · exact ⟨bA, by rw [RawBitArray.setIndex, if_pos hhi], h, rfl⟩
  · obtain ⟨w, hw, -⟩ := h.word hlo (by omega)
    exact ⟨{ bA with elems := bA.elems.set (i.tdiv 64).toNat (if v then w ||| mask i else w &&& ~~~ mask i) },
      by rw [RawBitArray.setIndex, if_neg hhi, hw, map_some], h.of_elems (length_set ..), rfl⟩

theorem not (h : bA.Agrees) : bA.not.Agrees := h.of_elems (by simp)

theorem update (h : bA.Agrees) (o : RawBitArray) : (bA.update o).Agrees := by
  refine h.of_elems ?_
  simp only [copyWords, length_append, length_take, length_drop]
  omega

/-! ## Or, And, Sub -/

theorem copyBits (bA : RawBitArray) (bits : Int) (hpos : 0 < bits) (hmem : (bits + 63) / 64 ≤ maxSliceLen) :
    ∃ c, bA.copyBits bits = some c ∧ c.bits = bits ∧ c.Agrees := by
  refine ⟨_, by rw [RawBitArray.copyBits, makeWords_eq hpos hmem, map_some], rfl, hpos, ?_, ?_⟩ <;>
  · simp only [copyWords, length_append, length_take, length_drop, length_replicate]
    omega

theorem zipWords_of_le (f : UInt64 → UInt64 → UInt64) {xs ys : List UInt64} (h : xs.length ≤ ys.length) :
    ∃ zs, zipWords f xs ys = some zs ∧ zs.length = xs.length := by
  induction xs generalizing ys with
  | nil => exact ⟨[], rfl, rfl⟩
  | cons x xs ih =>
    cases ys with
    | nil => simp at h
    | cons y ys =>
      obtain ⟨zs, hzs, hlen⟩ := ih (by simpa using h)
      exact ⟨f x y :: zs, by rw [zipWords, hzs, map_some], by simp [hlen]⟩

/-- `Or` with an array that has at least as many words, and as many as its own bits need. -/
theorem or (h : bA.Agrees) (hbits : o.bits ≤ 64 * o.elems.length) (hlen : bA.elems.length ≤ o.elems.length)
    (hmem : (o.elems.length : Int) ≤ maxSliceLen) : ∃ c, bA.or o = some c := by
  have hb := h.bounds
  have hpos := h.pos
  obtain ⟨c, hc, hcbits, hagrees⟩ := copyBits bA (max bA.bits o.bits) (by omega) (by omega)
  have hclen := hagrees.length
  obtain ⟨zs, hzs, -⟩ := zipWords_of_le (· ||| ·) (show c.elems.length ≤ o.elems.length by omega)
  exact ⟨_, by rw [RawBitArray.or, hc, bind_some, hzs, map_some]⟩

theorem and (h : bA.Agrees) (ho : o.Agrees) (hle : bA.bits ≤ o.bits) :
    ∃ c, bA.and o = some c ∧ c.bits = bA.bits ∧ c.Agrees := by
  have hlen := h.length
  have holen := ho.length
  have hmem := h.memory
  obtain ⟨c, hc, hbits, hagrees⟩ := copyBits bA (min bA.bits o.bits) (by have := h.pos; omega) (by omega)
  have hclen := hagrees.length
  obtain ⟨zs, hzs, hzlen⟩ := zipWords_of_le (· &&& ·) (show c.elems.length ≤ o.elems.length by omega)
  refine ⟨_, by rw [RawBitArray.and, hc, bind_some, hzs, map_some], ?_, hagrees.of_elems hzlen⟩
  show c.bits = bA.bits
  omega

theorem clearWords_of_le {n : Nat} {elems : List UInt64} (h : n ≤ elems.length) :
    ∃ elems', clearWords n elems = some elems' ∧ elems'.length = elems.length := by
  induction n generalizing elems with
  | zero => exact ⟨elems, rfl, rfl⟩
  | succ n ih =>
    cases elems with
    | nil => simp at h
    | cons x xs =>
      obtain ⟨xs', hxs, hlen⟩ := ih (by simpa using h)
      exact ⟨_, by rw [clearWords, hxs, map_some], by simp [hlen]⟩

theorem subBits (ho : o.Agrees) {n : Nat} {idx : Int} (h : bA.Agrees) (hidx : 0 ≤ idx) :
    ∃ c, RawBitArray.subBits o n idx bA = some c ∧ c.bits = bA.bits ∧ c.Agrees := by
  induction n generalizing idx bA with
  | zero => exact ⟨bA, rfl, rfl, h⟩
  | succ n ih =>
    obtain ⟨mine, hmine⟩ := h.getIndex (i := idx) (by omega)
    obtain ⟨theirs, htheirs⟩ := ho.getIndex (i := idx) (by omega)
    have hv : ∃ v, (if mine then (o.getIndex idx).map (! ·) else some false) = some v := by
      rw [htheirs]
      cases mine
      · exact ⟨false, rfl⟩
      · exact ⟨!theirs, rfl⟩
    obtain ⟨v, hv⟩ := hv
    obtain ⟨c, hc, hagrees, hbits⟩ := h.setIndex (i := idx) (by omega) v
    obtain ⟨c', hc', hbits', hagrees'⟩ := ih hagrees (by omega : 0 ≤ idx + 1)
    refine ⟨c', ?_, hbits'.trans hbits, hagrees'⟩
    rw [RawBitArray.subBits, hmine, bind_some, hv, bind_some, hc, bind_some, hc']

theorem sub (h : bA.Agrees) (ho : o.Agrees) : ∃ c, bA.sub o = some c ∧ c.bits = bA.bits ∧ c.Agrees := by
  unfold RawBitArray.sub
  split_ifs with hgt hzero
  · have := ho.length
    have := ho.pos
    omega
  · have hb := h.bounds
    have hob := ho.bounds
    obtain ⟨elems, helems, hlen⟩ := clearWords_of_le (show o.elems.length - 1 ≤ bA.elems.length by omega)
    rw [helems]
    have hcleared : ({ bA with elems } : RawBitArray).Agrees := h.of_elems hlen
    exact subBits ho hcleared (by omega)
  · exact h.and ho.not (by show bA.bits ≤ o.bits; omega)

/-! ## PickRandom -/

theorem exists_bit {w : UInt64} (h : 0 < w) : ∃ k, k < 64 ∧ 0 < w &&& BitArray.mask k := by
  have hne : w.toNat ≠ 0 := by
    rw [UInt64.lt_iff_toNat_lt] at h
    omega
  obtain ⟨k, hk⟩ := Nat.exists_testBit_of_ne_zero hne
  have hlt : k < 64 := by
    by_contra hge
    have : w.toNat < 2 ^ k := lt_of_lt_of_le w.toNat_lt (Nat.pow_le_pow_right (by omega) (by omega))
    rw [Nat.testBit_lt_two_pow this] at hk
    cases hk
  refine ⟨k, hlt, ?_⟩
  have := BitArray.pos_and_mask w k
  rw [Nat.mod_eq_of_lt hlt, hk] at this
  exact of_decide_eq_true this

theorem pickBit_of_pos {w : UInt64} (h : 0 < w) (start : Nat) : ∃ k, pickBit w start 64 = some k := by
  obtain ⟨k, hk, hbit⟩ := exists_bit h
  -- the bit `k` is met at `j = k - start` modulo 64
  have hj : ((k + (64 - start % 64)) % 64 + start) % 64 = k := by omega
  have hfound : ((List.range 64).find? fun j => decide (0 < w &&& BitArray.mask ((j + start) % 64))).isSome := by
    rw [find?_isSome]
    exact ⟨(k + (64 - start % 64)) % 64, mem_range.2 (Nat.mod_lt _ (by omega)), by rw [hj]; exact decide_eq_true hbit⟩
  obtain ⟨j, hj⟩ := isSome_iff_exists.1 hfound
  exact ⟨_, by rw [pickBit, hj, map_some]⟩

theorem pickBit_lt {w : UInt64} {start n k : Nat} (h : pickBit w start n = some k) : k < n := by
  obtain ⟨j, hj, rfl⟩ := map_eq_some_iff.1 h
  have := mem_range.1 (mem_of_find?_eq_some hj)
  exact Nat.mod_lt _ (by omega)

theorem elemBits (h : bA.Agrees) : 0 < bA.elemBits ∧ 64 * (bA.elems.length - 1 : Int) + bA.elemBits = bA.bits := by
  have hlen := h.length
  have hpos := h.pos
  unfold RawBitArray.elemBits
  rw [Int.tmod_eq_emod_of_nonneg hpos.le]
  split_ifs <;> omega

theorem pickWord (h : bA.Agrees) (rand : Random) {elemIdx : Nat} (hlt : elemIdx < bA.elems.length) :
    ∃ index, bA.pickWord rand elemIdx = some index ∧ ∀ i, index = some i → (i : Int) < bA.bits := by
  have hb := h.bounds
  rw [RawBitArray.pickWord, getElem?_eq_getElem hlt, bind_some]
  split_ifs with hlast hw hzero
  · obtain ⟨k, hk⟩ := pickBit_of_pos hw (rand.bit elemIdx % 64)
    refine ⟨_, by rw [hk, map_some], fun i hi => ?_⟩
    have := pickBit_lt hk
    cases hi
    omega
  · exact ⟨none, rfl, fun _ hi => nomatch hi⟩
  · exact absurd h.elemBits.1 (by omega)
  · refine ⟨_, rfl, fun i hi => ?_⟩
    obtain ⟨k, hk, rfl⟩ := map_eq_some_iff.1 hi
    have hk := pickBit_lt hk
    have hbits := h.elemBits
    omega

theorem pickWords (h : bA.Agrees) (rand : Random) (idxs : List Nat) (hidxs : ∀ i ∈ idxs, i < bA.elems.length) :
    ∃ index, bA.pickWords rand idxs = some index ∧ ∀ i, index = some i → (i : Int) < bA.bits := by
  induction idxs with
  | nil => exact ⟨none, rfl, fun _ hi => nomatch hi⟩
  | cons elemIdx rest ih =>
    obtain ⟨index, hindex, hlt⟩ := h.pickWord rand (hidxs elemIdx mem_cons_self)
    rw [RawBitArray.pickWords, hindex]
    cases index with
    | some index => exact ⟨_, rfl, hlt⟩
    | none => exact ih fun i hi => hidxs i (mem_cons_of_mem _ hi)

end Agrees

theorem AgreesOf.pickRandom {bA : Option RawBitArray} (h : AgreesOf bA) (rand : Random) :
    ∃ index, RawBitArray.pickRandom bA rand = some index ∧ ∀ i, index = some i → ∃ b, bA = some b ∧
      (i : Int) < b.bits := by
  cases bA with
  | none => exact ⟨none, rfl, fun _ hi => nomatch hi⟩
  | some bA =>
    have hb := (h bA rfl).bounds
    have hpos := (h bA rfl).pos
    obtain ⟨index, hindex, hlt⟩ := (h bA rfl).pickWords rand
      ((List.range bA.elems.length).map fun i => (i + rand.elem % bA.elems.length) % bA.elems.length) (by
        intro i hi
        obtain ⟨j, -, rfl⟩ := List.mem_map.1 hi
        exact Nat.mod_lt _ (by omega))
    exact ⟨index, hindex, fun i hi => ⟨bA, rfl, hlt i hi⟩⟩

theorem AgreesOf.subOf {bA o : Option RawBitArray} (h : AgreesOf bA) (ho : AgreesOf o) :
    ∃ c, RawBitArray.subOf bA o = some c ∧ AgreesOf c ∧ ∀ c', c = some c' → ∃ b, bA = some b ∧ c'.bits = b.bits := by
  cases bA with
  | none => exact ⟨none, rfl, agreesOf_none, fun _ hc => nomatch hc⟩
  | some bA =>
    cases o with
    | none => exact ⟨none, rfl, agreesOf_none, fun _ hc => nomatch hc⟩
    | some o =>
      obtain ⟨c, hc, hbits, hagrees⟩ := (h bA rfl).sub (ho o rfl)
      exact ⟨some c, by rw [RawBitArray.subOf, hc, map_some], agreesOf_some.2 hagrees,
        fun c' hc' => ⟨bA, rfl, Option.some.inj hc' ▸ hbits⟩⟩

end RawBitArray

/-- An array of the node itself. -/
def BitArray.raw (bA : BitArray) : RawBitArray := ⟨bA.bits, bA.elems⟩

theorem BitArray.Wf.agrees {bA : BitArray} (h : bA.Wf) (hpos : 0 < bA.bits) (hmem : (bA.bits : Int) ≤ maxSliceLen) :
    bA.raw.Agrees := by
  unfold Wf at h
  refine ⟨by simpa [raw] using hpos, ?_, ?_⟩ <;> simp only [raw] <;> omega

end Demars
