import Mathlib.Data.List.Sublists
import Demars.Autofile.Group
import Demars.Lib.Codec
import Demars.Lib.Frames

/-!
# The records of the write-ahead log

`consensus/wal.go`: how a message is written as a record with its checksum and its length, how records are read
back, and the search for the end of a height, which goes through the files from the newest one to the oldest and
reads each time to the end of the log.
-/

namespace Demars

open Autofile List

/-- `WALMessage`: the types that `RegisterWALMessages` registers. -/
inductive WALMessage (ρ ι τ : Type) where
  | eventDataRoundState (m : ρ)
  | msgInfo (m : ι)
  | timeoutInfo (m : τ)
  /-- `EndHeightMessage`. -/
  | endHeight (height : Int)
deriving DecidableEq

structure TimedWALMessage (ρ ι τ : Type) where
  time : Int
  msg : WALMessage ρ ι τ
deriving DecidableEq

variable {ρ ι τ : Type}

def TimedWALMessage.endHeight? (m : TimedWALMessage ρ ι τ) : Option Int :=
  match m.msg with
  | .endHeight height => some height
  | _ => none

/-- The amino coding of the messages, which reads back what it has written, and CRC-32. -/
structure WalCodec (ρ ι τ : Type) where
  marshal : TimedWALMessage ρ ι τ → Bytes
  unmarshal : Bytes → Option (TimedWALMessage ρ ι τ)
  checksum : Bytes → UInt32
  unmarshal_marshal : ∀ m, unmarshal (marshal m) = some m
  marshal_ne_nil : ∀ m, marshal m ≠ []

/-- A codec that can be evaluated, with the sum of the bytes for the checksum. -/
def WalCodec.plain : WalCodec Nat Nat Nat :=
  let code := Code.int.prod (Code.nat.prod Code.int)
  let toMsg : Nat × Int → WALMessage Nat Nat Nat
    | (0, n) => .eventDataRoundState n.toNat
    | (1, n) => .msgInfo n.toNat
    | (2, n) => .timeoutInfo n.toNat
    | (_, n) => .endHeight n
  let ofMsg : WALMessage Nat Nat Nat → Nat × Int
    | .eventDataRoundState n => (0, n)
    | .msgInfo n => (1, n)
    | .timeoutInfo n => (2, n)
    | .endHeight n => (3, n)
  { marshal := fun m => code.enc (m.time, ofMsg m.msg)
    unmarshal := fun bz => (code.decode bz).map fun r => ⟨r.1, toMsg r.2⟩
    checksum := fun bz => bz.foldl (fun n b => n + b.toUInt32) 0
    unmarshal_marshal := by
      rintro ⟨time, msg⟩
      rw [code.decode_enc]
      cases msg <;> rfl
    marshal_ne_nil := fun m => Code.int.prod_ne_nil _ Code.int_ne_nil _ }

/-! ## Records -/

def putUint32 (n : Nat) : Bytes :=
  [UInt8.ofNat (n / 2 ^ 24), UInt8.ofNat (n / 2 ^ 16), UInt8.ofNat (n / 2 ^ 8), UInt8.ofNat n]

def uint32 (b : Bytes) : Nat := b.foldl (fun n x => n * 256 + x.toNat) 0

@[simp] theorem length_putUint32 (n : Nat) : (putUint32 n).length = 4 := rfl

theorem uint32_putUint32 (n : Nat) : uint32 (putUint32 n) = n % 2 ^ 32 := by
  simp only [uint32, putUint32, foldl_cons, foldl_nil, UInt8.toNat_ofNat']
  omega

def maxMsgSizeBytes : Nat := 1024 * 1024

inductive DecodeError where
  /-- `io.EOF`. -/
  | eof
  /-- "failed to read checksum". -/
  | readChecksum (err : ReadError)
  /-- "failed to read length". -/
  | readLength (err : ReadError)
  /-- "length exceeded maximum possible value". -/
  | lengthExceeded (length : Nat)
  /-- "failed to read data". -/
  | readData (err : ReadError)
  /-- "checksums do not match". -/
  | checksumsDiffer (read actual : Nat)
  /-- "failed to decode data". -/
  | undecodable
deriving DecidableEq

def DecodeError.isDataCorruptionError : DecodeError → Bool
  | .checksumsDiffer _ _ | .undecodable => true
  | _ => false

inductive SearchError where
  | newReader (err : ReadError)
  | decode (err : DecodeError)
deriving DecidableEq

namespace WalCodec

variable (C : WalCodec ρ ι τ)

/-- `WALEncoder.Encode`: the length is cut to 32 bits, and with it the data. -/
def encode (m : TimedWALMessage ρ ι τ) : Bytes :=
  let data := C.marshal m
  let length := data.length % 2 ^ 32
  putUint32 (C.checksum data).toNat ++ (putUint32 length ++ data.take length)

/-- `WALDecoder.Decode`, with the reader afterwards. -/
def decode (gr : GroupReader) : Except DecodeError (TimedWALMessage ρ ι τ) × GroupReader :=
  match gr.read 4 with
  | (_, some .eof, gr) => (.error .eof, gr)
  | (_, some err, gr) => (.error (.readChecksum err), gr)
  | (b, none, gr) =>
    let crc := uint32 b
    match gr.read 4 with
    | (_, some err, gr) => (.error (.readLength err), gr)
    | (b, none, gr) =>
      let length := uint32 b
      if maxMsgSizeBytes < length then (.error (.lengthExceeded length), gr)
      else match gr.read length with
        | (_, some err, gr) => (.error (.readData err), gr)
        | (data, none, gr) =>
          if (C.checksum data).toNat ≠ crc then (.error (.checksumsDiffer crc (C.checksum data).toNat), gr)
          else match C.unmarshal data with
            | none => (.error .undecodable, gr)
            | some m => (.ok m, gr)

/-- The length of a message's data fits into its field. -/
def Encodes (m : TimedWALMessage ρ ι τ) : Prop := (C.marshal m).length < 2 ^ 32

/-- The decoder accepts the length of the message's data. -/
def Fits (m : TimedWALMessage ρ ι τ) : Prop := (C.marshal m).length ≤ maxMsgSizeBytes

instance (m : TimedWALMessage ρ ι τ) : Decidable (C.Encodes m) := Nat.decLt _ _

instance (m : TimedWALMessage ρ ι τ) : Decidable (C.Fits m) := Nat.decLe _ _

def records (ms : List (TimedWALMessage ρ ι τ)) : Bytes := ms.flatMap C.encode

def Whole (bz : Bytes) : Prop := ∃ ms, (∀ m ∈ ms, C.Fits m) ∧ bz = C.records ms

variable {C} {m : TimedWALMessage ρ ι τ}

theorem Fits.encodes (h : C.Fits m) : C.Encodes m := lt_of_le_of_lt h (by decide)

theorem encode_eq (h : C.Encodes m) : C.encode m =
    putUint32 (C.checksum (C.marshal m)).toNat ++ (putUint32 (C.marshal m).length ++ C.marshal m) := by
  rw [encode, Nat.mod_eq_of_lt h, take_length]

theorem length_encode (h : C.Encodes m) : (C.encode m).length = 8 + (C.marshal m).length := by
  rw [encode_eq h]
  simp only [length_append, length_putUint32]
  omega

theorem encode_ne_nil (m : TimedWALMessage ρ ι τ) : C.encode m ≠ [] := by simp [encode, putUint32]

theorem marshal_injective : Function.Injective C.marshal := by
  intro a b h
  have ha := C.unmarshal_marshal a
  rw [h, C.unmarshal_marshal b] at ha
  exact (Option.some.inj ha).symm

theorem putUint32_injOn {n k : Nat} (hn : n < 2 ^ 32) (hk : k < 2 ^ 32) (h : putUint32 n = putUint32 k) : n = k := by
  have heq := congrArg uint32 h
  rwa [uint32_putUint32, uint32_putUint32, Nat.mod_eq_of_lt hn, Nat.mod_eq_of_lt hk] at heq

theorem selfDelimiting_encode : Frames.SelfDelimiting C.encode C.Encodes := by
  intro a b ha hb x y h
  rw [encode_eq ha, encode_eq hb] at h
  simp only [append_assoc] at h
  have hafter := (append_inj h rfl).2
  obtain ⟨hlength, hdata⟩ := append_inj hafter rfl
  exact marshal_injective (append_inj hdata (putUint32_injOn ha hb hlength)).1

/-! ## What the decoder makes of the log -/

variable {gr : GroupReader}

theorem decode_header {bz : Bytes} (hgr : gr.Complete) {crc length : Nat}
    (hrem : gr.remaining = putUint32 crc ++ (putUint32 length ++ bz)) :
    ∃ gr', gr'.Complete ∧ gr'.remaining = bz ∧ C.decode gr =
        if maxMsgSizeBytes < length % 2 ^ 32 then (.error (.lengthExceeded (length % 2 ^ 32)), gr')
        else match gr'.read (length % 2 ^ 32) with
          | (_, some err, gr) => (.error (.readData err), gr)
          | (data, none, gr) =>
            if (C.checksum data).toNat ≠ crc % 2 ^ 32 then
              (.error (.checksumsDiffer (crc % 2 ^ 32) (C.checksum data).toNat), gr)
            else match C.unmarshal data with
              | none => (.error .undecodable, gr)
              | some m => (.ok m, gr) := by
  obtain ⟨gr₁, hread₁, hgr₁, hrem₁⟩ := GroupReader.read_enough hgr (by decide) (length_putUint32 crc) hrem
  obtain ⟨gr₂, hread₂, hgr₂, hrem₂⟩ := GroupReader.read_enough hgr₁ (by decide) (length_putUint32 length) hrem₁
  refine ⟨gr₂, hgr₂, hrem₂, ?_⟩
  rw [decode, hread₁]
  dsimp only
  rw [hread₂]
  dsimp only
  rw [uint32_putUint32, uint32_putUint32]

/-- The decoder accepts the record: its length, the checksum of the data and the data. -/
def Readable (C : WalCodec ρ ι τ) (m : TimedWALMessage ρ ι τ) : Prop :=
  let length := (C.marshal m).length % 2 ^ 32
  let data := (C.marshal m).take length
  length ≤ maxMsgSizeBytes ∧ length ≠ 0 ∧ C.checksum data = C.checksum (C.marshal m) ∧ C.unmarshal data = some m

theorem Fits.readable (h : C.Fits m) : C.Readable m := by
  rw [Readable, Nat.mod_eq_of_lt h.encodes, take_length]
  exact ⟨h, by simpa using C.marshal_ne_nil m, rfl, C.unmarshal_marshal m⟩

theorem decode_record {bz : Bytes} (hgr : gr.Complete) (hrem : gr.remaining = C.encode m ++ bz) :
    (C.Readable m ∧ ∃ gr', C.decode gr = (.ok m, gr') ∧ gr'.Complete ∧ gr'.remaining = bz) ∨
      (¬ C.Readable m ∧ (C.decode gr).1 ≠ .ok m ∧ (C.decode gr).1 ≠ .error .eof) := by
  rw [encode, append_assoc, append_assoc] at hrem
  obtain ⟨gr', hgr', hrem', hdecode⟩ := decode_header (C := C) hgr hrem
  rw [Nat.mod_mod, Nat.mod_eq_of_lt (UInt32.toNat_lt _)] at hdecode
  rw [hdecode, Readable]
  have hle := Nat.mod_le (C.marshal m).length (2 ^ 32)
  generalize (C.marshal m).length % 2 ^ 32 = length at hle hrem' ⊢
  by_cases hmax : maxMsgSizeBytes < length
  · rw [if_pos hmax]
    exact .inr ⟨fun h => absurd h.1 (by omega), by simp, by simp⟩
  rw [if_neg hmax]
  by_cases hzero : length = 0
  · -- the length was cut to nothing, and the reader refuses the empty buffer
    exact .inr ⟨fun h => h.2.1 hzero, by simp [GroupReader.read, hzero], by simp [GroupReader.read, hzero]⟩
  obtain ⟨gr'', hread, hgr'', hrem''⟩ := GroupReader.read_enough hgr' hzero (length_take_of_le hle) hrem'
  rw [hread]
  dsimp only
  generalize (C.marshal m).take length = data
  by_cases hsum : C.checksum data = C.checksum (C.marshal m)
  · rw [if_neg (not_not.2 (congrArg _ hsum))]
    cases hm : C.unmarshal data with
    | none => exact .inr ⟨by simp, by simp, by simp⟩
    | some m' =>
      by_cases heq : m' = m
      · exact .inl ⟨⟨by omega, hzero, hsum, by rw [heq]⟩, gr'', by rw [heq], hgr'', hrem''⟩
      · exact .inr ⟨fun h => heq (Option.some.inj h.2.2.2), by simpa using heq, by simp⟩
  · rw [if_pos fun h => hsum (UInt32.toNat_inj.1 h)]
    exact .inr ⟨fun h => hsum h.2.2.1, by simp, by simp⟩

theorem decode_encode {bz : Bytes} (hgr : gr.Complete) (hm : C.Fits m) (hrem : gr.remaining = C.encode m ++ bz) :
    ∃ gr', C.decode gr = (.ok m, gr') ∧ gr'.Complete ∧ gr'.remaining = bz := by
  rcases decode_record hgr hrem with ⟨-, h⟩ | ⟨h, -⟩
  · exact h
  · exact absurd hm.readable h

theorem decode_eof (hgr : gr.Complete) (hrem : gr.remaining.length < 4) : (C.decode gr).1 = .error .eof := by
  obtain ⟨gr', hread⟩ := GroupReader.read_short hgr hrem
  rw [decode, hread]

theorem decode_exceeded {bz : Bytes} (hgr : gr.Complete) (hm : C.Encodes m) (hfits : ¬ C.Fits m)
    (hrem : gr.remaining = C.encode m ++ bz) : (C.decode gr).1 = .error (.lengthExceeded (C.marshal m).length) := by
  rw [encode_eq hm, append_assoc, append_assoc] at hrem
  obtain ⟨gr', -, -, hdecode⟩ := decode_header (C := C) hgr hrem
  rw [hdecode, Nat.mod_eq_of_lt hm, if_pos (Nat.not_le.1 hfits)]

/-- `Decode` until it reports an error: the messages and the error. -/
def decodeAll (C : WalCodec ρ ι τ) : Nat → GroupReader → List (TimedWALMessage ρ ι τ) × Option DecodeError
  | 0, _ => ([], none)
  | n + 1, gr =>
    match C.decode gr with
    | (.error err, _) => ([], some err)
    | (.ok m, gr) => (m :: (decodeAll C n gr).1, (decodeAll C n gr).2)

/-- A row of records is read back if the decoder accepts each of them. -/
theorem decodeAll_records_iff {ms : List (TimedWALMessage ρ ι τ)} (hgr : gr.Complete)
    (hrem : gr.remaining = C.records ms) {n : Nat} (hn : ms.length < n) :
    C.decodeAll n gr = (ms, some .eof) ↔ ∀ m ∈ ms, C.Readable m := by
  induction ms generalizing gr n with
  | nil =>
    obtain ⟨n, rfl⟩ := Nat.exists_eq_succ_of_ne_zero (Nat.ne_zero_of_lt hn)
    have heof := decode_eof (C := C) hgr (by simp [hrem, records])
    rcases hd : C.decode gr with ⟨res, gr'⟩
    rw [hd] at heof
    simp [decodeAll, hd, show res = _ from heof]
  | cons m ms ih =>
    obtain ⟨n, rfl⟩ := Nat.exists_eq_succ_of_ne_zero (Nat.ne_zero_of_lt hn)
    rw [records, flatMap_cons] at hrem
    rcases decode_record hgr hrem with ⟨hm, gr', hdecode, hgr', hrem'⟩ | ⟨hm, hne, heof⟩
    · have hrest := ih hgr' hrem' (Nat.lt_of_succ_lt_succ hn)
      simpa [decodeAll, hdecode, hm, Prod.ext_iff] using hrest
    · refine iff_of_false (fun h => ?_) fun h => hm (h m mem_cons_self)
      rcases hd : C.decode gr with ⟨err | m', gr'⟩
      · simp [decodeAll, hd] at h
      · simp only [decodeAll, hd, Prod.mk.injEq, cons.injEq] at h
        exact hne (by rw [hd, h.1.1])

theorem decodeAll_two_files :
    plain.decodeAll 3 ⟨(plain.records [⟨0, .msgInfo 1⟩, ⟨7, .endHeight 2⟩]).take 9,
      [some ((plain.records [⟨0, .msgInfo 1⟩, ⟨7, .endHeight 2⟩]).drop 9)]⟩ =
        ([⟨0, .msgInfo 1⟩, ⟨7, .endHeight 2⟩], some .eof) :=
  (decodeAll_records_iff (by simp [GroupReader.Complete]) (by simp [GroupReader.remaining]) (by decide)).2 fun m hm =>
    Fits.readable ((by decide +kernel : ∀ m ∈ [⟨0, .msgInfo 1⟩, ⟨7, .endHeight 2⟩], plain.Fits m) m hm)

theorem marshal_plain_msgInfo (n : Nat) :
    plain.marshal ⟨0, .msgInfo n⟩ = [0, 0, 1, 0, 0] ++ (List.replicate n 1 ++ [0]) := by
  simp [plain, Code.prod, Code.int, Code.nat, Code.map, Code.byte, Code.encNat]

theorem decodeAll_exceeded (hm : C.Encodes m) (hfits : ¬ C.Fits m) (n : Nat) (ms : List (TimedWALMessage ρ ι τ)) :
    C.decodeAll (n + 1) ⟨C.records (m :: ms), []⟩ = ([], some (.lengthExceeded (C.marshal m).length)) := by
  have herr : (C.decode ⟨C.records (m :: ms), []⟩).1 = _ := decode_exceeded not_mem_nil hm hfits
    (by rw [GroupReader.remaining, map_nil, flatten_nil, append_nil, records, flatMap_cons])
  rcases hd : C.decode ⟨C.records (m :: ms), []⟩ with ⟨res, gr⟩
  rw [hd] at herr
  cases herr
  rw [decodeAll, hd]

/-- The encoder takes a message that is longer than the decoder allows. -/
theorem decodeAll_too_long : plain.decodeAll 2 ⟨plain.records [⟨0, .msgInfo maxMsgSizeBytes⟩], []⟩ =
    ([], some (.lengthExceeded (maxMsgSizeBytes + 6))) := by
  have hlen : ∀ n, (plain.marshal ⟨0, .msgInfo n⟩).length = n + 6 := by simp [marshal_plain_msgInfo]
  rw [decodeAll_exceeded (by rw [Encodes, hlen]; decide) (by rw [Fits, hlen]; omega), hlen]

/-- The error for a record of which only the first bytes are there. -/
def tornError (C : WalCodec ρ ι τ) (m : TimedWALMessage ρ ι τ) (cut : Nat) : DecodeError :=
  if cut < 4 then .eof
  else if cut < 8 then .readLength .eof
  else if maxMsgSizeBytes < (C.marshal m).length then .lengthExceeded (C.marshal m).length
  else .readData .eof

theorem decode_torn {cut : Nat} (hgr : gr.Complete) (hm : C.Encodes m) (hcut : cut < (C.encode m).length)
    (hrem : gr.remaining = (C.encode m).take cut) : (C.decode gr).1 = .error (C.tornError m cut) := by
  have hlen : gr.remaining.length = cut := by rw [hrem, length_take_of_le (Nat.le_of_lt hcut)]
  unfold tornError
  by_cases h4 : cut < 4
  · rw [if_pos h4]
    exact decode_eof hgr (by rw [hlen]; exact h4)
  rw [if_neg h4]
  rw [length_encode hm] at hcut
  rw [encode_eq hm, take_append, take_of_length_le (Nat.le_of_not_lt h4), length_putUint32, take_append,
    length_putUint32] at hrem
  by_cases h8 : cut < 8
  · rw [if_pos h8]
    obtain ⟨gr₁, hread₁, hgr₁, hrem₁⟩ := GroupReader.read_enough hgr (by decide) (length_putUint32 _) hrem
    have hshort : gr₁.remaining.length < 4 := by
      rw [hrem₁]
      simp only [length_append, length_take, length_putUint32]
      omega
    obtain ⟨gr₂, hread₂⟩ := GroupReader.read_short hgr₁ hshort
    rw [decode, hread₁]
    dsimp only
    rw [hread₂]
  rw [if_neg h8]
  rw [take_of_length_le (show (putUint32 (C.marshal m).length).length ≤ cut - 4 by rw [length_putUint32]; omega)]
    at hrem
  obtain ⟨gr', hgr', hrem', hdecode⟩ := decode_header (C := C) hgr hrem
  rw [hdecode, Nat.mod_eq_of_lt hm]
  split
  · rfl
  · have hshort : gr'.remaining.length < (C.marshal m).length := by
      rw [hrem', length_take]
      omega
    obtain ⟨gr'', hread⟩ := GroupReader.read_short hgr' hshort
    rw [hread]

/-! ## The search -/

/-- The loop of `SearchForEndHeight` over the records: the last height found, and the reader after the marker. -/
def scan (C : WalCodec ρ ι τ) (height : Int) (ignoreDataCorruptionErrors : Bool) :
    Nat → Int → GroupReader → Except DecodeError (Int × Option GroupReader)
  | 0, lastHeightFound, _ => .ok (lastHeightFound, none)
  | n + 1, lastHeightFound, gr =>
    match C.decode gr with
    | (.error .eof, _) => .ok (lastHeightFound, none)
    | (.error err, gr) =>
      if ignoreDataCorruptionErrors && err.isDataCorruptionError then
        scan C height ignoreDataCorruptionErrors n lastHeightFound gr
      else .error err
    | (.ok m, gr) =>
      match m.endHeight? with
      | some found =>
        if found = height then .ok (found, some gr) else scan C height ignoreDataCorruptionErrors n found gr
      | none => scan C height ignoreDataCorruptionErrors n lastHeightFound gr

/-- The loop of `SearchForEndHeight` over the files that are left. -/
def searchLoop (C : WalCodec ρ ι τ) (g : Group) (height : Int) (ignoreDataCorruptionErrors : Bool) :
    Int → Nat → Except SearchError (Option GroupReader)
  | _, 0 => .ok none
  | lastHeightFound, n + 1 =>
    match g.newReader (g.minIndex + n) with
    | .error err => .error (.newReader err)
    | .ok gr =>
      match C.scan height ignoreDataCorruptionErrors (gr.remaining.length + 1) lastHeightFound gr with
      | .error err => .error (.decode err)
      | .ok (_, some gr) => .ok (some gr)
      | .ok (lastHeightFound, none) =>
        -- no need to look for the height in older files
        if 0 < lastHeightFound ∧ lastHeightFound < height then .ok none
        else searchLoop C g height ignoreDataCorruptionErrors lastHeightFound n

/-- `baseWAL.SearchForEndHeight`: the reader after the marker, if it is found. -/
def searchForEndHeight (C : WalCodec ρ ι τ) (g : Group) (height : Int) (ignoreDataCorruptionErrors : Bool) :
    Except SearchError (Option GroupReader) :=
  C.searchLoop g height ignoreDataCorruptionErrors (-1) (g.maxIndex + 1 - g.minIndex)

/-- The last height whose end is marked, or the one before. -/
def lastHeight (last : Int) (ms : List (TimedWALMessage ρ ι τ)) : Int :=
  ms.foldl (fun last m => m.endHeight?.getD last) last

theorem lastHeight_cases (ms : List (TimedWALMessage ρ ι τ)) :
    (∀ last, lastHeight last ms = last) ∨ ∃ m ∈ ms, ∃ height, m.endHeight? = some height ∧
    ∀ last, lastHeight last ms = height := by
  induction ms with
  | nil => exact .inl fun _ => rfl
  | cons m ms ih =>
    rcases ih with ih | ⟨m', hm', height, hheight, ih⟩
    · cases h : m.endHeight? with
      | none => exact .inl fun last => by rw [lastHeight, foldl_cons, h]; exact ih last
      | some height =>
        exact .inr ⟨m, mem_cons_self, height, h, fun last => by rw [lastHeight, foldl_cons, h]; exact ih height⟩
    · exact .inr ⟨m', mem_cons_of_mem m hm', height, hheight, fun last => by rw [lastHeight, foldl_cons]; exact ih _⟩

theorem lastHeight_again (last : Int) (ms ms' : List (TimedWALMessage ρ ι τ)) :
    lastHeight (lastHeight last ms') (ms ++ ms') = lastHeight last (ms ++ ms') := by
  have happend : ∀ last, lastHeight last (ms ++ ms') = lastHeight (lastHeight last ms) ms' := fun _ => foldl_append
  rw [happend, happend]
  rcases lastHeight_cases ms' with h | ⟨-, -, height, -, h⟩
  · rw [h, h, h]
  · rw [h, h]

theorem length_le_records (ms : List (TimedWALMessage ρ ι τ)) : ms.length ≤ (C.records ms).length := by
  induction ms with
  | nil => exact Nat.zero_le _
  | cons m ms ih =>
    have hpos := length_pos_of_ne_nil (encode_ne_nil (C := C) m)
    rw [records] at ih ⊢
    rw [flatMap_cons, length_append, length_cons]
    omega

/-- The loop finds the first marker of the height, or ends as the decoder does. -/
theorem scan_spec {height : Int} {ignore : Bool} {tail : Bytes} {err : DecodeError}
    (hend : ∀ gr : GroupReader, gr.Complete → gr.remaining = tail → (C.decode gr).1 = .error err)
    (herr : err.isDataCorruptionError = false) {ms : List (TimedWALMessage ρ ι τ)} (hfits : ∀ m ∈ ms, C.Fits m)
    {gr : GroupReader} (hgr : gr.Complete) (hrem : gr.remaining = C.records ms ++ tail) {n : Nat} (hn : ms.length < n)
    (last : Int) :
    (∃ pre m post gr', ms = pre ++ m :: post ∧ m.endHeight? = some height ∧
        C.scan height ignore n last gr = .ok (height, some gr') ∧ gr'.Complete ∧
        gr'.remaining = C.records post ++ tail) ∨
      (∀ m ∈ ms, m.endHeight? ≠ some height) ∧
        C.scan height ignore n last gr = if err = .eof then .ok (lastHeight last ms, none) else .error err := by
  induction ms generalizing gr n last with
  | nil =>
    obtain ⟨n, rfl⟩ := Nat.exists_eq_succ_of_ne_zero (Nat.ne_zero_of_lt hn)
    refine .inr ⟨fun m hm => (not_mem_nil hm).elim, ?_⟩
    have hdecode := hend gr hgr hrem
    rw [scan]
    rcases hd : C.decode gr with ⟨res, gr'⟩
    rw [hd] at hdecode
    cases hdecode
    cases err <;> first | rfl | simp_all
  | cons m ms ih =>
    obtain ⟨n, rfl⟩ := Nat.exists_eq_succ_of_ne_zero (Nat.ne_zero_of_lt hn)
    rw [records, flatMap_cons, append_assoc] at hrem
    obtain ⟨gr', hdecode, hgr', hrem'⟩ := decode_encode hgr (hfits m mem_cons_self) hrem
    have ih' := ih (fun m' hm' => hfits m' (mem_cons_of_mem m hm')) hgr' hrem' (Nat.lt_of_succ_lt_succ hn)
    have hrest : ∀ last', lastHeight last (m :: ms) = lastHeight last' ms → m.endHeight? ≠ some height →
        C.scan height ignore (n + 1) last gr = C.scan height ignore n last' gr' →
        (∃ pre m' post gr', m :: ms = pre ++ m' :: post ∧ m'.endHeight? = some height ∧
          C.scan height ignore (n + 1) last gr = .ok (height, some gr') ∧ gr'.Complete ∧
            gr'.remaining = C.records post ++ tail) ∨
        (∀ m' ∈ m :: ms, m'.endHeight? ≠ some height) ∧
          C.scan height ignore (n + 1) last gr = if err = .eof then .ok (lastHeight last (m :: ms), none)
            else .error err := by
      intro last' hlast hm hscan
      rw [hscan, hlast]
      rcases ih' last' with ⟨pre, m', post, gr'', rfl, hm', hfound⟩ | ⟨hnone, hscan'⟩
      · exact .inl ⟨m :: pre, m', post, gr'', rfl, hm', hfound⟩
      · exact .inr ⟨forall_mem_cons.2 ⟨hm, hnone⟩, hscan'⟩
    cases hm : m.endHeight? with
    | none =>
      refine hrest last ?_ (by simp [hm]) (by rw [scan, hdecode]; simp [hm])
      rw [lastHeight, foldl_cons, hm]
      rfl
    | some found =>
      by_cases hfound : found = height
      · refine .inl ⟨[], m, ms, gr', rfl, by rw [hm, hfound], ?_, hgr', hrem'⟩
        rw [scan, hdecode]
        simp [hm, hfound]
      · refine hrest found ?_ (by simp [hm, hfound]) (by rw [scan, hdecode]; simp [hm, hfound])
        rw [lastHeight, foldl_cons, hm]
        rfl

/-! ## The files -/

/-- The files hold the records of messages; the head may end with something else. -/
def Holds (C : WalCodec ρ ι τ) (g : Group) (logs : List (List (TimedWALMessage ρ ι τ))) (tail : Bytes) : Prop :=
  ∃ older recent, logs = older ++ [recent] ∧ g.rolled = older.map C.records ∧ g.head = some (C.records recent ++ tail)

theorem records_append (ms ms' : List (TimedWALMessage ρ ι τ)) :
    C.records (ms ++ ms') = C.records ms ++ C.records ms' :=
  flatMap_append

theorem records_flatten (logs : List (List (TimedWALMessage ρ ι τ))) :
    C.records logs.flatten = (logs.map C.records).flatten := by
  induction logs with
  | nil => rfl
  | cons ms logs ih => rw [flatten_cons, records_append, ih, map_cons, flatten_cons]

variable {g : Group} {logs : List (List (TimedWALMessage ρ ι τ))} {tail : Bytes}

theorem Holds.maxIndex (h : C.Holds g logs tail) : g.maxIndex + 1 = g.first + logs.length := by
  obtain ⟨older, recent, rfl, hrolled, -⟩ := h
  rw [Group.maxIndex, hrolled]
  simp
  omega

theorem Holds.newReader (h : C.Holds g logs tail) {k : Nat} (hk : k < logs.length) :
    ∃ gr, g.newReader (g.first + k) = .ok gr ∧ gr.Complete ∧
      gr.remaining = C.records (logs.drop k).flatten ++ tail := by
  obtain ⟨older, recent, rfl, hrolled, hhead⟩ := h
  rw [length_append, length_singleton] at hk
  have hfiles : g.files.drop k = (older.drop k).map (some ∘ C.records) ++ [some (C.records recent ++ tail)] := by
    rw [Group.files, hrolled, hhead, drop_append_of_le_length (by simp; omega)]
    simp [map_drop]
  rw [Group.newReader, if_neg (by omega), Nat.add_sub_cancel_left, hfiles,
    drop_append_of_le_length (Nat.le_of_lt_succ hk)]
  cases older.drop k with
  | nil => exact ⟨⟨C.records recent ++ tail, []⟩, rfl, not_mem_nil, by simp [GroupReader.remaining]⟩
  | cons ms older =>
    refine ⟨⟨C.records ms, older.map (some ∘ C.records) ++ [some (C.records recent ++ tail)]⟩, rfl, ?_, ?_⟩
    · simp [GroupReader.Complete]
    · rw [flatten_append, flatten_cons, records_append, records_append, records_flatten]
      simp [GroupReader.remaining, Function.comp_def]

/-- One file of the search, up to where the decoder stops. -/
theorem Holds.searchLoop_succ {height : Int} {ignore : Bool} (h : C.Holds g logs tail) (hmin : g.minIndex = g.first)
    {tail' : Bytes} {err : DecodeError}
    (hend : ∀ gr : GroupReader, gr.Complete → gr.remaining = tail' → (C.decode gr).1 = .error err)
    (herr : err.isDataCorruptionError = false) {k : Nat} (hk : k < logs.length) {ms : List (TimedWALMessage ρ ι τ)}
    (hfits : ∀ m ∈ ms, C.Fits m) (hms : C.records (logs.drop k).flatten ++ tail = C.records ms ++ tail') (last : Int) :
    (∃ pre m post gr, ms = pre ++ m :: post ∧ m.endHeight? = some height ∧
        C.searchLoop g height ignore last (k + 1) = .ok (some gr) ∧ gr.Complete ∧
        gr.remaining = C.records post ++ tail') ∨
      (∀ m ∈ ms, m.endHeight? ≠ some height) ∧ C.searchLoop g height ignore last (k + 1) = if err = .eof then
            if 0 < lastHeight last ms ∧ lastHeight last ms < height then .ok none else C.searchLoop g height ignore
              (lastHeight last ms) k
          else .error (.decode err) := by
  obtain ⟨gr, hnew, hgr, hrem⟩ := h.newReader hk
  rw [hms] at hrem
  have hbound : ms.length < gr.remaining.length + 1 := by
    have hle := length_le_records (C := C) ms
    rw [hrem, length_append]
    omega
  rw [searchLoop, hmin, hnew]
  dsimp only
  rcases scan_spec hend herr hfits hgr hrem hbound last with ⟨pre, m, post, gr', hms, hm, hscan, hrest⟩ | ⟨hnone, hscan⟩
  · refine .inl ⟨pre, m, post, gr', hms, hm, ?_, hrest⟩
    rw [hscan]
  · refine .inr ⟨hnone, ?_⟩
    rw [hscan]
    by_cases herr : err = .eof
    · rw [if_pos herr, if_pos herr]
    · rw [if_neg herr, if_neg herr]

end WalCodec

end Demars
