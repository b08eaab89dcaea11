import Mathlib.Algebra.BigOperators.Group.List.Basic
import Demars.Crypto.Keys

/-!
# Groups of log files

`libs/autofile/group.go`: a group writes through a buffer to its head file, which becomes the next numbered file
when it has grown to a limit (`rotateFile`). The oldest files are removed when all together have
(`checkTotalSizeLimit`).
-/

namespace Demars.Autofile

open List

/-- `Group`, with the files in its directory. -/
structure Group where
  /-- The index of the first file when the group was opened; it does not change. -/
  minIndex : Nat
  /-- The index of the first file that is there. -/
  first : Nat
  /-- The numbered files. -/
  rolled : List Bytes
  /-- The head file, which is not there between a rotation and the next time it is opened. -/
  head : Option Bytes
  headBuf : Bytes
deriving DecidableEq

namespace Group

def new : Group := ⟨0, 0, [], none, []⟩

def maxIndex (g : Group) : Nat := g.first + g.rolled.length

def files (g : Group) : List (Option Bytes) := g.rolled.map some ++ [g.head]

/-! ## Writing -/

/-- The size of the buffer in `OpenGroup`. -/
def headBufSize : Nat := 4096 * 10

/-- `AutoFile.Write`, which opens the file, and so creates it, if it has to. -/
def writeHead (g : Group) (p : Bytes) : Group := { g with head := some (g.head.getD [] ++ p) }

/-- `bufio.Writer.Flush`. -/
def flushBuf (g : Group) : Group := if g.headBuf.isEmpty then g else { g.writeHead g.headBuf with headBuf := [] }

/-- `Group.Write`: the loop of `bufio.Writer.Write`, which goes round at most twice. -/
def write (g : Group) (p : Bytes) : Group :=
  let available := headBufSize - g.headBuf.length
  if p.length ≤ available then { g with headBuf := g.headBuf ++ p }
  else if g.headBuf.isEmpty then g.writeHead p
  else
    let g' := { g with headBuf := g.headBuf ++ p.take available }.flushBuf
    let p' := p.drop available
    if p'.length ≤ headBufSize then { g' with headBuf := p' } else g'.writeHead p'

/-- `Group.Flush`: `AutoFile.Sync` opens the file as well. -/
def flush (g : Group) : Group := g.flushBuf.writeHead []

/-- What has been written since the head was begun, in its file or in the buffer. -/
def content (g : Group) : Bytes := g.head.getD [] ++ g.headBuf

@[simp] theorem content_writeHead {g : Group} (p : Bytes) (h : g.headBuf = []) :
    (g.writeHead p).content = g.content ++ p := by
  simp [content, writeHead, h]

@[simp] theorem content_flushBuf (g : Group) : g.flushBuf.content = g.content := by
  unfold flushBuf
  split
  · rfl
  · simp [content, writeHead]

theorem flushBuf_frame (g : Group) : ∃ head, g.flushBuf = { g with head, headBuf := [] } := by
  unfold flushBuf
  split
  · next h => exact ⟨g.head, by rw [← isEmpty_iff.1 h]⟩
  · exact ⟨_, rfl⟩

@[simp] theorem headBuf_flushBuf (g : Group) : g.flushBuf.headBuf = [] := by
  obtain ⟨head, h⟩ := g.flushBuf_frame
  rw [h]

/-- Writing adds to what the head and the buffer hold together. -/
theorem content_write (g : Group) (p : Bytes) : (g.write p).content = g.content ++ p := by
  unfold write
  dsimp only
  split
  · simp [content]
  · split
    · next h => exact content_writeHead p (List.isEmpty_iff.1 h)
    · have hfull := content_flushBuf { g with headBuf := g.headBuf ++ p.take (headBufSize - g.headBuf.length) }
      have hempty := headBuf_flushBuf { g with headBuf := g.headBuf ++ p.take (headBufSize - g.headBuf.length) }
      split
      · simp only [content, hempty, append_nil] at hfull ⊢
        rw [hfull]
        simp
      · rw [content_writeHead _ hempty, hfull]
        simp [content]

theorem write_frame (g : Group) (p : Bytes) : ∃ head headBuf, g.write p = { g with head, headBuf } := by
  unfold write
  dsimp only
  split
  · exact ⟨_, _, rfl⟩
  · split
    · exact ⟨_, _, rfl⟩
    · obtain ⟨head, h⟩ := flushBuf_frame { g with headBuf := g.headBuf ++ p.take (headBufSize - g.headBuf.length) }
      rw [h]
      split <;> exact ⟨_, _, rfl⟩

theorem rolled_write (g : Group) (p : Bytes) : (g.write p).rolled = g.rolled := by
  obtain ⟨head, headBuf, h⟩ := g.write_frame p
  rw [h]

theorem flush_frame (g : Group) : ∃ head, g.flush = { g with head := some head, headBuf := [] } := by
  obtain ⟨head, h⟩ := g.flushBuf_frame
  exact ⟨_, by rw [flush, h, writeHead]⟩

theorem content_flush (g : Group) : g.flush.content = g.content := by
  rw [flush, content_writeHead [] (headBuf_flushBuf g), content_flushBuf, append_nil]

theorem rolled_flush (g : Group) : g.flush.rolled = g.rolled := by
  obtain ⟨head, h⟩ := g.flush_frame
  rw [h]

/-! ## Rotating and removing files -/

/-- `Group.RotateFile`, which does not flush the buffer. Without a head it panics. -/
def rotateFile (g : Group) : Group := { g with rolled := g.rolled ++ g.head.toList, head := none }

def checkHeadSizeLimit (g : Group) (limit : Int) : Group :=
  if limit = 0 then g
  else if limit ≤ (g.head.getD []).length then (g.writeHead []).rotateFile
  else g.writeHead []

def totalSize (g : Group) : Nat := (g.rolled.map List.length).sum + (g.head.getD []).length

def maxFilesToRemove : Nat := 4

/-- The loop of `Group.checkTotalSizeLimit` removes numbered files, never the head. -/
def removeLoop (limit : Int) : Nat → Group → Group
  | 0, g => g
  | n + 1, g =>
    if (g.totalSize : Int) < limit then g
    else match g.rolled with
      | [] => g
      | _ :: rolled => removeLoop limit n { g with first := g.first + 1, rolled }

def checkTotalSizeLimit (g : Group) (limit : Int) : Group :=
  if limit = 0 then g else removeLoop limit maxFilesToRemove g

/-- `OpenGroup` on files that another process has left: its buffer is lost, and without numbered files the head has
index 0. -/
def openGroup (g : Group) : Group :=
  let first := if g.rolled.isEmpty then 0 else g.first
  { g with minIndex := first, first, head := some (g.head.getD []), headBuf := [] }

theorem removeLoop_frame (limit : Int) : ∀ (n : Nat) (g : Group),
    ∃ k, removeLoop limit n g = { g with first := g.first + k, rolled := g.rolled.drop k }
  | 0, g => ⟨0, rfl⟩
  | n + 1, g => by
    rw [removeLoop]
    split
    · exact ⟨0, rfl⟩
    · split
      · exact ⟨0, rfl⟩
      · next f rolled h =>
        obtain ⟨k, hk⟩ := removeLoop_frame limit n { g with first := g.first + 1, rolled }
        exact ⟨k + 1, by rw [hk, h, drop_succ_cons, Nat.add_comm k, Nat.add_assoc]⟩

/-- Some of the oldest files are removed. -/
theorem checkTotalSizeLimit_frame (g : Group) (limit : Int) :
    ∃ k, g.checkTotalSizeLimit limit = { g with first := g.first + k, rolled := g.rolled.drop k } := by
  unfold checkTotalSizeLimit
  split
  · exact ⟨0, rfl⟩
  · exact removeLoop_frame limit maxFilesToRemove g

end Group

/-! ## Reading -/

/-- The end of the last file, a file that cannot be opened, a read of no bytes. -/
inductive ReadError where
  | eof
  | notExist
  | emptySlice
deriving DecidableEq

/-- `GroupReader`: what is still to be read of the current file, and the files after it. -/
structure GroupReader where
  rest : Bytes
  later : List (Option Bytes)
deriving DecidableEq

def openFile : List (Option Bytes) → Except ReadError GroupReader
  | [] => .error .eof
  | none :: _ => .error .notExist
  | some rest :: later => .ok ⟨rest, later⟩

def Group.newReader (g : Group) (index : Nat) : Except ReadError GroupReader :=
  if index < g.first then .error .notExist else openFile (g.files.drop (index - g.first))

namespace GroupReader

/-- The loop of `GroupReader.Read`: the bytes read, the error and the reader afterwards. -/
def readLoop (size : Nat) (rest : Bytes) (later : List (Option Bytes)) : Bytes × Option ReadError × GroupReader :=
  if size ≤ rest.length then (rest.take size, none, ⟨rest.drop size, later⟩)
  else match later with
    | [] => (rest, some .eof, ⟨[], []⟩)
    | none :: later => (rest, some .notExist, ⟨[], none :: later⟩)
    | some bz :: later =>
      let r := readLoop (size - rest.length) bz later
      (rest ++ r.1, r.2)

def read (gr : GroupReader) (size : Nat) : Bytes × Option ReadError × GroupReader :=
  if size = 0 then ([], some .emptySlice, gr) else readLoop size gr.rest gr.later

def remaining (gr : GroupReader) : Bytes := gr.rest ++ (gr.later.map (·.getD [])).flatten

/-- No file that the reader comes to is missing. -/
def Complete (gr : GroupReader) : Prop := none ∉ gr.later

theorem readLoop_spec (size : Nat) (rest : Bytes) {later : List (Option Bytes)} (hl : none ∉ later) :
    ∃ gr, readLoop size rest later = ((remaining ⟨rest, later⟩).take size,
        if size ≤ (remaining ⟨rest, later⟩).length then none else some .eof, gr) ∧
      gr.Complete ∧ gr.remaining = (remaining ⟨rest, later⟩).drop size := by
  induction later generalizing rest size with
  | nil =>
    simp only [remaining, map_nil, flatten_nil, append_nil]
    rw [readLoop.eq_def]
    by_cases h : size ≤ rest.length
    · rw [if_pos h, if_pos h]
      exact ⟨⟨rest.drop size, []⟩, rfl, not_mem_nil, by simp⟩
    · rw [if_neg h, if_neg h, take_of_length_le (Nat.le_of_not_le h), drop_of_length_le (Nat.le_of_not_le h)]
      exact ⟨⟨[], []⟩, rfl, not_mem_nil, rfl⟩
  | cons f later ih =>
    rw [readLoop.eq_def]
    by_cases h : size ≤ rest.length
    · rw [if_pos h, remaining, take_append_of_le_length h, drop_append_of_le_length h,
        if_pos (by rw [length_append]; exact Nat.le_add_right_of_le h)]
      exact ⟨⟨rest.drop size, f :: later⟩, rfl, hl, rfl⟩
    · rw [if_neg h]
      cases f with
      | none => exact absurd mem_cons_self hl
      | some bz =>
        have hrem : remaining ⟨rest, some bz :: later⟩ = rest ++ remaining ⟨bz, later⟩ := by simp [remaining]
        obtain ⟨gr, hread, hcomplete, hgr⟩ := ih (size - rest.length) bz fun h => hl (mem_cons_of_mem _ h)
        have hle : size - rest.length ≤ (remaining ⟨bz, later⟩).length ↔
          size ≤ rest.length + (remaining ⟨bz, later⟩).length := by
          omega
        dsimp only
        rw [hread, hrem, take_append, take_of_length_le (Nat.le_of_not_le h), drop_append,
          drop_of_length_le (Nat.le_of_not_le h), length_append, nil_append, ← hgr]
        exact ⟨gr, by simp only [hle], hcomplete, rfl⟩

variable {gr : GroupReader}

/-- A reader gives the bytes of the files in a row, and the end when there are not enough. -/
theorem read_spec {size : Nat} (hgr : gr.Complete) (hpos : size ≠ 0) :
    ∃ gr', gr.read size = (gr.remaining.take size, if size ≤ gr.remaining.length then none else some .eof, gr') ∧
      gr'.Complete ∧ gr'.remaining = gr.remaining.drop size := by
  rw [read, if_neg hpos]
  exact readLoop_spec size gr.rest hgr

theorem read_enough {size : Nat} (hgr : gr.Complete) (hpos : size ≠ 0) {bz bz' : Bytes}
    (hlen : bz.length = size) (hrem : gr.remaining = bz ++ bz') :
    ∃ gr', gr.read size = (bz, none, gr') ∧ gr'.Complete ∧ gr'.remaining = bz' := by
  obtain ⟨gr', hread, hcomplete, hgr'⟩ := read_spec hgr hpos
  rw [hrem, take_left' hlen, drop_left' hlen, if_pos (by rw [length_append]; omega)] at *
  exact ⟨gr', hread, hcomplete, hgr'⟩

theorem read_short {size : Nat} (hgr : gr.Complete) (hsize : gr.remaining.length < size) :
    ∃ gr', gr.read size = (gr.remaining, some .eof, gr') := by
  obtain ⟨gr', hread, -⟩ := read_spec hgr (Nat.ne_zero_of_lt hsize)
  rw [take_of_length_le (Nat.le_of_lt hsize), if_neg (Nat.not_le_of_lt hsize)] at hread
  exact ⟨gr', hread⟩

/-- What a row of reads returns: bytes and error of each. -/
def reads : GroupReader → List Nat → List (Bytes × Option ReadError)
  | _, [] => []
  | gr, size :: sizes => ((gr.read size).1, (gr.read size).2.1) :: reads (gr.read size).2.2 sizes

/-- What a row of reads has to return: one piece after the other, then the end. -/
def pieces (bz : Bytes) : List Nat → List (Bytes × Option ReadError)
  | [] => []
  | size :: sizes => (bz.take size, if size ≤ bz.length then none else some .eof) :: pieces (bz.drop size) sizes

theorem reads_eq (hgr : gr.Complete) {sizes : List Nat} (hsizes : ∀ size ∈ sizes, size ≠ 0) :
    gr.reads sizes = pieces gr.remaining sizes := by
  induction sizes generalizing gr with
  | nil => rfl
  | cons size sizes ih =>
    rw [forall_mem_cons] at hsizes
    obtain ⟨gr', hread, hgr', hrem⟩ := read_spec hgr hsizes.1
    rw [reads, pieces, hread, ← hrem]
    exact congrArg _ (ih hgr' hsizes.2)

end GroupReader

/-! ## Reading back what was written -/

namespace Group

inductive Event where
  | write (p : Bytes)
  | flush
  | checkHeadSizeLimit (limit : Int)

def step (g : Group) : Event → Group
  | .write p => g.write p
  | .flush => g.flush
  | .checkHeadSizeLimit limit => g.checkHeadSizeLimit limit

def Event.written : Event → Bytes
  | .write p => p
  | .flush | .checkHeadSizeLimit _ => []

/-- The bytes of the files in their order, and those in the buffer. -/
def stored (g : Group) : Bytes := g.rolled.flatten ++ g.content

theorem checkHeadSizeLimit_spec (g : Group) (limit : Int) : (g.checkHeadSizeLimit limit).stored = g.stored ∧
    (g.checkHeadSizeLimit limit).first = g.first ∧ (g.checkHeadSizeLimit limit).minIndex = g.minIndex := by
  unfold checkHeadSizeLimit
  split
  · exact ⟨rfl, rfl, rfl⟩
  · split <;> simp [stored, content, writeHead, rotateFile]

theorem step_spec (g : Group) (event : Event) : (g.step event).stored = g.stored ++ event.written ∧
    (g.step event).first = g.first ∧ (g.step event).minIndex = g.minIndex := by
  cases event with
  | write p =>
    obtain ⟨head, headBuf, h⟩ := g.write_frame p
    refine ⟨?_, by rw [step, h], by rw [step, h]⟩
    rw [step, stored, rolled_write, content_write, Event.written, stored, append_assoc]
  | flush =>
    obtain ⟨head, h⟩ := g.flush_frame
    refine ⟨?_, by rw [step, h], by rw [step, h]⟩
    rw [step, stored, rolled_flush, content_flush, Event.written, stored, append_nil]
  | checkHeadSizeLimit limit =>
    rw [Event.written, append_nil]
    exact g.checkHeadSizeLimit_spec limit

theorem foldl_step_spec (g : Group) (events : List Event) :
    (events.foldl step g).stored = g.stored ++ events.flatMap Event.written ∧
      (events.foldl step g).first = g.first ∧ (events.foldl step g).minIndex = g.minIndex := by
  induction events generalizing g with
  | nil => simp
  | cons event events ih =>
    obtain ⟨hstored, hfirst, hmin⟩ := g.step_spec event
    rw [flatMap_cons, ← append_assoc, ← hstored, ← hfirst, ← hmin]
    exact ih _

theorem newReader_flush {g : Group} (h : g.first = g.minIndex) :
    ∃ gr, g.flush.newReader g.flush.minIndex = .ok gr ∧ gr.Complete ∧ gr.remaining = g.stored := by
  obtain ⟨head, hflush⟩ := g.flush_frame
  have hcontent := g.content_flush
  rw [hflush] at hcontent ⊢
  rw [stored, ← hcontent]
  simp only [newReader, h, Nat.lt_irrefl, Nat.sub_self, content]
  cases g.rolled with
  | nil => exact ⟨_, rfl, not_mem_nil, by simp [GroupReader.remaining]⟩
  | cons f rolled => exact ⟨_, rfl, by simp [GroupReader.Complete], by simp [GroupReader.remaining]⟩

/-- What was written is read back as it was written, however the head was rotated. -/
theorem reads_back (g : Group) (events : List Event) {sizes : List Nat} (hsizes : ∀ size ∈ sizes, size ≠ 0) :
    ∃ gr, (events.foldl step g.openGroup).flush.newReader (events.foldl step g.openGroup).flush.minIndex = .ok gr ∧
      gr.reads sizes = GroupReader.pieces (g.openGroup.stored ++ events.flatMap Event.written) sizes := by
  obtain ⟨hstored, hfirst, hmin⟩ := g.openGroup.foldl_step_spec events
  obtain ⟨gr, hgr, hcomplete, hrem⟩ := newReader_flush (hfirst.trans hmin.symm)
  exact ⟨gr, hgr, by rw [GroupReader.reads_eq hcomplete hsizes, hrem, hstored]⟩

/-- A rotation with bytes in the buffer and one of an empty head; the pieces go across the files. -/
theorem reads_back_rotated : ∃ gr,
    ((([.write [1, 2], .flush, .write [3], .checkHeadSizeLimit 1, .checkHeadSizeLimit (-1), .write [4, 5]] : List
      Event).foldl step
      new.openGroup).flush.newReader 0 = .ok gr) ∧
      gr.reads [3, 1, 4, 1] = [([1, 2, 3], none), ([4], none), ([5], some .eof), ([], some .eof)] :=
  reads_back new [.write [1, 2], .flush, .write [3], .checkHeadSizeLimit 1, .checkHeadSizeLimit (-1), .write [4, 5]]
    (by decide)

end Group

end Demars.Autofile
