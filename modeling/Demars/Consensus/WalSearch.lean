import Demars.Consensus.Wal
import Demars.Lib.Runs

/-!
# The search for the end of a height

The write-ahead log as a process uses it. The search begins at the beginning of files, which need not be that of a
record: the buffer is not flushed before a rotation, and is flushed in the middle of a record when it is full.
-/

namespace Demars

open Autofile List Option

variable {ρ ι τ : Type}

/-- What happens to the log of a node. -/
inductive WalEvent (ρ ι τ : Type) where
  /-- `baseWAL.Write`. -/
  | write (m : TimedWALMessage ρ ι τ)
  /-- `Group.Flush`, with which `baseWAL.WriteSync` and `Group.OnStop` end. -/
  | flush
  | checkHeadSizeLimit (limit : Int)
  | checkTotalSizeLimit (limit : Int)
  /-- `NewWAL` and `baseWAL.OnStart` on the files of a process that is gone. -/
  | restart (now : Int)

namespace WalCodec

variable (C : WalCodec ρ ι τ)

/-- What an event writes: `OnStart` marks the end of height 0 in an empty head. -/
def written (g : Group) : WalEvent ρ ι τ → List (TimedWALMessage ρ ι τ)
  | .write m => [m]
  | .restart now => if (g.head.getD []).isEmpty then [⟨now, .endHeight 0⟩] else []
  | .flush | .checkHeadSizeLimit _ | .checkTotalSizeLimit _ => []

def step (g : Group) : WalEvent ρ ι τ → Group
  | .write m => g.write (C.encode m)
  | .flush => g.flush
  | .checkHeadSizeLimit limit => g.checkHeadSizeLimit limit
  | .checkTotalSizeLimit limit => g.checkTotalSizeLimit limit
  | .restart now =>
    if (g.head.getD []).isEmpty then (g.openGroup.write (C.encode ⟨now, .endHeight 0⟩)).flush else g.openGroup

def run (g : Group) (events : List (WalEvent ρ ι τ)) : Group := events.foldl C.step g

def log (g : Group) : List (WalEvent ρ ι τ) → List (TimedWALMessage ρ ι τ)
  | [] => []
  | event :: events => written g event ++ log (C.step g event) events

def Settled (g : Group) : WalEvent ρ ι τ → Prop
  | .checkHeadSizeLimit limit => limit = 0 ∨ (g.head.getD []).length < limit ∨ C.Whole (g.head.getD [])
  | .restart _ => C.Whole (g.head.getD [])
  | _ => True

/-- Each file holds records of messages that were written, the head with the buffer. -/
def Logged (g : Group) (ms : List (TimedWALMessage ρ ι τ)) : Prop :=
  ∃ (older : List (List (TimedWALMessage ρ ι τ))) (recent : List (TimedWALMessage ρ ι τ)), g.rolled =
    older.map C.records ∧
    g.content = C.records recent ∧ (older.flatten ++ recent).Sublist ms

def heights (ms : List (TimedWALMessage ρ ι τ)) : List Int := (ms.filterMap (·.endHeight?)).filter (0 < ·)

/-! ## Files of whole records -/

variable {C} {g : Group} {ms : List (TimedWALMessage ρ ι τ)}

theorem Whole.split {recent : List (TimedWALMessage ρ ι τ)} (hwhole : C.Whole (g.head.getD []))
    (hrecent : ∀ m ∈ recent, C.Fits m) (hcontent : g.content = C.records recent) :
    ∃ flushed pending, recent = flushed ++ pending ∧ g.head.getD [] = C.records flushed ∧
      g.headBuf = C.records pending := by
  obtain ⟨flushed, hfits, hhead⟩ := hwhole
  rw [Group.content, hhead] at hcontent
  obtain ⟨pending, rfl, hbuf⟩ := selfDelimiting_encode.split encode_ne_nil (fun m hm => (hfits m hm).encodes)
    (fun m hm => (hrecent m hm).encodes) hcontent
  exact ⟨flushed, pending, rfl, hhead, hbuf⟩

section

variable (h : C.Logged g ms)
include h

theorem Logged.write (m : TimedWALMessage ρ ι τ) : C.Logged (g.write (C.encode m)) (ms ++ [m]) := by
  obtain ⟨older, recent, hrolled, hcontent, hsub⟩ := h
  refine ⟨older, recent ++ [m], by rw [Group.rolled_write, hrolled], ?_, ?_⟩
  · rw [Group.content_write, hcontent]
    simp [records]
  · rw [← append_assoc]
    exact hsub.append (List.Sublist.refl [m])

theorem Logged.flush : C.Logged g.flush ms := by
  obtain ⟨older, recent, hrolled, hcontent, hsub⟩ := h
  exact ⟨older, recent, by rw [Group.rolled_flush, hrolled], by rw [Group.content_flush, hcontent], hsub⟩

theorem Logged.checkHeadSizeLimit (hfits : ∀ m ∈ ms, C.Fits m) {limit : Int}
    (hwhole : limit = 0 ∨ (g.head.getD []).length < limit ∨ C.Whole (g.head.getD [])) :
    C.Logged (g.checkHeadSizeLimit limit) ms := by
  obtain ⟨older, recent, hrolled, hcontent, hsub⟩ := h
  unfold Group.checkHeadSizeLimit
  split
  · exact ⟨older, recent, hrolled, hcontent, hsub⟩
  · next hlimit =>
    split
    · next hsize =>
      -- the records of the head become a file of their own, those of the buffer go to the next head
      have hwhole' : C.Whole (g.head.getD []) := (hwhole.resolve_left hlimit).resolve_left (Int.not_lt.2 hsize)
      obtain ⟨flushed, pending, rfl, hhead, hbuf⟩ := hwhole'.split
        (fun m hm => hfits m (hsub.subset (mem_append_right _ hm))) hcontent
      refine ⟨older ++ [flushed], pending, ?_, ?_, ?_⟩
      · simp [Group.rotateFile, Group.writeHead, hrolled, hhead]
      · simp [Group.rotateFile, Group.writeHead, Group.content, hbuf]
      · simpa using hsub
    · refine ⟨older, recent, hrolled, ?_, hsub⟩
      rw [← hcontent]
      simp [Group.writeHead, Group.content]

theorem Logged.checkTotalSizeLimit (limit : Int) : C.Logged (g.checkTotalSizeLimit limit) ms := by
  obtain ⟨older, recent, hrolled, hcontent, hsub⟩ := h
  obtain ⟨k, hk⟩ := g.checkTotalSizeLimit_frame limit
  refine ⟨older.drop k, recent, by rw [hk, hrolled, map_drop], by rw [hk]; exact hcontent, ?_⟩
  exact ((drop_sublist k older).flatten.append (List.Sublist.refl recent)).trans hsub

theorem Logged.openGroup (hfits : ∀ m ∈ ms, C.Fits m) (hwhole : C.Whole (g.head.getD [])) :
    C.Logged g.openGroup ms := by
  obtain ⟨older, recent, hrolled, hcontent, hsub⟩ := h
  obtain ⟨flushed, pending, rfl, hhead, -⟩ := hwhole.split (fun m hm => hfits m (hsub.subset (mem_append_right _ hm)))
    hcontent
  refine ⟨older, flushed, hrolled, ?_, ?_⟩
  · simp [Group.openGroup, Group.content, hhead]
  · exact ((List.Sublist.refl _).append (sublist_append_left flushed pending)).trans hsub

theorem logged_step {event : WalEvent ρ ι τ} (hfits : ∀ m ∈ ms, C.Fits m) (hsettled : C.Settled g event) :
    C.Logged (C.step g event) (ms ++ written g event) := by
  cases event with
  | write m => exact h.write m
  | flush =>
    rw [written, append_nil]
    exact h.flush
  | checkHeadSizeLimit limit =>
    rw [written, append_nil]
    exact h.checkHeadSizeLimit hfits hsettled
  | checkTotalSizeLimit limit =>
    rw [written, append_nil]
    exact h.checkTotalSizeLimit limit
  | restart now =>
    rw [step, written]
    have hopen := h.openGroup hfits hsettled
    split
    · exact (hopen.write ⟨now, .endHeight 0⟩).flush
    · rw [append_nil]
      exact hopen

theorem logged_run {events : List (WalEvent ρ ι τ)} (hfits : ∀ m ∈ ms ++ C.log g events, C.Fits m)
    (hsettled : Runs.Along C.step C.Settled g events) : C.Logged (C.run g events) (ms ++ C.log g events) := by
  induction events generalizing g ms with
  | nil =>
    rw [log, append_nil]
    exact h
  | cons event events ih =>
    rw [log, ← append_assoc] at hfits ⊢
    have hstep := logged_step h (fun m hm => hfits m (mem_append_left _ (mem_append_left _ hm))) hsettled.1
    exact ih hstep hfits hsettled.2

end

theorem logged_new : C.Logged Group.new [] := ⟨[], [], rfl, rfl, List.Sublist.refl []⟩

theorem Logged.holds (h : C.Logged g ms) (hfits : ∀ m ∈ ms, C.Fits m) (hwhole : C.Whole (g.head.getD []))
    (hhead : g.head.isSome) :
    ∃ logs, C.Holds g logs [] ∧ logs.flatten.Sublist ms := by
  obtain ⟨older, recent, hrolled, hcontent, hsub⟩ := h
  obtain ⟨flushed, pending, rfl, hflushed, -⟩ :=
    hwhole.split (fun m hm => hfits m (hsub.subset (mem_append_right _ hm))) hcontent
  obtain ⟨bz, hbz⟩ := isSome_iff_exists.1 hhead
  refine ⟨older ++ [flushed], ⟨older, flushed, rfl, hrolled, ?_⟩, ?_⟩
  · rw [append_nil, ← hflushed, hbz, getD_some]
  · rw [flatten_append, flatten_singleton]
    exact ((List.Sublist.refl _).append (sublist_append_left flushed pending)).trans hsub

/-! ## The search -/

variable {logs : List (List (TimedWALMessage ρ ι τ))}

theorem mem_heights {height : Int} : height ∈ heights ms ↔ (∃ m ∈ ms, m.endHeight? = some height) ∧ 0 < height := by
  simp [heights]

theorem not_ended {before after : List (TimedWALMessage ρ ι τ)}
    (hsorted : (heights (before ++ after)).Pairwise (· ≤ ·)) {last height : Int}
    (hlast : ∃ m ∈ after, m.endHeight? = some last) (hpos : 0 < last) (hlt : last < height) :
    ∀ m ∈ before, m.endHeight? ≠ some height := by
  intro m hm hheight
  rw [heights, filterMap_append, filter_append, pairwise_append] at hsorted
  have hle := hsorted.2.2 height (mem_heights.2 ⟨⟨m, hm, hheight⟩, by omega⟩) last (mem_heights.2 ⟨hlast, hpos⟩)
  omega

theorem decode_nil (gr : GroupReader) (hgr : gr.Complete) (hrem : gr.remaining = []) : (C.decode gr).1 = .error .eof :=
  decode_eof hgr (by rw [hrem]; decide)

/-- The search, once the files from an index on have been gone through without success. -/
theorem Holds.searchLoop_spec (h : C.Holds g logs []) (hmin : g.minIndex = g.first)
    (hfits : ∀ m ∈ logs.flatten, C.Fits m) (hsorted : (heights logs.flatten).Pairwise (· ≤ ·)) (height : Int)
    (ignore : Bool) {k : Nat} (hk : k ≤ logs.length) (hnone : ∀ m ∈ (logs.drop k).flatten, m.endHeight? ≠ some height) :
    (∃ pre m post gr, logs.flatten = pre ++ m :: post ∧ m.endHeight? = some height ∧
        C.searchLoop g height ignore (lastHeight (-1) (logs.drop k).flatten) k = .ok (some gr) ∧
        gr.remaining = C.records post) ∨
      (∀ m ∈ logs.flatten, m.endHeight? ≠ some height) ∧
        C.searchLoop g height ignore (lastHeight (-1) (logs.drop k).flatten) k = .ok none := by
  induction k with
  | zero => exact .inr ⟨hnone, rfl⟩
  | succ k ih =>
    have hsplit : logs.flatten = (logs.take k).flatten ++ (logs.drop k).flatten := by
      rw [← flatten_append, take_append_drop]
    have hdrop : (logs.drop k).flatten = logs[k] ++ (logs.drop (k + 1)).flatten := by
      rw [drop_eq_getElem_cons hk, flatten_cons]
    have hlast := lastHeight_again (-1) logs[k] (logs.drop (k + 1)).flatten
    rw [← hdrop] at hlast
    have hfits' : ∀ m ∈ (logs.drop k).flatten, C.Fits m :=
      fun m hm => hfits m (by rw [hsplit]; exact mem_append_right _ hm)
    rcases h.searchLoop_succ hmin decode_nil rfl hk hfits' rfl (lastHeight (-1) (logs.drop (k + 1)).flatten) with
      ⟨pre, m, post, gr, hms, hm, hsearch, -, hrem⟩ | ⟨hnone', hsearch⟩
    · refine .inl ⟨(logs.take k).flatten ++ pre, m, post, gr, ?_, hm, hsearch, by rw [hrem, append_nil]⟩
      rw [hsplit, hms, append_assoc]
    · rw [if_pos rfl, hlast] at hsearch
      rw [hsearch]
      split
      · next hstop =>
        -- the last height is lower, so by the order of the heights the older files do not have to be looked at
        refine .inr ⟨?_, rfl⟩
        rcases lastHeight_cases (logs.drop k).flatten with hno | ⟨m, hm, last, hmlast, hlast'⟩
        · rw [hno] at hstop
          omega
        · rw [hlast'] at hstop
          rw [hsplit] at hsorted ⊢
          exact forall_mem_append.2 ⟨not_ended hsorted ⟨m, hm, hmlast⟩ hstop.1 hstop.2, hnone'⟩
      · exact ih (Nat.le_of_succ_le hk) hnone'

/-- The search answers with the records after a marker of the height, or that there is none. -/
def Answers (C : WalCodec ρ ι τ) (g : Group) (ms : List (TimedWALMessage ρ ι τ)) (height : Int) (ignore : Bool) :
    Prop :=
  (∃ pre m post gr, ms = pre ++ m :: post ∧ m.endHeight? = some height ∧ C.searchForEndHeight g height ignore =
    .ok (some gr) ∧
      gr.remaining = C.records post) ∨
    (∀ m ∈ ms, m.endHeight? ≠ some height) ∧ C.searchForEndHeight g height ignore = .ok none

theorem Holds.answers (h : C.Holds g logs []) (hmin : g.minIndex = g.first) (hfits : ∀ m ∈ logs.flatten, C.Fits m)
    (hsorted : (heights logs.flatten).Pairwise (· ≤ ·)) (height : Int) (ignore : Bool) :
    C.Answers g logs.flatten height ignore := by
  have hspec := h.searchLoop_spec hmin hfits hsorted height ignore (Nat.le_refl _) (by simp)
  rw [drop_length] at hspec
  rw [Answers, searchForEndHeight, h.maxIndex, hmin, Nat.add_sub_cancel_left]
  exact hspec

/-- A search that succeeds does so without the files that have been removed. -/
theorem searchLoop_pruned {height : Int} {ignore : Bool} {gr : GroupReader} (hmin : g.minIndex ≤ g.first) :
    ∀ {k : Nat} {last : Int}, C.searchLoop { g with minIndex := g.first } height ignore last k = .ok (some gr) →
      C.searchLoop g height ignore last (g.first - g.minIndex + k) = .ok (some gr)
  | 0, _, h => nomatch h
  | k + 1, last, h => by
    rw [searchLoop] at h
    rw [← Nat.add_assoc, searchLoop, show g.minIndex + (g.first - g.minIndex + k) = g.first + k by omega]
    split at h
    · cases h
    · next gr' hnew =>
      rw [show g.newReader (g.first + k) = .ok gr' from hnew]
      dsimp only
      split at h
      · cases h
      · exact h
      · split_ifs at h with hstop
        · cases h
        · rw [if_neg hstop]
          exact searchLoop_pruned hmin h

/-- Files are only removed from the front, and `OpenGroup` starts with the first one. -/
theorem minIndex_le_first (events : List (WalEvent ρ ι τ)) (h : g.minIndex ≤ g.first) :
    (C.run g events).minIndex ≤ (C.run g events).first := by
  induction events generalizing g with
  | nil => exact h
  | cons event events ih =>
    refine ih (g := C.step g event) ?_
    cases event with
    | write m =>
      obtain ⟨_, _, hg⟩ := g.write_frame (C.encode m)
      rw [step, hg]
      exact h
    | flush =>
      obtain ⟨_, hg⟩ := g.flush_frame
      rw [step, hg]
      exact h
    | checkHeadSizeLimit limit =>
      obtain ⟨-, hfirst, hmin⟩ := g.checkHeadSizeLimit_spec limit
      rw [step, hfirst, hmin]
      exact h
    | checkTotalSizeLimit limit =>
      obtain ⟨k, hg⟩ := g.checkTotalSizeLimit_frame limit
      rw [step, hg]
      exact Nat.le_add_right_of_le h
    | restart now =>
      rw [step]
      split
      · obtain ⟨_, _, hg⟩ := g.openGroup.write_frame (C.encode ⟨now, .endHeight 0⟩)
        obtain ⟨_, hg'⟩ := (g.openGroup.write (C.encode ⟨now, .endHeight 0⟩)).flush_frame
        rw [hg', hg]
        exact Nat.le_refl _
      · exact Nat.le_refl _

def disk (g : Group) : Bytes := (g.files.map (·.getD [])).flatten

theorem Holds.disk (h : C.Holds g logs []) : disk g = C.records logs.flatten := by
  obtain ⟨older, recent, rfl, hrolled, hhead⟩ := h
  rw [WalCodec.disk, Group.files, hrolled, hhead, records_flatten]
  simp [Function.comp_def]

/-- Where files begin with records, the search finds the marker of a height exactly if it is on the disk; where it is
not, no file may have been removed since the log was opened. -/
theorem searchForEndHeight_correct (C : WalCodec ρ ι τ) (events : List (WalEvent ρ ι τ))
    (hfits : ∀ m ∈ C.log Group.new events, C.Fits m)
    (hsorted : (heights (C.log Group.new events)).Pairwise (· ≤ ·))
    (hsettled : Runs.Along C.step C.Settled Group.new events)
    (hwhole : C.Whole ((C.run Group.new events).head.getD [])) (hhead : (C.run Group.new events).head.isSome)
    (height : Int) (ignoreDataCorruptionErrors : Bool) :
    ∃ ms : List (TimedWALMessage ρ ι τ), ms.Sublist (C.log Group.new events) ∧
      disk (C.run Group.new events) = C.records ms ∧
      ((C.run Group.new events).minIndex = (C.run Group.new events).first ∨ (∃ m ∈ ms, m.endHeight? = some height) →
        C.Answers (C.run Group.new events) ms height ignoreDataCorruptionErrors) := by
  have hlogged := logged_run logged_new hfits hsettled
  obtain ⟨logs, hlogs, hsub⟩ := hlogged.holds hfits hwhole hhead
  have hsub' : (heights logs.flatten).Sublist (heights (C.log Group.new events)) := (hsub.filterMap _).filter _
  have hfits' : ∀ m ∈ logs.flatten, C.Fits m := fun m hm => hfits m (hsub.subset hm)
  refine ⟨logs.flatten, hsub, hlogs.disk, ?_⟩
  rintro (hmin | ⟨m, hm, hheight⟩)
  · exact hlogs.answers hmin hfits' (hsorted.sublist hsub') height ignoreDataCorruptionErrors
  · -- the search over the files that are left finds the marker, and so comes to no other file
    have hpruned : C.Holds { C.run Group.new events with minIndex := (C.run Group.new events).first } logs [] := hlogs
    rcases hpruned.answers rfl hfits' (hsorted.sublist hsub') height ignoreDataCorruptionErrors with
      ⟨pre, m', post, gr, hsplit, hm', hfound, hrest⟩ | ⟨hnone, -⟩
    · refine .inl ⟨pre, m', post, gr, hsplit, hm', ?_, hrest⟩
      have hle := minIndex_le_first (C := C) events (Nat.le_refl Group.new.minIndex)
      rw [searchForEndHeight, hpruned.maxIndex, Nat.add_sub_cancel_left] at hfound
      rw [searchForEndHeight, hlogs.maxIndex, Nat.sub_add_comm hle]
      exact searchLoop_pruned hle hfound
    · exact absurd hheight (hnone m hm)

/-- Two heights in two files, of which the first one is removed. -/
def twoFiles : List (WalEvent Nat Nat Nat) :=
  [.restart 0, .write ⟨1, .endHeight 1⟩, .flush, .checkHeadSizeLimit 1, .write ⟨2, .endHeight 2⟩,
    .write ⟨3, .msgInfo 7⟩, .flush, .checkTotalSizeLimit 30]

theorem searchForEndHeight_two_files : ∃ ms : List (TimedWALMessage Nat Nat Nat),
    ms.Sublist [⟨0, .endHeight 0⟩, ⟨1, .endHeight 1⟩, ⟨2, .endHeight 2⟩, ⟨3, .msgInfo 7⟩] ∧
    disk (plain.run Group.new twoFiles) = plain.records ms ∧
    (plain.run Group.new twoFiles).minIndex < (plain.run Group.new twoFiles).first ∧
    plain.Answers (plain.run Group.new twoFiles) ms 2 false := by
  have hempty : plain.Whole [] := ⟨[], by decide, rfl⟩
  have hfirst : plain.Whole (plain.records [⟨0, .endHeight 0⟩, ⟨1, .endHeight 1⟩]) := ⟨_, by decide +kernel, rfl⟩
  have hfits : ∀ m ∈ plain.log Group.new twoFiles, plain.Fits m := by decide +kernel
  have hleft : ∀ m ∈ [(⟨2, .endHeight 2⟩ : TimedWALMessage Nat Nat Nat), ⟨3, .msgInfo 7⟩], plain.Fits m := by
    decide +kernel
  obtain ⟨ms, hsub, hdisk, hanswers⟩ := searchForEndHeight_correct plain twoFiles hfits (by decide +kernel)
    ⟨hempty, trivial, trivial, .inr (.inr hfirst), trivial, trivial, trivial, trivial, trivial⟩
    ⟨[⟨2, .endHeight 2⟩, ⟨3, .msgInfo 7⟩], hleft, by decide +kernel⟩ rfl 2 false
  have hrecords : plain.records [⟨2, .endHeight 2⟩, ⟨3, .msgInfo 7⟩] ++ [] = plain.records ms := by
    rw [← hdisk]
    decide +kernel
  obtain ⟨_, rfl, -⟩ := selfDelimiting_encode.split encode_ne_nil (fun m hm => (hleft m hm).encodes)
    (fun m hm => (hfits m (hsub.subset hm)).encodes) hrecords
  exact ⟨_, hsub, hdisk, by decide +kernel, hanswers (.inr ⟨_, mem_cons_self, rfl⟩)⟩

/-! ## Where the search fails -/

/-- The search ends with an error if the newest file does not begin with a record. -/
theorem searchForEndHeight_error {gr : GroupReader} {err : DecodeError} {height : Int} {ignore : Bool}
    (hindex : g.minIndex ≤ g.maxIndex) (hnew : g.newReader g.maxIndex = .ok gr)
    (hdecode : (C.decode gr).1 = .error err) (heof : err ≠ .eof) (hcorrupt : err.isDataCorruptionError = false) :
    C.searchForEndHeight g height ignore = .error (.decode err) := by
  have hscan : C.scan height ignore (gr.remaining.length + 1) (-1) gr = .error err := by
    rw [scan]
    rcases hd : C.decode gr with ⟨res, gr'⟩
    cases err <;> simp_all
  rw [searchForEndHeight, Nat.sub_add_comm hindex, searchLoop, Nat.add_sub_cancel' hindex, hnew]
  dsimp only
  rw [hscan]

/-- A record that does not fit into the buffer any more is torn by a rotation. -/
theorem torn_by_rotation {m : TimedWALMessage ρ ι τ} (hbuf : g.headBuf ≠ []) (hsize : g.headBuf.length ≤
    Group.headBufSize)
    (hover : Group.headBufSize < g.headBuf.length + (C.encode m).length)
    (hfits : (C.encode m).length ≤ Group.headBufSize) : C.run g [.write m, .checkHeadSizeLimit 1, .flush] = { g with
        rolled := g.rolled ++ [g.content ++ (C.encode m).take (Group.headBufSize - g.headBuf.length)]
        head := some ((C.encode m).drop (Group.headBufSize - g.headBuf.length))
        headBuf := [] } := by
  have hne : (g.headBuf ++ (C.encode m).take (Group.headBufSize - g.headBuf.length)).isEmpty = false := by simp [hbuf]
  have hwrite : C.step g (.write m) = { g with
        head := some (g.content ++ (C.encode m).take (Group.headBufSize - g.headBuf.length))
        headBuf := (C.encode m).drop (Group.headBufSize - g.headBuf.length) } := by
    rw [step, Group.write]
    rw [if_neg (by omega), if_neg (by simp [hbuf]), if_pos (by rw [length_drop]; omega)]
    simp [Group.flushBuf, hne, Group.writeHead, Group.content]
  have hlen : (1 : Int) ≤ (g.content ++ (C.encode m).take (Group.headBufSize - g.headBuf.length)).length := by
    rw [Group.content, length_append, length_append]
    omega
  rw [run, foldl_cons, hwrite, foldl_cons, step, Group.checkHeadSizeLimit, if_neg (by decide), getD_some, if_pos hlen]
  have hrest : ((C.encode m).drop (Group.headBufSize - g.headBuf.length)).isEmpty = false := by
    simp only [isEmpty_eq_false_iff, ne_eq, drop_eq_nil_iff]
    omega
  simp [step, Group.rotateFile, Group.writeHead, Group.flush, Group.flushBuf, hrest]

theorem encode_plain_msgInfo {n : Nat} (hn : n < 1000000) : plain.encode ⟨0, .msgInfo n⟩ =
    putUint32 (plain.checksum (plain.marshal ⟨0, .msgInfo n⟩)).toNat ++ putUint32 (n + 6) ++ [0, 0, 1, 0, 0] ++
      (List.replicate n 1 ++ [0]) := by
  have hlen : (plain.marshal ⟨0, .msgInfo n⟩).length = n + 6 := by simp [marshal_plain_msgInfo]
  have hencodes : plain.Encodes ⟨0, .msgInfo n⟩ := by
    rw [Encodes]
    omega
  rw [encode_eq hencodes, hlen, append_assoc, append_assoc, ← marshal_plain_msgInfo]

theorem length_encode_msgInfo {n : Nat} (hn : n < 1000000) : (plain.encode ⟨0, .msgInfo n⟩).length = n + 14 := by
  rw [encode_plain_msgInfo hn]
  simp
  omega

theorem drop_encode_msgInfo {n k : Nat} (hn : n < 1000000) (hk : k ≤ n) :
    (plain.encode ⟨0, .msgInfo n⟩).drop (13 + k) = List.replicate (n - k) 1 ++ [0] := by
  rw [encode_plain_msgInfo hn, ← drop_drop, drop_left' (by simp), drop_append_of_le_length (by simpa using hk),
    drop_replicate]

/-- The log when the record of a long message has been torn by a rotation. -/
theorem run_torn {m : TimedWALMessage Nat Nat Nat} (hover : 40945 < (plain.encode m).length)
    (hfits : (plain.encode m).length ≤ 40960) :
    ∃ torn, plain.run Group.new [.restart 0, .write ⟨0, .msgInfo 1⟩, .write m, .checkHeadSizeLimit 1, .flush] =
        ⟨0, 0, [torn], some ((plain.encode m).drop 40945), []⟩ ∧
      torn ++ (plain.encode m).drop 40945 = plain.records [⟨0, .endHeight 0⟩, ⟨0, .msgInfo 1⟩, m] := by
  have hstart : plain.run Group.new [.restart 0, .write ⟨0, .msgInfo 1⟩] =
      ⟨0, 0, [], some (plain.encode ⟨0, .endHeight 0⟩), plain.encode ⟨0, .msgInfo 1⟩⟩ := by decide +kernel
  have hlen : (plain.encode ⟨0, .msgInfo 1⟩).length = 15 := by decide +kernel
  have htorn := torn_by_rotation (C := plain) (m := m)
    (g := ⟨0, 0, [], some (plain.encode ⟨0, .endHeight 0⟩), plain.encode ⟨0, .msgInfo 1⟩⟩) (encode_ne_nil _)
    (by rw [hlen]; decide) (by rw [hlen, Group.headBufSize]; omega) hfits
  rw [hlen] at htorn
  refine ⟨plain.encode ⟨0, .endHeight 0⟩ ++ plain.encode ⟨0, .msgInfo 1⟩ ++ (plain.encode m).take 40945, ?_, ?_⟩
  · rw [run] at hstart htorn ⊢
    rw [show ∀ a b c d e : WalEvent Nat Nat Nat, [a, b, c, d, e] = [a, b] ++ [c, d, e] from fun _ _ _ _ _ => rfl,
      foldl_append, hstart, htorn]
    rfl
  · rw [append_assoc, take_append_drop]
    simp [records]

/-- Between a rotation and the next write there is no head, and after a removal the search still looks for the file. A
record torn by a rotation is not where the search can begin to read. Where a lower height ends after a higher one, the
higher one is not found in an older file. -/
theorem searchForEndHeight_fails : (∃ events, disk (plain.run Group.new events) = plain.records [⟨0, .endHeight 0⟩] ∧
      plain.searchForEndHeight (plain.run Group.new events) 0 true = .error (.newReader .notExist)) ∧
    (∃ events, disk (plain.run Group.new events) = plain.records [⟨0, .msgInfo 1⟩] ∧
      plain.searchForEndHeight (plain.run Group.new events) 1 true = .error (.newReader .notExist)) ∧
    (∃ events, disk (plain.run Group.new events) = plain.records [⟨0, .endHeight 0⟩, ⟨0, .msgInfo 1⟩,
      ⟨0, .msgInfo 40940⟩] ∧
      plain.searchForEndHeight (plain.run Group.new events) 0 true = .error (.decode (.lengthExceeded 16843009))) ∧
    ∃ events, disk (plain.run Group.new events) = plain.records [⟨0, .endHeight 0⟩, ⟨0, .endHeight 5⟩,
      ⟨0, .endHeight 3⟩] ∧
      plain.searchForEndHeight (plain.run Group.new events) 5 true = .ok none := by
  refine ⟨⟨[.restart 0, .checkHeadSizeLimit 1], by decide +kernel, by decide +kernel⟩,
    ⟨[.restart 0, .checkHeadSizeLimit 1, .write ⟨0, .msgInfo 1⟩, .flush, .checkTotalSizeLimit 20], by decide +kernel,
      by decide +kernel⟩,
    ⟨[.restart 0, .write ⟨0, .msgInfo 1⟩, .write ⟨0, .msgInfo 40940⟩, .checkHeadSizeLimit 1, .flush], ?_⟩,
    ⟨[.restart 0, .write ⟨0, .endHeight 5⟩, .flush, .checkHeadSizeLimit 1, .write ⟨0, .endHeight 3⟩,
      .flush], by decide +kernel, by decide +kernel⟩⟩
  have hlen : (plain.encode ⟨0, .msgInfo 40940⟩).length = 40954 := length_encode_msgInfo (by decide)
  have hdrop : (plain.encode ⟨0, .msgInfo 40940⟩).drop 40945 = [1, 1, 1, 1, 1, 1, 1, 1, 0] :=
    drop_encode_msgInfo (n := 40940) (k := 40932) (by decide) (by decide)
  obtain ⟨torn, hrun, htorn⟩ := run_torn (m := ⟨0, .msgInfo 40940⟩) (by omega) (by omega)
  rw [hrun, ← htorn, hdrop]
  exact ⟨by simp [disk, Group.files], searchForEndHeight_error (Nat.zero_le 1) rfl (by decide +kernel) (by decide) rfl⟩

end WalCodec

end Demars
