import Demars.Consensus.Wal

/-!
# Replaying the log after a crash

`catchupReplay` of `consensus/replay.go`: it makes sure that the end of the height is not in the log, searches for
the end of the height before and hands the messages after it to the consensus state. A crash can leave the last
record cut off.
-/

namespace Demars

open Autofile List

variable {ρ ι τ σ : Type}

/-- What the handlers make of the state, which may be one after a panic. -/
structure ReplayHandlers (σ ι τ : Type) where
  handleMsg : σ → ι → σ
  handleTimeout : σ → τ → σ

/-- `readReplayMessage`, without the playback checks. -/
def ReplayHandlers.readReplayMessage (H : ReplayHandlers σ ι τ) (s : σ) (m : TimedWALMessage ρ ι τ) : σ :=
  match m.msg with
  | .endHeight _ => s
  | .eventDataRoundState _ => s
  | .msgInfo m => H.handleMsg s m
  | .timeoutInfo m => H.handleTimeout s m

inductive ReplayError where
  | search (err : SearchError)
  /-- "WAL should not contain #ENDHEIGHT". -/
  | shouldNotContain (height : Int)
  /-- "Cannot replay height: WAL does not contain #ENDHEIGHT". -/
  | cannotReplay (height : Int)
  | decode (err : DecodeError)
deriving DecidableEq

/-- How `catchupReplay` ends: it panics at corrupted data. -/
inductive ReplayResult where
  | done
  | failed (err : ReplayError)
  | panicked (err : DecodeError)
deriving DecidableEq

namespace WalCodec

variable (C : WalCodec ρ ι τ) (H : ReplayHandlers σ ι τ)

def replayLoop : Nat → σ → GroupReader → ReplayResult × σ
  | 0, s, _ => (.done, s)
  | n + 1, s, gr =>
    match C.decode gr with
    | (.error .eof, _) => (.done, s)
    | (.error err, _) => if err.isDataCorruptionError then (.panicked err, s) else (.failed (.decode err), s)
    | (.ok m, gr) => replayLoop n (H.readReplayMessage s m) gr

def catchupReplay (g : Group) (s : σ) (csHeight : Int) : ReplayResult × σ :=
  match C.searchForEndHeight g csHeight true with
  | .error err => (.failed (.search err), s)
  | .ok (some _) => (.failed (.shouldNotContain csHeight), s)
  | .ok none =>
    match C.searchForEndHeight g (csHeight - 1) true with
    | .error (.newReader .eof) => (.failed (.cannotReplay csHeight), s)
    | .error err => (.failed (.search err), s)
    | .ok none => (.failed (.cannotReplay csHeight), s)
    | .ok (some gr) => C.replayLoop H (gr.remaining.length + 1) s gr

variable {C}

theorem replayLoop_spec {tail : Bytes}
    (hend : ∀ gr : GroupReader, gr.Complete → gr.remaining = tail → (C.decode gr).1 = .error .eof)
    {ms : List (TimedWALMessage ρ ι τ)} (hfits : ∀ m ∈ ms, C.Fits m) {gr : GroupReader} (hgr : gr.Complete)
    (hrem : gr.remaining = C.records ms ++ tail) {n : Nat} (hn : ms.length < n) (s : σ) :
    C.replayLoop H n s gr = (.done, ms.foldl H.readReplayMessage s) := by
  induction ms generalizing gr n s with
  | nil =>
    obtain ⟨n, rfl⟩ := Nat.exists_eq_succ_of_ne_zero (Nat.ne_zero_of_lt hn)
    have hdecode := hend gr hgr hrem
    rw [replayLoop]
    rcases hd : C.decode gr with ⟨res, gr'⟩
    rw [hd] at hdecode
    cases hdecode
    rfl
  | cons m ms ih =>
    obtain ⟨n, rfl⟩ := Nat.exists_eq_succ_of_ne_zero (Nat.ne_zero_of_lt hn)
    rw [records, flatMap_cons, append_assoc] at hrem
    obtain ⟨gr', hdecode, hgr', hrem'⟩ := decode_encode hgr (hfits m mem_cons_self) hrem
    rw [replayLoop, hdecode]
    exact ih (fun m' hm' => hfits m' (mem_cons_of_mem m hm')) hgr' hrem' (Nat.lt_of_succ_lt_succ hn) _

/-! ## Logs whose last record is cut off -/

variable (C)

/-- The log of a node that has crashed in a height: after the marker of the height before there are its records, in
this file and newer ones, of which the last is cut off. -/
structure TornLog (height : Int) where
  older : List (List (TimedWALMessage ρ ι τ))
  before : List (TimedWALMessage ρ ι τ)
  time : Int
  after : List (TimedWALMessage ρ ι τ)
  newer : List (List (TimedWALMessage ρ ι τ))
  last : TimedWALMessage ρ ι τ
  /-- The bytes of the last record that are there. -/
  cut : Nat
  encodes : ∀ m ∈ older.flatten ++ before ++ after ++ newer.flatten, C.Encodes m
  encodes_marker : C.Encodes ⟨time, .endHeight (height - 1)⟩
  encodes_last : C.Encodes last
  /-- The other markers are of other heights. -/
  earlier : ∀ m ∈ older.flatten ++ before, m.endHeight? ≠ some height ∧ m.endHeight? ≠ some (height - 1)
  /-- The height has not ended. -/
  unfinished : ∀ m ∈ after ++ newer.flatten, m.endHeight? = none
  cut_lt : cut < (C.encode last).length

namespace TornLog

variable {C} {height : Int} (log : C.TornLog height)

def marker : TimedWALMessage ρ ι τ := ⟨log.time, .endHeight (height - 1)⟩

def logs : List (List (TimedWALMessage ρ ι τ)) := log.older ++ (log.before ++ log.marker :: log.after) :: log.newer

def ofHeight : List (TimedWALMessage ρ ι τ) := log.after ++ log.newer.flatten

def tail : Bytes := (C.encode log.last).take log.cut

/-- The files of a group that has been opened are this log. -/
def On (g : Group) : Prop := C.Holds g log.logs log.tail ∧ g.minIndex = g.first

/-- The oldest file that is read: after a height that is not positive the search goes on. -/
def oldest : Nat := if 1 < height then log.older.length else 0

/-- The decoder accepts the length of the records from a file on. -/
def Accepted (k : Nat) : Prop := ∀ m ∈ (log.logs.drop k).flatten, C.Fits m

instance (k : Nat) : Decidable (log.Accepted k) :=
  inferInstanceAs (Decidable (∀ m ∈ (log.logs.drop k).flatten, C.Fits m))

variable {log} {k : Nat} {m : TimedWALMessage ρ ι τ}

theorem flatten_drop_of_le (hk : k ≤ log.older.length) :
    (log.logs.drop k).flatten = (log.older.drop k).flatten ++ log.before ++ log.marker :: log.ofHeight := by
  rw [logs, drop_append_of_le_length hk]
  simp [ofHeight]

theorem flatten_drop_of_lt (hk : log.older.length < k) :
    (log.logs.drop k).flatten = (log.newer.drop (k - log.older.length - 1)).flatten := by
  obtain ⟨n, rfl⟩ := Nat.exists_eq_add_of_lt hk
  rw [logs, drop_append, drop_of_length_le (by omega), nil_append,
    show log.older.length + n + 1 - log.older.length = n + 1 by omega, drop_succ_cons, Nat.add_sub_cancel]

theorem mem_ofHeight (hk : log.older.length < k) (hm : m ∈ (log.logs.drop k).flatten) : m ∈ log.ofHeight := by
  rw [flatten_drop_of_lt hk] at hm
  exact mem_append_right _ ((drop_sublist _ _).flatten.subset hm)

theorem mem_logs (hm : m ∈ (log.logs.drop k).flatten) :
    m ∈ log.older.flatten ++ log.before ∨ m = log.marker ∨ m ∈ log.ofHeight := by
  have hlogs := (drop_sublist k log.logs).flatten.subset hm
  simp only [logs, ofHeight, flatten_append, flatten_cons, mem_append, mem_cons] at hlogs ⊢
  tauto

theorem encodes_of_mem (hm : m ∈ (log.logs.drop k).flatten) : C.Encodes m := by
  have hall := log.encodes
  rcases mem_logs hm with h | rfl | h
  · exact hall m (by simp only [mem_append] at h ⊢; tauto)
  · exact log.encodes_marker
  · exact hall m (by simp only [ofHeight, mem_append] at h ⊢; tauto)

theorem not_ended_of_mem (hm : m ∈ (log.logs.drop k).flatten) : m.endHeight? ≠ some height := by
  rcases mem_logs hm with h | rfl | h
  · exact (log.earlier m h).1
  · simp [marker, TimedWALMessage.endHeight?]
  · rw [log.unfinished m h]
    exact nofun

theorem lastHeight_of_unfinished {ms : List (TimedWALMessage ρ ι τ)} (h : ∀ m ∈ ms, m.endHeight? = none) (last : Int) :
    lastHeight last ms = last := by
  rcases lastHeight_cases ms with hlast | ⟨m, hm, height, hheight, -⟩
  · exact hlast last
  · rw [h m hm] at hheight
    cases hheight

theorem lastHeight_of_le (hk : k ≤ log.older.length) (last : Int) :
    lastHeight last (log.logs.drop k).flatten = height - 1 := by
  rw [flatten_drop_of_le hk, lastHeight, foldl_append]
  exact lastHeight_of_unfinished log.unfinished _

theorem lastHeight_of_lt (hk : log.older.length < k) (last : Int) : lastHeight last (log.logs.drop k).flatten = last :=
  lastHeight_of_unfinished (fun m hm => log.unfinished m (mem_ofHeight hk hm)) last

theorem Accepted.mono {n : Nat} (h : log.Accepted k) (hkn : k ≤ n) : log.Accepted n := by
  intro m hm
  obtain ⟨d, rfl⟩ := Nat.exists_eq_add_of_le hkn
  rw [← drop_drop] at hm
  exact h m ((drop_sublist d _).flatten.subset hm)

theorem oldest_le : log.oldest ≤ log.older.length := by
  unfold oldest
  split
  · exact Nat.le_refl _
  · exact Nat.zero_le _

theorem oldest_lt : log.older.length < log.logs.length := by simp [logs]

theorem decode_tail (gr : GroupReader) (hgr : gr.Complete) (hrem : gr.remaining = log.tail) :
    (C.decode gr).1 = .error (C.tornError log.last log.cut) := decode_torn hgr log.encodes_last log.cut_lt hrem

theorem tornError_eq_eof : C.tornError log.last log.cut = .eof ↔ log.cut < 4 := by
  unfold tornError
  split_ifs <;> simp_all

theorem isDataCorruptionError_tornError : (C.tornError log.last log.cut).isDataCorruptionError = false := by
  unfold tornError
  split_ifs <;> rfl

end TornLog

variable {C}

/-- The decoder stops at what follows the records, or at the first one that is too long. -/
theorem exists_end {tail : Bytes} {err : DecodeError}
    (hend : ∀ gr : GroupReader, gr.Complete → gr.remaining = tail → (C.decode gr).1 = .error err)
    (herr : err.isDataCorruptionError = false) {ms : List (TimedWALMessage ρ ι τ)} (hencodes : ∀ m ∈ ms, C.Encodes m)
    (h : ¬ (err = .eof ∧ ∀ m ∈ ms, C.Fits m)) :
    ∃ ms' tail' err', C.records ms ++ tail = C.records ms' ++ tail' ∧ (∀ m ∈ ms', C.Fits m ∧ m ∈ ms) ∧
      (∀ gr : GroupReader, gr.Complete → gr.remaining = tail' → (C.decode gr).1 = .error err') ∧
      err'.isDataCorruptionError = false ∧ err' ≠ .eof := by
  induction ms with
  | nil =>
    have hne : err ≠ .eof := fun he => h ⟨he, fun m hm => (not_mem_nil hm).elim⟩
    exact ⟨[], tail, err, rfl, fun m hm => (not_mem_nil hm).elim, hend, herr, hne⟩
  | cons m ms ih =>
    by_cases hm : C.Fits m
    · obtain ⟨ms', tail', err', hrecords, hms', hend', herr'⟩ := ih (fun m' hm' => hencodes m' (mem_cons_of_mem m hm'))
        (fun h' => h ⟨h'.1, forall_mem_cons.2 ⟨hm, h'.2⟩⟩)
      refine ⟨m :: ms', tail', err', ?_, forall_mem_cons.2 ⟨⟨hm, mem_cons_self⟩, ?_⟩, hend', herr'⟩
      · rw [records, records] at hrecords ⊢
        rw [flatMap_cons, append_assoc, hrecords, flatMap_cons, append_assoc]
      · exact fun m' hm' => ⟨(hms' m' hm').1, mem_cons_of_mem m (hms' m' hm').2⟩
    · refine ⟨[], C.records (m :: ms) ++ tail, .lengthExceeded (C.marshal m).length, rfl,
        fun m hm => (not_mem_nil hm).elim, ?_, rfl, fun heof => by cases heof⟩
      intro gr hgr hrem
      rw [records, flatMap_cons, append_assoc] at hrem
      exact decode_exceeded hgr (hencodes m mem_cons_self) hm hrem

namespace TornLog

variable {height : Int} {log : C.TornLog height} {g : Group}

/-- A file whose records the decoder accepts and that has no marker of the height. -/
theorem searchLoop_step (hg : log.On g) {h : Int} {k : Nat} (hk : k < log.logs.length) (hcut : log.cut < 4)
    (hfits : log.Accepted k) (hnone : ∀ m ∈ (log.logs.drop k).flatten, m.endHeight? ≠ some h) :
    C.searchLoop g h true (lastHeight (-1) (log.logs.drop (k + 1)).flatten) (k + 1) =
      if 0 < lastHeight (-1) (log.logs.drop k).flatten ∧ lastHeight (-1) (log.logs.drop k).flatten < h then .ok none
      else C.searchLoop g h true (lastHeight (-1) (log.logs.drop k).flatten) k := by
  have hdrop : (log.logs.drop k).flatten = log.logs[k] ++ (log.logs.drop (k + 1)).flatten := by
    rw [drop_eq_getElem_cons hk, flatten_cons]
  have hlast := lastHeight_again (-1) log.logs[k] (log.logs.drop (k + 1)).flatten
  rw [← hdrop] at hlast
  rcases hg.1.searchLoop_succ hg.2 decode_tail isDataCorruptionError_tornError hk hfits rfl
    (lastHeight (-1) (log.logs.drop (k + 1)).flatten) with ⟨pre, m, post, gr, hms, hm, -⟩ | ⟨-, hsearch⟩
  · exact absurd hm (hnone m (by rw [hms]; exact mem_append_right _ mem_cons_self))
  · rw [hsearch, if_pos (tornError_eq_eof.2 hcut), hlast]

theorem searchLoop_descend (hg : log.On g) {h : Int} {lo hi : Nat} (hhi : hi ≤ log.logs.length) (hlo : lo ≤ hi)
    (hcut : log.cut < 4) (hfits : log.Accepted lo) (hnone : ∀ m ∈ (log.logs.drop lo).flatten, m.endHeight? ≠ some h)
    (hlast : ∀ k, lo ≤ k → k < hi → lastHeight (-1) (log.logs.drop k).flatten ≤ 0) :
    C.searchLoop g h true (lastHeight (-1) (log.logs.drop hi).flatten) hi =
      C.searchLoop g h true (lastHeight (-1) (log.logs.drop lo).flatten) lo := by
  induction hi with
  | zero =>
    obtain rfl := Nat.le_zero.1 hlo
    rfl
  | succ k ih =>
    rcases Nat.lt_or_ge k lo with hk | hk
    · obtain rfl : lo = k + 1 := by omega
      rfl
    · have hnone' : ∀ m ∈ (log.logs.drop k).flatten, m.endHeight? ≠ some h := by
        intro m hm
        obtain ⟨d, rfl⟩ := Nat.exists_eq_add_of_le hk
        rw [← drop_drop] at hm
        exact hnone m ((drop_sublist d _).flatten.subset hm)
      have hpos := hlast k hk (Nat.lt_succ_self k)
      rw [searchLoop_step hg hhi hcut (hfits.mono hk) hnone', if_neg (by omega)]
      exact ih (Nat.le_of_succ_le hhi) hk fun n hn hnk => hlast n hn (Nat.lt_succ_of_lt hnk)

theorem lastHeight_le_zero {k : Nat} (hk : log.oldest < k) : lastHeight (-1) (log.logs.drop k).flatten ≤ 0 := by
  rcases Nat.lt_or_ge log.older.length k with hlt | hle
  · rw [lastHeight_of_lt hlt]
    decide
  · rw [lastHeight_of_le hle]
    unfold oldest at hk
    split at hk
    · omega
    · omega

/-- The search for the end of the height finds that it is not there. -/
theorem search_none (hg : log.On g) (hcut : log.cut < 4) (hfits : log.Accepted log.oldest) :
    C.searchForEndHeight g height true = .ok none := by
  have hlt : log.oldest < log.logs.length := Nat.lt_of_le_of_lt oldest_le oldest_lt
  have hdescend := searchLoop_descend hg (Nat.le_refl _) hlt hcut (hfits.mono (Nat.le_succ _))
    (fun m hm => not_ended_of_mem hm)
    (fun k hk _ => lastHeight_le_zero hk)
  rw [drop_length, searchLoop_step hg hlt hcut hfits (fun m hm => not_ended_of_mem hm), lastHeight_of_le oldest_le]
    at hdescend
  rw [searchForEndHeight, hg.1.maxIndex, hg.2, Nat.add_sub_cancel_left]
  refine hdescend.trans ?_
  split
  · rfl
  · have hzero : log.oldest = 0 := if_neg (by omega)
    rw [hzero]
    rfl

theorem search_error (hg : log.On g) (h : ¬ (log.cut < 4 ∧ log.Accepted log.oldest)) :
    ∃ err, C.searchForEndHeight g height true = .error err := by
  have hloop : ∀ hi, log.oldest < hi → hi ≤ log.logs.length →
      ∃ err, C.searchLoop g height true (lastHeight (-1) (log.logs.drop hi).flatten) hi = .error err := by
    intro hi
    induction hi with
    | zero => exact fun hlt => absurd hlt (Nat.not_lt_zero _)
    | succ k ih =>
      intro hlt hk
      by_cases hstop : log.cut < 4 ∧ log.Accepted k
      · have hne : log.oldest ≠ k := fun heq => h ⟨hstop.1, heq ▸ hstop.2⟩
        have hpos := lastHeight_le_zero (show log.oldest < k by omega)
        rw [searchLoop_step hg hk hstop.1 hstop.2 (fun m hm => not_ended_of_mem hm), if_neg (by omega)]
        exact ih (by omega) (Nat.le_of_succ_le hk)
      · obtain ⟨ms, tail, err, hrecords, hms, hend, herr, hne⟩ := exists_end decode_tail isDataCorruptionError_tornError
          (fun m (hm : m ∈ (log.logs.drop k).flatten) => encodes_of_mem hm)
            (fun hall => hstop ⟨tornError_eq_eof.1 hall.1, hall.2⟩)
        rcases hg.1.searchLoop_succ hg.2 hend herr hk (fun m hm => (hms m hm).1) hrecords
          (lastHeight (-1) (log.logs.drop (k + 1)).flatten) with ⟨pre, m, post, gr, heq, hm, -⟩ | ⟨-, hsearch⟩
        · have hmem : m ∈ ms := by rw [heq]; exact mem_append_right _ mem_cons_self
          exact absurd hm (not_ended_of_mem (hms m hmem).2)
        · exact ⟨_, by rw [hsearch, if_neg hne]⟩
  obtain ⟨err, herr⟩ := hloop log.logs.length (Nat.lt_of_le_of_lt oldest_le oldest_lt) (Nat.le_refl _)
  rw [drop_length] at herr
  rw [searchForEndHeight, hg.1.maxIndex, hg.2, Nat.add_sub_cancel_left]
  exact ⟨err, herr⟩

theorem search_found (hg : log.On g) (hcut : log.cut < 4) (hfits : log.Accepted log.oldest) :
    ∃ gr, C.searchForEndHeight g (height - 1) true = .ok (some gr) ∧ gr.Complete ∧
      gr.remaining = C.records log.ofHeight ++ log.tail := by
  have hunfinished : ∀ m ∈ log.ofHeight, m.endHeight? ≠ some (height - 1) := by
    intro m hm
    rw [log.unfinished m hm]
    exact nofun
  have hnewer : ∀ m ∈ (log.logs.drop (log.older.length + 1)).flatten, m.endHeight? ≠ some (height - 1) :=
    fun m hm => hunfinished m (mem_ofHeight (Nat.lt_succ_self _) hm)
  have hdescend := searchLoop_descend hg (Nat.le_refl _) oldest_lt hcut (hfits.mono (Nat.le_succ_of_le oldest_le))
    hnewer
    (fun k hk _ => by rw [lastHeight_of_lt hk]; decide)
  rw [searchForEndHeight, hg.1.maxIndex, hg.2, Nat.add_sub_cancel_left]
  rw [drop_length] at hdescend
  have hstream : (log.logs.drop log.older.length).flatten = log.before ++ log.marker :: log.ofHeight := by
    rw [flatten_drop_of_le (Nat.le_refl _), drop_length, flatten_nil, nil_append]
  rcases hg.1.searchLoop_succ hg.2 decode_tail isDataCorruptionError_tornError oldest_lt (hfits.mono oldest_le) rfl
    (lastHeight (-1) (log.logs.drop (log.older.length + 1)).flatten) with
    ⟨pre, m, post, gr, hms, hm, hsearch, hgr, hrem⟩ | ⟨hnone, -⟩
  · rw [hstream] at hms
    have hbefore : m ∉ log.before := fun hmem => (log.earlier m (mem_append_right _ hmem)).2 hm
    have hafter : m ∉ log.ofHeight := fun hmem => hunfinished m hmem hm
    obtain ⟨-, -, rfl⟩ := (List.append_cons_inj_of_notMem hbefore hafter).1 hms
    exact ⟨gr, hdescend.trans hsearch, hgr, hrem⟩
  · refine absurd ?_ (hnone log.marker (by rw [hstream]; exact mem_append_right _ mem_cons_self))
    rfl

/-- A log in height 2 with three files, and a record of 16 bytes that is cut off. -/
def crashed (cut : Fin 16) : plain.TornLog 2 where
  older := [[⟨0, .endHeight 0⟩]]
  before := [⟨1, .msgInfo 3⟩]
  time := 2
  after := [⟨3, .msgInfo 7⟩]
  newer := [[⟨4, .eventDataRoundState 1⟩, ⟨5, .timeoutInfo 4⟩]]
  last := ⟨0, .msgInfo 2⟩
  cut
  encodes := by decide +kernel
  encodes_marker := by decide +kernel
  encodes_last := by decide +kernel
  earlier := by decide +kernel
  unfinished := by decide +kernel
  cut_lt := Nat.lt_of_lt_of_eq cut.isLt (by decide +kernel)

def crashedGroup (cut : Fin 16) : Group where
  minIndex := 0
  first := 0
  rolled := [plain.records [⟨0, .endHeight 0⟩], plain.records [⟨1, .msgInfo 3⟩, ⟨2, .endHeight 1⟩, ⟨3, .msgInfo 7⟩]]
  head := some (plain.records [⟨4, .eventDataRoundState 1⟩, ⟨5, .timeoutInfo 4⟩] ++
    (plain.encode ⟨0, .msgInfo 2⟩).take cut)
  headBuf := []

theorem on_crashedGroup (cut : Fin 16) : (crashed cut).On (crashedGroup cut) :=
  ⟨⟨[[⟨0, .endHeight 0⟩], [⟨1, .msgInfo 3⟩, ⟨2, .endHeight 1⟩, ⟨3, .msgInfo 7⟩]],
    [⟨4, .eventDataRoundState 1⟩, ⟨5, .timeoutInfo 4⟩], rfl, rfl, rfl⟩, rfl⟩

def noting : ReplayHandlers (List Nat) Nat Nat := ⟨fun s m => s ++ [m], fun s m => s ++ [m]⟩

end TornLog

end WalCodec

end Demars
