import Mathlib.Tactic

/-!
# Values that are stored where they change

A value goes along with a position that counts up. It is written in full at the positions where it changed; at the
others there is only a pointer to the last such position, which a reader follows once (`find`). A run goes on to
the next position with a change or without one, or writes the same position once more. Lists of points have the
latest one first.
-/

namespace ChangeLog

open List Option

variable {α β : Type}

/-- A record: the value, where it is here, and the position of its last change. -/
structure Entry (α : Type) where
  value : Option α
  changed : Int

/-- A position with its value, and the position since which the value is said to be the same. -/
structure Point (α : Type) where
  pos : Int
  changed : Int
  value : α

def Point.entry (p : Point α) : Entry α := ⟨if p.changed = p.pos then some p.value else none, p.changed⟩

theorem Point.entry_of_full {p : Point α} (h : p.changed = p.pos) : p.entry.value = some p.value := if_pos h

theorem Point.entry_of_pointer {p : Point α} (h : p.changed ≠ p.pos) : p.entry.value = none := if_neg h

/-- The records after some points were written. -/
def table : List (Point α) → Int → Option (Entry α)
  | [] => fun _ => none
  | p :: older => Function.update (table older) p.pos (some p.entry)

/-- The point that was last written for a position. -/
def inForce : List (Point α) → Int → Option (Point α)
  | [], _ => none
  | p :: older, pos => if pos = p.pos then some p else inForce older pos

def find (t : Int → Option (Entry α)) (pos : Int) : Option α :=
  (t pos).bind fun e => match e.value with
    | some a => some a
    | none => (t e.changed).bind Entry.value

theorem inForce_cons_self (p : Point α) (older : List (Point α)) : inForce (p :: older) p.pos = some p := if_pos rfl

variable {pos : Int}

theorem inForce_cons_of_ne {p : Point α} (h : pos ≠ p.pos) (older : List (Point α)) :
    inForce (p :: older) pos = inForce older pos := if_neg h

theorem table_eq : ∀ (ps : List (Point α)) (pos : Int), table ps pos = (inForce ps pos).map Point.entry
  | [], _ => rfl
  | p :: older, pos => by
    rw [table, inForce]
    split_ifs with h
    · rw [h, Function.update_self, map_some]
    · rw [Function.update_of_ne h, table_eq older pos]

variable (f : α → β)

/-- A change, no change, or the same position again. -/
inductive Step (p : Point α) : Point α → Prop
  | change (a : α) : Step p ⟨p.pos + 1, p.pos + 1, a⟩
  | keep (a : α) (h : f a = f p.value) : Step p ⟨p.pos + 1, p.changed, a⟩
  | again (a : α) : Step p ⟨p.pos, p.changed, a⟩

inductive Run : List (Point α) → Prop
  | start (p : Point α) (h : p.changed = p.pos) : Run [p]
  | step {p p' : Point α} {older : List (Point α)} (hrun : Run (p :: older)) (h : Step f p p') : Run (p' :: p :: older)

/-- A position that is written once more has its value in full, or keeps it. -/
def Sound (p' p : Point α) : Prop := p'.pos = p.pos → p.changed = p.pos ∨ f p'.value = f p.value

/-- Every position is found with the value that was last written for it. -/
def Finds (ps : List (Point α)) : Prop :=
  ∀ pos p, inForce ps pos = some p → (find (table ps) pos).map f = some (f p.value)

/-! ## Runs that are sound -/

/-- The point that a reader comes to by one pointer. -/
structure Found (ps : List (Point α)) (last : Int) (p : Point α) : Prop where
  le : p.changed ≤ p.pos
  le_last : p.pos ≤ last
  source : ∃ q, inForce ps p.changed = some q ∧ q.changed = q.pos ∧ f q.value = f p.value

variable {f} {ps older : List (Point α)} {p p' : Point α}

theorem pos_of_inForce : ∀ {ps : List (Point α)} {pos : Int} {p : Point α}, inForce ps pos = some p → p.pos = pos
  | p :: older, pos, q, h => by
    rw [inForce] at h
    split_ifs at h with heq
    · cases h
      exact heq.symm
    · exact pos_of_inForce h

theorem mem_of_inForce : ∀ {ps : List (Point α)} {pos : Int} {p : Point α}, inForce ps pos = some p → p ∈ ps
  | p :: older, pos, q, h => by
    rw [inForce] at h
    split_ifs at h
    · cases h
      exact mem_cons_self
    · exact mem_cons_of_mem p (mem_of_inForce h)

theorem find_of_full (hp : inForce ps pos = some p) (hfull : p.changed = p.pos) :
    find (table ps) pos = some p.value := by
  simp only [find, table_eq, hp, map_some, bind_some, Point.entry, if_pos hfull]

theorem find_of_pointer {q : Point α} (hp : inForce ps pos = some p) (hne : p.changed ≠ p.pos)
    (hq : inForce ps p.changed = some q) (hfull : q.changed = q.pos) : find (table ps) pos = some q.value := by
  simp only [find, table_eq, hp, map_some, bind_some, Point.entry, if_neg hne, hq, if_pos hfull]

theorem Found.find {last : Int} (h : Found f ps last p) (hp : inForce ps pos = some p) :
    (find (table ps) pos).map f = some (f p.value) := by
  obtain ⟨q, hq, hfull, hval⟩ := h.source
  by_cases heq : p.changed = p.pos
  · rw [find_of_full hp heq, map_some]
  · rw [find_of_pointer hp heq hq hfull, map_some, hval]

/-- A new position does not disturb the points before it. -/
theorem Found.cons_next {q : Point α} {last : Int} (h : Found f ps last p) (hq : last < q.pos) :
    Found f (q :: ps) q.pos p := by
  obtain ⟨r, hr, hfull, hval⟩ := h.source
  have hne : p.changed ≠ q.pos := by have := h.le; have := h.le_last; omega
  exact ⟨h.le, by have := h.le_last; omega, r, by rw [inForce_cons_of_ne hne, hr], hfull, hval⟩

theorem Run.found (hrun : Run f ps) (hsound : ps.IsChain (Sound f)) :
    ∀ last ∈ ps.head?, ∀ pos p, inForce ps pos = some p → Found f ps last.pos p := by
  induction hrun with
  | start p₀ h₀ =>
    intro last hlast pos p hp
    cases hlast
    rw [inForce] at hp
    split_ifs at hp with heq
    · cases hp
      exact ⟨h₀.le, le_rfl, p₀, if_pos h₀, h₀, rfl⟩
    · cases hp
  | @step p p' older hrun hstep ih =>
    intro last hlast pos q hq
    cases hlast
    have hfound := ih hsound.tail p rfl
    have hhead := inForce_cons_self p older
    rw [inForce] at hq
    cases hstep with
    | change a =>
      split_ifs at hq with heq
      · cases hq
        exact ⟨le_rfl, le_rfl, _, if_pos rfl, rfl, rfl⟩
      · exact (hfound pos q hq).cons_next (by simp)
    | keep a hval =>
      split_ifs at hq with heq
      · cases hq
        obtain ⟨hle, -, r, hr, hfull, hrval⟩ := hfound p.pos p hhead
        refine ⟨by simp only; omega, le_rfl, r, ?_, hfull, hrval.trans hval.symm⟩
        rw [inForce_cons_of_ne (by simp only; omega), hr]
      · exact (hfound pos q hq).cons_next (by simp)
    | again a =>
      split_ifs at hq with heq
      · cases hq
        obtain ⟨hle, -, r, hr, hfull, hrval⟩ := hfound p.pos p hhead
        refine ⟨hle, le_rfl, ?_⟩
        by_cases hsame : p.changed = p.pos
        · exact ⟨⟨p.pos, p.changed, a⟩, if_pos hsame, hsame, rfl⟩
        · have hkept := ((isChain_cons_cons.1 hsound).1 rfl).resolve_left hsame
          exact ⟨r, (if_neg hsame).trans hr, hfull, hrval.trans hkept.symm⟩
      · obtain ⟨hle, hlast, r, hr, hfull, hrval⟩ := hfound pos q hq
        have hpos := pos_of_inForce hq
        have hne : q.changed ≠ p.pos := by
          simp only at heq
          omega
        exact ⟨hle, hlast, r, (if_neg hne).trans hr, hfull, hrval⟩

theorem Run.unit (hrun : Run f ps) : Run (fun _ => ()) ps := by
  induction hrun with
  | start p h => exact .start p h
  | step _ hstep ih =>
    refine ih.step ?_
    cases hstep with
    | change a => exact .change a
    | keep a => exact .keep a rfl
    | again a => exact .again a

theorem Run.pointer (hrun : Run f ps) (hp : inForce ps pos = some p) :
    ∃ q, inForce ps p.changed = some q ∧ q.changed = q.pos := by
  have hsound : ps.IsChain (Sound fun _ : α => ()) := (pairwise_of_forall fun _ _ _ => .inr rfl).isChain
  cases hps : ps with
  | nil =>
    rw [hps] at hp
    cases hp
  | cons last older =>
    obtain ⟨-, -, q, hq, hfull, -⟩ := hrun.unit.found hsound last (by rw [hps]; rfl) pos p hp
    exact ⟨q, by rw [← hps, hq], hfull⟩

/-- The positions of a run go from the first one to the last one without a gap. -/
theorem Run.between (hrun : Run f ps) {first last : Point α} (hfirst : ps.getLast? = some first)
    (hlast : ps.head? = some last) :
    (∀ p ∈ ps, first.pos ≤ p.changed ∧ p.changed ≤ p.pos ∧ p.pos ≤ last.pos) ∧
      ∀ pos, first.pos ≤ pos → pos ≤ last.pos → ∃ p, inForce ps pos = some p := by
  induction hrun generalizing last with
  | start p h =>
    obtain rfl : p = first := by simpa using hfirst
    cases hlast
    exact ⟨fun q hq => by rw [mem_singleton.1 hq, h]; simp, fun pos hlow hhigh => ⟨p, if_pos (by omega)⟩⟩
  | @step p p' older hrun hstep ih =>
    obtain ⟨hall, hex⟩ := ih (by rwa [getLast?_cons_cons] at hfirst) rfl
    cases hlast
    have hp := hall p mem_cons_self
    have hnext : p.pos ≤ p'.pos ∧ p'.pos ≤ p.pos + 1 ∧ first.pos ≤ p'.changed ∧ p'.changed ≤ p'.pos := by
      cases hstep <;> simp only <;> omega
    refine ⟨forall_mem_cons.2 ⟨by omega, fun q hq => ?_⟩, fun pos hlow hhigh => ?_⟩
    · have := hall q hq
      omega
    · rw [inForce]
      split_ifs with heq
      · exact ⟨_, rfl⟩
      · exact hex pos hlow (by omega)

/-! ## Which runs are read right -/

theorem finds_iff (hrun : Run f ps) : (∀ qs, qs <:+ ps → qs ≠ [] → Finds f qs) ↔ ps.IsChain (Sound f) := by
  induction hrun with
  | start p₀ h₀ =>
    refine iff_of_true (fun qs hqs hne pos p hp => ?_) (isChain_singleton _)
    have hone : qs = [p₀] := (suffix_cons_iff.1 hqs).resolve_right fun h => hne (suffix_nil.1 h)
    subst hone
    exact ((Run.start p₀ h₀).found (isChain_singleton _) p₀ rfl pos p hp).find hp
  | @step p p' older hrun hstep ih =>
    constructor
    · intro h
      have htail : (p :: older).IsChain (Sound f) := ih.1 fun qs hqs => h qs (hqs.trans (suffix_cons _ _))
      refine isChain_cons_cons.2 ⟨fun hpos => ?_, htail⟩
      by_cases hsame : p.changed = p.pos
      · exact .inl hsame
      · right
        have hchanged : p'.changed = p.changed := by
          cases hstep with
          | change | keep => simp at hpos
          | again => rfl
        obtain ⟨-, -, r, hr, hfull, hrval⟩ := hrun.found htail p rfl p.pos p (inForce_cons_self p older)
        have hhead := inForce_cons_self p' (p :: older)
        have hne : p'.changed ≠ p'.pos := by omega
        -- the new record points to the old value
        have hread := find_of_pointer hhead hne (by rw [inForce_cons_of_ne hne, hchanged, hr]) hfull
        have hnew := h _ suffix_rfl (cons_ne_nil _ _) p'.pos p' hhead
        rw [hread] at hnew
        exact (Option.some.inj hnew).symm.trans hrval
    · intro hsound qs hqs hne
      rcases suffix_cons_iff.1 hqs with rfl | hqs
      · exact fun pos q hq => ((hrun.step hstep).found hsound p' rfl pos q hq).find hq
      · exact ih.2 hsound.tail qs hqs hne

end ChangeLog
