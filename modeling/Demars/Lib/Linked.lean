import Mathlib.Data.List.Basic

/-!
# Doubly linked lists

Nodes point to the node after and to the node before them. `Segment next prev before l after` says that the nodes
`l` are linked one after the other, between a node before and a node after.
-/

namespace Linked

open List Option

variable {ι : Type*}

def Segment (next prev : ι → Option ι) : Option ι → List ι → Option ι → Prop
  | _, [], _ => True
  | before, e :: l, after => prev e = before ∧ next e = l.head?.or after ∧ Segment next prev (some e) l after

variable {next prev next' prev' : ι → Option ι} {before after before' after' : Option ι} {l l' : List ι} {e : ι}

theorem getLast?_cons_or (e : ι) (l : List ι) (before : Option ι) :
    (e :: l).getLast?.or before = l.getLast?.or (some e) := by
  rw [getLast?_cons]
  cases l.getLast? <;> rfl

theorem segment_append : Segment next prev before (l ++ l') after ↔
    Segment next prev before l (l'.head?.or after) ∧ Segment next prev (l.getLast?.or before) l' after := by
  induction l generalizing before with
  | nil => simp [Segment]
  | cons e l ih =>
    have hhead : (l ++ l').head?.or after = l.head?.or (l'.head?.or after) := by
      cases l <;> simp
    rw [cons_append, Segment, Segment, ih, hhead, getLast?_cons_or, and_assoc, and_assoc]

theorem Segment.congr (h : Segment next prev before l after) (hnext : ∀ x ∈ l, next' x = next x)
    (hprev : ∀ x ∈ l, prev' x = prev x) :
    Segment next' prev' before l after := by
  induction l generalizing before with
  | nil => trivial
  | cons e l ih =>
    refine ⟨(hprev e mem_cons_self).trans h.1, (hnext e mem_cons_self).trans h.2.1, ih h.2.2 ?_ ?_⟩
    · exact fun x hx => hnext x (mem_cons_of_mem e hx)
    · exact fun x hx => hprev x (mem_cons_of_mem e hx)

theorem Segment.relink_after [DecidableEq ι] (h : Segment next prev before l after) (hnodup : l.Nodup)
    (hnext : ∀ x ∈ l, next' x = if l.getLast? = some x then after' else next x) (hprev : ∀ x ∈ l, prev' x = prev x) :
    Segment next' prev' before l after' := by
  induction l generalizing before with
  | nil => trivial
  | cons e l ih =>
    rw [nodup_cons] at hnodup
    have hlast : ∀ x ∈ l, ((e :: l).getLast? = some x ↔ l.getLast? = some x) := by
      intro x hx
      cases l with
      | nil => exact absurd hx not_mem_nil
      | cons y l => rw [getLast?_cons_cons]
    refine ⟨(hprev e mem_cons_self).trans h.1, ?_, ih h.2.2 hnodup.2 ?_ ?_⟩
    · rw [hnext e mem_cons_self]
      cases l with
      | nil => simp
      | cons y l =>
        have hne : (e :: y :: l).getLast? ≠ some e := by
          exact fun heq => hnodup.1 (mem_of_getLast? heq)
        rw [if_neg hne]
        exact h.2.1
    · intro x hx
      rw [hnext x (mem_cons_of_mem e hx)]
      simp only [hlast x hx]
    · exact fun x hx => hprev x (mem_cons_of_mem e hx)

theorem Segment.relink_before [DecidableEq ι] (h : Segment next prev before l after) (hnodup : l.Nodup)
    (hnext : ∀ x ∈ l, next' x = next x) (hprev : ∀ x ∈ l, prev' x = if l.head? = some x then before' else prev x) :
    Segment next' prev' before' l after := by
  cases l with
  | nil => trivial
  | cons e l =>
    rw [nodup_cons] at hnodup
    refine ⟨(hprev e mem_cons_self).trans (if_pos rfl), (hnext e mem_cons_self).trans h.2.1, h.2.2.congr ?_ ?_⟩
    · exact fun x hx => hnext x (mem_cons_of_mem e hx)
    · intro x hx
      rw [hprev x (mem_cons_of_mem e hx), if_neg]
      rintro heq
      exact hnodup.1 (Option.some.inj heq ▸ hx)

theorem Segment.pointers (h : Segment next prev none (l ++ e :: l') none) :
    prev e = l.getLast? ∧ next e = l'.head? := by
  obtain ⟨-, hprev, hnext, -⟩ := segment_append.1 h
  rw [or_none] at hprev hnext
  exact ⟨hprev, hnext⟩

theorem Segment.unlink [DecidableEq ι] (h : Segment next prev none (l ++ e :: l') none)
    (hnodup : (l ++ e :: l').Nodup)
    (hnext : ∀ x ∈ l ++ l', next' x = if l.getLast? = some x then l'.head? else next x)
    (hprev : ∀ x ∈ l ++ l', prev' x = if l'.head? = some x then l.getLast? else prev x) :
    Segment next' prev' none (l ++ l') none := by
  obtain ⟨hl, -, -, hl'⟩ := segment_append.1 h
  obtain ⟨hnodupl, hnodup', hdisjoint⟩ := nodup_append.1 hnodup
  rw [segment_append, or_none, or_none]
  constructor
  · refine hl.relink_after hnodupl (fun x hx => hnext x (mem_append_left _ hx)) fun x hx => ?_
    rw [hprev x (mem_append_left _ hx), if_neg]
    exact fun heq => hdisjoint x hx x (mem_cons_of_mem e (mem_of_head? heq)) rfl
  · refine hl'.relink_before (nodup_cons.1 hnodup').2 (fun x hx => ?_) fun x hx => hprev x (mem_append_right _ hx)
    rw [hnext x (mem_append_right _ hx), if_neg]
    exact fun heq => hdisjoint x (mem_of_getLast? heq) x (mem_cons_of_mem e hx) rfl

theorem Segment.link [DecidableEq ι] (h : Segment next prev none l none) (hnodup : l.Nodup) (he : next' e = none)
    (he' : prev' e = l.getLast?) (hnext : ∀ x ∈ l, next' x = if l.getLast? = some x then some e else next x)
    (hprev : ∀ x ∈ l, prev' x = prev x) : Segment next' prev' none (l ++ [e]) none := by
  rw [segment_append, or_none, or_none]
  exact ⟨h.relink_after hnodup hnext hprev, he', he, trivial⟩

end Linked
