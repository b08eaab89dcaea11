import Mathlib.Algebra.GroupWithZero.Nat
import Mathlib.Data.List.Basic

/-!
# Messages cut into packets

A message is sent as packets, of which the last one is marked, and put together again by a receiver that collects
packets in a buffer. A `Lane` is one such way from a queue to a buffer, and `toCome` are the messages on it, whole
or in pieces.
-/

namespace Reassembly

open List

variable {α : Type*}

def assemble : List α → List (List α × Bool) → List (List α) × List α
  | buf, [] => ([], buf)
  | buf, (piece, true) :: packets => ((buf ++ piece) :: (assemble [] packets).1, (assemble [] packets).2)
  | buf, (piece, false) :: packets => assemble (buf ++ piece) packets

theorem assemble_append (buf : List α) (ps qs : List (List α × Bool)) : assemble buf (ps ++ qs) =
      ((assemble buf ps).1 ++ (assemble (assemble buf ps).2 qs).1, (assemble (assemble buf ps).2 qs).2) := by
  induction ps generalizing buf with
  | nil => simp [assemble]
  | cons p ps ih =>
    obtain ⟨piece, last⟩ := p
    cases last with
    | true | false => simp [assemble, ih]

theorem starts_assemble (buf : List α) (packets : List (List α × Bool)) :
    (∃ m ∈ (assemble buf packets).1, buf <+: m) ∨ buf <+: (assemble buf packets).2 := by
  induction packets generalizing buf with
  | nil => exact .inr (prefix_refl buf)
  | cons p packets ih =>
    obtain ⟨piece, last⟩ := p
    cases last with
    | true => exact .inl ⟨buf ++ piece, mem_cons_self, prefix_append buf piece⟩
    | false =>
      rcases ih (buf ++ piece) with ⟨m, hm, hstarts⟩ | hstarts
      · exact .inl ⟨m, hm, (prefix_append buf piece).trans hstarts⟩
      · exact .inr ((prefix_append buf piece).trans hstarts)

structure Lane (α : Type*) where
  queue : List (List α)
  sending : List α
  flying : List (List α × Bool)
  recving : List α

namespace Lane

def toCome (l : Lane α) : List (List α) :=
  (assemble l.recving l.flying).1 ++
    ((if l.sending.isEmpty then [] else [(assemble l.recving l.flying).2 ++ l.sending]) ++ l.queue)

/-- Between two messages nothing is left in pieces. -/
def Aligned (l : Lane α) : Prop := l.sending = [] → (assemble l.recving l.flying).2 = []

def enqueue (l : Lane α) (m : List α) : Lane α := { l with queue := l.queue ++ [m] }

def load (l : Lane α) : Lane α :=
  if l.sending.isEmpty then
    match l.queue with
    | [] => l
    | m :: queue => { l with sending := m, queue }
  else l

/-- A packet with at most `n` elements is sent. -/
def emit (l : Lane α) (n : Nat) : Lane α :=
  { l with sending := l.sending.drop n, flying := l.flying ++ [(l.sending.take n, decide (l.sending.length ≤ n))] }

/-- The first packet is received; the messages that it completes. -/
def absorb (l : Lane α) : List (List α) × Lane α :=
  match l.flying with
  | [] => ([], l)
  | (piece, true) :: flying => ([l.recving ++ piece], { l with flying, recving := [] })
  | (piece, false) :: flying => ([], { l with flying, recving := l.recving ++ piece })

variable {l : Lane α}

theorem toCome_enqueue (m : List α) : (l.enqueue m).toCome = l.toCome ++ [m] := by
  simp [toCome, enqueue]

theorem Aligned.enqueue (h : l.Aligned) (m : List α) : (l.enqueue m).Aligned := h

theorem toCome_load (h : l.Aligned) (hne : ∀ m ∈ l.queue, m ≠ []) : l.load.toCome = l.toCome := by
  unfold load
  split_ifs with hsending
  · cases hqueue : l.queue with
    | nil => rfl
    | cons m queue =>
      have hm : m ≠ [] := hne m (by simp [hqueue])
      rw [List.isEmpty_iff] at hsending
      simp [toCome, hsending, hqueue, hm, h hsending]
  · rfl

theorem Aligned.load (h : l.Aligned) (hne : ∀ m ∈ l.queue, m ≠ []) : l.load.Aligned := by
  unfold Lane.load
  split_ifs with hsending
  · cases hqueue : l.queue with
    | nil => exact h
    | cons m queue => exact fun hm => absurd hm (hne m (by simp [hqueue]))
  · exact h

theorem assemble_emit (l : Lane α) (n : Nat) : assemble l.recving (l.emit n).flying = if l.sending.length ≤ n then
        ((assemble l.recving l.flying).1 ++ [(assemble l.recving l.flying).2 ++ l.sending], [])
      else ((assemble l.recving l.flying).1, (assemble l.recving l.flying).2 ++ l.sending.take n) := by
  rw [emit, assemble_append]
  by_cases hlast : l.sending.length ≤ n
  · simp [hlast, assemble, take_of_length_le hlast]
  · simp [hlast, assemble]

theorem toCome_emit (hsending : l.sending ≠ []) (n : Nat) : (l.emit n).toCome = l.toCome := by
  have hassemble := assemble_emit l n
  unfold toCome
  rw [show (l.emit n).recving = l.recving from rfl, show (l.emit n).queue = l.queue from rfl, hassemble]
  by_cases hlast : l.sending.length ≤ n
  · have hdone : (l.emit n).sending = [] := drop_of_length_le hlast
    simp [hlast, hdone, hsending]
  · have hmore : (l.emit n).sending ≠ [] := by
      intro hnil
      have hle : l.sending.length ≤ n := drop_eq_nil_iff.1 hnil
      exact hlast hle
    have hglue : l.sending.take n ++ (l.emit n).sending = l.sending := take_append_drop n l.sending
    simp [hlast, hmore, hsending, hglue]

theorem aligned_emit (l : Lane α) (n : Nat) : (l.emit n).Aligned := by
  intro hdone
  have hlast : l.sending.length ≤ n := drop_eq_nil_iff.1 hdone
  rw [show (l.emit n).recving = l.recving from rfl, assemble_emit, if_pos hlast]

theorem toCome_absorb (l : Lane α) : l.absorb.1 ++ l.absorb.2.toCome = l.toCome := by
  obtain ⟨queue, sending, flying, recving⟩ := l
  match flying with
  | [] => rfl
  | (piece, true) :: flying => simp [absorb, toCome, assemble]
  | (piece, false) :: flying => rfl

theorem Aligned.absorb (h : l.Aligned) : l.absorb.2.Aligned := by
  obtain ⟨queue, sending, flying, recving⟩ := l
  match flying, h with
  | [], h => exact h
  | (piece, true) :: flying, h => exact h
  | (piece, false) :: flying, h => exact h

theorem absorb_sender (l : Lane α) : l.absorb.2.queue = l.queue ∧ l.absorb.2.sending = l.sending := by
  obtain ⟨queue, sending, flying, recving⟩ := l
  match flying with
  | [] => exact ⟨rfl, rfl⟩
  | (piece, true) :: flying => exact ⟨rfl, rfl⟩
  | (piece, false) :: flying => exact ⟨rfl, rfl⟩

/-- A buffer with room for every message on the lane has room for the next packet. -/
theorem Aligned.length_le (h : l.Aligned) {capacity : Nat} (hfit : ∀ m ∈ l.toCome, m.length ≤ capacity) {piece : List α}
    {last : Bool} {flying : List (List α × Bool)} (hflying : l.flying = (piece, last) :: flying) :
    (l.recving ++ piece).length ≤ capacity := by
  have hstart : (∃ m ∈ (assemble l.recving l.flying).1, l.recving ++ piece <+: m) ∨
      l.recving ++ piece <+: (assemble l.recving l.flying).2 := by
    rw [hflying]
    cases last with
    | true => exact .inl ⟨_, mem_cons_self, prefix_refl _⟩
    | false => exact starts_assemble (l.recving ++ piece) flying
  rcases hstart with ⟨m, hm, hstarts⟩ | hstarts
  · exact Nat.le_trans hstarts.length_le (hfit m (mem_append_left _ hm))
  · by_cases hsending : l.sending = []
    · rw [h hsending] at hstarts
      exact Nat.le_trans hstarts.length_le (Nat.zero_le _)
    · have hlong : (assemble l.recving l.flying).2 ++ l.sending ∈ l.toCome := by simp [toCome, hsending]
      exact Nat.le_trans (hstarts.trans (prefix_append _ _)).length_le (hfit _ hlong)

theorem toCome_eq_nil (hqueue : l.queue = []) (hsending : l.sending = []) (hflying : l.flying = []) :
    l.toCome = [] := by
  simp [toCome, hqueue, hsending, hflying, assemble]

/-! ## Packets to send -/

/-- The number of packets for a message. -/
def pieces (n : Nat) (m : List α) : Nat := (m.length + n - 1) / n

/-- The number of packets that are still to be sent. -/
def packetsLeft (n : Nat) (l : Lane α) : Nat := pieces n l.sending + (l.queue.map (pieces n)).sum

variable {n : Nat}

theorem pieces_nil (hn : 0 < n) : pieces n ([] : List α) = 0 :=
  Nat.div_eq_of_lt (by rw [length_nil]; omega)

theorem pieces_drop (hn : 0 < n) {m : List α} (hm : m ≠ []) : pieces n (m.drop n) + 1 = pieces n m := by
  have hpos := length_pos_of_ne_nil hm
  unfold pieces
  rw [length_drop]
  by_cases hle : m.length ≤ n
  · have hone : m.length + n - 1 = m.length - 1 + n := by omega
    rw [hone, Nat.add_div_right _ hn, Nat.div_eq_of_lt (by omega), Nat.div_eq_of_lt (by omega)]
  · have hmore : m.length + n - 1 = m.length - n + n - 1 + n := by omega
    rw [hmore, Nat.add_div_right _ hn]

theorem packetsLeft_load (hn : 0 < n) (l : Lane α) : l.load.packetsLeft n = l.packetsLeft n := by
  unfold load
  split_ifs with hsending
  · cases hqueue : l.queue with
    | nil => rfl
    | cons m queue => simp [packetsLeft, List.isEmpty_iff.1 hsending, hqueue, pieces_nil hn]
  · rfl

theorem packetsLeft_emit (hn : 0 < n) (hsending : l.sending ≠ []) : (l.emit n).packetsLeft n + 1 = l.packetsLeft n := by
  have hdrop := pieces_drop hn hsending
  unfold packetsLeft
  rw [show (l.emit n).sending = l.sending.drop n from rfl, show (l.emit n).queue = l.queue from rfl]
  omega

end Lane

end Reassembly
