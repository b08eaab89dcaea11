import Mathlib.Data.List.Infix
import Mathlib.Tactic

/-!
# Runs of a machine

A machine takes a step with each input. `Along` is a condition on each input and the state that it meets.
-/

namespace Runs

open List

variable {σ ι : Type*} (step : σ → ι → σ)

def Along (Q : σ → ι → Prop) : σ → List ι → Prop
  | _, [] => True
  | s, x :: xs => Q s x ∧ Along Q (step s x) xs

instance decidableAlong (Q : σ → ι → Prop) [∀ s x, Decidable (Q s x)] : ∀ s xs, Decidable (Along step Q s xs)
  | _, [] => .isTrue trivial
  | s, x :: xs =>
    have := decidableAlong Q (step s x) xs
    inferInstanceAs (Decidable (Q s x ∧ Along step Q (step s x) xs))

variable {step} {I P : σ → Prop} {Q : σ → ι → Prop} {s : σ} {xs : List ι}

theorem forall_prefix_cons {x : ι} : (∀ ys, ys <+: x :: xs → P (ys.foldl step s)) ↔
    P s ∧ ∀ ys, ys <+: xs → P (ys.foldl step (step s x)) := by
  constructor
  · exact fun h => ⟨h [] nil_prefix, fun ys hys => h (x :: ys) ((prefix_cons_inj x).2 hys)⟩
  · rintro ⟨hs, h⟩ ys hys
    cases ys with
    | nil => exact hs
    | cons y ys =>
      obtain ⟨rfl, hrest⟩ := cons_prefix_cons.1 hys
      exact h ys hrest

theorem Along.at_input {pre : List ι} {x : ι} (h : Along step Q s xs) (hpre : pre ++ [x] <+: xs) :
    Q (pre.foldl step s) x := by
  induction pre generalizing s xs with
  | nil =>
    obtain ⟨rest, rfl⟩ := hpre
    exact h.1
  | cons y pre ih =>
    obtain ⟨rest, rfl⟩ := hpre
    exact ih h.2 ⟨rest, rfl⟩

theorem Along.of_forall (h : ∀ x ∈ xs, ∀ s, Q s x) : Along step Q s xs := by
  induction xs generalizing s with
  | nil => trivial
  | cons x xs ih => exact ⟨h x mem_cons_self s, ih fun y hy => h y (mem_cons_of_mem x hy)⟩

theorem Along.and_forall {R : ι → Prop} (h : Along step Q s xs) (hR : ∀ x ∈ xs, R x) :
    Along step (fun s x => Q s x ∧ R x) s xs := by
  induction xs generalizing s with
  | nil => trivial
  | cons x xs ih =>
    exact ⟨⟨h.1, hR x mem_cons_self⟩, ih h.2 fun y hy => hR y (mem_cons_of_mem x hy)⟩

theorem always_iff_along (hI : ∀ s x, I s → P (step s x) → I (step s x))
    (hstep : ∀ s x, I s → P s → (P (step s x) ↔ Q s x)) (hs : I s) (hP : P s) (xs : List ι) :
    (∀ ys, ys <+: xs → P (ys.foldl step s)) ↔ Along step Q s xs := by
  induction xs generalizing s with
  | nil => simp [Along, prefix_nil, hP]
  | cons x xs ih =>
    rw [forall_prefix_cons, Along, and_iff_right hP]
    constructor
    · intro h
      have hnext := h [] nil_prefix
      exact ⟨(hstep s x hs hP).1 hnext, (ih (hI s x hs hnext) hnext).1 h⟩
    · rintro ⟨hQ, h⟩
      have hnext := (hstep s x hs hP).2 hQ
      exact (ih (hI s x hs hnext) hnext).2 h

theorem always_of_along (hstep : ∀ s x, I s → Q s x → I (step s x)) (hs : I s) (h : Along step Q s xs) :
    ∀ ys, ys <+: xs → I (ys.foldl step s) := by
  induction xs generalizing s with
  | nil =>
    intro ys hys
    rw [prefix_nil.1 hys]
    exact hs
  | cons x xs ih => exact forall_prefix_cons.2 ⟨hs, ih (hstep s x hs h.1) h.2⟩

end Runs
