import Mathlib.Tactic

/-!
# Runs of partial steps

A run of steps that can fail is a `foldlM` in `Option`. `Fold.Along` is a condition on each input of a run and the
state that it meets.
-/

namespace Fold

open List Option

variable {α σ : Type*} {f : σ → α → Option σ}

theorem induct {p : σ → Prop} : ∀ {l : List α} {s s' : σ},
    (∀ a ∈ l, ∀ s s', p s → f s a = some s' → p s') → p s → l.foldlM f s = some s' → p s'
  | [], s, s', _, hs, h => by
    cases Option.some.inj h
    exact hs
  | a :: l, s, s', hstep, hs, h => by
    rw [foldlM_cons, bind_eq_bind, bind_eq_some_iff] at h
    obtain ⟨s₁, h₁, h₂⟩ := h
    have hs₁ := hstep a mem_cons_self s s₁ hs h₁
    exact induct (fun b hb => hstep b (mem_cons_of_mem a hb)) hs₁ h₂

/-- A fold whose steps keep the state or fail, as a condition on the elements, keeps it or fails as a whole. -/
theorem eq_some_iff {p : α → Prop} (hf : ∀ s a s', f s a = some s' ↔ p a ∧ s' = s) : ∀ (l : List α) (s s' : σ),
    l.foldlM f s = some s' ↔ (∀ a ∈ l, p a) ∧ s' = s
  | [], s, s' => by simp [eq_comm]
  | a :: l, s, s' => by
    rw [foldlM_cons, bind_eq_bind, bind_eq_some_iff, forall_mem_cons]
    constructor
    · rintro ⟨s₁, h₁, h₂⟩
      obtain ⟨ha, rfl⟩ := (hf s a s₁).1 h₁
      obtain ⟨hl, rfl⟩ := (eq_some_iff hf l s₁ s').1 h₂
      exact ⟨⟨ha, hl⟩, rfl⟩
    · rintro ⟨⟨ha, hl⟩, rfl⟩
      exact ⟨s', (hf s' a s').2 ⟨ha, rfl⟩, (eq_some_iff hf l s' s').2 ⟨hl, rfl⟩⟩

theorem mapM_eq_some_iff {β : Type*} {g : α → Option β} :
    ∀ {l : List α} {l' : List β}, l.mapM g = some l' ↔ l.map g = l'.map some
  | [], l' => by
    rw [mapM_nil, map_nil]
    constructor
    · rintro ⟨⟩
      rfl
    · intro h
      rw [map_eq_nil_iff.1 h.symm]
      rfl
  | a :: l, l' => by
    rw [mapM_cons, map_cons]
    constructor
    · intro h
      obtain ⟨b, hb, h⟩ := bind_eq_some_iff.1 h
      obtain ⟨bs, hbs, h⟩ := bind_eq_some_iff.1 h
      cases h
      rw [map_cons, hb, mapM_eq_some_iff.1 hbs]
    · intro h
      cases l' with
      | nil => cases h
      | cons b bs =>
        rw [map_cons, List.cons.injEq] at h
        rw [h.1, mapM_eq_some_iff.2 h.2]
        rfl

/-- A condition on the state before each input of a run, up to where it fails. -/
def Along (f : σ → α → Option σ) (Q : σ → α → Prop) : σ → List α → Prop
  | _, [] => True
  | s, a :: l => Q s a ∧ ∀ s', f s a = some s' → Along f Q s' l

instance decidableAlong (f : σ → α → Option σ) (Q : σ → α → Prop) [∀ s a, Decidable (Q s a)] :
    ∀ s l, Decidable (Along f Q s l)
  | _, [] => .isTrue trivial
  | s, a :: l =>
    match hf : f s a with
    | none => decidable_of_iff (Q s a) ⟨fun h => ⟨h, fun s' hs' => by rw [hf] at hs'; cases hs'⟩, And.left⟩
    | some s' =>
      have := decidableAlong f Q s' l
      decidable_of_iff (Q s a ∧ Along f Q s' l)
        ⟨fun h => ⟨h.1, fun s'' hs'' => by rw [hf] at hs''; cases hs''; exact h.2⟩, fun h => ⟨h.1, h.2 s' hf⟩⟩

variable {Q : σ → α → Prop}

theorem Along.imp {R : σ → α → Prop} (h : ∀ s a, Q s a → R s a) : ∀ {l : List α} {s : σ}, Along f Q s l → Along f R s l
  | [], _, _ => trivial
  | _ :: _, _, hl => ⟨h _ _ hl.1, fun s' hs' => (hl.2 s' hs').imp h⟩

theorem Along.of_append {s : σ} {l l' : List α} (h : Along f Q s (l ++ l')) :
    Along f Q s l ∧ ∀ s', l.foldlM f s = some s' → Along f Q s' l' := by
  induction l generalizing s with
  | nil =>
    refine ⟨trivial, fun s' hs' => ?_⟩
    cases hs'
    exact h
  | cons a l ih =>
    refine ⟨⟨h.1, fun s₁ hs₁ => (ih (h.2 s₁ hs₁)).1⟩, fun s' hs' => ?_⟩
    rw [foldlM_cons, bind_eq_bind, bind_eq_some_iff] at hs'
    obtain ⟨s₁, hs₁, hrun⟩ := hs'
    exact (ih (h.2 s₁ hs₁)).2 s' hrun

/-- Two conditions that agree in the states of an invariant agree along a run, where the first of them keeps it. -/
theorem along_iff {R : σ → α → Prop} {I : σ → Prop} (hstep : ∀ s a s', I s → R s a → f s a = some s' → I s')
    (hiff : ∀ s a, I s → (R s a ↔ Q s a)) {s : σ} (hs : I s) (l : List α) : Along f R s l ↔ Along f Q s l := by
  induction l generalizing s with
  | nil => exact Iff.rfl
  | cons a l ih =>
    rw [Along, Along, ← hiff s a hs]
    exact and_congr_right fun hR => forall₂_congr fun s' hs' => ih (hstep s a s' hs hR hs')

/-- Steps that do not fail and keep an invariant where their input meets a condition. -/
theorem always_of_along {I : σ → Prop} (hstep : ∀ s a, I s → Q s a → ∃ s', f s a = some s' ∧ I s') {s : σ} (hs : I s)
    {l : List α} (h : Along f Q s l) : ∀ l', l' <+: l → ∃ s', l'.foldlM f s = some s' ∧ I s' := by
  induction l generalizing s with
  | nil =>
    intro l' hl'
    rw [prefix_nil.1 hl']
    exact ⟨s, rfl, hs⟩
  | cons a l ih =>
    intro l' hl'
    cases l' with
    | nil => exact ⟨s, rfl, hs⟩
    | cons b l' =>
      obtain ⟨rfl, hrest⟩ := cons_prefix_cons.1 hl'
      obtain ⟨s₁, hs₁, hI⟩ := hstep s b hs h.1
      obtain ⟨s', hs', hI'⟩ := ih hI (h.2 s₁ hs₁) l' hrest
      refine ⟨s', ?_, hI'⟩
      rw [foldlM_cons, hs₁]
      exact hs'

end Fold
