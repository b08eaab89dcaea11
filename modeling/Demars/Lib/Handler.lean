import Mathlib.Logic.Relation
import Mathlib.Tactic

/-!
# Handlers that panic and defer

A handler is a program on a state that may panic; the state it has reached stays. `Handler.defer` runs a second
program when the first is left, by a panic or not, and `Handler.wp` is the weakest precondition with one
postcondition for each of the two ways out. `Handler.Returns` excludes a panic, `Handler.Keeps` says moreover that
an invariant is kept, and `Handler.Reaches` that the state moves along steps of a relation.
-/

abbrev Handler (σ : Type) := EStateM Unit σ

namespace Handler

variable {σ α β : Type}

def panic : Handler σ α := throw ()

/-- A value that is missing is a panic. -/
def ofOption : Option α → Handler σ α
  | none => panic
  | some a => pure a

/-- Run `m` only under a condition. -/
def when (c : Prop) [Decidable c] (m : Handler σ Unit) : Handler σ Unit := if c then m else pure ()

/-- Run `d` once `m` is left. -/
def defer (d : Handler σ Unit) (m : Handler σ α) : Handler σ α := fun s =>
  match m s with
  | .ok a s' => match d s' with
    | .ok _ s'' => .ok a s''
    | .error e s'' => .error e s''
  | .error e s' => match d s' with
    | .ok _ s'' => .error e s''
    | .error e s'' => .error e s''

/-- The state in which the handler is left, and whether it returned. -/
def exec (m : Handler σ Unit) (s : σ) : σ × Bool :=
  match m s with
  | .ok _ s' => (s', true)
  | .error _ s' => (s', false)

theorem exec_get_bind (f : σ → Handler σ Unit) (s : σ) : exec (get >>= f) s = exec (f s) s := rfl

/-! ## Weakest preconditions -/

def wp (m : Handler σ α) (N : α → σ → Prop) (E : σ → Prop) (s : σ) : Prop :=
  match m s with
  | .ok a s' => N a s'
  | .error _ s' => E s'

section

variable {N : α → σ → Prop} {E : σ → Prop} {s : σ}

@[simp] theorem wp_pure (a : α) : wp (pure a : Handler σ α) N E s ↔ N a s := Iff.rfl

@[simp] theorem wp_panic : wp (panic : Handler σ α) N E s ↔ E s := Iff.rfl

@[simp] theorem wp_get {N : σ → σ → Prop} : wp (get : Handler σ σ) N E s ↔ N s s := Iff.rfl

@[simp] theorem wp_modify {N : Unit → σ → Prop} (f : σ → σ) :
    wp (modify f : Handler σ Unit) N E s ↔ N () (f s) := Iff.rfl

@[simp] theorem wp_bind {N : β → σ → Prop} (m : Handler σ α) (f : α → Handler σ β) :
    wp (m >>= f) N E s ↔ wp m (fun a => wp (f a) N E) E s := by
  show (match (EStateM.bind m f s) with | .ok a s' => N a s' | .error _ s' => E s') ↔ _
  unfold wp EStateM.bind
  cases m s <;> rfl

@[simp] theorem wp_ofOption_some (a : α) : wp (ofOption (some a) : Handler σ α) N E s ↔ N a s := Iff.rfl

@[simp] theorem wp_ofOption_none : wp (ofOption none : Handler σ α) N E s ↔ E s := Iff.rfl

@[simp] theorem wp_when {N : Unit → σ → Prop} (c : Prop) [Decidable c] (m : Handler σ Unit) :
    wp (when c m) N E s ↔ if c then wp m N E s else N () s := by
  unfold when
  split_ifs <;> rfl

@[simp] theorem wp_ite (c : Prop) [Decidable c] (m n : Handler σ α) :
    wp (if c then m else n) N E s ↔ if c then wp m N E s else wp n N E s := by
  split_ifs <;> rfl

@[simp] theorem wp_defer (d : Handler σ Unit) (m : Handler σ α) :
    wp (defer d m) N E s ↔ wp m (fun a => wp d (fun _ => N a) E) (wp d (fun _ => E) E) s := by
  unfold wp defer
  cases m s with
  | ok a s' | error e s' => dsimp only; cases d s' <;> rfl

theorem wp_ofOption (o : Option α) :
    wp (ofOption o : Handler σ α) N E s ↔ (o = none → E s) ∧ ∀ a, o = some a → N a s := by
  cases o <;> simp

theorem wp_mono {m : Handler σ α} {N' : α → σ → Prop} {E' : σ → Prop} (h : wp m N E s) (hN : ∀ a s', N a s' → N' a s')
    (hE : ∀ s', E s' → E' s') : wp m N' E' s := by
  unfold wp at h ⊢
  cases hm : m s with
  | ok a s' => rw [hm] at h; exact hN a s' h
  | error e s' => rw [hm] at h; exact hE s' h

theorem exec_of_wp {m : Handler σ Unit} {N : Unit → σ → Prop} {E : σ → Prop} (h : wp m N E s) :
    ((exec m s).2 = true → N () (exec m s).1) ∧ ((exec m s).2 = false → E (exec m s).1) := by
  unfold wp at h
  unfold exec
  cases hm : m s with
  | ok a s' => rw [hm] at h; exact ⟨fun _ => h, fun hf => absurd hf (by simp)⟩
  | error e s' => rw [hm] at h; exact ⟨fun hf => absurd hf (by simp), fun _ => h⟩

end

/-! ## Handlers that return -/

def Returns (m : Handler σ α) (Q : α → σ → Prop) (s : σ) : Prop := wp m Q (fun _ => False) s

namespace Returns

variable {Q : α → σ → Prop} {s : σ}

theorem pure {a : α} (h : Q a s) : Returns (Pure.pure a) Q s := h

theorem bind {m : Handler σ α} {f : α → Handler σ β} {Q' : β → σ → Prop} (hm : Returns m Q s)
    (hf : ∀ a s', Q a s' → Returns (f a) Q' s') : Returns (m >>= f) Q' s := by
  unfold Returns
  rw [wp_bind]
  exact wp_mono hm hf fun _ h => h

theorem get_bind {f : σ → Handler σ β} {Q : β → σ → Prop} (h : Returns (f s) Q s) :
    Returns (MonadState.get >>= f) Q s := by
  unfold Returns
  rw [wp_bind]
  exact h

theorem modify {f : σ → σ} {Q : Unit → σ → Prop} (h : Q () (f s)) : Returns (modify f : Handler σ Unit) Q s := h

theorem ofOption_bind {o : Option α} {a : α} {f : α → Handler σ β} {Q : β → σ → Prop} (ho : o = some a)
    (h : Returns (f a) Q s) : Returns (Handler.ofOption o >>= f) Q s := by
  subst ho
  unfold Returns
  rw [wp_bind]
  exact h

theorem exec {m : Handler σ Unit} {Q : Unit → σ → Prop} (h : Returns m Q s) :
    (Handler.exec m s).2 = true ∧ Q () (Handler.exec m s).1 := by
  obtain ⟨h₁, h₂⟩ := exec_of_wp h
  cases hb : (Handler.exec m s).2 with
  | true => exact ⟨rfl, h₁ hb⟩
  | false => exact (h₂ hb).elim

end Returns

/-- Started where `I` holds, the handler returns, and `I` holds again. -/
def Keeps (I : σ → Prop) (m : Handler σ α) : Prop := ∀ s, I s → Returns m (fun _ => I) s

namespace Keeps

variable {I : σ → Prop} {m n : Handler σ α} {c : Prop} [Decidable c]

theorem pure {a : α} : Keeps I (Pure.pure a : Handler σ α) := fun _ h => h

theorem modify {f : σ → σ} (h : ∀ s, I s → I (f s)) : Keeps I (modify f : Handler σ Unit) := h

theorem bind {f : α → Handler σ β} (hm : Keeps I m) (hf : ∀ a, Keeps I (f a)) : Keeps I (m >>= f) :=
  fun s h => (hm s h).bind hf

theorem get_bind {f : σ → Handler σ β} (hf : ∀ s, I s → Keeps I (f s)) : Keeps I (MonadState.get >>= f) :=
  fun s h => .get_bind (hf s h s h)

theorem ofOption_bind {o : Option α} {a : α} {f : α → Handler σ β} (ho : o = some a) (hf : Keeps I (f a)) :
    Keeps I (Handler.ofOption o >>= f) := fun s h => .ofOption_bind ho (hf s h)

theorem ite (hm : c → Keeps I m) (hn : ¬ c → Keeps I n) : Keeps I (if c then m else n) := by
  split_ifs with h
  · exact hm h
  · exact hn h

theorem skip {a : α} (hm : ¬ c → Keeps I m) : Keeps I (if c then Pure.pure a else m) := ite (fun _ => pure) hm

theorem when {m : Handler σ Unit} (hm : c → Keeps I m) : Keeps I (Handler.when c m) := ite hm fun _ => pure

end Keeps

/-! ## Chains of steps -/

open Relation

theorem chain_inv {R : σ → σ → Prop} {I : σ → Prop} (hstep : ∀ s s', R s s' → I s → I s') {s s' : σ}
    (h : ReflTransGen R s s') (hs : I s) : I s' := by
  induction h with
  | refl => exact hs
  | tail _ hR ih => exact hstep _ _ hR ih

/-- From `s` the handler moves by steps of `R`, and ends in `Q` when it returns. -/
def Reaches (R : σ → σ → Prop) (m : Handler σ α) (Q : α → σ → Prop) (s : σ) : Prop :=
  wp m (fun a s' => ReflTransGen R s s' ∧ Q a s') (fun s' => ReflTransGen R s s') s

abbrev Moves (R : σ → σ → Prop) (m : Handler σ α) (s : σ) : Prop := Reaches R m (fun _ _ => True) s

namespace Reaches

variable {R : σ → σ → Prop} {Q : α → σ → Prop} {s : σ}

theorem pure {a : α} (h : Q a s) : Reaches R (Pure.pure a) Q s := ⟨.refl, h⟩

theorem panic : Reaches R (Handler.panic : Handler σ α) Q s := ReflTransGen.refl

variable {m : Handler σ α} {f : σ → σ}

theorem of_chain {s₀ : σ} (hs : ReflTransGen R s₀ s) (h : Reaches R m Q s) :
    wp m (fun a s' => ReflTransGen R s₀ s' ∧ Q a s') (fun s' => ReflTransGen R s₀ s') s :=
  wp_mono h (fun _ _ ha => ⟨hs.trans ha.1, ha.2⟩) fun _ ha => hs.trans ha

theorem bind {f : α → Handler σ β} {Q' : β → σ → Prop} (hm : Reaches R m Q s)
    (hf : ∀ a s', Q a s' → Reaches R (f a) Q' s') : Reaches R (m >>= f) Q' s := by
  unfold Reaches
  rw [wp_bind]
  exact wp_mono hm (fun a s' ha => (hf a s' ha.2).of_chain ha.1) fun _ h => h

theorem get_bind {f : σ → Handler σ β} {Q : β → σ → Prop} (h : Reaches R (f s) Q s) :
    Reaches R (MonadState.get >>= f) Q s := by
  unfold Reaches
  rw [wp_bind]
  exact h

theorem modify_bind {g : Unit → Handler σ β} {Q : β → σ → Prop} (hR : R s (f s)) (h : Reaches R (g ()) Q (f s)) :
    Reaches R (modify f >>= g) Q s := by
  unfold Reaches
  rw [wp_bind, wp_modify]
  exact h.of_chain (.single hR)

/-- A deferred assignment makes one step of what the first program did. -/
theorem defer_modify (h : wp m (fun _ s' => R s (f s')) (fun s' => R s (f s')) s) :
    Moves R (Handler.defer (modify f) m) s := by
  unfold Moves Reaches
  rw [wp_defer]
  exact wp_mono h (fun _ _ ha => ⟨.single ha, trivial⟩) fun _ ha => .single ha

theorem modify {Q : Unit → σ → Prop} (hR : R s (f s)) (h : Q () (f s)) :
    Reaches R (modify f : Handler σ Unit) Q s := ⟨.single hR, h⟩

theorem ofOption_bind {o : Option α} {f : α → Handler σ β} {Q : β → σ → Prop}
    (h : ∀ a, o = some a → Reaches R (f a) Q s) : Reaches R (Handler.ofOption o >>= f) Q s := by
  unfold Reaches
  rw [wp_bind]
  cases o with
  | none => exact ReflTransGen.refl
  | some a => exact h a rfl

theorem ite {c : Prop} [Decidable c] {n : Handler σ α} (hm : c → Reaches R m Q s) (hn : ¬ c → Reaches R n Q s) :
    Reaches R (if c then m else n) Q s := by
  split_ifs with h
  · exact hm h
  · exact hn h

theorem when {c : Prop} [Decidable c] {m : Handler σ Unit} {Q : Unit → σ → Prop} (hm : c → Reaches R m Q s)
    (hc : ¬ c → Q () s) : Reaches R (Handler.when c m) Q s := by
  unfold Handler.when
  split_ifs with h
  · exact hm h
  · exact pure (hc h)

theorem mono {Q' : α → σ → Prop} (h : Reaches R m Q s) (hQ : ∀ a s', Q a s' → Q' a s') : Reaches R m Q' s :=
  wp_mono h (fun a s' ha => ⟨ha.1, hQ a s' ha.2⟩) fun _ h => h

theorem keep {P : σ → Prop} (h : Reaches R m Q s) (hP : ∀ s s', R s s' → P s → P s') (hs : P s) :
    Reaches R m (fun a s' => Q a s' ∧ P s') s :=
  wp_mono h (fun _ _ ha => ⟨ha.1, ha.2, chain_inv hP ha.1 hs⟩) fun _ h => h

theorem mono_rel {R' : σ → σ → Prop} (h : Reaches R m Q s) (hR : ∀ s s', R s s' → R' s s') : Reaches R' m Q s :=
  wp_mono h (fun _ _ ha => ⟨ReflTransGen.mono hR _ _ ha.1, ha.2⟩) fun _ h => ReflTransGen.mono hR _ _ h

/-- A deferred program starts wherever the first one was left. -/
theorem defer {R₁ : σ → σ → Prop} {d : Handler σ Unit} (hm : Moves R₁ m s) (hR : ∀ s s', R₁ s s' → R s s')
    (hd : ∀ s', ReflTransGen R₁ s s' → Moves R d s') : Moves R (Handler.defer d m) s := by
  unfold Moves Reaches
  rw [wp_defer]
  refine wp_mono hm (fun a s' ha => ?_) fun s' hs => ?_
  · exact wp_mono ((hd s' ha.1).of_chain (ReflTransGen.mono hR _ _ ha.1)) (fun _ _ h => h) fun _ h => h
  · exact wp_mono ((hd s' hs).of_chain (ReflTransGen.mono hR _ _ hs)) (fun _ _ h => h.1) fun _ h => h

theorem exec {m : Handler σ Unit} {Q : Unit → σ → Prop} (h : Reaches R m Q s) :
    ReflTransGen R s (Handler.exec m s).1 := by
  obtain ⟨h₁, h₂⟩ := exec_of_wp h
  cases hb : (Handler.exec m s).2 with
  | true => exact (h₁ hb).1
  | false => exact h₂ hb

end Reaches

end Handler
