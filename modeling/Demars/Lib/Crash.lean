import Mathlib.Tactic

/-!
# Programs that can be stopped between writes

A program over a store that outlives it: `Prog S E α` gives the store after each of its writes, in order, and the
result or the reason why it stopped by itself. Whoever pulls the plug finds the store it started from or one of
those. `Ensures` and `Yields` are the judgements about programs, with one rule for each way to build one.
-/

namespace Crash

open List

variable {S E α β : Type}

def Prog (S E α : Type) : Type := S → List S × Except E α

/-- The store after some writes. -/
def last (s : S) : List S → S
  | [] => s
  | s' :: trace => last s' trace

@[simp] theorem last_nil (s : S) : last s [] = s := rfl

@[simp] theorem last_cons (s s' : S) (trace : List S) : last s (s' :: trace) = last s' trace := rfl

@[simp] theorem last_append (s : S) (t₁ t₂ : List S) : last s (t₁ ++ t₂) = last (last s t₁) t₂ := by
  induction t₁ generalizing s with
  | nil => rfl
  | cons s' t₁ ih => exact ih s'

/-- The store found after the program was stopped somewhere. -/
def Leaves (p : Prog S E α) (s s' : S) : Prop := s' = s ∨ s' ∈ (p s).1

theorem last_mem (s : S) (trace : List S) : last s trace = s ∨ last s trace ∈ trace := by
  induction trace generalizing s with
  | nil => exact .inl rfl
  | cons s' trace ih =>
    rcases ih s' with h | h
    · exact .inr (by rw [last_cons, h]; exact mem_cons_self)
    · exact .inr (mem_cons_of_mem s' h)

namespace Prog

def andThen (p : Prog S E α) (f : α → Prog S E β) : Prog S E β := fun s =>
  match p s with
  | (trace, .error e) => (trace, .error e)
  | (trace, .ok a) => (trace ++ (f a (last s trace)).1, (f a (last s trace)).2)

instance : Monad (Prog S E) where
  pure a := fun _ => ([], .ok a)
  bind := andThen

def get : Prog S E S := fun s => ([], .ok s)

def write (f : S → S) : Prog S E Unit := fun s => ([f s], .ok ())

def stop (e : E) : Prog S E α := fun _ => ([], .error e)

/-- A computation without writes. -/
def lift (r : Except E α) : Prog S E α := fun _ => ([], r)

def final (p : Prog S E α) (s : S) : S := last s (p s).1

variable {p : Prog S E α} {f : α → Prog S E β} {s : S}

@[simp] theorem write_apply (f : S → S) (s : S) : (write f : Prog S E Unit) s = ([f s], .ok ()) := rfl

@[simp] theorem lift_apply (r : Except E α) (s : S) : (lift r : Prog S E α) s = ([], r) := rfl

theorem get_bind (f : S → Prog S E β) (s : S) : (get >>= f) s = f s s := rfl

variable {a : α} {s' : S}

theorem lift_bind (r : Except E α) (f : α → Prog S E β) (h : r = .ok a) (s : S) : (lift r >>= f) s = f a s := by
  subst h
  rfl

theorem bind_ok {trace : List S} (h : p s = (trace, .ok a)) :
    (p >>= f) s = (trace ++ (f a (last s trace)).1, (f a (last s trace)).2) := by
  change andThen p f s = _
  rw [andThen, h]

theorem seq {t u : List S} {r : Except E β} (hp : p s = (t, .ok a)) (hf : f a (last s t) = (u, r)) :
    (p >>= f) s = (t ++ u, r) := by
  rw [bind_ok hp, hf]

theorem bind_error {trace : List S} {e : E} (h : p s = (trace, .error e)) : (p >>= f) s = (trace, .error e) := by
  change andThen p f s = _
  rw [andThen, h]

theorem bind_eq_ok {b : β} (h : ((p >>= f) s).2 = .ok b) :
    ∃ a, (p s).2 = .ok a ∧ (f a (p.final s)).2 = .ok b ∧ (p >>= f).final s = (f a).final (p.final s) := by
  rcases hp : p s with ⟨trace, e | a⟩
  · rw [bind_error hp] at h
    cases h
  · rw [bind_ok hp] at h
    refine ⟨a, rfl, ?_, ?_⟩
    · rw [final, hp]
      exact h
    · rw [final, bind_ok hp, last_append, final, final, hp]

/-! ## Runs that are not stopped -/

/-- From `s` the program returns `a` and leaves `s'`. -/
def Yields (p : Prog S E α) (s : S) (a : α) (s' : S) : Prop := ∃ t, p s = (t, .ok a) ∧ last s t = s'

theorem yields_pure (a : α) (s : S) : Yields (pure a : Prog S E α) s a s := ⟨[], rfl, rfl⟩

theorem yields_write (g : S → S) (s : S) : Yields (write g : Prog S E Unit) s () (g s) := ⟨[g s], rfl, rfl⟩

theorem yields_lift {r : Except E α} (h : r = .ok a) (s : S) : Yields (lift r) s a s := ⟨[], by rw [lift_apply, h], rfl⟩

theorem Yields.bind {b : β} {s'' : S} (hp : Yields p s a s') (hf : Yields (f a) s' b s'') :
    Yields (p >>= f) s b s'' := by
  obtain ⟨t, hp, rfl⟩ := hp
  obtain ⟨u, hf, rfl⟩ := hf
  exact ⟨t ++ u, seq hp hf, last_append s t u⟩

theorem Yields.bind_snd (hp : Yields p s a s') : ((p >>= f) s).2 = (f a s').2 := by
  obtain ⟨t, hp, rfl⟩ := hp
  rw [bind_ok hp]

theorem Yields.snd (h : Yields p s a s') : (p s).2 = .ok a := by
  obtain ⟨t, h, -⟩ := h
  rw [h]

theorem Yields.congr {q : Prog S E α} (h : Yields q s a s') (hpq : p s = q s) : Yields p s a s' := by
  obtain ⟨t, h, hlast⟩ := h
  exact ⟨t, hpq.trans h, hlast⟩

theorem yields_final (h : (p s).2 = .ok a) : Yields p s a (p.final s) := by
  refine ⟨(p s).1, ?_, rfl⟩
  rw [← h]

/-- The same from a result that was evaluated. -/
theorem yields_of_toOption (h : (p s).2.toOption = some a) : Yields p s a (p.final s) := by
  refine yields_final ?_
  cases hrun : (p s).2 with
  | error e =>
    rw [hrun] at h
    cases h
  | ok b =>
    rw [hrun] at h
    cases h
    rfl

theorem leaves_final (p : Prog S E α) (s : S) : Leaves p s (p.final s) := last_mem s (p s).1

theorem Yields.leaves (h : Yields p s a s') : Leaves p s s' := by
  obtain ⟨t, h, rfl⟩ := h
  have hmem := last_mem s t
  rwa [Leaves, h]

theorem Yields.unique {b : α} {s'' : S} (h : Yields p s a s') (h' : Yields p s b s'') : a = b := by
  obtain ⟨t, h, -⟩ := h
  obtain ⟨u, h', -⟩ := h'
  rw [h] at h'
  cases h'
  rfl

/-! ## What programs ensure -/

/-- Every store after a write satisfies `crash`, a stop has a reason in `stop`, and result and store at the end
satisfy `post`. -/
structure Ensures (p : Prog S E α) (s : S) (crash : S → Prop) (stop : E → Prop) (post : α → S → Prop) : Prop where
  crash : ∀ s' ∈ (p s).1, crash s'
  stop : ∀ e, (p s).2 = .error e → stop e
  post : ∀ a, (p s).2 = .ok a → post a (p.final s)

section

variable {crash : S → Prop} {stop : E → Prop} {post : α → S → Prop} {post' : β → S → Prop}

theorem ensures_pure {a : α} (h : post a s) : Ensures (pure a) s crash stop post :=
  ⟨(fun _ h => nomatch h), (fun _ h => nomatch h), fun _ ha => by cases ha; exact h⟩

theorem ensures_write {g : S → S} {post : Unit → S → Prop} (hcrash : crash (g s)) (h : post () (g s)) :
    Ensures (write g) s crash stop post := by
  refine ⟨?_, (fun _ h => nomatch h), fun _ _ => h⟩
  intro s' hs'
  rw [write_apply, mem_singleton] at hs'
  exact hs' ▸ hcrash

theorem ensures_stop {e : E} (h : stop e) : Ensures (Prog.stop e : Prog S E α) s crash stop post :=
  ⟨(fun _ h => nomatch h), fun _ he => by cases he; exact h, (fun _ h => nomatch h)⟩

theorem ensures_lift {r : Except E α} (herror : ∀ e, r = .error e → stop e) (hok : ∀ a, r = .ok a → post a s) :
    Ensures (lift r) s crash stop post := ⟨(fun _ h => nomatch h), herror, hok⟩

theorem Ensures.bind (hp : Ensures p s crash stop post)
    (hf : ∀ a s', post a s' → Ensures (f a) s' crash stop post') : Ensures (p >>= f) s crash stop post' := by
  rcases hrun : p s with ⟨trace, e | a⟩
  · have hb := bind_error (f := f) hrun
    refine ⟨?_, ?_, ?_⟩
    · intro s' hs'
      rw [hb] at hs'
      exact hp.crash s' (by rw [hrun]; exact hs')
    · intro e' he
      rw [hb] at he
      cases he
      exact hp.stop e (by rw [hrun])
    · intro b h
      rw [hb] at h
      cases h
  · have hb := bind_ok (f := f) hrun
    have hpost := hp.post a (by rw [hrun])
    rw [final, hrun] at hpost
    have hfa := hf a _ hpost
    refine ⟨?_, ?_, ?_⟩
    · intro s' hs'
      rw [hb, mem_append] at hs'
      rcases hs' with hs' | hs'
      · exact hp.crash s' (by rw [hrun]; exact hs')
      · exact hfa.crash s' hs'
    · intro e' he
      rw [hb] at he
      exact hfa.stop e' he
    · intro b h
      rw [hb] at h
      rw [final, hb, last_append]
      exact hfa.post b h

theorem ensures_get_bind {f : S → Prog S E β} (h : Ensures (f s) s crash stop post') :
    Ensures (get >>= f) s crash stop post' := ⟨h.crash, h.stop, h.post⟩

theorem ensures_lift_bind {r : Except E α} (herror : ∀ e, r = .error e → stop e)
    (hok : ∀ a, r = .ok a → Ensures (f a) s crash stop post') : Ensures (lift r >>= f) s crash stop post' := by
  have hlift : Ensures (lift r) s crash stop fun a s' => r = .ok a ∧ s' = s := ensures_lift herror fun _ ha => ⟨ha, rfl⟩
  refine hlift.bind ?_
  rintro a _ ⟨ha, rfl⟩
  exact hok a ha

theorem ensures_write_bind {g : S → S} {f : Unit → Prog S E β} (hcrash : crash (g s))
    (h : Ensures (f ()) (g s) crash stop post') : Ensures (write g >>= f) s crash stop post' := by
  have hwrite : Ensures (write g : Prog S E Unit) s crash stop fun _ s' => s' = g s := ensures_write hcrash rfl
  refine hwrite.bind ?_
  rintro _ _ rfl
  exact h

theorem Ensures.mono {crash' : S → Prop} {stop' : E → Prop} {post' : α → S → Prop} (h : Ensures p s crash stop post)
    (hcrash : ∀ s, crash s → crash' s) (hstop : ∀ e, stop e → stop' e) (hpost : ∀ a s, post a s → post' a s) :
    Ensures p s crash' stop' post' :=
  ⟨fun s' hs' => hcrash s' (h.crash s' hs'), fun e he => hstop e (h.stop e he), fun a ha => hpost a _ (h.post a ha)⟩

theorem Ensures.yields (h : Ensures p s crash stop post) {a : α} {s' : S} (hy : Yields p s a s') : post a s' := by
  obtain ⟨t, hrun, rfl⟩ := hy
  have hpost := h.post a (by rw [hrun])
  rwa [final, hrun] at hpost

/-- Whatever is left behind satisfies the crash condition, if the store at the start does. -/
theorem Ensures.leaves (h : Ensures p s crash stop post) (hs : crash s) {s' : S} (hl : Leaves p s s') : crash s' := by
  rcases hl with rfl | hl
  · exact hs
  · exact h.crash s' hl

end

end Prog

end Crash
