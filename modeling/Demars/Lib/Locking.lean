import Mathlib.Logic.Relation
import Mathlib.Tactic

/-!
# Voters that lock

A voter moves through heights and rounds. In a round it prevotes at most once and then precommits at most once, and
all along it learns polkas: values that a quorum has prevoted in a round. A precommit for a value needs its polka
and locks the voter; a lock decides the prevotes that follow and is released by a polka of a later round only.
Values are compared by a key, and the key of `nil` stands for no value.
-/

namespace Locking

open List

inductive Phase
  | prevote
  | precommit

/-- The stage of a round that a vote belongs to. -/
def Phase.ord : Phase → Nat
  | .prevote => 1
  | .precommit => 2

/-- A vote that was cast, with the polkas its voter knew. -/
structure Cast (V : Type) where
  height : Int
  round : Int
  phase : Phase
  value : V
  polka : Int → Option V

structure Voter (V K : Type) where
  height : Int
  round : Int
  stage : Nat
  lock : Option (Int × K)
  polka : Int → Option V
  log : List (Cast V)

variable {V K : Type}

def Cast.Before (e f : Cast V) : Prop :=
  e.height < f.height ∨ e.height = f.height ∧ (e.round < f.round ∨ e.round = f.round ∧ e.phase.ord < f.phase.ord)

namespace Voter

def cast (v : Voter V K) (phase : Phase) (value : V) : Cast V := ⟨v.height, v.round, phase, value, v.polka⟩

def Past (v : Voter V K) (e : Cast V) : Prop :=
  e.height < v.height ∨ e.height = v.height ∧ (e.round < v.round ∨ e.round = v.round ∧ e.phase.ord ≤ v.stage)

section

variable (key : V → K) (nil : V)

def Releases (x : V) (k : K) : Prop := key x ≠ k ∨ key x = key nil

/-- The steps of a voter. -/
inductive Step (v : Voter V K) : Voter V K → Prop
  | advance {v' : Voter V K} (height : v'.height = v.height)
      (later : v.round < v'.round ∨ v.round = v'.round ∧ v.stage ≤ v'.stage)
      (polka : ∀ r x, v.polka r = some x → v'.polka r = some x) (lock : v'.lock = v.lock) (log : v'.log = v.log) :
        Step v v'
  | unlock {r r' : Int} {k : K} {x : V} (lock : v.lock = some (r, k)) (polka : v.polka r' = some x) (later : r < r')
      (known : r' ≤ v.round) (other : Releases key nil x k) : Step v { v with lock := none }
  | prevote {x : V} {l : List (Cast V)} (stage : v.stage < 1) (lock : ∀ r k, v.lock = some (r, k) → key x = k)
      (casts : l = [] ∨ l = [v.cast .prevote x]) : Step v { v with stage := 1, log := v.log ++ l }
  | precommitNil {lock : Option (Int × K)} {l : List (Cast V)} (stage : v.stage < 2)
      (released : lock = v.lock ∨ lock = none ∧ ∃ x, v.polka v.round = some x ∧
        ∀ r k, v.lock = some (r, k) → Releases key nil x k)
      (casts : l = [] ∨ l = [v.cast .precommit nil]) : Step v { v with stage := 2, lock, log := v.log ++ l }
  | precommit {x : V} {l : List (Cast V)} (stage : v.stage < 2) (polka : v.polka v.round = some x)
      (some : key x ≠ key nil)
      (casts : l = [] ∨ l = [v.cast .precommit x]) :
      Step v { v with stage := 2, lock := .some (v.round, key x), log := v.log ++ l }
  | nextHeight {v' : Voter V K} (height : v.height < v'.height) (lock : v'.lock = none) (log : v'.log = v.log) :
      Step v v'

/-- A polka of a round between two votes for another value than the first. -/
def Overruled (value : V) (polka : Int → Option V) (round round' : Int) : Prop :=
  ∃ r x, round < r ∧ r ≤ round' ∧ polka r = some x ∧ key x ≠ key value

def Respects (e f : Cast V) : Prop :=
  e.height = f.height → e.phase = .precommit → f.phase = .prevote → e.round < f.round → key e.value ≠ key nil →
    key f.value ≠ key e.value → Overruled key e.value f.polka e.round f.round

def Justified (e : Cast V) : Prop :=
  e.phase = .precommit → e.value = nil ∨ key e.value ≠ key nil ∧ e.polka e.round = some e.value

/-- The voter is still locked on what it precommitted at its height, or that was overruled. -/
def Bound (v : Voter V K) (e : Cast V) : Prop :=
  e.height = v.height → e.phase = .precommit → key e.value ≠ key nil →
    (∃ r, v.lock = some (r, key e.value) ∧ e.round ≤ r) ∨ Overruled key e.value v.polka e.round v.round

/-- What a voter keeps, whatever it learns. -/
structure Inv (v : Voter V K) : Prop where
  lock : ∀ r k, v.lock = some (r, k) → r ≤ v.round ∧ k ≠ key nil
  past : ∀ e ∈ v.log, v.Past e
  ordered : v.log.Pairwise Cast.Before
  justified : ∀ e ∈ v.log, Justified key nil e
  bound : ∀ e ∈ v.log, Bound key nil v e
  respects : v.log.Pairwise (Respects key nil)

end

variable {key : V → K} {nil : V} {v v' : Voter V K}

theorem inv_of_fresh (hlock : v.lock = none) (hlog : v.log = []) : Inv key nil v := by
  refine ⟨fun r k h => ?_, ?_, ?_, ?_, ?_, ?_⟩
  · rw [hlock] at h
    cases h
  all_goals simp [hlog]

/-! ## One step -/

variable {phase : Phase} {x : V} {l : List (Cast V)}

theorem Inv.ordered_cast (h : Inv key nil v)
    (hl : l = [] ∨ l = [v.cast phase x]) (hs : v.stage < phase.ord) : (v.log ++ l).Pairwise Cast.Before := by
  rcases hl with rfl | rfl
  · simpa using h.ordered
  · refine pairwise_append.2 ⟨h.ordered, pairwise_singleton _ _, fun e he f hf => ?_⟩
    cases mem_singleton.1 hf
    have := h.past e he
    unfold Past at this
    unfold Cast.Before cast
    dsimp only
    omega

theorem Inv.past_cast (h : Inv key nil v) (hl : l = [] ∨ l = [v.cast phase x]) (hs : v.stage < phase.ord)
    (hv : v'.height = v.height ∧ v'.round = v.round ∧ v'.stage = phase.ord) :
    ∀ e ∈ v.log ++ l, v'.Past e := by
  intro e he
  rcases mem_append.1 he with he | he
  · have := h.past e he
    unfold Past at this ⊢
    omega
  · rcases hl with rfl | rfl
    · cases he
    · cases mem_singleton.1 he
      unfold Past cast
      dsimp only
      omega

theorem forall_mem_cast {P : Cast V → Prop} (h : ∀ e ∈ v.log, P e)
    (hl : l = [] ∨ l = [v.cast phase x]) (hx : P (v.cast phase x)) : ∀ e ∈ v.log ++ l, P e := by
  intro e he
  rcases mem_append.1 he with he | he
  · exact h e he
  · rcases hl with rfl | rfl
    · cases he
    · cases mem_singleton.1 he
      exact hx

/-- Before a precommit of this round, all precommits at this height are of earlier rounds. -/
theorem Inv.round_lt (h : Inv key nil v) (hs : v.stage < 2) {e : Cast V} (he : e ∈ v.log) (hh : e.height = v.height)
    (hp : e.phase = .precommit) : e.round < v.round := by
  have := h.past e he
  unfold Past at this
  rw [hp] at this
  simp only [Phase.ord] at this
  omega

/-- A polka of the current round for a value that releases the lock overrules what the lock stands for. -/
theorem Inv.overruled (h : Inv key nil v) {e : Cast V} {r r' : Int} (hlock : v.lock = some (r, key e.value))
    (hr : e.round < r') (hr' : r' ≤ v.round) (hx : v.polka r' = some x) (hrel : Releases key nil x (key e.value)) :
    Overruled key e.value v.polka e.round v.round := by
  refine ⟨r', x, hr, hr', hx, ?_⟩
  rcases hrel with hne | hnil
  · exact hne
  · rw [hnil]
    exact fun he => (h.lock r _ hlock).2 he.symm

theorem Overruled.mono {polka polka' : Int → Option V} {r r₁ r₂ : Int} (h : Overruled key x polka r r₁)
    (hr : r₁ ≤ r₂) (hp : ∀ r x, polka r = some x → polka' r = some x) : Overruled key x polka' r r₂ := by
  obtain ⟨r', y, h₁, h₂, h₃, h₄⟩ := h
  exact ⟨r', y, h₁, by omega, hp r' y h₃, h₄⟩

section

variable (h : Inv key nil v)
include h

theorem Inv.advance (hh : v'.height = v.height)
    (hlater : v.round < v'.round ∨ v.round = v'.round ∧ v.stage ≤ v'.stage)
    (hp : ∀ r x, v.polka r = some x → v'.polka r = some x) (hlock : v'.lock = v.lock) (hlog : v'.log = v.log) :
    Inv key nil v' := by
  refine ⟨fun r k hl => ?_, ?_, hlog ▸ h.ordered, hlog ▸ h.justified, ?_, hlog ▸ h.respects⟩
  · have := h.lock r k (hlock ▸ hl)
    exact ⟨by omega, this.2⟩
  · intro e he
    have := h.past e (hlog ▸ he)
    unfold Past at this ⊢
    omega
  · intro e he heq hphase hne
    rcases h.bound e (hlog ▸ he) (heq.trans hh) hphase hne with ⟨r, hl, hr⟩ | hover
    · exact .inl ⟨r, hlock ▸ hl, hr⟩
    · exact .inr (hover.mono (by omega) hp)

theorem Inv.unlock {r r' : Int} {k : K} (hlock : v.lock = some (r, k))
    (hx : v.polka r' = some x) (hlater : r < r') (hr' : r' ≤ v.round) (hrel : Releases key nil x k) :
    Inv key nil { v with lock := none } := by
  refine ⟨fun r k hl => absurd hl (by simp), h.past, h.ordered, h.justified, ?_, h.respects⟩
  intro e he hh hphase hne
  rcases h.bound e he hh hphase hne with ⟨r₀, hl, hr⟩ | hover
  · rw [hlock] at hl
    obtain ⟨rfl, rfl⟩ := Prod.mk.inj (Option.some.inj hl)
    exact .inr (h.overruled hlock (by omega) hr' hx hrel)
  · exact .inr hover

theorem Inv.prevote (hs : v.stage < 1) (hlock : ∀ r k, v.lock = some (r, k) → key x = k)
    (hl : l = [] ∨ l = [v.cast .prevote x]) :
    Inv key nil { v with stage := 1, log := v.log ++ l } := by
  refine ⟨h.lock, h.past_cast hl hs ⟨rfl, rfl, rfl⟩, h.ordered_cast hl hs, ?_, ?_, ?_⟩
  · exact forall_mem_cast h.justified hl fun hphase => nomatch hphase
  · exact forall_mem_cast h.bound hl fun _ hphase => nomatch hphase
  · rcases hl with rfl | rfl
    · simpa using h.respects
    · refine pairwise_append.2 ⟨h.respects, pairwise_singleton _ _, fun e he f hf => ?_⟩
      cases mem_singleton.1 hf
      intro hh hphase _ _ hne hdiff
      -- a voter that is still locked prevotes its lock
      rcases h.bound e he hh hphase hne with ⟨r, hl, -⟩ | hover
      · exact absurd (hlock r _ hl) hdiff
      · exact hover

theorem Inv.respects_precommit (hl : l = [] ∨ l = [v.cast .precommit x]) :
    (v.log ++ l).Pairwise (Respects key nil) := by
  rcases hl with rfl | rfl
  · simpa using h.respects
  · refine pairwise_append.2 ⟨h.respects, pairwise_singleton _ _, fun e he f hf => ?_⟩
    cases mem_singleton.1 hf
    exact fun _ _ hphase => nomatch hphase

theorem Inv.precommitNil {lock : Option (Int × K)} (hs : v.stage < 2)
    (hrel : lock = v.lock ∨ lock = none ∧ ∃ x, v.polka v.round = some x ∧ ∀ r k, v.lock = some (r, k) →
      Releases key nil x k)
    (hl : l = [] ∨ l = [v.cast .precommit nil]) : Inv key nil { v with stage := 2, lock, log := v.log ++ l } := by
  refine ⟨fun r k hk => ?_, h.past_cast hl hs ⟨rfl, rfl, rfl⟩, h.ordered_cast hl hs, ?_, ?_, h.respects_precommit hl⟩
  · rcases hrel with rfl | ⟨rfl, -⟩
    · exact h.lock r k hk
    · cases hk
  · exact forall_mem_cast h.justified hl fun _ => .inl rfl
  · refine forall_mem_cast (fun e he hh hphase hne => ?_) hl fun _ _ hne => absurd rfl hne
    rcases h.bound e he hh hphase hne with ⟨r, hlock, hr⟩ | hover
    · rcases hrel with rfl | ⟨rfl, x, hx, hall⟩
      · exact .inl ⟨r, hlock, hr⟩
      · exact .inr (h.overruled hlock (h.round_lt hs he hh hphase) le_rfl hx (hall r _ hlock))
    · exact .inr hover

theorem Inv.precommit (hs : v.stage < 2) (hx : v.polka v.round = some x)
    (hsome : key x ≠ key nil) (hl : l = [] ∨ l = [v.cast .precommit x]) :
    Inv key nil { v with stage := 2, lock := some (v.round, key x), log := v.log ++ l } := by
  refine ⟨fun r k hk => ?_, h.past_cast hl hs ⟨rfl, rfl, rfl⟩, h.ordered_cast hl hs, ?_, ?_, h.respects_precommit hl⟩
  · cases hk
    exact ⟨le_rfl, hsome⟩
  · exact forall_mem_cast h.justified hl fun _ => .inr ⟨hsome, hx⟩
  · refine forall_mem_cast (fun e he hh hphase hne => ?_) hl fun _ _ _ => .inl ⟨v.round, rfl, le_rfl⟩
    have hlt := h.round_lt hs he hh hphase
    -- either the new lock is the old value, or the new polka overrules it
    by_cases hkey : key x = key e.value
    · exact .inl ⟨v.round, by rw [hkey], by omega⟩
    · exact .inr ⟨v.round, x, hlt, le_rfl, hx, hkey⟩

theorem Inv.nextHeight (hh : v.height < v'.height) (hlock : v'.lock = none) (hlog : v'.log = v.log) :
    Inv key nil v' := by
  have hlow : ∀ e ∈ v'.log, e.height < v'.height := fun e he => by
    have := h.past e (hlog ▸ he)
    unfold Past at this
    omega
  refine ⟨fun r k hl => absurd (hlock ▸ hl) (by simp), fun e he => .inl (hlow e he), hlog ▸ h.ordered,
    hlog ▸ h.justified, ?_, hlog ▸ h.respects⟩
  intro e he heq
  have := hlow e he
  omega

end

theorem Step.inv (hstep : Step key nil v v') (h : Inv key nil v) : Inv key nil v' := by
  cases hstep with
  | advance hh hlater hp hlock hlog => exact h.advance hh hlater hp hlock hlog
  | unlock hlock hx hlater hr' hrel => exact h.unlock hlock hx hlater hr' hrel
  | prevote hs hlock hl => exact h.prevote hs hlock hl
  | precommitNil hs hrel hl => exact h.precommitNil hs hrel hl
  | precommit hs hx hsome hl => exact h.precommit hs hx hsome hl
  | nextHeight hh hlock hlog => exact h.nextHeight hh hlock hlog

end Voter

end Locking
