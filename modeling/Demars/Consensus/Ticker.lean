import Demars.Consensus.State

/-!
# The ticker

One timer serves all timeouts: the routine passes over those that are not later than the one it has, starts the
timer again for the others, and starts a goroutine that sends the one it has when the timer fires.
-/

namespace Demars.Consensus

/-- The timer; where it has fired there is a value in its channel. -/
inductive Timer
  | stopped
  | running
  | fired

/-- `timeoutTicker` with the `ti` of its routine, `none` for zero; for each of `tocks` a send was started. -/
structure TimeoutTicker where
  timer : Timer
  ti : Option TimeoutInfo
  tocks : List (Option TimeoutInfo)

namespace TimeoutTicker

def newTimeoutTicker : TimeoutTicker := ⟨.stopped, none, []⟩

/-- A timer that has fired is drained. -/
def stopTimer (t : TimeoutTicker) : TimeoutTicker := { t with timer := .stopped }

section

variable (ti : Option TimeoutInfo)

def height : Int := ti.elim 0 (·.height)

def round : Int := ti.elim 0 (·.round)

def stepOrd : Nat := ti.elim 0 (·.step.ord)

def ignores (newti : TimeoutInfo) : Bool :=
  if newti.height < height ti then true
  else if newti.height = height ti then
    if newti.round < round ti then true else newti.round = round ti && 0 < stepOrd ti && newti.step.ord ≤ stepOrd ti
  else false

def Before (newti : Option TimeoutInfo) : Prop :=
  height ti < height newti ∨ height ti = height newti ∧
    (round ti < round newti ∨ round ti = round newti ∧ stepOrd ti < stepOrd newti)

end

/-- The routine reads `tickChan` or the channel of the timer, the time is up, or `OnStop` is called. -/
inductive Event
  | tick (newti : TimeoutInfo)
  | timeout
  | expire
  | onStop

def step (t : TimeoutTicker) : Event → TimeoutTicker
  | .tick newti => if ignores t.ti newti then t else { t.stopTimer with ti := some newti, timer := .running }
  | .timeout => match t.timer with
    | .fired => { t with timer := .stopped, tocks := t.tocks ++ [t.ti] }
    | _ => t
  | .expire => match t.timer with
    | .running => { t with timer := .fired }
    | _ => t
  | .onStop => t.stopTimer

/-- After some events the routine has the latest timeout that it has read, sends were started for ever later ones, and
the timer is set for one without a send, unless the ticker was stopped. -/
structure Ok (events : List Event) (t : TimeoutTicker) : Prop where
  taken : ∀ ti, t.ti = some ti → .tick ti ∈ events
  latest : ∀ ti, .tick ti ∈ events → ¬ Before t.ti (some ti)
  sent : ∀ x ∈ t.tocks, ∃ ti, x = some ti ∧ .tick ti ∈ events
  sorted : t.tocks.Pairwise Before
  armed : t.timer ≠ .stopped → t.ti ≠ none ∧ ∀ x ∈ t.tocks, Before x t.ti
  kept : .onStop ∉ events → t.ti = none ∨ t.ti ∈ t.tocks ∨ t.timer ≠ .stopped

theorem ignores_iff {ti : Option TimeoutInfo} {newti : TimeoutInfo} :
    ignores ti newti = true ↔ ¬ Before ti (some newti) := by
  have hpos : 0 < newti.step.ord := by cases newti.step <;> decide
  grind [ignores, Before, height, round, stepOrd]

theorem Before.of_not {x y z : Option TimeoutInfo} (h : Before y z) (hx : ¬ Before y x) :
    Before x z ∧ ¬ Before z x := by
  unfold Before at *
  omega

theorem Ok.step {events : List Event} {t : TimeoutTicker} (h : Ok events t) (event : Event) :
    Ok (events ++ [event]) (t.step event) := by
  cases event with
  | tick newti =>
    rw [TimeoutTicker.step, stopTimer]
    split_ifs with hold
    · have hlate := ignores_iff.1 hold
      constructor <;> grind [Ok]
    · have hnew := not_not.1 (mt ignores_iff.2 hold)
      have hpast : ∀ x, ¬ Before t.ti x → Before x (some newti) ∧ ¬ Before (some newti) x := fun _ => hnew.of_not
      constructor <;> grind [Ok, Before]
  | timeout =>
    cases htimer : t.timer with
    | stopped | running => constructor <;> grind [Ok, TimeoutTicker.step]
    | fired =>
      obtain ⟨ti, hti⟩ := Option.ne_none_iff_exists'.1 (h.armed (by simp [htimer])).1
      constructor <;> grind [Ok, TimeoutTicker.step]
  | expire => cases htimer : t.timer <;> constructor <;> grind [Ok, TimeoutTicker.step]
  | onStop => constructor <;> grind [Ok, TimeoutTicker.step, stopTimer]

/-- **The ticker**, over every run. -/
theorem timeouts_in_order (events : List Event) : Ok events (events.foldl step newTimeoutTicker) := by
  induction events using List.reverseRecOn with
  | nil => constructor <;> simp [newTimeoutTicker]
  | append_singleton events event ih =>
    rw [List.foldl_append]
    exact ih.step event

end TimeoutTicker

end Demars.Consensus
