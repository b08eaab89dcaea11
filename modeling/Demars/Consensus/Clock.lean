import Demars.Consensus.Lock

/-!
# Height, round and step

Every `enter` function has a guard of its own, and most of them write the step in a deferred call. `Tick` is what a
handler may do to the clock of a node, one assignment after the other.
-/

namespace Demars.Consensus

open Handler Relation List
open ConsensusState (newProposalParts startHeight startRound unlock writeParts)

def ClockLe (cs cs' : ConsensusState) : Prop :=
  cs.height < cs'.height ∨ cs.height = cs'.height ∧
    (cs.round < cs'.round ∨ cs.round = cs'.round ∧ cs.step.ord ≤ cs'.step.ord)

theorem ClockLe.refl (cs : ConsensusState) : ClockLe cs cs := .inr ⟨rfl, .inr ⟨rfl, le_rfl⟩⟩

theorem ClockLe.trans {cs₁ cs₂ cs₃ : ConsensusState} (h₁ : ClockLe cs₁ cs₂) (h₂ : ClockLe cs₂ cs₃) :
    ClockLe cs₁ cs₃ := by
  unfold ClockLe at *
  omega

def SignedVote.Timed (e : SignedVote) : Prop := e.vote.height = e.height ∧ e.vote.round = e.round

def Signs (cs cs' : ConsensusState) : Prop :=
  cs'.signed = cs.signed ∨ ∃ e : SignedVote, cs'.signed = cs.signed ++ [e] ∧ e.height = cs.height ∧ e.round = cs.round ∧
    SignedVote.Timed e

/-- An assignment that leaves the clock alone. -/
structure Steady (cs cs' : ConsensusState) : Prop where
  height : cs'.height = cs.height
  round : cs'.round = cs.round
  step : cs'.step = cs.step
  signs : Signs cs cs'

/-- The clock does not go back, and what is signed has its time. -/
structure Tick (cs cs' : ConsensusState) : Prop where
  clock : ClockLe cs cs'
  signs : Signs cs cs'

variable {L : Platform} {N : Node} {O : Outside} {cs cs' : ConsensusState}

theorem Steady.tick (h : Steady cs cs') : Tick cs cs' where
  clock := .inr ⟨h.height.symm, .inr ⟨h.round.symm, h.step ▸ le_rfl⟩⟩
  signs := h.signs

theorem Steady.of_same (hh : cs'.height = cs.height) (hr : cs'.round = cs.round) (hs : cs'.step = cs.step)
    (hsigned : cs'.signed = cs.signed) : Steady cs cs' := ⟨hh, hr, hs, .inl hsigned⟩

theorem Tick.of_same (hh : cs'.height = cs.height) (hr : cs'.round = cs.round) (hs : cs'.step = cs.step)
    (hsigned : cs'.signed = cs.signed) : Tick cs cs' := (Steady.of_same hh hr hs hsigned).tick

theorem clock_of_chain (h : ReflTransGen Steady cs cs') :
    cs'.height = cs.height ∧ cs'.round = cs.round ∧ cs'.step = cs.step :=
  chain_inv (I := fun s => s.height = cs.height ∧ s.round = cs.round ∧ s.step = cs.step)
    (fun _ _ hst hs => ⟨hst.height.trans hs.1, hst.round.trans hs.2.1, hst.step.trans hs.2.2⟩) h ⟨rfl, rfl, rfl⟩

theorem Signed.steady {type_ : UInt8} {blockID : BlockID} (h : Signed type_ blockID cs cs') : Steady cs cs' := by
  obtain ⟨_, _, l, rfl, hl⟩ := h
  refine ⟨rfl, rfl, rfl, ?_⟩
  rcases hl with rfl | ⟨vote, rfl, hh, hr, -, -⟩
  · exact .inl (append_nil _)
  · exact .inr ⟨_, rfl, rfl, rfl, hh, hr⟩

theorem signAddVote_steady (type_ : UInt8) (blockID : BlockID) : Moves Steady (signAddVote L N O type_ blockID) cs :=
  wp_mono (signAddVote_spec type_ blockID) (fun _ _ h => ⟨.single h.steady, trivial⟩) fun _ h => .single h.steady

theorem scheduleTimeout_steady (height round : Int) (step : RoundStep) :
    Moves Steady (scheduleTimeout height round step) cs := .modify (.of_same rfl rfl rfl rfl) trivial

/-! ## The bodies -/

theorem doPrevote_steady : Moves Steady (doPrevote L N O) cs :=
  wp_mono doPrevote_spec (fun _ _ ⟨_, _, h⟩ => ⟨.single h.steady, trivial⟩) fun _ ⟨_, _, h⟩ => .single h.steady

theorem decideProposal_steady (height round : Int) : Moves Steady (decideProposal L N O height round) cs := by
  refine (decideProposal_idle height round).mono_rel fun s s' hi => ?_
  cases hi <;> exact .of_same rfl rfl rfl rfl

theorem doPropose_steady (height round : Int) : Moves Steady (doPropose L N O height round) cs := by
  refine .bind (scheduleTimeout_steady height round .propose) fun _ s _ => .get_bind ?_
  refine .when (fun _ => .ofOption_bind fun proposer _ => ?_) fun _ => trivial
  exact .when (fun _ => decideProposal_steady height round) fun _ => trivial

theorem unlockAndFetch_steady (blockID : BlockID) : Moves Steady (unlockAndFetch L N O blockID) cs := by
  refine .modify_bind (.of_same rfl rfl rfl rfl) (.get_bind ?_)
  refine .bind (Q := fun _ _ => True) (.when (fun _ => ?_) fun _ => trivial)
    fun _ _ _ => signAddVote_steady _ _
  refine .modify_bind (.of_same rfl rfl rfl rfl) (.ofOption_bind fun parts _ => ?_)
  exact .modify (.of_same rfl rfl rfl rfl) trivial

theorem doPrecommit_steady (round : Int) : Moves Steady (doPrecommit L N O round) cs := by
  refine .get_bind ?_
  cases cs.votes.majority round voteTypePrevote with
  | none => exact signAddVote_steady _ _
  | some blockID =>
    refine .ite (fun _ => .panic) fun _ => .ite (fun _ => ?_) fun _ => .ite (fun _ => ?_)
      fun _ => .ite (fun _ => ?_) fun _ => unlockAndFetch_steady blockID
    · refine .bind (Q := fun _ _ => True) (.when (fun _ => ?_) fun _ => trivial)
        fun _ _ _ => signAddVote_steady _ _
      exact .modify (.of_same rfl rfl rfl rfl) trivial
    · exact .modify_bind (.of_same rfl rfl rfl rfl) (signAddVote_steady _ _)
    · refine .get_bind (.ofOption_bind fun valid _ => ?_)
      cases valid with
      | error err => exact .panic
      | ok _ => exact .modify_bind (.of_same rfl rfl rfl rfl) (signAddVote_steady _ _)

/-! ## The steps of a round -/

theorem defer_ticks {m d : M Unit} (hm : Moves Steady m cs)
    (hd : ∀ s, s.height = cs.height → s.round = cs.round → s.step = cs.step → Moves Tick d s) :
    Moves Tick (defer d m) cs :=
  .defer hm (fun _ _ h => h.tick) fun s hs => by
    obtain ⟨h₁, h₂, h₃⟩ := clock_of_chain hs
    exact hd s h₁ h₂ h₃

variable {step : RoundStep}

theorem tick_step {round : Int} (h : cs.round < round ∨ cs.round = round ∧ cs.step.ord ≤ step.ord) :
    Tick cs { cs with round, step } := ⟨.inr ⟨rfl, h⟩, .inl rfl⟩

/-- The guard of the `enter` functions lets only later steps through. -/
theorem later_of_guard {height round : Int}
    (h : ¬ (cs.height ≠ height ∨ round < cs.round ∨ (cs.round = round ∧ step.ord ≤ cs.step.ord))) :
    cs.round < round ∨ cs.round = round ∧ cs.step.ord ≤ step.ord := by
  omega

theorem enter_ticks {height round : Int} {m : M Unit} (hm : Moves Steady m cs)
    (h : ¬ (cs.height ≠ height ∨ round < cs.round ∨ (cs.round = round ∧ step.ord ≤ cs.step.ord))) :
    Moves Tick (defer (updateRoundStep round step) m) cs := by
  refine defer_ticks hm fun s _ hr hs => .modify (tick_step ?_) trivial
  rw [hr, hs]
  exact later_of_guard h

theorem enterPrevote_ticks (height round : Int) : Moves Tick (enterPrevote L N O height round) cs := by
  exact .get_bind (.ite (fun _ => .pure trivial) fun h => enter_ticks doPrevote_steady h)

theorem enterPropose_ticks (height round : Int) : Moves Tick (enterPropose L N O height round) cs := by
  refine .get_bind (.ite (fun _ => .pure trivial) fun h => ?_)
  refine defer_ticks (doPropose_steady height round) fun s _ hr hs => ?_
  have hlater : s.round < round ∨ s.round = round ∧ s.step.ord ≤ RoundStep.propose.ord := by
    rw [hr, hs]
    exact later_of_guard h
  refine .modify_bind (tick_step hlater) (.get_bind ?_)
  exact .when (fun _ => enterPrevote_ticks _ _) fun _ => trivial

theorem enterPrecommit_ticks (height round : Int) : Moves Tick (enterPrecommit L N O height round) cs := by
  exact .get_bind (.ite (fun _ => .pure trivial) fun h => enter_ticks (doPrecommit_steady round) h)

/-! ## Transitions -/

theorem Precommits.steady (h : Precommits L cs cs') : Steady cs cs' := by
  cases h with
  | nil h => exact h.steady
  | release _ _ hun h =>
    rcases hun with rfl | rfl | ⟨_, _, rfl⟩ <;> exact ⟨h.steady.height, h.steady.round, h.steady.step, h.steady.signs⟩
  | relock _ _ h | lock _ _ h => exact ⟨h.steady.height, h.steady.round, h.steady.step, h.steady.signs⟩

theorem Trans.signs {E : Env} (h : Trans L E cs cs') : Signs cs cs' := by
  cases h with
  | idle h => cases h <;> exact .inl rfl
  | newRound =>
    unfold startRound
    split_ifs <;> exact .inl rfl
  | prevote _ _ h | precommit _ h => exact h.steady.signs
  | commit _ h =>
    cases h with
    | none | locked => exact .inl rfl
    | refetch _ h => rcases h with rfl | ⟨_, _, rfl⟩ <;> exact .inl rfl
  | enter | votes | unlock | finalize | nextHeight | addPart => exact .inl rfl
  | propose _ _ h => rcases h with rfl | ⟨_, _, rfl⟩ <;> exact .inl rfl
  | completePart =>
    unfold ConsensusState.setProposalBlock
    split <;> exact .inl rfl

theorem Trans.tick {E : Env} (h : Trans L E cs cs') : Tick cs cs' := by
  refine ⟨?_, h.signs⟩
  have := h.clock
  unfold ClockLe
  omega

theorem handleTimeout_ticks (ti : TimeoutInfo) : Moves Tick (handleTimeout L N O ti) cs := by
  have hnew : ∀ height round, Moves Tick (enterNewRound L N O height round) cs := fun height round =>
    ((enterNewRound_moves (E := .any) height round).mono fun _ _ _ => trivial).mono_rel fun _ _ => Trans.tick
  refine .get_bind (.ite (fun _ => .pure trivial) fun _ => ?_)
  cases ti.step with
  | newHeight | precommitWait => exact hnew _ _
  | newRound => exact enterPropose_ticks _ _
  | propose => exact enterPrevote_ticks _ _
  | prevoteWait => exact enterPrecommit_ticks _ _
  | prevote | precommit | commit => exact .panic

/-! ## Runs -/

def handleAny (L : Platform) (N : Node) (O : Outside) (event : Event) : M Unit :=
  match event with
  | .timeout ti => handleTimeout L N O ti
  | event => handle L N O event

theorem handleAny_ticks (event : Event) : Moves Tick (handleAny L N O event) cs := by
  cases event with
  | timeout ti => exact handleTimeout_ticks ti
  | msg msg peerID =>
    have hmsg : Env.any.Admits L cs (.msg msg peerID) :=
      ⟨fun _ _ => trivial, fun _ _ => trivial, fun _ _ => trivial, fun _ _ _ => trivial⟩
    exact (handleMsg_moves (fun _ _ _ _ _ => trivial) hmsg).mono_rel fun _ _ => Trans.tick
  | txsAvailable height => exact enterPropose_ticks height 0
  | peerMaj23 height round type_ peerID blockID =>
    refine .get_bind (.when (fun _ => ?_) fun _ => trivial)
    exact .modify (.of_same rfl rfl rfl rfl) trivial

theorem handle_ticks (event : Event) : Moves Tick (handle L N O event) cs := by
  cases event with
  | timeout ti => exact .get_bind (.when (fun _ => handleTimeout_ticks ti) fun _ => trivial)
  | msg msg peerID => exact handleAny_ticks (.msg msg peerID)
  | txsAvailable height => exact handleAny_ticks (.txsAvailable height)
  | peerMaj23 height round type_ peerID blockID =>
    exact handleAny_ticks (N := N) (O := O) (.peerMaj23 height round type_ peerID blockID)

def NodeState.stepAny (L : Platform) (N : Node) (n : NodeState) (input : Outside × Event) : NodeState :=
  if n.running then
    let res := exec (handleAny L N input.1 input.2) n.cs
    ⟨res.1, res.2⟩
  else n

/-- The votes that a chain of ticks adds are of this height or a later one. -/
theorem clock_of_ticks (h : ReflTransGen Tick cs cs') :
    ClockLe cs cs' ∧ ∀ e ∈ cs'.signed, e ∈ cs.signed ∨ SignedVote.Timed e ∧ cs.height ≤ e.height := by
  refine chain_inv (I := fun s => ClockLe cs s ∧ ∀ e ∈ s.signed, e ∈ cs.signed ∨ SignedVote.Timed e ∧
    cs.height ≤ e.height)
    (fun s s' ht hs => ?_) h ⟨.refl cs, fun _ he => .inl he⟩
  refine ⟨hs.1.trans ht.clock, fun e he => ?_⟩
  rcases ht.signs with hsame | ⟨f, hnew, hheight, -, htimed⟩
  · exact hs.2 e (hsame ▸ he)
  · rw [hnew] at he
    rcases mem_append.1 he with he | he
    · exact hs.2 e he
    · rw [mem_singleton.1 he]
      have hclock := hs.1
      unfold ClockLe at hclock
      exact .inr ⟨htimed, by omega⟩

theorem NodeState.stepAny_clock (n : NodeState) (input : Outside × Event) : ClockLe n.cs (n.stepAny L N input).cs ∧
      ∀ e ∈ (n.stepAny L N input).cs.signed, e ∈ n.cs.signed ∨ SignedVote.Timed e := by
  unfold NodeState.stepAny
  split_ifs
  · obtain ⟨hclock, hsigned⟩ := clock_of_ticks (handleAny_ticks (L := L) (N := N) (O := input.1) input.2).exec
    exact ⟨hclock, fun e he => (hsigned e he).imp_right And.left⟩
  · exact ⟨.refl _, fun _ he => .inl he⟩

/-- **Progress counters**: whatever a node handles, stale timeouts included, height, round and step never go back, and
every vote is signed with the height and round of that moment. -/
theorem counters_never_go_back (L : Platform) (N : Node) (n : NodeState) (inputs : List (Outside × Event)) :
    (∀ pre input, pre ++ [input] <+: inputs →
        ClockLe (pre.foldl (NodeState.stepAny L N) n).cs ((pre ++ [input]).foldl (NodeState.stepAny L N) n).cs) ∧
      ∀ e ∈ (inputs.foldl (NodeState.stepAny L N) n).cs.signed, e ∈ n.cs.signed ∨ SignedVote.Timed e := by
  constructor
  · intro pre input _
    rw [foldl_append]
    exact (NodeState.stepAny_clock _ input).1
  · induction inputs generalizing n with
    | nil => exact fun e he => .inl he
    | cons input inputs ih =>
      intro e he
      rcases ih (n.stepAny L N input) e he with hold | htimed
      · exact (n.stepAny_clock input).2 e hold
      · exact .inr htimed

end Demars.Consensus
