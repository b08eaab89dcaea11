import Demars.Privval.FilePV

/-!
# No double signing

A `FilePV` with its key file, seen step by step (`Signer`): a call either hands out a signature at once or writes
the new record to memory, then to the file, then hands out the signature; a crash can come between any two steps,
and the next process starts from the file.
-/

namespace Demars

open List Option

namespace FilePV

/-! ## Height, round and step -/

structure HRS where
  height : Int
  round : Int
  step : Int

namespace HRS

/-- The order of the last signatures. -/
def lt (a b : HRS) : Prop :=
  a.height < b.height ∨ a.height = b.height ∧ (a.round < b.round ∨ a.round = b.round ∧ a.step < b.step)

def le (a b : HRS) : Prop := a = b ∨ a.lt b

theorem lt_irrefl (a : HRS) : ¬ a.lt a := by
  unfold lt
  omega

theorem lt_trans {a b c : HRS} (hab : a.lt b) (hbc : b.lt c) : a.lt c := by
  unfold lt at *
  omega

theorem le_trans_lt {a b c : HRS} (hab : a.le b) (hbc : b.lt c) : a.lt c := by
  rcases hab with rfl | hab
  · exact hbc
  · exact lt_trans hab hbc

end HRS

def hrs (pv : FilePV) : HRS := ⟨pv.lastHeight, pv.lastRound, pv.lastStep⟩

theorem checkHRS_spec {pv : FilePV} {height round step : Int} {same : Bool}
    (h : pv.checkHRS height round step = some (.ok same)) :
    if same then pv.hrs = ⟨height, round, step⟩ else pv.hrs.lt ⟨height, round, step⟩ := by
  unfold hrs HRS.lt
  rcases lt_trichotomy pv.lastHeight height with hh | hh | hh
  · simp only [checkHRS, if_neg (not_lt.2 hh.le), if_neg hh.ne] at h
    cases h
    exact .inl hh
  · rcases lt_trichotomy pv.lastRound round with hr | hr | hr
    · simp only [checkHRS, if_neg (not_lt.2 hh.le), if_pos hh, if_neg (not_lt.2 hr.le), if_neg hr.ne] at h
      cases h
      exact .inr ⟨hh, .inl hr⟩
    · simp only [checkHRS, if_neg (not_lt.2 hh.le), if_pos hh, if_neg (not_lt.2 hr.le), if_pos hr] at h
      rcases lt_trichotomy pv.lastStep step with hs | hs | hs
      · simp only [if_neg (not_lt.2 hs.le), if_neg hs.ne] at h
        cases h
        exact .inr ⟨hh, .inr ⟨hr, hs⟩⟩
      · simp only [if_neg (not_lt.2 hs.le), if_pos hs] at h
        split at h
        · split_ifs at h
          cases h
          simp [hh, hr, hs]
        · cases h
      · simp only [if_pos hs] at h
        cases h
    · simp only [checkHRS, if_neg (not_lt.2 hh.le), if_pos hh, if_pos hr] at h
      cases h
  · simp only [checkHRS, if_pos hh] at h
    cases h

end FilePV

/-! ## Messages that are handed out -/

/-- A message handed out with a signature, and the chain it was signed for. -/
structure Release where
  chainID : Bytes
  msg : Message

namespace Release

/-- What the signature is about. -/
def payload (r : Release) : CanonicalJSON := r.msg.canonical r.chainID

def hrs (r : Release) : FilePV.HRS := ⟨r.msg.height, r.msg.round, r.msg.step.getD 0⟩

end Release

/-- Sign bytes that say the same as the payload, up to the timestamp. -/
def Matches (A : Amino) (signBytes : Option Bytes) : CanonicalJSON → Prop
  | .vote v => ∃ last, signBytes.bind A.unmarshalVote = some last ∧
      (CanonicalJSON.vote last).eraseTime = (CanonicalJSON.vote v).eraseTime
  | .proposal p => ∃ last, signBytes.bind A.unmarshalProposal = some last ∧
      (CanonicalJSON.proposal last).eraseTime = (CanonicalJSON.proposal p).eraseTime
  | .heartbeat _ => False

/-- The record of the last signature is about what is handed out. -/
structure Records (A : Amino) (pv : FilePV) (r : Release) : Prop where
  hrs : r.hrs = pv.hrs
  step : r.msg.step ≠ none
  signBytes : Matches A pv.lastSignBytes r.payload

section

variable {A : Amino} {now : Int} {chainID : Bytes}

section

variable (msg : Message) (sig : Option Signature)

@[simp] theorem height_setSignature : (msg.setSignature sig).height = msg.height := by
  cases msg <;> rfl

@[simp] theorem round_setSignature : (msg.setSignature sig).round = msg.round := by
  cases msg <;> rfl

@[simp] theorem step_setSignature : (msg.setSignature sig).step = msg.step := by
  cases msg <;> rfl

@[simp] theorem canonical_setSignature : (msg.setSignature sig).canonical chainID = msg.canonical chainID := by
  cases msg <;> rfl

end

@[simp] theorem height_setTimestamp (msg : Message) (t : Int) : (msg.setTimestamp t).height = msg.height := by
  cases msg <;> rfl

@[simp] theorem round_setTimestamp (msg : Message) (t : Int) : (msg.setTimestamp t).round = msg.round := by
  cases msg <;> rfl

@[simp] theorem step_setTimestamp (msg : Message) (t : Int) : (msg.setTimestamp t).step = msg.step := by
  cases msg <;> rfl

theorem eraseTime_setTimestamp (msg : Message) (t : Int) :
    ((msg.setTimestamp t).canonical chainID).eraseTime = (msg.canonical chainID).eraseTime := by
  cases msg <;> rfl

theorem Matches.of_eraseTime {signBytes : Option Bytes} {p q : CanonicalJSON} (h : Matches A signBytes p)
    (heq : p.eraseTime = q.eraseTime) : Matches A signBytes q := by
  cases p with
  | vote v =>
    obtain ⟨last, hlast, he⟩ := h
    cases q with
    | vote w => exact ⟨last, hlast, he.trans heq⟩
    | proposal w | heartbeat w => exact absurd heq (by simp [CanonicalJSON.eraseTime])
  | proposal v =>
    obtain ⟨last, hlast, he⟩ := h
    cases q with
    | vote w | heartbeat w => exact absurd heq (by simp [CanonicalJSON.eraseTime])
    | proposal w => exact ⟨last, hlast, he.trans heq⟩
  | heartbeat v => exact h.elim

theorem matches_signBytes (msg : Message) : Matches A (some (msg.signBytes A chainID)) (msg.canonical chainID) := by
  cases msg with
  | vote v => exact ⟨_, A.unmarshalVote_marshalJSON _, rfl⟩
  | proposal p => exact ⟨_, A.unmarshalProposal_marshalJSON _, rfl⟩

/-- What passes the comparison without the timestamps matches the last bytes. -/
theorem matches_of_check {lastSignBytes : Bytes} {msg : Message} {t : Int}
    (h : msg.checkOnlyDifferByTimestamp A now chainID lastSignBytes = some (t, true)) :
    Matches A (some lastSignBytes) (msg.canonical chainID) := by
  cases msg with
  | vote v =>
    obtain ⟨last, hlast, h⟩ := bind_eq_some_iff.1 h
    obtain ⟨new, hnew, h⟩ := bind_eq_some_iff.1 h
    obtain ⟨t', -, h⟩ := map_eq_some_iff.1 h
    rw [Message.signBytes, Message.canonical, A.unmarshalVote_marshalJSON] at hnew
    cases Option.some.inj hnew
    simp only [Prod.mk.injEq, decide_eq_true_eq] at h
    have heq := CanonicalJSON.vote.inj (A.marshalJSON_injective h.2)
    refine ⟨last, hlast, ?_⟩
    simp only [CanonicalJSONVote.mk.injEq] at heq
    simp [CanonicalJSON.eraseTime, heq]
  | proposal p =>
    obtain ⟨last, hlast, h⟩ := bind_eq_some_iff.1 h
    obtain ⟨new, hnew, h⟩ := bind_eq_some_iff.1 h
    obtain ⟨t', -, h⟩ := map_eq_some_iff.1 h
    rw [Message.signBytes, Message.canonical, A.unmarshalProposal_marshalJSON] at hnew
    cases Option.some.inj hnew
    simp only [Prod.mk.injEq, decide_eq_true_eq] at h
    have heq := CanonicalJSON.proposal.inj (A.marshalJSON_injective h.2)
    refine ⟨last, hlast, ?_⟩
    simp only [CanonicalJSONProposal.mk.injEq] at heq
    simp [CanonicalJSON.eraseTime, heq]

theorem step_vote_ne {v : Vote} (h : (Message.vote v).step ≠ none) : (Message.vote v).step.getD 0 ≠ stepPropose := by
  simp only [Message.step, voteToStep] at h ⊢
  split_ifs at h ⊢ <;> simp_all [stepPrevote, stepPrecommit, stepPropose]

/-- Two messages for one record differ in their timestamp at most. -/
theorem Records.eraseTime_eq {pv : FilePV} {r r' : Release} (h : Records A pv r) (h' : Records A pv r')
    (hhrs : r.hrs = r'.hrs) : r.payload.eraseTime = r'.payload.eraseTime := by
  have hstep : r.msg.step.getD 0 = r'.msg.step.getD 0 := congrArg FilePV.HRS.step hhrs
  obtain ⟨c, msg⟩ := r
  obtain ⟨c', msg'⟩ := r'
  cases msg with
  | vote v =>
    cases msg' with
    | vote w =>
      obtain ⟨last, hlast, he⟩ := h.signBytes
      obtain ⟨last', hlast', he'⟩ := h'.signBytes
      rw [hlast] at hlast'
      cases Option.some.inj hlast'
      exact he.symm.trans he'
    | proposal w => exact absurd hstep (step_vote_ne h.step)
  | proposal v =>
    cases msg' with
    | vote w => exact absurd hstep.symm (step_vote_ne h'.step)
    | proposal w =>
      obtain ⟨last, hlast, he⟩ := h.signBytes
      obtain ⟨last', hlast', he'⟩ := h'.signBytes
      rw [hlast] at hlast'
      cases Option.some.inj hlast'
      exact he.symm.trans he'

/-! ## The plan of a call -/

variable {sign : Bytes → Option Signature} {pv : FilePV} {msg : Message}

theorem plan_cases {p : FilePV.Plan} (h : FilePV.plan A sign now pv chainID msg = some p) : (∃ err, p = .fail err) ∨
      (∃ step lastSignBytes, msg.step = some step ∧ pv.hrs = ⟨msg.height, msg.round, step⟩ ∧
        pv.lastSignBytes = some lastSignBytes ∧ FilePV.reuseLast A now pv chainID lastSignBytes msg = some p) ∨
      ∃ step sig, msg.step = some step ∧ pv.hrs.lt ⟨msg.height, msg.round, step⟩ ∧
        sign (msg.signBytes A chainID) = some sig ∧
        p = .save ⟨msg.height, msg.round, step, some sig, some (msg.signBytes A chainID)⟩
          (msg.setSignature (some sig)) := by
  obtain ⟨step, hstep, h⟩ := bind_eq_some_iff.1 h
  obtain ⟨res, hres, h⟩ := bind_eq_some_iff.1 h
  cases res with
  | error err =>
    cases Option.some.inj h
    exact .inl ⟨err, rfl⟩
  | ok same =>
    have hspec := FilePV.checkHRS_spec hres
    cases same with
    | true =>
      obtain ⟨lastSignBytes, hlast, h⟩ := bind_eq_some_iff.1 h
      exact .inr (.inl ⟨step, lastSignBytes, hstep, by simpa using hspec, hlast, h⟩)
    | false =>
      cases hsig : sign (msg.signBytes A chainID) with
      | none =>
        simp only [hsig] at h
        cases h
        exact .inl ⟨_, rfl⟩
      | some sig =>
        simp only [hsig] at h
        cases h
        exact .inr (.inr ⟨step, sig, hstep, by simpa using hspec, rfl, rfl⟩)

theorem plan_reuse {msg' : Message} (h : FilePV.plan A sign now pv chainID msg = some (.reuse msg')) :
    Records A pv ⟨chainID, msg'⟩ := by
  rcases plan_cases h with ⟨err, herr⟩ | ⟨step, last, hstep, hhrs, hlast, h⟩ | ⟨step, sig, -, -, -, hp⟩
  · exact absurd herr (by simp)
  · unfold FilePV.reuseLast at h
    split_ifs at h with heq
    · cases Option.some.inj h
      refine ⟨by simp [Release.hrs, hstep, hhrs], by simp [hstep], ?_⟩
      rw [hlast, ← heq, Release.payload, canonical_setSignature]
      exact matches_signBytes msg
    · obtain ⟨⟨t, ok⟩, hcheck, h⟩ := map_eq_some_iff.1 h
      cases ok with
      | false => exact absurd h (by simp)
      | true =>
        cases h
        refine ⟨by simp [Release.hrs, hstep, hhrs], by simp [hstep], ?_⟩
        rw [hlast, Release.payload, canonical_setSignature]
        exact (matches_of_check hcheck).of_eraseTime (eraseTime_setTimestamp msg t).symm
  · exact absurd hp (by simp)

theorem plan_save {pv' : FilePV} {msg' : Message} (h : FilePV.plan A sign now pv chainID msg = some (.save pv' msg')) :
    pv.hrs.lt pv'.hrs ∧ Records A pv' ⟨chainID, msg'⟩ := by
  rcases plan_cases h with ⟨err, herr⟩ | ⟨step, last, hstep, hhrs, hlast, h⟩ | ⟨step, sig, hstep, hlt, -, hp⟩
  · exact absurd herr (by simp)
  · unfold FilePV.reuseLast at h
    split_ifs at h with heq
    · exact absurd h (by simp)
    · obtain ⟨⟨t, ok⟩, -, h⟩ := map_eq_some_iff.1 h
      cases ok <;> exact absurd h (by simp)
  · cases hp
    refine ⟨hlt, by simp [Release.hrs, hstep, FilePV.hrs], by simp [hstep], ?_⟩
    rw [Release.payload, canonical_setSignature]
    exact matches_signBytes msg

end

/-! ## Steps, crashes and runs -/

/-- Where a call is. -/
inductive Phase
  | idle
  /-- the new record is in memory -/
  | signed (r : Release)
  /-- the new record is in the file, the signature not yet handed out -/
  | saved (r : Release)

structure Signer where
  mem : FilePV
  file : FilePV
  phase : Phase
  released : List Release

/-- What can happen next. -/
inductive SignerStep
  /-- `SignVote` or `SignProposal`, up to the assignments of `saveSigned` -/
  | call (now : Int) (chainID : Bytes) (msg : Message)
  /-- the file is written -/
  | persist
  /-- the call returns with the signature -/
  | release
  /-- the process stops, and another one loads the file -/
  | crash

namespace Signer

/-- One step. A call that fails or panics changes nothing. -/
def step (A : Amino) (sign : Bytes → Option Signature) (s : Signer) : SignerStep → Signer
  | .call now chainID msg => match s.phase with
    | .idle => match FilePV.plan A sign now s.mem chainID msg with
      | some (.reuse msg) => { s with released := s.released ++ [⟨chainID, msg⟩] }
      | some (.save pv msg) => { s with mem := pv, phase := .signed ⟨chainID, msg⟩ }
      | _ => s
    | _ => s
  | .persist => match s.phase with
    | .signed r => { s with file := s.mem, phase := .saved r }
    | _ => s
  | .release => match s.phase with
    | .saved r => { s with phase := .idle, released := s.released ++ [r] }
    | _ => s
  | .crash => { s with mem := s.file, phase := .idle }

def load (pv : FilePV) : Signer := ⟨pv, pv, .idle, []⟩

def run (A : Amino) (sign : Bytes → Option Signature) (pv : FilePV) (steps : List SignerStep) : Signer :=
  steps.foldl (step A sign) (load pv)

/-- The invariant: the file is on record for everything handed out. -/
structure Inv (A : Amino) (s : Signer) : Prop where
  idle : s.phase = .idle → s.mem = s.file
  signed : ∀ r, s.phase = .signed r → s.file.hrs.lt s.mem.hrs ∧ Records A s.mem r
  saved : ∀ r, s.phase = .saved r → s.mem = s.file ∧ Records A s.file r
  bounded : ∀ r ∈ s.released, r.hrs.le s.file.hrs
  records : ∀ r ∈ s.released, r.hrs = s.file.hrs → Records A s.file r
  same : ∀ r ∈ s.released, ∀ r' ∈ s.released, r.hrs = r'.hrs → r.payload.eraseTime = r'.payload.eraseTime
  ordered : s.released.Pairwise fun r r' => r.hrs.le r'.hrs

variable {A : Amino} {sign : Bytes → Option Signature} {s : Signer}

theorem load_inv (A : Amino) (pv : FilePV) : Inv A (load pv) where
  idle := fun _ => rfl
  signed := fun _ h => Phase.noConfusion h
  saved := fun _ h => Phase.noConfusion h
  bounded := fun _ h => absurd h not_mem_nil
  records := fun _ h => absurd h not_mem_nil
  same := fun _ h => absurd h not_mem_nil
  ordered := List.Pairwise.nil

theorem Inv.release (h : Inv A s) (hmem : s.mem = s.file) {r : Release} (hr : Records A s.file r) :
    Inv A { s with phase := .idle, released := s.released ++ [r] } := by
  refine ⟨fun _ => hmem, fun _ h => Phase.noConfusion h, fun _ h => Phase.noConfusion h, ?_, ?_, ?_, ?_⟩
  · intro r' hr'
    rcases mem_append.1 hr' with hr' | hr'
    · exact h.bounded r' hr'
    · rw [mem_singleton.1 hr']
      exact .inl hr.hrs
  · intro r' hr' heq
    rcases mem_append.1 hr' with hr' | hr'
    · exact h.records r' hr' heq
    · rw [mem_singleton.1 hr']
      exact hr
  · have hold : ∀ r' ∈ s.released, r'.hrs = r.hrs → r'.payload.eraseTime = r.payload.eraseTime := fun r' hr' heq =>
      (h.records r' hr' (heq.trans hr.hrs)).eraseTime_eq hr heq
    intro r₁ hr₁ r₂ hr₂ heq
    rcases mem_append.1 hr₁ with hr₁ | hr₁ <;> rcases mem_append.1 hr₂ with hr₂ | hr₂
    · exact h.same r₁ hr₁ r₂ hr₂ heq
    · rw [mem_singleton.1 hr₂] at heq ⊢
      exact hold r₁ hr₁ heq
    · rw [mem_singleton.1 hr₁] at heq ⊢
      exact (hold r₂ hr₂ heq.symm).symm
    · rw [mem_singleton.1 hr₁, mem_singleton.1 hr₂]
  · refine pairwise_append.2 ⟨h.ordered, pairwise_singleton _ _, fun r₁ hr₁ r₂ hr₂ => ?_⟩
    rw [mem_singleton.1 hr₂, hr.hrs]
    exact h.bounded r₁ hr₁

theorem step_inv (h : Inv A s) (st : SignerStep) : Inv A (s.step A sign st) := by
  cases st with
  | call now chainID msg =>
    cases hphase : s.phase with
    | signed r | saved r => simpa [step, hphase] using h
    | idle =>
      simp only [step, hphase]
      split
      · rename_i msg' hplan
        have hrec := plan_reuse hplan
        rw [h.idle hphase] at hrec
        exact h.release (h.idle hphase) hrec
      · rename_i pv msg' hplan
        obtain ⟨hlt, hrec⟩ := plan_save hplan
        rw [h.idle hphase] at hlt
        refine ⟨fun hr => Phase.noConfusion hr, fun r hr => ?_, fun _ hr => Phase.noConfusion hr, h.bounded,
          h.records, h.same, h.ordered⟩
        cases hr
        exact ⟨hlt, hrec⟩
      · exact h
  | persist =>
    cases hphase : s.phase with
    | idle | saved r => simpa [step, hphase] using h
    | signed r =>
      simp only [step, hphase]
      obtain ⟨hlt, hrec⟩ := h.signed r hphase
      -- the record moves past everything handed out so far
      refine ⟨fun hr => Phase.noConfusion hr, fun _ hr => Phase.noConfusion hr, fun r' hr => ?_, ?_, ?_,
        h.same, h.ordered⟩
      · cases hr
        exact ⟨rfl, hrec⟩
      · exact fun r' hr' => .inr (FilePV.HRS.le_trans_lt (h.bounded r' hr') hlt)
      · intro r' hr' heq
        have hlt' := FilePV.HRS.le_trans_lt (h.bounded r' hr') hlt
        rw [heq] at hlt'
        exact absurd hlt' (FilePV.HRS.lt_irrefl _)
  | release =>
    cases hphase : s.phase with
    | idle | signed r => simpa [step, hphase] using h
    | saved r =>
      simp only [step, hphase]
      obtain ⟨hmem, hrec⟩ := h.saved r hphase
      exact h.release hmem hrec
  | crash =>
    exact ⟨fun _ => rfl, fun _ hr => Phase.noConfusion hr, fun _ hr => Phase.noConfusion hr, h.bounded, h.records,
      h.same, h.ordered⟩

theorem run_inv (A : Amino) (sign : Bytes → Option Signature) (pv : FilePV) (steps : List SignerStep) :
    Inv A (run A sign pv steps) := by
  unfold run
  induction steps using List.reverseRecOn with
  | nil => exact load_inv A pv
  | append_singleton steps st ih =>
    rw [foldl_append]
    exact step_inv ih st

/-- What is handed out for one height, round and step differs in its timestamp at most, and these never go back. -/
theorem no_double_sign (A : Amino) (sign : Bytes → Option Signature) (pv : FilePV) (steps : List SignerStep) :
    (∀ r ∈ (run A sign pv steps).released, ∀ r' ∈ (run A sign pv steps).released,
      r.hrs = r'.hrs → r.payload.eraseTime = r'.payload.eraseTime) ∧
    (run A sign pv steps).released.Pairwise fun r r' => r.hrs.le r'.hrs :=
  ⟨(run_inv A sign pv steps).same, (run_inv A sign pv steps).ordered⟩

end Signer

end Demars
