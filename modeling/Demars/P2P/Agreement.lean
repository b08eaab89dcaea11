import Demars.P2P.Authentication

/-!
# Who is connected

A call of `addPeer` looks for the id of a peer in the peer set, starts the peer, tells the reactors and puts the
peer into the set, each under a lock of its own; a call of `StopPeerForError` removes whatever peer has the id,
stops the peer that it was called for and tells the reactors.
-/

namespace Demars.P2P

open List Option

def AddPoint.isReturned : AddPoint → Bool
  | .returned _ => true
  | _ => false

/-- The peer that the call adds to the set with its next step. -/
def AddPoint.adds : AddPoint → Option Peer
  | .add peer => some peer
  | _ => none

namespace Switch

variable {cfg : SwitchConfig} {sw sw' : Switch}

def Quiet (sw : Switch) : Prop :=
  (∀ call ∈ sw.adding, call.point.isReturned = true) ∧ ∀ call ∈ sw.stopping, call.point = .returned

instance (sw : Switch) : Decidable sw.Quiet := inferInstanceAs (Decidable (_ ∧ _))

/-- A peer is in the set exactly if it runs and every reactor has it. -/
def Agrees (sw : Switch) : Prop :=
  ∀ peer, peer ∈ sw.peers.list ↔ peer ∈ sw.made ∧ peer.serial ∈ sw.live ∧ ∀ has ∈ sw.reactors, peer.serial ∈ has

def Unstopped (sw : Switch) (peer : Peer) : Prop := ∀ call ∈ sw.stopping, call.peer ≠ peer

def Upright (sw : Switch) (peer : Peer) (left : List Nat) : Prop :=
  peer.serial ∈ sw.live ∧ ∀ (r : Nat) (has : List Nat), sw.reactors[r]? = some has → r ∉ left → peer.serial ∈ has

def CallInv (sw : Switch) (i : Nat) : AddPoint → Prop
  | .inform peer left => peer.serial = i ∧ peer ∈ sw.made ∧ Unstopped sw peer ∧ Upright sw peer left ∧
      peer ∉ sw.peers.list
  | .add peer => peer.serial = i ∧ peer ∈ sw.made ∧ Unstopped sw peer ∧ Upright sw peer [] ∧ peer ∉ sw.peers.list
  | .returned _ => ∀ peer ∈ sw.made, peer.serial = i → Unstopped sw peer → peer ∈ sw.peers.list ∧ Upright sw peer []
  | _ => ∀ peer ∈ sw.made, peer.serial ≠ i

def StopInv (sw : Switch) (call : StopCall) : Prop :=
  call.peer ∈ sw.made ∧
    match call.point with
    | .remove => True
    | .stop => call.peer ∉ sw.peers.list
    | _ => call.peer ∉ sw.peers.list ∧ call.peer.serial ∉ sw.live

/-- Set, running peers and reactors agree up to the open calls. -/
structure AgreeInv (cfg : SwitchConfig) (sw : Switch) : Prop where
  running : sw.running = true
  reactors : sw.reactors.length = cfg.reactors
  calls : ∀ (i : Nat) (call : AddCall), sw.adding[i]? = some call → CallInv sw i call.point
  bound : ∀ peer ∈ sw.made, peer.serial < sw.adding.length
  unique : ∀ peer ∈ sw.made, ∀ peer' ∈ sw.made, peer.serial = peer'.serial → peer = peer'
  peers : ∀ peer ∈ sw.peers.list, peer ∈ sw.made
  stops : ∀ call ∈ sw.stopping, StopInv sw call

theorem AgreeInv.agrees (h : AgreeInv cfg sw) (hquiet : sw.Quiet) : sw.Agrees := by
  have hreturned : ∀ peer ∈ sw.made, Unstopped sw peer → peer ∈ sw.peers.list ∧ Upright sw peer [] := by
    intro peer hpeer hunstopped
    have hlt := h.bound peer hpeer
    have hcall := h.calls peer.serial _ (getElem?_eq_getElem hlt)
    have hpoint := hquiet.1 _ (getElem_mem hlt)
    cases hp : sw.adding[peer.serial].point with
    | returned err =>
      rw [hp] at hcall
      exact hcall peer hpeer rfl hunstopped
    | _ =>
      rw [hp] at hpoint
      cases hpoint
  have hstopped : ∀ call ∈ sw.stopping, call.peer ∉ sw.peers.list ∧ call.peer.serial ∉ sw.live := by
    intro call hcall
    have hinv := (h.stops call hcall).2
    rw [hquiet.2 call hcall] at hinv
    exact hinv
  intro peer
  constructor
  · intro hpeer
    have hmade := h.peers peer hpeer
    obtain ⟨-, hup⟩ := hreturned peer hmade fun call hcall heq => (hstopped call hcall).1 (heq ▸ hpeer)
    refine ⟨hmade, hup.1, fun has hhas => ?_⟩
    obtain ⟨r, hr⟩ := mem_iff_getElem?.1 hhas
    exact hup.2 r has hr not_mem_nil
  · rintro ⟨hmade, hlive, -⟩
    exact (hreturned peer hmade fun call hcall heq => (hstopped call hcall).2 (heq ▸ hlive)).1

theorem agreeInv_newSwitch (cfg : SwitchConfig) : AgreeInv cfg (newSwitch cfg) where
  running := rfl
  reactors := length_replicate ..
  calls := by simp [newSwitch]
  bound := by simp [newSwitch]
  unique := by simp [newSwitch]
  peers := by simp [newSwitch, Slots.empty]
  stops := by simp [newSwitch]

/-- `peers.Add` finds no other peer of the id, `StopPeerForError` is called for peers in the set, or once more for the
same peer, and `peers.Remove` finds no other peer of the id. -/
def Orderly (sw : Switch) : SwitchEvent → Prop
  | .advance i _ => ∀ peer ∈ (sw.adding[i]?).bind fun call => call.point.adds, sw.peers.get peer.ID = none
  | .stopPeer k => ∀ peer ∈ sw.made[k]?, peer ∈ sw.peers.list ∨ ∃ call ∈ sw.stopping, call.peer = peer
  | .advanceStop i _ => ∀ call ∈ sw.stopping[i]?, call.point = .remove → ∀ peer ∈ sw.peers.get call.peer.ID,
      peer = call.peer
  | _ => True

instance decidableOrderly (sw : Switch) : ∀ event, Decidable (sw.Orderly event)
  | .connect _ => inferInstanceAs (Decidable True)
  | .advance i _ => inferInstanceAs (Decidable (∀ peer ∈ (sw.adding[i]?).bind fun call => call.point.adds, _))
  | .stopPeer k => inferInstanceAs (Decidable (∀ peer ∈ sw.made[k]?, _))
  | .advanceStop i _ => inferInstanceAs (Decidable (∀ call ∈ sw.stopping[i]?, _))
  | .onStop => inferInstanceAs (Decidable True)

/-! ## Steps of the calls -/

/-- A step that does nothing to a peer, as long as the peer is not stopped. -/
structure Undisturbed (sw sw' : Switch) (peer : Peer) : Prop where
  made : peer ∈ sw'.made ↔ peer ∈ sw.made
  unstopped : Unstopped sw' peer → Unstopped sw peer
  unstopped' : Unstopped sw peer → peer ∉ sw.peers.list → Unstopped sw' peer
  peers : Unstopped sw' peer → (peer ∈ sw'.peers.list ↔ peer ∈ sw.peers.list)
  upright : peer ∈ sw.made → Unstopped sw' peer → ∀ left, Upright sw peer left → Upright sw' peer left

variable {i : Nat} {call : AddCall}

theorem CallInv.transfer {point : AddPoint} (h : CallInv sw i point) (sw' : Switch)
    (hsame : ∀ peer, peer.serial = i → Undisturbed sw sw' peer) : CallInv sw' i point := by
  have hidle : (∀ peer ∈ sw.made, peer.serial ≠ i) → ∀ peer ∈ sw'.made, peer.serial ≠ i := by
    intro hnone peer hpeer hserial
    exact hnone peer ((hsame peer hserial).made.1 hpeer) hserial
  cases point with
  | inform peer left =>
    obtain ⟨hserial, hmade, hunstopped, hup, hout⟩ := h
    have hpeer := hsame peer hserial
    have hunstopped' := hpeer.unstopped' hunstopped hout
    exact ⟨hserial, hpeer.made.2 hmade, hunstopped', hpeer.upright hmade hunstopped' left hup,
      fun hin => hout ((hpeer.peers hunstopped').1 hin)⟩
  | add peer =>
    obtain ⟨hserial, hmade, hunstopped, hup, hout⟩ := h
    have hpeer := hsame peer hserial
    have hunstopped' := hpeer.unstopped' hunstopped hout
    exact ⟨hserial, hpeer.made.2 hmade, hunstopped', hpeer.upright hmade hunstopped' [] hup,
      fun hin => hout ((hpeer.peers hunstopped').1 hin)⟩
  | returned err =>
    intro peer hmade hserial hunstopped'
    have hpeer := hsame peer hserial
    obtain ⟨hin, hup⟩ := h peer (hpeer.made.1 hmade) hserial (hpeer.unstopped hunstopped')
    exact ⟨(hpeer.peers hunstopped').2 hin, hpeer.upright (hpeer.made.1 hmade) hunstopped' [] hup⟩
  | hasID | hasRemoteIP info | hasListenIP info | start info => exact hidle h

theorem StopInv.transfer {call : StopCall} (h : StopInv sw call) (sw' : Switch) (hmade : call.peer ∈ sw'.made)
    (hpeers : call.peer ∉ sw.peers.list → call.peer ∉ sw'.peers.list)
    (hlive : call.peer.serial ∉ sw.live → call.peer.serial ∉ sw'.live) : StopInv sw' call := by
  obtain ⟨-, hpoint⟩ := h
  refine ⟨hmade, ?_⟩
  cases hp : call.point with
  | remove => trivial
  | stop =>
    rw [hp] at hpoint
    exact hpeers hpoint
  | inform left | returned =>
    rw [hp] at hpoint
    exact ⟨hpeers hpoint.1, hlive hpoint.2⟩

theorem undisturbed_of_adding (sw : Switch) (adding : List AddCall) (peer : Peer) :
    Undisturbed sw { sw with adding } peer :=
  ⟨.rfl, id, fun h _ => h, fun _ => .rfl, fun _ _ _ h => h⟩

theorem AgreeInv.connect (h : AgreeInv cfg sw) (attempt : Attempt) : AgreeInv cfg (sw.connect cfg attempt) := by
  unfold Switch.connect
  split_ifs
  · exact h
  · split
    · exact h
    · refine { h with calls := fun i call hcall => ?_, bound := fun peer hpeer => ?_ }
      · rw [getElem?_append] at hcall
        split_ifs at hcall with hlt
        · exact (h.calls i call hcall).transfer _ fun peer _ => undisturbed_of_adding sw _ peer
        · have hi : i - sw.adding.length = 0 := by
            by_contra hne
            rw [getElem?_singleton, if_neg hne] at hcall
            cases hcall
          rw [hi] at hcall
          cases hcall
          intro peer hpeer
          have hbound := h.bound peer hpeer
          omega
      · have hbound := h.bound peer hpeer
        simp only [length_append]
        omega

/-- A call of `addPeer` goes on, and nothing that it does disturbs the peers of the others. -/
theorem AgreeInv.advance_of {next : AddPoint} (h : AgreeInv cfg sw) (sw₁ : Switch)
    (hrunning : sw₁.running = true) (hreactors : sw₁.reactors.length = cfg.reactors)
    (hsame : ∀ peer, peer.serial ≠ i → Undisturbed sw sw₁ peer) (hnext : CallInv sw₁ i next)
    (hbound : ∀ peer ∈ sw₁.made, peer.serial < sw.adding.length)
    (hunique : ∀ peer ∈ sw₁.made, ∀ peer' ∈ sw₁.made, peer.serial = peer'.serial → peer = peer')
    (hpeers : ∀ peer ∈ sw₁.peers.list, peer ∈ sw₁.made) (hstops : ∀ call ∈ sw₁.stopping, StopInv sw₁ call) :
    AgreeInv cfg { sw₁ with adding := sw.adding.set i { call with point := next } } := by
  refine ⟨hrunning, hreactors, fun j call' hcall' => ?_, ?_, hunique, hpeers, hstops⟩
  · rw [getElem?_set] at hcall'
    split_ifs at hcall' with heq hlt
    · subst heq
      cases hcall'
      exact hnext.transfer _ fun peer _ => undisturbed_of_adding sw₁ _ peer
    · have hj := h.calls j call' hcall'
      have hother := hj.transfer sw₁ fun peer hserial => hsame peer fun hi => heq (hi.symm.trans hserial)
      exact hother.transfer _ fun peer _ => undisturbed_of_adding sw₁ _ peer
  · intro peer hpeer
    rw [length_set]
    exact hbound peer hpeer

theorem AgreeInv.moved (h : AgreeInv cfg sw) {next : AddPoint} (hnext : CallInv sw i next) :
    AgreeInv cfg { sw with adding := sw.adding.set i { call with point := next } } :=
  h.advance_of sw h.running h.reactors (fun _ _ => ⟨.rfl, id, fun h _ => h, fun _ => .rfl, fun _ _ _ h => h⟩) hnext
    h.bound h.unique
    h.peers h.stops

theorem AgreeInv.started (h : AgreeInv cfg sw) (hi : i < sw.adding.length) {peer : Peer}
    (hserial : peer.serial = i) (hnone : ∀ old ∈ sw.made, old.serial ≠ i) : AgreeInv cfg { sw with
      made := sw.made ++ [peer]
      live := sw.live ++ [peer.serial]
      adding := sw.adding.set i { call with point := .inform peer (List.range cfg.reactors) } } := by
  have hnew : ∀ old ∈ sw.made, old ≠ peer := fun old hold heq => hnone old hold (heq ▸ hserial)
  refine h.advance_of { sw with made := sw.made ++ [peer], live := sw.live ++ [peer.serial] } h.running h.reactors
    (fun old hold => ?_) ⟨hserial, by simp, fun stop hstop => ?_, ⟨by simp, fun r has hr hleft => ?_⟩, fun hin => ?_⟩
    (fun old hold => ?_) (fun old hold old' hold' heq => ?_) (fun old hold => ?_) (fun stop hstop => ?_)
  · have hne : old ≠ peer := fun heq => hold (heq ▸ hserial)
    exact ⟨by simp [hne], id, fun h _ => h, fun _ => .rfl, fun _ _ left hup => ⟨mem_append_left _ hup.1, hup.2⟩⟩
  · exact hnew _ (h.stops stop hstop).1
  · have hlt := (List.getElem?_eq_some_iff.1 hr).1
    rw [mem_range] at hleft
    exact absurd (h.reactors ▸ hlt) hleft
  · exact hnew peer (h.peers peer hin) rfl
  · rcases mem_append.1 hold with hold | hold
    · exact h.bound old hold
    · rw [mem_singleton.1 hold, hserial]
      exact hi
  · rcases mem_append.1 hold with hold | hold <;> rcases mem_append.1 hold' with hold' | hold'
    · exact h.unique old hold old' hold' heq
    · rw [mem_singleton.1 hold', hserial] at heq
      exact absurd heq (hnone old hold)
    · rw [mem_singleton.1 hold, hserial] at heq
      exact absurd heq.symm (hnone old' hold')
    · rw [mem_singleton.1 hold, mem_singleton.1 hold']
  · exact mem_append_left _ (h.peers old hold)
  · have hinv := h.stops stop hstop
    refine hinv.transfer _ (mem_append_left _ hinv.1) id fun hdead hin => ?_
    rcases mem_append.1 hin with hin | hin
    · exact hdead hin
    · exact hnone _ hinv.1 ((mem_singleton.1 hin).trans hserial)

theorem mem_eraseIdx_or {left : List Nat} {r : Nat} (j : Nat) (h : r ∈ left) :
    r ∈ left.eraseIdx j ∨ left[j]? = some r := by
  obtain ⟨k, hk⟩ := mem_iff_getElem?.1 h
  by_cases heq : k = j
  · exact .inr (heq ▸ hk)
  · exact .inl (mem_eraseIdx_iff_getElem?.2 ⟨k, heq, hk⟩)

theorem AgreeInv.informed (h : AgreeInv cfg sw) {peer : Peer} {left : List Nat} {j r : Nat}
    (hr : left[j]? = some r) (hcall : CallInv sw i (.inform peer left)) : AgreeInv cfg { sw with
      reactors := sw.reactors.modify r (peer.serial :: ·)
      adding := sw.adding.set i { call with point := .inform peer (left.eraseIdx j) } } := by
  obtain ⟨hserial, hmade, hunstopped, hup, hout⟩ := hcall
  have hmore : ∀ (old : Peer) (r' : Nat) (has : List Nat), (sw.reactors.modify r (peer.serial :: ·))[r']? = some has →
      ∃ had, sw.reactors[r']? = some had ∧ (old.serial ∈ had → old.serial ∈ has) ∧ (r' = r → peer.serial ∈ has) := by
    intro old r' has hhas
    rw [getElem?_modify] at hhas
    obtain ⟨had, hhad, rfl⟩ := map_eq_some_iff.1 hhas
    refine ⟨had, hhad, fun hin => ?_, fun heq => ?_⟩
    · split_ifs
      · exact mem_cons_of_mem _ hin
      · exact hin
    · rw [if_pos heq.symm]
      exact mem_cons_self
  refine h.advance_of { sw with reactors := sw.reactors.modify r (peer.serial :: ·) } h.running
    (by rw [length_modify]; exact h.reactors) (fun old _ => ?_)
    ⟨hserial, hmade, hunstopped, ⟨hup.1, fun r' has hhas hleft => ?_⟩, hout⟩ h.bound h.unique h.peers h.stops
  · refine ⟨.rfl, id, fun h _ => h, fun _ => .rfl, fun _ _ left' hup' => ⟨hup'.1, fun r' has hhas hleft' => ?_⟩⟩
    obtain ⟨had, hhad, hkeep, -⟩ := hmore old r' has hhas
    exact hkeep (hup'.2 r' had hhad hleft')
  · obtain ⟨had, hhad, hkeep, hgot⟩ := hmore peer r' has hhas
    by_cases hin : r' ∈ left
    · rcases mem_eraseIdx_or j hin with hin' | heq
      · exact absurd hin' hleft
      · exact hgot (Option.some.inj (heq.symm.trans hr))
    · exact hkeep (hup.2 r' had hhad hin)

theorem AgreeInv.added (h : AgreeInv cfg sw) {peer : Peer} {err : Option AddPeerError}
    (hcall : CallInv sw i (.add peer)) (hfree : sw.peers.get peer.ID = none) : AgreeInv cfg { sw with
      peers := (sw.peers.add peer).getD sw.peers
      adding := sw.adding.set i { call with point := .returned err } } := by
  obtain ⟨hserial, hmade, hunstopped, hup, hout⟩ := hcall
  obtain ⟨peers, hpeers⟩ := isSome_iff_exists.1 (Slots.add_isSome hfree)
  have hlist : ((sw.peers.add peer).getD sw.peers).list = sw.peers.list ++ [peer] := by
    rw [hpeers, getD_some, (Slots.add_eq_some hpeers).2]
  refine h.advance_of { sw with peers := (sw.peers.add peer).getD sw.peers } h.running h.reactors (fun old hold => ?_)
    (fun old hold hsame _ => ?_) h.bound h.unique (fun old hold => ?_) (fun stop hstop => ?_)
  · have hne : old ≠ peer := fun heq => hold (heq ▸ hserial)
    refine ⟨.rfl, id, fun h _ => h, fun _ => ?_, fun _ _ _ h => h⟩
    rw [hlist, mem_append, mem_singleton]
    exact or_iff_left hne
  · obtain rfl : old = peer := h.unique old hold peer hmade (hsame.trans hserial.symm)
    exact ⟨by rw [hlist]; simp, hup⟩
  · rw [hlist] at hold
    rcases mem_append.1 hold with hold | hold
    · exact h.peers old hold
    · rw [mem_singleton.1 hold]
      exact hmade
  · have hinv := h.stops stop hstop
    refine hinv.transfer _ hinv.1 (fun hgone hin => ?_) id
    rw [hlist] at hin
    rcases mem_append.1 hin with hin | hin
    · exact hgone hin
    · exact hunstopped stop hstop (mem_singleton.1 hin)

theorem AgreeInv.advance (h : AgreeInv cfg sw) {choice : Nat} (horderly : sw.Orderly (.advance i choice))
    (hstep : sw.advance cfg i choice = some sw') : AgreeInv cfg sw' := by
  unfold Switch.advance at hstep
  split at hstep
  case h_1 =>
    cases hstep
    exact h
  case h_2 call hcall =>
    obtain ⟨next, hnext, rfl⟩ := map_eq_some_iff.1 hstep
    have hinv := h.calls i call hcall
    have hi := (List.getElem?_eq_some_iff.1 hcall).1
    have hquit : (∀ peer ∈ sw.made, peer.serial ≠ i) → ∀ err, CallInv sw i (.returned err) :=
      fun hnone err peer hmade hserial => absurd hserial (hnone peer hmade)
    unfold AddCall.next at hnext
    cases hpoint : call.point with
    | hasID =>
      rw [hpoint] at hnext hinv
      obtain ⟨found, -, rfl⟩ := map_eq_some_iff.1 hnext
      cases found with
      | error err => exact h.moved (hquit hinv _)
      | ok info =>
        dsimp only
        split_ifs
        · exact h.moved (hquit hinv _)
        · exact h.moved hinv
        · exact h.moved hinv
    | hasRemoteIP info =>
      rw [hpoint] at hnext hinv
      cases hnext
      split_ifs
      · exact h.moved (hquit hinv _)
      · exact h.moved hinv
    | hasListenIP info =>
      rw [hpoint] at hnext hinv
      obtain ⟨addr, -, rfl⟩ := map_eq_some_iff.1 hnext
      split_ifs
      · exact h.moved (hquit hinv _)
      · exact h.moved hinv
    | start info =>
      rw [hpoint] at hnext hinv
      simp only [h.running] at hnext
      split_ifs at hnext
      · cases hnext
        exact h.moved (hquit hinv _)
      · split at hnext
        · cases hnext
          exact h.moved (hquit hinv _)
        · cases hnext
          exact h.started hi rfl hinv
    | inform peer left =>
      rw [hpoint] at hnext hinv
      cases left with
      | nil =>
        cases hnext
        exact h.moved hinv
      | cons r left =>
        cases hnext
        have hlt := Nat.mod_lt choice (Nat.succ_pos left.length)
        obtain ⟨chosen, hr⟩ : ∃ chosen, (r :: left)[choice % (r :: left).length]? = some chosen :=
          ⟨_, getElem?_eq_getElem hlt⟩
        have hperform : sw.perform choice (.inform peer (r :: left)) (.inform peer (othersLeft choice (r :: left))) =
            { sw with reactors := sw.reactors.modify chosen (peer.serial :: ·) } := by
          unfold perform
          dsimp only
          rw [hr]
        rw [hperform]
        exact h.informed hr hinv
    | add peer =>
      rw [hpoint] at hnext hinv
      cases hnext
      exact h.added hinv (horderly peer (by rw [hcall, bind_some, hpoint]; rfl))
    | returned err =>
      rw [hpoint] at hnext hinv
      cases hnext
      exact h.moved hinv

/-! ## Steps of the stops -/

theorem AgreeInv.stopPeer (h : AgreeInv cfg sw) {k : Nat} (horderly : sw.Orderly (.stopPeer k)) :
    AgreeInv cfg (sw.stopPeer k) := by
  unfold Switch.stopPeer
  split
  · exact h
  · next peer hpeer =>
    refine { h with
      calls := fun i call hcall => (h.calls i call hcall).transfer _ fun old _ => ?_
      stops := fun stop hstop => ?_ }
    · refine ⟨.rfl, fun hunstopped stop hstop => hunstopped stop (mem_append_left _ hstop),
        fun hunstopped hout stop hstop => ?_, fun _ => .rfl, fun _ _ _ h => h⟩
      rcases mem_append.1 hstop with hstop | hstop
      · exact hunstopped stop hstop
      · rw [mem_singleton.1 hstop]
        rintro rfl
        rcases horderly _ hpeer with hin | ⟨call, hcall, heq⟩
        · exact hout hin
        · exact hunstopped call hcall heq
    · rcases mem_append.1 hstop with hstop | hstop
      · exact (h.stops stop hstop).transfer _ (h.stops stop hstop).1 id id
      · rw [mem_singleton.1 hstop]
        exact ⟨mem_of_getElem? hpeer, trivial⟩

/-- A call of `stopAndRemovePeer` goes on, and disturbs no other peer. -/
theorem AgreeInv.advanceStop_of (h : AgreeInv cfg sw) (sw₁ : Switch) {call : StopCall} {next : StopPoint}
    (hcall : sw.stopping[i]? = some call) (hadding : sw₁.adding = sw.adding) (hmade : sw₁.made = sw.made)
    (hrunning : sw₁.running = sw.running) (hreactors : sw₁.reactors.length = sw.reactors.length)
    (hpeers : ∀ peer, peer ∈ sw₁.peers.list → peer ∈ sw.peers.list) (hlive : ∀ serial ∈ sw₁.live, serial ∈ sw.live)
    (hsame : ∀ peer, peer ≠ call.peer → (peer ∈ sw.peers.list → peer ∈ sw₁.peers.list) ∧ ∀ left, peer ∈ sw.made →
      Upright sw peer left → Upright sw₁ peer left)
    (hnext : StopInv sw₁ { call with point := next }) :
    AgreeInv cfg { sw₁ with stopping := sw.stopping.set i { call with point := next } } := by
  have hunstopped : ∀ peer, Unstopped { sw₁ with stopping := sw.stopping.set i { call with point := next } } peer ↔
      Unstopped sw peer := by
    intro peer
    constructor
    · intro hun stop hstop
      obtain ⟨j, hj⟩ := mem_iff_getElem?.1 hstop
      by_cases heq : i = j
      · subst heq
        obtain rfl : call = stop := Option.some.inj (hcall.symm.trans hj)
        exact hun { call with point := next } (mem_iff_getElem?.2 ⟨i, by
          rw [getElem?_set_self (List.getElem?_eq_some_iff.1 hcall).1]⟩)
      · exact hun stop (mem_iff_getElem?.2 ⟨j, by rw [getElem?_set_ne heq]; exact hj⟩)
    · intro hun stop hstop
      rcases mem_or_eq_of_mem_set hstop with hstop | rfl
      · exact hun stop hstop
      · exact hun call (mem_of_getElem? hcall)
  refine ⟨hrunning.trans h.running, hreactors.trans h.reactors, fun j other hother => ?_, ?_, ?_, fun peer hpeer => ?_,
    fun stop hstop => ?_⟩
  · have hj := h.calls j other (by rw [← hadding]; exact hother)
    refine hj.transfer _ fun peer _ => ⟨by rw [hmade], (hunstopped peer).1, fun hun _ => (hunstopped peer).2 hun,
      fun hun => ?_, fun hin hun left hup => ?_⟩
    · have hne : peer ≠ call.peer := fun heq => (hunstopped peer).1 hun call (mem_of_getElem? hcall) heq.symm
      exact ⟨hpeers peer, (hsame peer hne).1⟩
    · have hne : peer ≠ call.peer := fun heq => (hunstopped peer).1 hun call (mem_of_getElem? hcall) heq.symm
      exact (hsame peer hne).2 left hin hup
  · rw [hmade, hadding]
    exact h.bound
  · rw [hmade]
    exact h.unique
  · rw [hmade]
    exact h.peers peer (hpeers peer hpeer)
  · rcases mem_or_eq_of_mem_set hstop with hstop | rfl
    · have hinv := h.stops stop hstop
      exact hinv.transfer _ (by rw [hmade]; exact hinv.1) (fun hgone hin => hgone (hpeers _ hin))
        (fun hdead hin => hdead (hlive _ hin))
    · exact hnext.transfer _ hnext.1 id id

theorem AgreeInv.advanceStop (h : AgreeInv cfg sw) {choice : Nat} (horderly : sw.Orderly (.advanceStop i choice)) :
    AgreeInv cfg (sw.advanceStop cfg i choice) := by
  unfold Switch.advanceStop
  split
  · exact h
  · next call hcall =>
    have hinv := h.stops call (mem_of_getElem? hcall)
    -- the numbers of other peers are others
    have hother : ∀ peer ∈ sw.made, peer ≠ call.peer → peer.serial ≠ call.peer.serial :=
      fun peer hpeer hne heq => hne (h.unique peer hpeer _ hinv.1 heq)
    cases hpoint : call.point with
    | remove =>
      refine h.advanceStop_of { sw with peers := sw.peers.remove call.peer.ID } hcall rfl rfl rfl rfl
        (fun peer hpeer => (Slots.mem_list_remove.1 hpeer).1) (fun _ hserial => hserial)
          (fun peer hne => ⟨fun hpeer => ?_, ?_⟩)
        ⟨hinv.1, fun hin => (Slots.mem_list_remove.1 hin).2 rfl⟩
      · refine Slots.mem_list_remove.2 ⟨hpeer, fun hid => hne ?_⟩
        exact horderly call hcall hpoint peer (Slots.get_eq_some_iff.2 ⟨hpeer, hid⟩)
      · exact fun _ _ hup => hup
    | stop =>
      rw [StopInv, hpoint] at hinv
      refine h.advanceStop_of (sw.halt call.peer) hcall rfl rfl rfl rfl (fun _ hpeer => hpeer)
        (fun _ hserial => mem_of_mem_filter hserial) (fun peer hne => ⟨id, fun left hmade hup => ⟨?_, hup.2⟩⟩)
        ⟨hinv.1, hinv.2, by simp [halt]⟩
      exact mem_filter.2 ⟨hup.1, by simpa using hother peer hmade hne⟩
    | inform left =>
      rw [StopInv, hpoint] at hinv
      dsimp only
      split
      · exact h.advanceStop_of sw hcall rfl rfl rfl rfl (fun _ hpeer => hpeer) (fun _ hserial => hserial)
          (fun _ _ => ⟨id, fun _ _ hup => hup⟩) hinv
      · next r _ =>
        refine h.advanceStop_of { sw with reactors := sw.reactors.modify r (·.filter (· ≠ call.peer.serial)) }
          hcall rfl rfl rfl
          (length_modify ..) (fun _ hpeer => hpeer) (fun _ hserial => hserial)
          (fun peer hne => ⟨id, fun left' hmade hup => ⟨hup.1, fun r' has hhas hleft => ?_⟩⟩) hinv
        rw [getElem?_modify] at hhas
        obtain ⟨had, hhad, rfl⟩ := map_eq_some_iff.1 hhas
        have hold := hup.2 r' had hhad hleft
        split_ifs
        · exact mem_filter.2 ⟨hold, by simpa using hother peer hmade hne⟩
        · exact hold
    | returned => exact h

end Switch

/-- In an orderly run the set, the running peers and the reactors agree after all calls have returned. -/
theorem peers_agree (cfg : SwitchConfig) {events : List SwitchEvent} (hcalls : .onStop ∉ events)
    (horderly : Runs.Along (switchStep cfg) (fun process event => ∀ sw ∈ process, sw.Orderly event)
      (some (newSwitch cfg)) events)
    {sw : Switch} (hrun : switchRun cfg events = some sw) (hquiet : sw.Quiet) : sw.Agrees := by
  have hprocess : ∀ (process : Option Switch) (event : SwitchEvent), (∀ sw ∈ process, Switch.AgreeInv cfg sw) →
      ((∀ sw ∈ process, sw.Orderly event) ∧ event ≠ .onStop) → ∀ sw' ∈ switchStep cfg process event,
        Switch.AgreeInv cfg sw' := by
    rintro process event hinv ⟨hevent, hnot⟩ sw' hsw'
    obtain ⟨before, hbefore, hnext⟩ := bind_eq_some_iff.1 hsw'
    have hold := hinv before hbefore
    have hok := hevent before hbefore
    cases event with
    | connect attempt =>
      cases hnext
      exact hold.connect attempt
    | advance i choice => exact hold.advance hok hnext
    | stopPeer k =>
      cases hnext
      exact hold.stopPeer hok
    | advanceStop i choice =>
      cases hnext
      exact hold.advanceStop hok
    | onStop => exact absurd rfl hnot
  have hstart : ∀ sw ∈ some (newSwitch cfg), Switch.AgreeInv cfg sw := by
    rintro sw ⟨⟩
    exact Switch.agreeInv_newSwitch cfg
  have hevents : ∀ event ∈ events, event ≠ .onStop := fun event hevent heq => hcalls (heq ▸ hevent)
  exact (Runs.always_of_along hprocess hstart (horderly.and_forall hevents) events prefix_rfl sw hrun).agrees hquiet

namespace Twins

open Impostor

/-- A connection to a party that declares to have the key 2. -/
def arrives : SwitchEvent := .connect (.inbound (conn nobody (idOf 2)))

/-- The `i`th call of `addPeer` makes `n` steps. -/
def goesOn (i n : Nat) : List SwitchEvent := List.replicate n (.advance i 0)

def stops (k i : Nat) : List SwitchEvent := .stopPeer k :: List.replicate 5 (.advanceStop i 0)

/-- A peer is added, stopped and added again. -/
def again : List SwitchEvent := arrives :: goesOn 0 6 ++ stops 0 0 ++ arrives :: goesOn 1 6

/-- Two connections with one id, both of which find no peer with that id. -/
def twins : List SwitchEvent := [arrives, arrives] ++ goesOn 0 1 ++ goesOn 1 1 ++ goesOn 0 5 ++ goesOn 1 5

/-- A peer that is stopped while the reactors are told of it. -/
def hasty : List SwitchEvent := arrives :: goesOn 0 2 ++ stops 0 0 ++ goesOn 0 4

end Twins

open Impostor Twins in
/-- An orderly run. -/
theorem peers_agree_again : ∃ sw, switchRun node again = some sw ∧ sw.peers.list.map Peer.serial = [1] ∧ sw.Agrees :=
  ⟨(switchRun node again).get (by decide +kernel), (some_get _).symm, by decide +kernel,
    peers_agree node (by simp [again, arrives, goesOn, stops]) (by decide +kernel) (some_get _).symm
      (by decide +kernel)⟩

open Impostor Twins in
/-- Of two connections with one id the second one runs without being in the set; when it is stopped, the first one is
removed and runs on; and a peer that is stopped before it is added stays in the set. -/
theorem peers_disagree :
    (∃ sw, switchRun node twins = some sw ∧ sw.Quiet ∧
      ∃ peer ∈ sw.made, peer.serial ∈ sw.live ∧ (∀ has ∈ sw.reactors, peer.serial ∈ has) ∧ peer ∉ sw.peers.list) ∧
    (∃ sw, switchRun node (twins ++ stops 1 0) = some sw ∧ sw.Quiet ∧ sw.peers.list = [] ∧
      ∃ peer ∈ sw.made, peer.serial ∈ sw.live ∧ ∀ has ∈ sw.reactors, peer.serial ∈ has) ∧
    ∃ sw, switchRun node hasty = some sw ∧ sw.Quiet ∧ ∃ peer ∈ sw.peers.list, peer.serial ∉ sw.live :=
  ⟨⟨(switchRun node twins).get (by decide +kernel), (some_get _).symm, by decide +kernel⟩,
    ⟨(switchRun node (twins ++ stops 1 0)).get (by decide +kernel), (some_get _).symm, by decide +kernel⟩,
    (switchRun node hasty).get (by decide +kernel), (some_get _).symm, by decide +kernel⟩

end Demars.P2P
