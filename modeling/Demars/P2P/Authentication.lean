import Demars.P2P.Switch

/-!
# Who a peer is

`newPeerConn` leaves the connection as it is: the call of `MakeSecretConnection` is commented out. The id of a peer
is the one in the `NodeInfo` that the party sends, and `addOutboundPeerWithConfig` does not compare it with the id
that it dialed.
-/

namespace Demars.P2P

open List Option

def Authenticated (P : Primitives) (id : NodeID) (pc : PeerConn) : Prop :=
  (∃ key ∈ pc.conn.party.proved, pubKeyToID P key = id) ∧ ∀ addr ∈ pc.dialed, id = addr.ID

instance (P : Primitives) (id : NodeID) (pc : PeerConn) : Decidable (Authenticated P id pc) :=
  inferInstanceAs (Decidable (_ ∧ _))

variable {pc : PeerConn} {attempt : Attempt}

/-- A switch without peers goes on with the attempt over this connection. -/
def Attempt.Opens (cfg : SwitchConfig) (attempt : Attempt) (pc : PeerConn) : Prop :=
  attempt.ignored cfg Slots.empty = false ∧ attempt.peerConn cfg = some pc

/-- The checks of `addPeer` that look at no other peer. -/
structure Admissible (cfg : SwitchConfig) (conn : Conn) (info : NodeInfo) : Prop where
  addrAllowed : conn.addrAllowed = true
  nodeInfo : conn.nodeInfo = some info
  valid : info.validate cfg.net conn.lookups.1 = .ok ()
  notSelf : cfg.nodeID ≠ info.ID
  address : cfg.allowDuplicateIP = true ∨ (info.netAddress cfg.net conn.lookups.2).isSome
  idAllowed : conn.idAllowed = true
  compatible : cfg.nodeInfo.compatibleWith info = .ok ()

variable {cfg : SwitchConfig}

theorem identify_eq_ok_iff {conn : Conn} {info : NodeInfo} : identify cfg conn = some (.ok info) ↔
    conn.addrAllowed = true ∧ conn.nodeInfo = some info ∧ info.validate cfg.net conn.lookups.1 = .ok () ∧
    cfg.nodeID ≠ info.ID := by
  unfold identify
  cases hallowed : conn.addrAllowed with
  | false => simp
  | true =>
    cases hinfo : conn.nodeInfo with
    | none => simp
    | some got =>
      simp only [Bool.not_true, Bool.false_eq_true, if_false, Option.some.injEq, true_and]
      cases hvalid : got.validate cfg.net conn.lookups.1 with
      | error err =>
        constructor
        · simp
        · rintro ⟨rfl, h, _⟩
          rw [hvalid] at h
          cases h
      | ok _ =>
        by_cases hself : cfg.nodeID = got.ID
        · simp only [hself, if_true]
          constructor
          · intro h
            split_ifs at h
            simp at h
          · rintro ⟨rfl, _, h⟩
            exact absurd rfl h
        · simp only [hself, if_false, Option.some.injEq, Except.ok.injEq]
          constructor
          · rintro rfl
            exact ⟨rfl, hvalid, hself⟩
          · exact fun h => h.1

/-! ## What a call has checked -/

/-- What a call of `addPeer` has checked where it stands. -/
def AddPoint.Passed (cfg : SwitchConfig) (pc : PeerConn) : AddPoint → Prop
  | .hasID => True
  | .hasRemoteIP info => identify cfg pc.conn = some (.ok info)
  | .hasListenIP info => identify cfg pc.conn = some (.ok info)
  | .start info => identify cfg pc.conn = some (.ok info) ∧
      (cfg.allowDuplicateIP = true ∨ (info.netAddress cfg.net pc.conn.lookups.2).isSome)
  | .inform peer _ => peer.pc = pc ∧ Admissible cfg pc.conn peer.nodeInfo
  | .add peer => peer.pc = pc ∧ Admissible cfg pc.conn peer.nodeInfo
  | .returned _ => True

theorem AddCall.next_passed {sw : Switch} {serial choice : Nat} {call : AddCall} {next : AddPoint}
    (hpassed : call.point.Passed cfg call.pc) (h : call.next cfg sw serial choice = some next) :
    next.Passed cfg call.pc := by
  obtain ⟨pc, point⟩ := call
  cases point with
  | hasID =>
    obtain ⟨result, hresult, rfl⟩ := map_eq_some_iff.1 h
    cases result with
    | error err => trivial
    | ok info =>
      simp only
      split_ifs with hhas hdup
      · trivial
      · exact ⟨hresult, .inl hdup⟩
      · exact hresult
  | hasRemoteIP info =>
    cases h
    split_ifs
    · trivial
    · exact hpassed
  | hasListenIP info =>
    obtain ⟨addr, haddr, rfl⟩ := map_eq_some_iff.1 h
    split_ifs
    · trivial
    · exact ⟨hpassed, .inr (by rw [haddr]; rfl)⟩
  | start info =>
    obtain ⟨hidentify, haddress⟩ := hpassed
    obtain ⟨hallowed, hinfo, hvalid, hself⟩ := identify_eq_ok_iff.1 hidentify
    cases hid : pc.conn.idAllowed with
    | false =>
      simp only [AddCall.next, hid, Bool.not_false, if_true, Option.some.injEq] at h
      subst h
      trivial
    | true =>
      simp only [AddCall.next, hid, Bool.not_true, Bool.false_eq_true, if_false] at h
      cases hcompatible : cfg.nodeInfo.compatibleWith info with
      | error err =>
        rw [hcompatible] at h
        cases h
        trivial
      | ok _ =>
        rw [hcompatible] at h
        cases h
        have hadmissible : Admissible cfg pc.conn info := ⟨hallowed, hinfo, hvalid, hself, haddress, hid, hcompatible⟩
        split_ifs
        · exact ⟨rfl, hadmissible⟩
        · exact ⟨rfl, hadmissible⟩
  | inform peer left =>
    cases left with
    | nil | cons r left =>
      cases h
      exact hpassed
  | add peer | returned err =>
    cases h
    trivial

/-- All calls and peers come from attempts that were let in. -/
structure Admitted (cfg : SwitchConfig) (attempts : Set Attempt) (sw : Switch) : Prop where
  calls : ∀ call ∈ sw.adding, (∃ attempt ∈ attempts, attempt.Opens cfg call.pc) ∧ call.point.Passed cfg call.pc
  peers : ∀ peer ∈ sw.peers.list, (∃ attempt ∈ attempts, attempt.Opens cfg peer.pc) ∧
    Admissible cfg peer.pc.conn peer.nodeInfo

/-- An inbound connection that is let in among peers is let in without any. -/
theorem Attempt.ignored_empty {peers : PeerSet} (h : attempt.ignored cfg peers = false) :
    attempt.ignored cfg Slots.empty = false := by
  cases attempt with
  | inbound conn =>
    simp only [ignored, decide_eq_false_iff_not, not_le] at h ⊢
    have hsize : PeerSet.size Slots.empty = 0 := rfl
    omega
  | outbound addr persistent dialed => rfl

theorem Admitted.step {attempts : Set Attempt} {sw sw' : Switch} {event : SwitchEvent} (h : Admitted cfg attempts sw)
    (hevent : ∀ attempt, event = .connect attempt → attempt ∈ attempts) (hstep : sw.step cfg event = some sw') :
    Admitted cfg attempts sw' where
  calls := by
    intro call' hcall'
    rcases Switch.step_adding hstep hcall' with hold | ⟨attempt, hconnect, hignored, hpc, hpoint⟩ |
      ⟨i, choice, call, hcall, hnext, hpc⟩
    · exact h.calls call' hold
    · refine ⟨⟨attempt, hevent attempt hconnect, Attempt.ignored_empty hignored, hpc⟩, ?_⟩
      rw [hpoint]
      trivial
    · obtain ⟨hopens, hpassed⟩ := h.calls call hcall
      rw [hpc]
      exact ⟨hopens, AddCall.next_passed hpassed hnext⟩
  peers := by
    intro peer hpeer
    rcases Switch.step_peers hstep hpeer with hold | ⟨call, hcall, hpoint⟩
    · exact h.peers peer hold
    · obtain ⟨hopens, hpassed⟩ := h.calls call hcall
      rw [hpoint] at hpassed
      rw [hpassed.1]
      exact ⟨hopens, hpassed.2⟩

theorem Admitted.run {attempts : Set Attempt} {events : List SwitchEvent} {sw : Switch}
    (hevents : ∀ attempt, SwitchEvent.connect attempt ∈ events → attempt ∈ attempts)
    (h : switchRun cfg events = some sw) :
    Admitted cfg attempts sw := by
  have hnew : Admitted cfg attempts (newSwitch cfg) := ⟨by simp [newSwitch], by simp [newSwitch, Slots.empty]⟩
  have hQ : ∀ event ∈ events, ∀ attempt, event = .connect attempt → attempt ∈ attempts := by
    rintro event hevent attempt rfl
    exact hevents attempt hevent
  exact switchRun_invariant hnew (fun _ _ _ hI hevent hstep => hI.step hevent hstep) hQ h

/-! ## A single connection -/

/-- A state without peers and with a single call of `addPeer`, before the point. -/
def Reaches (cfg : SwitchConfig) (attempts : Set Attempt) (call : AddCall) : Prop :=
  ∃ events sw, (∀ attempt, SwitchEvent.connect attempt ∈ events → attempt ∈ attempts) ∧ switchRun cfg events = some sw ∧
    sw.running = true ∧ sw.peers = Slots.empty ∧ sw.adding = [call]

theorem switchRun_concat (cfg : SwitchConfig) (events : List SwitchEvent) (event : SwitchEvent) :
    switchRun cfg (events ++ [event]) = (switchRun cfg events).bind fun sw => sw.step cfg event := by
  rw [switchRun, foldl_append]
  rfl

variable {attempts : Set Attempt}

theorem Reaches.connect (hmem : attempt ∈ attempts) (hopens : attempt.Opens cfg pc) :
    Reaches cfg attempts ⟨pc, .hasID⟩ := by
  refine ⟨[.connect attempt], { newSwitch cfg with adding := [⟨pc, .hasID⟩] }, ?_, ?_, rfl, rfl, rfl⟩
  · intro a ha
    cases mem_singleton.1 ha
    exact hmem
  · have hconnect : (newSwitch cfg).connect cfg attempt = { newSwitch cfg with adding := [⟨pc, .hasID⟩] } := by
      have hignored : attempt.ignored cfg (newSwitch cfg).peers = false := hopens.1
      rw [Switch.connect, hignored, hopens.2]
      rfl
    exact congrArg some hconnect

theorem Switch.perform_keeps (sw : Switch) (choice : Nat) {point : AddPoint} (next : AddPoint)
    (h : ∀ peer, point ≠ .add peer) :
    (sw.perform choice point next).peers = sw.peers ∧ (sw.perform choice point next).running = sw.running := by
  unfold perform
  split
  case h_3 => split <;> exact ⟨rfl, rfl⟩
  case h_4 => exact absurd rfl (h _)
  all_goals exact ⟨rfl, rfl⟩

theorem Reaches.advance {point next : AddPoint} (h : Reaches cfg attempts ⟨pc, point⟩)
    (hpoint : ∀ peer, point ≠ .add peer)
    (hnext : ∀ sw : Switch, sw.running = true → sw.peers = Slots.empty →
      AddCall.next cfg sw 0 0 ⟨pc, point⟩ = some next) :
    Reaches cfg attempts ⟨pc, next⟩ := by
  obtain ⟨events, sw, hevents, hrun, hrunning, hpeers, hadding⟩ := h
  obtain ⟨hkeep, hstill⟩ := sw.perform_keeps 0 next hpoint
  refine ⟨events ++ [.advance 0 0], { sw.perform 0 point next with adding := [⟨pc, next⟩] }, ?_, ?_, ?_, ?_, rfl⟩
  · intro attempt hattempt
    simp only [mem_append, mem_singleton, reduceCtorEq, or_false] at hattempt
    exact hevents attempt hattempt
  · have hstep : sw.advance cfg 0 0 = some { sw.perform 0 point next with adding := [⟨pc, next⟩] } := by
      simp [Switch.advance, hadding, hnext sw hrunning hpeers]
    rw [switchRun_concat, hrun]
    exact hstep
  · exact hstill.trans hrunning
  · exact hkeep.trans hpeers

theorem Reaches.inform {peer : Peer} (left : List Nat) (h : Reaches cfg attempts ⟨pc, .inform peer left⟩) :
    Reaches cfg attempts ⟨pc, .add peer⟩ := by
  induction left with
  | nil => exact h.advance (by simp) fun _ _ _ => rfl
  | cons r left ih =>
    apply ih
    exact h.advance (by simp) fun _ _ _ => by simp [AddCall.next, othersLeft]

theorem Reaches.add {info : NodeInfo} (hmem : attempt ∈ attempts) (hopens : attempt.Opens cfg pc)
    (h : Admissible cfg pc.conn info) :
    Reaches cfg attempts ⟨pc, .add (newPeer pc info 0)⟩ := by
  have hidentify : identify cfg pc.conn = some (.ok info) :=
    identify_eq_ok_iff.2 ⟨h.addrAllowed, h.nodeInfo, h.valid, h.notSelf⟩
  have hstart : Reaches cfg attempts ⟨pc, .start info⟩ := by
    have hfirst := Reaches.connect hmem hopens
    cases hdup : cfg.allowDuplicateIP with
    | true =>
      exact hfirst.advance (by simp) fun sw _ hpeers => by simp [AddCall.next, hidentify, hpeers, PeerSet.has, hdup]
    | false =>
      obtain ⟨addr, haddr⟩ := isSome_iff_exists.1 (h.address.resolve_left (by simp [hdup]))
      have hsecond : Reaches cfg attempts ⟨pc, .hasRemoteIP info⟩ :=
        hfirst.advance (by simp) fun sw _ hpeers => by simp [AddCall.next, hidentify, hpeers, PeerSet.has, hdup]
      have hthird : Reaches cfg attempts ⟨pc, .hasListenIP info⟩ :=
        hsecond.advance (by simp) fun sw _ hpeers => by simp [AddCall.next, hpeers, PeerSet.hasIP, Slots.empty]
      exact hthird.advance (by simp) fun sw _ hpeers => by simp [AddCall.next, haddr, hpeers, PeerSet.hasIP,
        Slots.empty]
  apply Reaches.inform (List.range cfg.reactors)
  exact hstart.advance (by simp) fun sw hrunning _ => by simp [AddCall.next, h.idAllowed, h.compatible, hrunning]

/-! ## All runs -/

theorem exists_run {info : NodeInfo} (hmem : attempt ∈ attempts) (hopens : attempt.Opens cfg pc)
    (hadmissible : Admissible cfg pc.conn info) : ∃ events sw,
      (∀ attempt, SwitchEvent.connect attempt ∈ events → attempt ∈ attempts) ∧ switchRun cfg events = some sw ∧
        sw.peers.get info.ID = some (newPeer pc info 0) := by
  obtain ⟨events, sw, hevents, hrun, hrunning, hpeers, hadding⟩ := Reaches.add hmem hopens hadmissible
  have hnone : sw.peers.get info.ID = none := by rw [hpeers, Slots.get_empty]
  obtain ⟨after, hafter⟩ := isSome_iff_exists.1 (Slots.add_isSome (v := newPeer pc info 0) hnone)
  have hlast : switchRun cfg (events ++ [.advance 0 0]) =
      some { sw with peers := after, adding := [⟨pc, .returned none⟩] } := by
    rw [switchRun_concat, hrun]
    change sw.advance cfg 0 0 = _
    have hhas : sw.peers.has (newPeer pc info 0).ID = false := by
      rw [PeerSet.has, show (newPeer pc info 0).ID = info.ID from rfl, hnone, isSome_none]
    simp [Switch.advance, hadding, AddCall.next, Switch.perform, hhas, hafter]
  refine ⟨_, _, by simpa using hevents, hlast, ?_⟩
  rw [Slots.get_eq_some_iff, (Slots.add_eq_some hafter).2]
  exact ⟨by simp, rfl⟩

/-- The same connection to a party without keys. -/
def Conn.keyless (conn : Conn) : Conn := { conn with party := ⟨[], [], nil_subset _⟩ }

def Attempt.keyless : Attempt → Attempt
  | .inbound conn => .inbound conn.keyless
  | .outbound addr persistent dialed => .outbound addr persistent (dialed.map Conn.keyless)

theorem newPeerConn_keyless {dialed : Option NetAddress} {persistent : Bool} {conn : Conn}
    (h : newPeerConn dialed persistent conn = some pc) :
    newPeerConn dialed persistent conn.keyless = some { pc with conn := pc.conn.keyless } := by
  unfold newPeerConn at h
  split_ifs at h with hdeadline
  cases h
  exact if_pos hdeadline

theorem Attempt.Opens.keyless (h : attempt.Opens cfg pc) :
    attempt.keyless.Opens cfg { pc with conn := pc.conn.keyless } := by
  cases attempt with
  | inbound conn => exact ⟨h.1, newPeerConn_keyless h.2⟩
  | outbound addr persistent dialed =>
    obtain ⟨-, hconn⟩ := h
    simp only [Attempt.peerConn, newOutboundPeerConn] at hconn
    split_ifs at hconn with hfail
    obtain ⟨conn, rfl, hconn⟩ := bind_eq_some_iff.1 hconn
    exact ⟨rfl, (if_neg hfail).trans (newPeerConn_keyless hconn)⟩

/-- In every run the peers are who their ids say exactly if every party that the switch can admit has proved the id it
declares, and answers to the id that was dialed. With any parties at the other end, this is so only where the switch
can admit nobody. -/
theorem peers_authenticated_iff (P : Primitives) (cfg : SwitchConfig) :
    (∀ attempts : Set Attempt,
      (∀ events sw, (∀ attempt, SwitchEvent.connect attempt ∈ events → attempt ∈ attempts) →
        switchRun cfg events = some sw → ∀ id peer, sw.peers.get id = some peer → Authenticated P id peer.pc) ↔
      ∀ attempt ∈ attempts, ∀ pc info, attempt.Opens cfg pc → Admissible cfg pc.conn info →
        Authenticated P info.ID pc) ∧
    ((∀ events sw, switchRun cfg events = some sw →
        ∀ id peer, sw.peers.get id = some peer → Authenticated P id peer.pc) ↔
      ∀ (attempt : Attempt) pc info, attempt.Opens cfg pc → ¬ Admissible cfg pc.conn info) := by
  refine ⟨fun attempts => ⟨?_, ?_⟩, ?_, ?_⟩
  · intro h attempt hmem pc info hopens hadmissible
    obtain ⟨events, sw, hevents, hrun, hget⟩ := exists_run hmem hopens hadmissible
    exact h events sw hevents hrun info.ID _ hget
  · intro h events sw hevents hrun id peer hget
    obtain ⟨hmem, rfl⟩ := Slots.get_eq_some_iff.1 hget
    obtain ⟨⟨attempt, hattempt, hopens⟩, hadmissible⟩ := (Admitted.run hevents hrun).peers peer hmem
    exact h attempt hattempt peer.pc peer.nodeInfo hopens hadmissible
  · intro h attempt pc info hopens hadmissible
    obtain ⟨events, sw, -, hrun, hget⟩ := exists_run (Set.mem_univ _) hopens.keyless
      (show Admissible cfg pc.conn.keyless info from { hadmissible with })
    obtain ⟨⟨key, hkey, -⟩, -⟩ := h events sw hrun info.ID _ hget
    exact not_mem_nil hkey
  · intro h events sw hrun id peer hget
    obtain ⟨hmem, rfl⟩ := Slots.get_eq_some_iff.1 hget
    have hadmitted : Admitted cfg Set.univ sw := .run (fun _ _ => Set.mem_univ _) hrun
    obtain ⟨⟨attempt, -, hopens⟩, hadmissible⟩ := hadmitted.peers peer hmem
    exact absurd hadmissible (h attempt _ _ hopens)

/-! ## Impostors -/

namespace Impostor

/-- `SplitHostPort` of a text with one colon, and no host that is a number. -/
def net : NetLib where
  splitHostPort addr :=
    match addr.splitOn 58 with
    | [host, port] => some (host, port)
    | _ => none
  parseIP _ := none

def idOf (b : UInt8) : NodeID := pubKeyToID .transparent (.ed25519 [b])

def info (id : NodeID) : NodeInfo where
  ID := id
  listenAddr := ascii ":26656"
  network := ascii "dmc"
  version := ascii "0.0.1"
  channels := [64]
  moniker := ascii "node"
  other := []

def node : SwitchConfig where
  net := net
  maxNumPeers := 50
  allowDuplicateIP := true
  testDialFail := false
  nodeInfo := info (idOf 1)
  nodeID := idOf 1
  addrBook := false
  reactors := 2

def conn (party : Party) (id : NodeID) : Conn where
  party := party
  remoteIP := [10, 0, 0, 1]
  deadline := true
  addrAllowed := true
  nodeInfo := some (info id)
  lookups := (none, none)
  idAllowed := true

/-- A party without any key. -/
def nobody : Party := ⟨[], [], by simp⟩

/-- A party that has the key 3 and has proved it. -/
def third : Party := ⟨[.ed25519 [3]], [.ed25519 [3]], by simp⟩

/-- An attempt and its call of `addPeer`, with nothing in between. -/
def joins (attempt : Attempt) : List SwitchEvent := .connect attempt :: List.replicate 6 (.advance 0 0)

/-- The party without a key says that it is the owner of the key 2. -/
def pretends : List SwitchEvent := joins (.inbound (conn nobody (idOf 2)))

/-- The owner of the key 3 answers where the owner of the key 2 was dialed. -/
def misdialed : List SwitchEvent := joins (.outbound ⟨idOf 2, [10, 0, 0, 1], 26656⟩ false (some (conn third (idOf 3))))

end Impostor

open Impostor in
/-- A party without a key is added under the id of another's, and one that was dialed under another id. -/
theorem impostors_added :
    (∃ sw peer, switchRun node pretends = some sw ∧ sw.peers.get (idOf 2) = some peer ∧ peer.pc.conn.party.keys = [] ∧
      ¬ Authenticated .transparent (idOf 2) peer.pc) ∧
    ∃ sw peer addr, switchRun node misdialed = some sw ∧ sw.peers.get (idOf 3) = some peer ∧
      peer.pc.dialed = some addr ∧
      addr.ID = idOf 2 ∧ ¬ Authenticated .transparent (idOf 3) peer.pc := by
  refine ⟨⟨(switchRun node pretends).get (by decide +kernel),
    ⟨⟨false, false, conn nobody (idOf 2), none⟩, info (idOf 2), 0⟩,
    (some_get _).symm, by decide +kernel, rfl, by decide +kernel⟩, ?_⟩
  exact ⟨(switchRun node misdialed).get (by decide +kernel),
    ⟨⟨true, false, conn third (idOf 3), some ⟨idOf 2, [10, 0, 0, 1], 26656⟩⟩, info (idOf 3), 0⟩,
      ⟨idOf 2, [10, 0, 0, 1], 26656⟩,
    (some_get _).symm, by decide +kernel, rfl, rfl, by decide +kernel⟩

end Demars.P2P
