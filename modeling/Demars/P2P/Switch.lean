import Demars.Lib.Runs
import Demars.Lib.Slots
import Demars.P2P.NodeInfo

/-!
# The switch

`p2p/switch.go`, `p2p/peer.go` and `p2p/peer_set.go`. What a goroutine of `addPeer` or `StopPeerForError` does from
one lock of the peer set, or one call of a reactor, to the next is one step of the switch (`SwitchEvent`), so a
list of events is an interleaving of all of them. A `panic` ends the process (`none`).
-/

namespace Demars.P2P

open List Option

/-! ## Connections and peers -/

/-- The other end of a connection: the public keys of the private keys that it has, and of those that it has proved.
The switch sees neither. -/
structure Party where
  keys : List PubKey
  proved : List PubKey
  proved_subset : proved ⊆ keys
deriving DecidableEq

structure Conn where
  party : Party
  remoteIP : Bytes
  /-- whether `newPeerConn` can set the deadline -/
  deadline : Bool
  /-- what `FilterConnByAddr` answers -/
  addrAllowed : Bool
  /-- what `HandshakeTimeout` reads, if it succeeds -/
  nodeInfo : Option NodeInfo
  /-- what the resolver finds for the host of the listening address, in `Validate` and in `NetAddress` -/
  lookups : Option Bytes × Option Bytes
  /-- what `FilterConnByID` answers -/
  idAllowed : Bool
deriving DecidableEq

/-- `peerConn`. The address that was dialed is a record of the run. -/
structure PeerConn where
  outbound : Bool
  persistent : Bool
  conn : Conn
  dialed : Option NetAddress
deriving DecidableEq

/-- `peer`. Two peers may have one id, so each has the number of the call that made it. -/
structure Peer where
  pc : PeerConn
  nodeInfo : NodeInfo
  serial : Nat
deriving DecidableEq

def Peer.ID (peer : Peer) : NodeID := peer.nodeInfo.ID

/-- `PeerSet`: the map `lookup` is the index of the list. -/
abbrev PeerSet := Slots Peer.ID

namespace PeerSet

def has (ps : PeerSet) (peerKey : NodeID) : Bool := (ps.get peerKey).isSome

def hasIP (ps : PeerSet) (peerIP : Bytes) : Bool :=
  ps.index.entries.any fun item => ipEqual item.2.1.pc.conn.remoteIP peerIP

def size (ps : PeerSet) : Nat := ps.list.length

end PeerSet

/-! ## Connecting -/

/-- The fields of the switch that no call changes. -/
structure SwitchConfig where
  net : NetLib
  maxNumPeers : Int
  allowDuplicateIP : Bool
  testDialFail : Bool
  nodeInfo : NodeInfo
  /-- `nodeKey.ID()` -/
  nodeID : NodeID
  /-- whether there is an address book -/
  addrBook : Bool
  /-- the number of reactors -/
  reactors : Nat

def defaultMinNumOutboundPeers : Int := 10

/-- `newPeerConn`: the connection is neither encrypted nor authenticated. -/
def newPeerConn (dialed : Option NetAddress) (persistent : Bool) (conn : Conn) : Option PeerConn :=
  if conn.deadline then some ⟨dialed.isSome, persistent, conn, dialed⟩ else none

def newInboundPeerConn (conn : Conn) : Option PeerConn := newPeerConn none false conn

def newOutboundPeerConn (cfg : SwitchConfig) (addr : NetAddress) (persistent : Bool) (dialed : Option Conn) :
    Option PeerConn :=
  if cfg.testDialFail then none else dialed.bind (newPeerConn (some addr) persistent)

/-- A connection that a listener hands out, or one that is dialed. -/
inductive Attempt
  | inbound (conn : Conn)
  | outbound (addr : NetAddress) (persistent : Bool) (dialed : Option Conn)

/-- The beginning of `addInboundPeerWithConfig` and `addOutboundPeerWithConfig`. -/
def Attempt.peerConn (cfg : SwitchConfig) : Attempt → Option PeerConn
  | .inbound conn => newInboundPeerConn conn
  | .outbound addr persistent dialed => newOutboundPeerConn cfg addr persistent dialed

/-- The test of `listenerRoutine` for enough peers. -/
def Attempt.ignored (cfg : SwitchConfig) (peers : PeerSet) : Attempt → Bool
  | .inbound _ => cfg.maxNumPeers - defaultMinNumOutboundPeers ≤ peers.size
  | .outbound .. => false

inductive AddPeerError
  | filterAddr
  /-- `Error during handshake` -/
  | handshake
  | nodeInfo (err : NodeInfoError)
  | connectToSelf (addr : NetAddress)
  | duplicatePeerID (id : NodeID)
  | duplicatePeerIP (ip : Bytes)
  | filterID

/-- `addPeer` up to its first look at the peers. Without an address book our own id panics. -/
def identify (cfg : SwitchConfig) (conn : Conn) : Option (Except AddPeerError NodeInfo) :=
  if !conn.addrAllowed then some (.error .filterAddr)
  else
    match conn.nodeInfo with
    | none => some (.error .handshake)
    | some info =>
      match info.validate cfg.net conn.lookups.1 with
      | .error err => some (.error (.nodeInfo err))
      | .ok _ =>
        if cfg.nodeID = info.ID then
          if cfg.addrBook then (info.netAddress cfg.net conn.lookups.2).map fun addr => .error (.connectToSelf addr)
          else none
        else some (.ok info)

/-- Before what a call of `addPeer` stands. -/
inductive AddPoint
  /-- the handshake and `peers.Has` -/
  | hasID
  /-- `peers.HasIP` of the address of the connection -/
  | hasRemoteIP (info : NodeInfo)
  /-- `peers.HasIP` of the listening address -/
  | hasListenIP (info : NodeInfo)
  /-- the last checks and `peer.Start` -/
  | start (info : NodeInfo)
  /-- `reactor.AddPeer`, for the reactors that are left -/
  | inform (peer : Peer) (left : List Nat)
  /-- `peers.Add` -/
  | add (peer : Peer)
  | returned (err : Option AddPeerError)

structure AddCall where
  pc : PeerConn
  point : AddPoint

inductive StopPoint
  /-- `peers.Remove` -/
  | remove
  /-- `peer.Stop` -/
  | stop
  /-- `reactor.RemovePeer`, for the reactors that are left -/
  | inform (left : List Nat)
  | returned
deriving DecidableEq

structure StopCall where
  peer : Peer
  point : StopPoint

/-- `Switch`, with the calls that are under way. -/
structure Switch where
  running : Bool
  peers : PeerSet
  /-- the calls of `addPeer`, also those that returned -/
  adding : List AddCall
  stopping : List StopCall
  /-- the peers that were made -/
  made : List Peer
  /-- the numbers of the peers that run -/
  live : List Nat
  /-- for each reactor the numbers of the peers that it has -/
  reactors : List (List Nat)

def newSwitch (cfg : SwitchConfig) : Switch where
  running := true
  peers := Slots.empty
  adding := []
  stopping := []
  made := []
  live := []
  reactors := List.replicate cfg.reactors []

/-! ## Steps -/

def newPeer (pc : PeerConn) (nodeInfo : NodeInfo) (serial : Nat) : Peer := ⟨pc, nodeInfo, serial⟩

/-- The reactors that are left after one of them, in any order of the map. -/
def othersLeft (choice : Nat) (left : List Nat) : List Nat := left.eraseIdx (choice % left.length)

/-- Where a call of `addPeer` goes on; `none` where it panics. -/
def AddCall.next (cfg : SwitchConfig) (sw : Switch) (serial choice : Nat) (call : AddCall) : Option AddPoint :=
  match call.point with
  | .hasID =>
    (identify cfg call.pc.conn).map fun
      | .error err => .returned (some err)
      | .ok info =>
        if sw.peers.has info.ID then .returned (some (.duplicatePeerID info.ID))
        else if cfg.allowDuplicateIP then .start info
        else .hasRemoteIP info
  | .hasRemoteIP info =>
    some (if sw.peers.hasIP call.pc.conn.remoteIP then .returned (some (.duplicatePeerIP call.pc.conn.remoteIP))
      else .hasListenIP info)
  | .hasListenIP info =>
    (info.netAddress cfg.net call.pc.conn.lookups.2).map fun addr =>
      if sw.peers.hasIP addr.IP then .returned (some (.duplicatePeerIP call.pc.conn.remoteIP)) else .start info
  | .start info =>
    if !call.pc.conn.idAllowed then some (.returned (some .filterID))
    else
      match cfg.nodeInfo.compatibleWith info with
      | .error err => some (.returned (some (.nodeInfo err)))
      | .ok _ =>
        some (if sw.running then .inform (newPeer call.pc info serial) (List.range cfg.reactors)
          else .add (newPeer call.pc info serial))
  | .inform peer [] => some (.add peer)
  | .inform peer left => some (.inform peer (othersLeft choice left))
  | .add peer => some (.returned (if sw.peers.has peer.ID then some (.duplicatePeerID peer.ID) else none))
  | .returned err => some (.returned err)

namespace Switch

def perform (choice : Nat) (point next : AddPoint) (sw : Switch) : Switch :=
  match point, next with
  | .start _, .inform peer _ => { sw with made := sw.made ++ [peer], live := sw.live ++ [peer.serial] }
  | .start _, .add peer => { sw with made := sw.made ++ [peer] }
  | .inform peer left, _ =>
    match left[choice % left.length]? with
    | some r => { sw with reactors := sw.reactors.modify r (peer.serial :: ·) }
    | none => sw
  | .add peer, _ => { sw with peers := (sw.peers.add peer).getD sw.peers }
  | _, _ => sw

def advance (cfg : SwitchConfig) (i choice : Nat) (sw : Switch) : Option Switch :=
  match sw.adding[i]? with
  | none => some sw
  | some call =>
    (call.next cfg sw i choice).map fun next =>
      { sw.perform choice call.point next with adding := sw.adding.set i { call with point := next } }

/-- A connection gets its call of `addPeer`, unless it ends before. -/
def connect (cfg : SwitchConfig) (attempt : Attempt) (sw : Switch) : Switch :=
  if attempt.ignored cfg sw.peers then sw
  else
    match attempt.peerConn cfg with
    | none => sw
    | some pc => { sw with adding := sw.adding ++ [⟨pc, .hasID⟩] }

/-- `StopPeerForError` or `StopPeerGracefully`. A persistent peer is then dialed again, as any other. -/
def stopPeer (k : Nat) (sw : Switch) : Switch :=
  match sw.made[k]? with
  | none => sw
  | some peer => { sw with stopping := sw.stopping ++ [⟨peer, .remove⟩] }

def halt (peer : Peer) (sw : Switch) : Switch := { sw with live := sw.live.filter (· ≠ peer.serial) }

def advanceStop (cfg : SwitchConfig) (i choice : Nat) (sw : Switch) : Switch :=
  match sw.stopping[i]? with
  | none => sw
  | some call =>
    let moveTo (point : StopPoint) (sw : Switch) : Switch :=
      { sw with stopping := sw.stopping.set i { call with point := point } }
    match call.point with
    | .remove => moveTo .stop { sw with peers := sw.peers.remove call.peer.ID }
    | .stop => moveTo (.inform (List.range cfg.reactors)) (sw.halt call.peer)
    | .inform left =>
      match left[choice % left.length]? with
      | none => moveTo .returned sw
      | some r =>
        moveTo (.inform (othersLeft choice left))
          { sw with reactors := sw.reactors.modify r (·.filter (· ≠ call.peer.serial)) }
    | .returned => sw

/-- The loop of `OnStop`. -/
def stopPeers (peers : List Peer) (sw : Switch) : Switch :=
  peers.foldl (fun sw peer => { sw.halt peer with peers := sw.peers.remove peer.ID }) sw

def onStop (sw : Switch) : Switch := { sw with running := false }.stopPeers sw.peers.list

end Switch

inductive SwitchEvent
  | connect (attempt : Attempt)
  /-- the `i`th call of `addPeer` goes on -/
  | advance (i choice : Nat)
  /-- the `k`th peer that was made is stopped -/
  | stopPeer (k : Nat)
  /-- the `i`th call of `stopAndRemovePeer` goes on -/
  | advanceStop (i choice : Nat)
  | onStop

/-- The switch after an event; `none` after a panic. -/
def Switch.step (cfg : SwitchConfig) (sw : Switch) : SwitchEvent → Option Switch
  | .connect attempt => some (sw.connect cfg attempt)
  | .advance i choice => sw.advance cfg i choice
  | .stopPeer k => some (sw.stopPeer k)
  | .advanceStop i choice => some (sw.advanceStop cfg i choice)
  | .onStop => some sw.onStop

/-- A process that may have panicked. -/
def switchStep (cfg : SwitchConfig) (process : Option Switch) (event : SwitchEvent) : Option Switch :=
  process.bind fun sw => sw.step cfg event

def switchRun (cfg : SwitchConfig) (events : List SwitchEvent) : Option Switch :=
  events.foldl (switchStep cfg) (some (newSwitch cfg))

/-! ## What a step can do -/

namespace Switch

variable {cfg : SwitchConfig} {sw sw' : Switch} {peer : Peer}

theorem perform_peers {choice : Nat} {point next : AddPoint}
    (h : peer ∈ (sw.perform choice point next).peers.list) : peer ∈ sw.peers.list ∨ point = .add peer := by
  unfold perform at h
  split at h
  case h_3 =>
    split at h
    · exact .inl h
    · exact .inl h
  case h_4 added _ =>
    rcases Slots.mem_list_add h with h | rfl
    · exact .inl h
    · exact .inr rfl
  all_goals exact .inl h

theorem stopPeers_peers (peers : List Peer) :
    ∀ {sw : Switch}, peer ∈ (sw.stopPeers peers).peers.list → peer ∈ sw.peers.list := by
  induction peers with
  | nil => exact id
  | cons first peers ih => exact fun h => (Slots.mem_list_remove.1 (ih h)).1

theorem stopPeers_adding (peers : List Peer) : ∀ sw : Switch, (sw.stopPeers peers).adding = sw.adding := by
  induction peers with
  | nil => exact fun _ => rfl
  | cons first peers ih => exact fun sw => ih _

theorem advanceStop_peers {i choice : Nat} (h : peer ∈ (sw.advanceStop cfg i choice).peers.list) :
    peer ∈ sw.peers.list := by
  unfold advanceStop at h
  split at h
  · exact h
  · split at h
    case h_1 => exact (Slots.mem_list_remove.1 h).1
    case h_3 =>
      split at h
      · exact h
      · exact h
    all_goals exact h

theorem advanceStop_adding (i choice : Nat) : (sw.advanceStop cfg i choice).adding = sw.adding := by
  unfold advanceStop
  split
  · rfl
  · split
    case h_3 => split <;> rfl
    all_goals rfl

/-- Only a call of `addPeer` that stands before `peers.Add` brings a peer. -/
theorem step_peers {event : SwitchEvent} (h : sw.step cfg event = some sw') (hpeer : peer ∈ sw'.peers.list) :
    peer ∈ sw.peers.list ∨ ∃ call ∈ sw.adding, call.point = .add peer := by
  cases event with
  | connect attempt =>
    cases h
    unfold connect at hpeer
    split_ifs at hpeer
    · exact .inl hpeer
    · split at hpeer
      · exact .inl hpeer
      · exact .inl hpeer
  | advance i choice =>
    change sw.advance cfg i choice = some sw' at h
    unfold advance at h
    split at h
    case h_1 =>
      cases h
      exact .inl hpeer
    case h_2 call hcall =>
      obtain ⟨next, _, rfl⟩ := map_eq_some_iff.1 h
      rcases perform_peers hpeer with hold | hnew
      · exact .inl hold
      · exact .inr ⟨call, mem_of_getElem? hcall, hnew⟩
  | stopPeer k =>
    cases h
    unfold stopPeer at hpeer
    split at hpeer
    · exact .inl hpeer
    · exact .inl hpeer
  | advanceStop i choice =>
    cases h
    exact .inl (advanceStop_peers hpeer)
  | onStop =>
    cases h
    have hold := stopPeers_peers _ hpeer
    exact .inl hold

/-- A call of `addPeer` is an old one, one that begins, or one that went on. -/
theorem step_adding {event : SwitchEvent} (h : sw.step cfg event = some sw') {call' : AddCall}
    (hcall' : call' ∈ sw'.adding) :
    call' ∈ sw.adding ∨
      (∃ attempt, event = .connect attempt ∧ attempt.ignored cfg sw.peers = false ∧
        attempt.peerConn cfg = some call'.pc ∧
        call'.point = .hasID) ∨ ∃ i choice, ∃ call ∈ sw.adding, call.next cfg sw i choice = some call'.point ∧
        call'.pc = call.pc := by
  cases event with
  | connect attempt =>
    cases h
    unfold connect at hcall'
    split_ifs at hcall' with hignored
    · exact .inl hcall'
    · split at hcall'
      case h_1 => exact .inl hcall'
      case h_2 pc hpc =>
        rcases mem_append.1 hcall' with hold | hnew
        · exact .inl hold
        · rw [mem_singleton.1 hnew]
          exact .inr (.inl ⟨attempt, rfl, by simpa using hignored, hpc, rfl⟩)
  | advance i choice =>
    change sw.advance cfg i choice = some sw' at h
    unfold advance at h
    split at h
    case h_1 =>
      cases h
      exact .inl hcall'
    case h_2 call hcall =>
      obtain ⟨next, hnext, rfl⟩ := map_eq_some_iff.1 h
      rcases mem_or_eq_of_mem_set hcall' with hold | rfl
      · exact .inl hold
      · exact .inr (.inr ⟨i, choice, call, mem_of_getElem? hcall, hnext, rfl⟩)
  | stopPeer k =>
    cases h
    unfold stopPeer at hcall'
    split at hcall'
    · exact .inl hcall'
    · exact .inl hcall'
  | advanceStop i choice =>
    cases h
    rw [advanceStop_adding] at hcall'
    exact .inl hcall'
  | onStop =>
    cases h
    rw [onStop, stopPeers_adding] at hcall'
    exact .inl hcall'

end Switch

theorem switchRun_invariant {cfg : SwitchConfig} {I : Switch → Prop} {Q : SwitchEvent → Prop} (hnew : I (newSwitch cfg))
    (hstep : ∀ sw sw' event, I sw → Q event → sw.step cfg event = some sw' → I sw') {events : List SwitchEvent}
    (hQ : ∀ event ∈ events, Q event) {sw : Switch} (h : switchRun cfg events = some sw) : I sw := by
  have hprocess : ∀ (process : Option Switch) (event : SwitchEvent), (∀ sw ∈ process, I sw) → Q event →
      ∀ sw' ∈ switchStep cfg process event, I sw' := by
    intro process event hI hevent sw' hsw'
    obtain ⟨before, hbefore, hnext⟩ := bind_eq_some_iff.1 hsw'
    exact hstep before sw' event (hI before hbefore) hevent hnext
  have hstart : ∀ sw ∈ some (newSwitch cfg), I sw := by
    rintro sw ⟨⟩
    exact hnew
  exact Runs.always_of_along hprocess hstart (Runs.Along.of_forall fun event hevent _ => hQ event hevent) events
    prefix_rfl sw h

end Demars.P2P
