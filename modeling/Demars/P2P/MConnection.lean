import Mathlib.Algebra.Order.BigOperators.Group.List
import Demars.Crypto.Keys
import Demars.Lib.Reassembly

/-!
# Messages over one connection

The channels of `p2p/conn/connection.go`: the sender cuts the messages of each channel into packets, the packets of
all channels go over one wire, and the receiver puts them together again in the buffer of their channel. The sender
picks any channel that has something to send; the source takes the one that has sent least for its priority.
-/

namespace Demars.P2P

open Reassembly List Option

structure ChannelDescriptor where
  sendQueueCapacity : Nat
  recvMessageCapacity : Nat

def ChannelDescriptor.fillDefaults (desc : ChannelDescriptor) : ChannelDescriptor where
  sendQueueCapacity := if desc.sendQueueCapacity = 0 then 1 else desc.sendQueueCapacity
  recvMessageCapacity := if desc.recvMessageCapacity = 0 then 22020096 else desc.recvMessageCapacity

structure Channel where
  desc : ChannelDescriptor
  sendQueue : List Bytes
  sending : Bytes
  recving : Bytes

def newChannel (desc : ChannelDescriptor) : Channel := ⟨desc.fillDefaults, [], [], []⟩

structure PacketMsg where
  channelID : UInt8
  eof : UInt8
  bytes : Bytes

/-- The lengths of packets in go-amino: one with at most `n` bytes of payload is at most ten bytes longer than the one
that `maxPacketMsgSize` measures. -/
structure PacketCodec where
  size : PacketMsg → Nat
  size_le : ∀ (packet : PacketMsg) (n : Nat), packet.bytes.length ≤ n → size packet ≤ size ⟨1, 1, replicate n 0⟩ + 10

def PacketCodec.maxPacketMsgSize (C : PacketCodec) (maxPacketMsgPayloadSize : Nat) : Nat :=
  C.size ⟨1, 1, replicate maxPacketMsgPayloadSize 0⟩ + 10

/-- Some bytes around the payload. -/
def PacketCodec.plain : PacketCodec where
  size packet := packet.bytes.length + 3
  size_le packet n h := by
    rw [length_replicate]
    omega

inductive RecvError
  /-- `UnmarshalBinaryReader` reads no packet that is longer than `_maxPacketMsgSize`. -/
  | readOverflow (maxSize size : Nat)
  /-- `Unknown channel %X` -/
  | unknownChannel (id : UInt8)
  /-- `Received message exceeds available capacity: %v < %v` -/
  | exceedsCapacity (recvCap recvReceived : Nat)

namespace Channel

def trySendBytes (ch : Channel) (bytes : Bytes) : Option Channel :=
  if ch.sendQueue.length < ch.desc.sendQueueCapacity then some { ch with sendQueue := ch.sendQueue ++ [bytes] }
  else none

/-- `Channel.isSendPending`, which takes the next message from the queue. -/
def isSendPending (ch : Channel) : Bool × Channel :=
  if ch.sending.isEmpty then
    match ch.sendQueue with
    | [] => (false, ch)
    | bytes :: sendQueue => (true, { ch with sending := bytes, sendQueue })
  else (true, ch)

def nextPacketMsg (maxSize : Nat) (id : UInt8) (ch : Channel) : PacketMsg × Channel :=
  if ch.sending.length ≤ maxSize then (⟨id, 1, ch.sending.take maxSize⟩, { ch with sending := [] })
  else (⟨id, 0, ch.sending.take maxSize⟩, { ch with sending := ch.sending.drop maxSize })

def recvPacketMsg (ch : Channel) (packet : PacketMsg) : Except RecvError (Option Bytes × Channel) :=
  let recvReceived := ch.recving.length + packet.bytes.length
  if ch.desc.recvMessageCapacity < recvReceived then .error (.exceedsCapacity ch.desc.recvMessageCapacity recvReceived)
  else if packet.eof = 1 then .ok (some (ch.recving ++ packet.bytes), { ch with recving := [] })
  else .ok (none, { ch with recving := ch.recving ++ packet.bytes })

end Channel

/-- The channels of an `MConnection`: their ids, which are different, and `channelsIdx`. -/
structure Endpoint where
  ids : List UInt8
  nodup : ids.Nodup
  channel : UInt8 → Channel

def Endpoint.new (ids : List UInt8) (nodup : ids.Nodup) (desc : UInt8 → ChannelDescriptor) : Endpoint :=
  ⟨ids, nodup, fun id => newChannel (desc id)⟩

def Endpoint.set (e : Endpoint) (id : UInt8) (ch : Channel) : Endpoint :=
  { e with channel := Function.update e.channel id ch }

/-- A connection from a sender, with its payload size, to a receiver, with its `_maxPacketMsgSize`, and the packets on
the wire; `queued` and `received` are the messages that `Send` accepted and `onReceive` got. -/
structure Connection where
  maxPacketMsgPayloadSize : Nat
  maxPacketMsgSize : Nat
  sender : Endpoint
  receiver : Endpoint
  wire : List PacketMsg
  queued : List (UInt8 × Bytes)
  received : List (UInt8 × Bytes)
  err : Option RecvError

namespace Connection

def trySend (c : Connection) (chID : UInt8) (msgBytes : Bytes) : Connection :=
  if chID ∈ c.sender.ids then
    match (c.sender.channel chID).trySendBytes msgBytes with
    | none => c
    | some ch =>
      { c with
        sender := c.sender.set chID ch
        queued := c.queued ++ [(chID, msgBytes)] }
  else c

def pending (c : Connection) : List UInt8 := c.sender.ids.filter fun id => (c.sender.channel id).isSendPending.1

/-- The loop of `sendPacketMsg` over the channels. -/
def loaded (c : Connection) : UInt8 → Channel := fun id =>
  if id ∈ c.sender.ids then (c.sender.channel id).isSendPending.2 else c.sender.channel id

def writePacketMsg (c : Connection) (id : UInt8) : Connection :=
  let next := (c.loaded id).nextPacketMsg c.maxPacketMsgPayloadSize id
  { c with
    sender := { c.sender with channel := Function.update c.loaded id next.2 }
    wire := c.wire ++ [next.1] }

/-- `sendPacketMsg`, with the place of the picked channel among those that have something to send. -/
def sendPacketMsg (c : Connection) (pick : Nat) : Connection :=
  match c.pending[pick % c.pending.length]? with
  | none => c
  | some id => c.writePacketMsg id

/-- One turn of `recvRoutine`. -/
def recvPacket (C : PacketCodec) (c : Connection) : Connection :=
  match c.err, c.wire with
  | none, packet :: wire =>
    if c.maxPacketMsgSize < C.size packet then
      { c with wire, err := some (.readOverflow c.maxPacketMsgSize (C.size packet)) }
    else if packet.channelID ∈ c.receiver.ids then
      match (c.receiver.channel packet.channelID).recvPacketMsg packet with
      | .error err => { c with wire, err := some err }
      | .ok (msgBytes, ch) =>
        { c with
          receiver := c.receiver.set packet.channelID ch
          wire
          received := c.received ++ (msgBytes.map fun msgBytes => (packet.channelID, msgBytes)).toList }
    else { c with wire, err := some (.unknownChannel packet.channelID) }
  | _, _ => c

inductive Event
  | send (chID : UInt8) (msgBytes : Bytes)
  | packet (pick : Nat)
  | recv

def step (C : PacketCodec) (c : Connection) : Event → Connection
  | .send chID msgBytes => c.trySend chID msgBytes
  | .packet pick => c.sendPacketMsg pick
  | .recv => c.recvPacket C

def run (C : PacketCodec) (c : Connection) (events : List Event) : Connection := events.foldl (step C) c

/-- A connection between two nodes with the given `MaxPacketMsgPayloadSize`s. -/
def new (C : PacketCodec) (sends receives : Nat) (sender receiver : Endpoint) : Connection :=
  ⟨sends, C.maxPacketMsgSize receives, sender, receiver, [], [], [], none⟩

def ofChannel (id : UInt8) (log : List (UInt8 × Bytes)) : List Bytes :=
  (log.filter fun entry => entry.1 = id).map Prod.snd

def lane (c : Connection) (id : UInt8) : Lane UInt8 where
  queue := (c.sender.channel id).sendQueue
  sending := (c.sender.channel id).sending
  flying := (c.wire.filter fun packet => packet.channelID = id).map fun packet =>
    (packet.bytes, decide (packet.eof = 1))
  recving := (c.receiver.channel id).recving

variable {C : PacketCodec} {c : Connection}

theorem ofChannel_append (id : UInt8) (log log' : List (UInt8 × Bytes)) :
    ofChannel id (log ++ log') = ofChannel id log ++ ofChannel id log' := by
  rw [ofChannel, filter_append, map_append]
  rfl

theorem ofChannel_singleton (id id' : UInt8) (m : Bytes) : ofChannel id [(id', m)] = if id' = id then [m] else [] := by
  by_cases h : id' = id <;> simp [ofChannel, h]

variable {id : UInt8} {c' : Connection}

theorem mem_ofChannel {log : List (UInt8 × Bytes)} {m : Bytes} : m ∈ ofChannel id log ↔ (id, m) ∈ log := by
  simp only [ofChannel, List.mem_map, mem_filter, decide_eq_true_eq]
  constructor
  · rintro ⟨⟨id', m'⟩, ⟨hmem, rfl⟩, rfl⟩
    exact hmem
  · exact fun hmem => ⟨(id, m), ⟨hmem, rfl⟩, rfl⟩

/-! ## The steps on a lane -/

theorem lane_loaded (c : Connection) (id : UInt8) (hid : id ∈ c.sender.ids) :
    { c.lane id with queue := (c.loaded id).sendQueue, sending := (c.loaded id).sending } = (c.lane id).load := by
  unfold loaded lane Lane.load Channel.isSendPending
  split_ifs with hsending
  · cases hqueue : (c.sender.channel id).sendQueue with
    | nil => simp [hqueue]
    | cons m queue => rfl
  · rfl

theorem nextPacketMsg_eq (n : Nat) (id : UInt8) (ch : Channel) : ch.nextPacketMsg n id =
      (⟨id, if ch.sending.length ≤ n then 1 else 0, ch.sending.take n⟩, { ch with sending := ch.sending.drop n }) := by
  unfold Channel.nextPacketMsg
  split_ifs with hlast
  · rw [drop_of_length_le hlast]
  · rfl

theorem trySend_cases (c : Connection) (chID : UInt8) (msgBytes : Bytes) :
    c.trySend chID msgBytes = c ∨ ∃ ch : Channel, chID ∈ c.sender.ids ∧
      c.trySend chID msgBytes = { c with sender := c.sender.set chID ch, queued := c.queued ++ [(chID, msgBytes)] } ∧
      ∀ id, (c.trySend chID msgBytes).lane id = if id = chID then (c.lane id).enqueue msgBytes else c.lane id := by
  unfold trySend Channel.trySendBytes
  split_ifs with hknown hroom
  · refine .inr ⟨_, hknown, rfl, fun id => ?_⟩
    by_cases heq : id = chID
    · subst heq
      simp [lane, Lane.enqueue, Endpoint.set]
    · simp [lane, heq, Endpoint.set]
  · exact .inl rfl
  · exact .inl rfl

theorem sendPacketMsg_cases (c : Connection) (pick : Nat) :
    (c.pending = [] ∧ c.sendPacketMsg pick = c) ∨ ∃ id ∈ c.pending, c.sendPacketMsg pick = c.writePacketMsg id := by
  unfold sendPacketMsg
  cases hpick : c.pending[pick % c.pending.length]? with
  | none =>
    left
    refine ⟨?_, rfl⟩
    by_contra hne
    have hlt := Nat.mod_lt pick (length_pos_of_ne_nil hne)
    rw [getElem?_eq_getElem hlt] at hpick
    cases hpick
  | some id => exact .inr ⟨id, mem_of_getElem? hpick, rfl⟩

theorem lane_writePacketMsg (c : Connection) (hid : id ∈ c.sender.ids) (id' : UInt8) : (c.writePacketMsg id).lane id' =
      if id' = id then (c.lane id').load.emit c.maxPacketMsgPayloadSize
      else if id' ∈ c.sender.ids then (c.lane id').load else c.lane id' := by
  unfold writePacketMsg
  rw [nextPacketMsg_eq]
  by_cases heq : id' = id
  · subst heq
    rw [← lane_loaded c id' hid]
    simp only [lane, Lane.emit]
    by_cases hlast : (c.loaded id').sending.length ≤ c.maxPacketMsgPayloadSize <;> simp
  · rw [if_neg heq]
    by_cases hknown : id' ∈ c.sender.ids
    · rw [if_pos hknown, ← lane_loaded c id' hknown]
      simp [lane, Function.update_of_ne heq, Ne.symm heq]
    · simp [lane, Function.update_of_ne heq, Ne.symm heq, loaded, hknown]

/-! ## The invariant -/

def Fits (c : Connection) : Prop :=
  ∀ entry ∈ c.queued, entry.2 ≠ [] ∧ entry.1 ∈ c.receiver.ids ∧
    entry.2.length ≤ (c.receiver.channel entry.1).desc.recvMessageCapacity

/-- Nothing is lost between `Send` and `onReceive`. -/
structure Inv (C : PacketCodec) (c : Connection) : Prop where
  small : ∀ packet : PacketMsg, packet.bytes.length ≤ c.maxPacketMsgPayloadSize → C.size packet ≤ c.maxPacketMsgSize
  err : c.err = none
  toCome : ∀ id, ofChannel id c.received ++ (c.lane id).toCome = ofChannel id c.queued
  aligned : ∀ id, (c.lane id).Aligned
  wire : ∀ packet ∈ c.wire, packet.channelID ∈ c.receiver.ids ∧ C.size packet ≤ c.maxPacketMsgSize
  unknown : ∀ id ∉ c.sender.ids, (c.lane id).queue = [] ∧ (c.lane id).sending = []

theorem Inv.mem_queued (h : c.Inv C) {m : Bytes} (hm : m ∈ (c.lane id).toCome) : (id, m) ∈ c.queued := by
  rw [← mem_ofChannel, ← h.toCome id]
  exact mem_append_right _ hm

theorem Inv.ne_nil (h : c.Inv C) (hfits : c.Fits) : ∀ m ∈ (c.lane id).queue, m ≠ [] := by
  intro m hm
  refine (hfits _ (h.mem_queued ?_ : (id, m) ∈ c.queued)).1
  exact mem_append_right _ (mem_append_right _ hm)

theorem Inv.of_pending (h : c.Inv C) (hfits : c.Fits) (hid : id ∈ c.pending) :
    id ∈ c.sender.ids ∧ (c.lane id).load.sending ≠ [] ∧ ∃ m, (id, m) ∈ c.queued := by
  obtain ⟨hknown, hpending⟩ := mem_filter.1 hid
  have hne : ∀ m ∈ (c.lane id).queue, m ≠ [] := h.ne_nil hfits
  have hsending : (c.lane id).load.sending ≠ [] := by
    unfold Channel.isSendPending at hpending
    unfold Lane.load
    split_ifs with hempty
    · rw [if_pos (show (c.sender.channel id).sending.isEmpty = true from hempty)] at hpending
      cases hqueue : (c.lane id).queue with
      | nil =>
        rw [show (c.sender.channel id).sendQueue = [] from hqueue] at hpending
        cases hpending
      | cons m queue => exact hne m (by simp [hqueue])
    · exact fun hnil => hempty (by rw [hnil]; rfl)
  refine ⟨hknown, hsending, ?_⟩
  have hmem : (assemble (c.lane id).load.recving (c.lane id).load.flying).2 ++ (c.lane id).load.sending ∈
    (c.lane id).load.toCome := by
    simp [Lane.toCome, hsending]
  rw [Lane.toCome_load (h.aligned id) hne] at hmem
  exact ⟨_, h.mem_queued hmem⟩

theorem Inv.trySend (h : c.Inv C) (chID : UInt8) (msgBytes : Bytes) : (c.trySend chID msgBytes).Inv C := by
  rcases trySend_cases c chID msgBytes with hsame | ⟨ch, hknown, hsame, hlane⟩
  · rw [hsame]
    exact h
  · rw [hsame] at hlane ⊢
    refine ⟨h.small, h.err, fun id => ?_, fun id => ?_, h.wire, fun id hid => ?_⟩
    · rw [hlane id, ofChannel_append, ofChannel_singleton, ← h.toCome id]
      by_cases heq : id = chID
      · rw [if_pos heq, if_pos heq.symm, Lane.toCome_enqueue, append_assoc]
      · rw [if_neg heq, if_neg (Ne.symm heq), append_nil]
    · rw [hlane id]
      split_ifs
      · exact (h.aligned id).enqueue msgBytes
      · exact h.aligned id
    · have heq : id ≠ chID := fun heq => hid (heq ▸ hknown)
      rw [hlane id, if_neg heq]
      exact h.unknown id hid

theorem Inv.writePacketMsg (h : c.Inv C) (hfits : c.Fits) (hid : id ∈ c.pending) : (c.writePacketMsg id).Inv C := by
  obtain ⟨hknown, hsending, m, hm⟩ := h.of_pending hfits hid
  have hlane := lane_writePacketMsg c hknown
  refine ⟨h.small, h.err, fun id' => ?_, fun id' => ?_, fun packet hpacket => ?_, fun id' hid' => ?_⟩
  · rw [hlane id', show (c.writePacketMsg id).received = c.received from rfl,
      show (c.writePacketMsg id).queued = c.queued from rfl, ← h.toCome id']
    congr 1
    split_ifs with heq hknown'
    · subst heq
      rw [Lane.toCome_emit hsending, Lane.toCome_load (h.aligned id') (h.ne_nil hfits)]
    · exact Lane.toCome_load (h.aligned id') (h.ne_nil hfits)
    · rfl
  · rw [hlane id']
    split_ifs
    · exact Lane.aligned_emit _ _
    · exact (h.aligned id').load (h.ne_nil hfits)
    · exact h.aligned id'
  · rcases mem_append.1 hpacket with hold | hnew
    · exact h.wire packet hold
    · rw [mem_singleton.1 hnew, nextPacketMsg_eq]
      exact ⟨(hfits _ hm).2.1, h.small _ (length_take_le _ _)⟩
  · have hid' : id' ∉ c.sender.ids := hid'
    have heq : id' ≠ id := fun heq => hid' (heq ▸ hknown)
    rw [hlane id', if_neg heq, if_neg hid']
    exact h.unknown id' hid'

theorem Inv.recvPacket_eq (h : c.Inv C) (hfits : c.Fits) {packet : PacketMsg} {wire : List PacketMsg}
    (hwire : c.wire = packet :: wire) :
    (∀ id, (c.recvPacket C).lane id = if id = packet.channelID then (c.lane id).absorb.2 else c.lane id) ∧
      (∀ id, ofChannel id (c.recvPacket C).received = ofChannel id c.received ++
        if id = packet.channelID then (c.lane id).absorb.1 else []) ∧
      (c.recvPacket C).err = none ∧ (c.recvPacket C).wire = wire := by
  obtain ⟨hknown, hsize⟩ := h.wire packet (by rw [hwire]; exact mem_cons_self)
  have hflying : (c.lane packet.channelID).flying = (packet.bytes, decide (packet.eof = 1)) ::
      (wire.filter fun other => other.channelID = packet.channelID).map fun other =>
        (other.bytes, decide (other.eof = 1)) := by
    simp [lane, hwire]
  have hroom : ((c.lane packet.channelID).recving ++ packet.bytes).length ≤
      (c.receiver.channel packet.channelID).desc.recvMessageCapacity :=
    (h.aligned packet.channelID).length_le (fun m hm => (hfits _ (h.mem_queued hm)).2.2) hflying
  rw [length_append] at hroom
  have hcapacity : ¬ (c.receiver.channel packet.channelID).desc.recvMessageCapacity <
      (c.receiver.channel packet.channelID).recving.length + packet.bytes.length := not_lt.2 hroom
  have habsorb : ∀ ch : Channel, ∀ id,
    ({ c with receiver := c.receiver.set packet.channelID ch, wire } : Connection).lane id =
      if id = packet.channelID then
        { c.lane id with flying := (c.lane id).flying.tail, recving := ch.recving }
      else c.lane id := by
    intro ch id
    by_cases heq : id = packet.channelID
    · subst heq
      simp [lane, Endpoint.set, hwire]
    · simp [lane, Endpoint.set, hwire, heq, Ne.symm heq]
  unfold recvPacket Channel.recvPacketMsg
  rw [h.err, hwire]
  dsimp only
  rw [if_neg (not_lt.2 hsize), if_pos hknown, if_neg hcapacity]
  by_cases hlast : packet.eof = 1
  · rw [decide_eq_true hlast] at hflying
    rw [if_pos hlast]
    refine ⟨fun id => (habsorb _ id).trans ?_, fun id => ?_, rfl, rfl⟩
    · split_ifs with heq
      · rw [heq, Lane.absorb, hflying]
        rfl
      · rfl
    · rw [ofChannel_append, map_some, toList_some, ofChannel_singleton]
      split_ifs with heq hne hne
      · rw [← heq, Lane.absorb, hflying]
        rfl
      · exact absurd heq.symm hne
      · exact absurd hne.symm heq
      · rfl
  · rw [decide_eq_false hlast] at hflying
    rw [if_neg hlast]
    refine ⟨fun id => (habsorb _ id).trans ?_, fun id => ?_, rfl, rfl⟩
    · split_ifs with heq
      · rw [heq, Lane.absorb, hflying]
        rfl
      · rfl
    · rw [ofChannel_append]
      split_ifs with heq
      · rw [heq, Lane.absorb, hflying]
        rfl
      · rfl

/-- What a step leaves as it is. -/
structure Frame (c c' : Connection) : Prop where
  maxPacketMsgPayloadSize : c'.maxPacketMsgPayloadSize = c.maxPacketMsgPayloadSize
  maxPacketMsgSize : c'.maxPacketMsgSize = c.maxPacketMsgSize
  senderIds : c'.sender.ids = c.sender.ids
  receiverIds : c'.receiver.ids = c.receiver.ids
  desc : ∀ id, (c'.receiver.channel id).desc = (c.receiver.channel id).desc

theorem Frame.refl (c : Connection) : Frame c c := ⟨rfl, rfl, rfl, rfl, fun _ => rfl⟩

theorem Frame.trans {c c'' : Connection} (h : Frame c c') (h' : Frame c' c'') : Frame c c'' :=
  ⟨h'.1.trans h.1, h'.2.trans h.2, h'.3.trans h.3, h'.4.trans h.4, fun id => (h'.5 id).trans (h.5 id)⟩

theorem trySend_frame (c : Connection) (chID : UInt8) (msgBytes : Bytes) :
    Frame c (c.trySend chID msgBytes) ∧ c.queued <+: (c.trySend chID msgBytes).queued := by
  rcases trySend_cases c chID msgBytes with hsame | ⟨ch, -, hsame, -⟩
  · rw [hsame]
    exact ⟨.refl c, prefix_refl _⟩
  · rw [hsame]
    exact ⟨⟨rfl, rfl, rfl, rfl, fun _ => rfl⟩, prefix_append _ _⟩

theorem sendPacketMsg_frame (c : Connection) (pick : Nat) :
    Frame c (c.sendPacketMsg pick) ∧ (c.sendPacketMsg pick).queued = c.queued := by
  rcases sendPacketMsg_cases c pick with ⟨-, hsame⟩ | ⟨id, -, hsame⟩
  · rw [hsame]
    exact ⟨.refl c, rfl⟩
  · rw [hsame]
    exact ⟨⟨rfl, rfl, rfl, rfl, fun _ => rfl⟩, rfl⟩

theorem recvPacket_frame (C : PacketCodec) (c : Connection) :
    Frame c (c.recvPacket C) ∧ (c.recvPacket C).queued = c.queued ∧ (c.recvPacket C).sender = c.sender := by
  unfold recvPacket
  split
  · next packet wire _ _ =>
    split_ifs with hsize hknown
    · exact ⟨⟨rfl, rfl, rfl, rfl, fun _ => rfl⟩, rfl, rfl⟩
    · split
      · exact ⟨⟨rfl, rfl, rfl, rfl, fun _ => rfl⟩, rfl, rfl⟩
      · next msgBytes ch hrecv =>
        refine ⟨⟨rfl, rfl, rfl, rfl, fun id => ?_⟩, rfl, rfl⟩
        have hdesc : ch.desc = (c.receiver.channel packet.channelID).desc := by
          unfold Channel.recvPacketMsg at hrecv
          dsimp only at hrecv
          split_ifs at hrecv
          · cases hrecv
            rfl
          · cases hrecv
            rfl
        by_cases heq : id = packet.channelID
        · subst heq
          simpa [Endpoint.set] using hdesc
        · simp [Endpoint.set, heq]
    · exact ⟨⟨rfl, rfl, rfl, rfl, fun _ => rfl⟩, rfl, rfl⟩
  · exact ⟨.refl c, rfl, rfl⟩

theorem recvPacket_of_nil (hwire : c.wire = []) : c.recvPacket C = c := by
  unfold recvPacket
  rw [hwire]
  cases c.err <;> rfl

theorem Inv.recvPacket (h : c.Inv C) (hfits : c.Fits) : (c.recvPacket C).Inv C := by
  obtain ⟨hframe, hqueued, hsender⟩ := recvPacket_frame C c
  cases hwire : c.wire with
  | nil =>
    rw [recvPacket_of_nil hwire]
    exact h
  | cons packet wire =>
    obtain ⟨hlane, hreceived, herr, hrest⟩ := h.recvPacket_eq hfits hwire
    refine ⟨?_, herr, fun id => ?_, fun id => ?_, fun other hother => ?_, fun id hid => ?_⟩
    · rw [hframe.maxPacketMsgPayloadSize, hframe.maxPacketMsgSize]
      exact h.small
    · rw [hlane, hreceived, hqueued, ← h.toCome id]
      split_ifs
      · rw [append_assoc, Lane.toCome_absorb]
      · rw [append_nil]
    · rw [hlane]
      split_ifs
      · exact (h.aligned id).absorb
      · exact h.aligned id
    · rw [hframe.receiverIds, hframe.maxPacketMsgSize]
      rw [hrest] at hother
      exact h.wire other (by rw [hwire]; exact mem_cons_of_mem _ hother)
    · rw [hsender] at hid
      rw [hlane]
      split_ifs
      · rw [(Lane.absorb_sender _).1, (Lane.absorb_sender _).2]
        exact h.unknown id hid
      · exact h.unknown id hid

theorem Fits.of_step (hframe : Frame c c') (hqueued : c.queued <+: c'.queued) (hfits : c'.Fits) : c.Fits := by
  intro entry hentry
  have hall := hfits entry (hqueued.subset hentry)
  rw [hframe.receiverIds, hframe.desc] at hall
  exact hall

theorem Fits.of_frame (hfits : c.Fits) (hframe : Frame c c') (hqueued : c'.queued = c.queued) : c'.Fits := by
  intro entry hentry
  rw [hqueued] at hentry
  rw [hframe.receiverIds, hframe.desc]
  exact hfits entry hentry

theorem step_frame (C : PacketCodec) (c : Connection) (event : Event) :
    Frame c (c.step C event) ∧ c.queued <+: (c.step C event).queued := by
  cases event with
  | send chID msgBytes => exact trySend_frame c chID msgBytes
  | packet pick =>
    obtain ⟨hframe, hqueued⟩ := sendPacketMsg_frame c pick
    exact ⟨hframe, by rw [step, hqueued]⟩
  | recv =>
    obtain ⟨hframe, hqueued, -⟩ := recvPacket_frame C c
    exact ⟨hframe, by rw [step, hqueued]⟩

theorem Inv.step (h : c.Inv C) (hfits : c.Fits) (event : Event) : (c.step C event).Inv C := by
  cases event with
  | send chID msgBytes => exact h.trySend chID msgBytes
  | packet pick =>
    rcases sendPacketMsg_cases c pick with ⟨-, hsame⟩ | ⟨id, hid, hsame⟩
    · rw [Connection.step, hsame]
      exact h
    · rw [Connection.step, hsame]
      exact h.writePacketMsg hfits hid
  | recv => exact h.recvPacket hfits

theorem run_frame (C : PacketCodec) (c : Connection) (events : List Event) :
    Frame c (c.run C events) ∧ c.queued <+: (c.run C events).queued := by
  induction events generalizing c with
  | nil => exact ⟨.refl c, prefix_refl _⟩
  | cons event events ih =>
    obtain ⟨hframe, hqueued⟩ := step_frame C c event
    obtain ⟨hframe', hqueued'⟩ := ih (c.step C event)
    exact ⟨hframe.trans hframe', hqueued.trans hqueued'⟩

theorem Inv.run (h : c.Inv C) (events : List Event) (hfits : (c.run C events).Fits) : (c.run C events).Inv C := by
  induction events generalizing c with
  | nil => exact h
  | cons event events ih =>
    obtain ⟨hframe, hqueued⟩ := run_frame C c (event :: events)
    exact ih (h.step (.of_step hframe hqueued hfits) event) hfits

theorem inv_new {n m : Nat} (hnm : n ≤ m) (sIds rIds : List UInt8) (hs : sIds.Nodup) (hr : rIds.Nodup)
    (sDesc rDesc : UInt8 → ChannelDescriptor) : (new C n m (.new sIds hs sDesc) (.new rIds hr rDesc)).Inv C :=
  ⟨fun packet hlength => C.size_le packet m (hlength.trans hnm), rfl, fun _ => rfl, fun _ _ => rfl,
    fun _ hmem => (not_mem_nil hmem).elim, fun _ _ => ⟨rfl, rfl⟩⟩

/-! ## Everything gets through -/

theorem Inv.idle (h : c.Inv C) (hpending : c.pending = []) (id : UInt8) :
    (c.lane id).queue = [] ∧ (c.lane id).sending = [] := by
  by_cases hknown : id ∈ c.sender.ids
  · have hidle : (c.sender.channel id).isSendPending.1 = false := by
      by_contra hne
      have hmem : id ∈ c.pending := mem_filter.2 ⟨hknown, by simpa using hne⟩
      rw [hpending] at hmem
      exact not_mem_nil hmem
    unfold Channel.isSendPending at hidle
    split_ifs at hidle with hempty
    cases hqueue : (c.sender.channel id).sendQueue with
    | nil => exact ⟨hqueue, List.isEmpty_iff.1 hempty⟩
    | cons m queue =>
      rw [hqueue] at hidle
      cases hidle
  · exact h.unknown id hknown

/-- With nothing to send and nothing on the wire, everything was received. -/
theorem Inv.received_eq (h : c.Inv C) (hpending : c.pending = []) (hwire : c.wire = []) (id : UInt8) :
    ofChannel id c.received = ofChannel id c.queued := by
  obtain ⟨hqueue, hsending⟩ := h.idle hpending id
  have hflying : (c.lane id).flying = [] := by simp [lane, hwire]
  rw [← h.toCome id, Lane.toCome_eq_nil hqueue hsending hflying, append_nil]

def packetsLeft (c : Connection) : Nat :=
  (c.sender.ids.map fun id => (c.lane id).packetsLeft c.maxPacketMsgPayloadSize).sum

theorem Inv.packetsLeft_lt (h : c.Inv C) (hfits : c.Fits) (hn : 0 < c.maxPacketMsgPayloadSize) (hid : id ∈ c.pending) :
    (c.writePacketMsg id).packetsLeft < c.packetsLeft := by
  obtain ⟨hknown, hsending, -⟩ := h.of_pending hfits hid
  have hlane := lane_writePacketMsg c hknown
  have hless := Lane.packetsLeft_emit hn hsending
  rw [Lane.packetsLeft_load hn] at hless
  refine sum_lt_sum _ _ (fun id' hid' => ?_) ⟨id, hknown, ?_⟩
  · have hid' : id' ∈ c.sender.ids := hid'
    rw [hlane id']
    split_ifs with heq
    · subst heq
      exact Nat.le_of_succ_le (Nat.le_of_eq hless)
    · exact (Lane.packetsLeft_load hn _).le
  · rw [hlane id, if_pos rfl]
    exact Nat.lt_of_succ_le (Nat.le_of_eq hless)

theorem run_of_idle (hidle : c.pending = []) (picks : List Nat) : c.run C (picks.map .packet) = c := by
  induction picks with
  | nil => rfl
  | cons pick picks ih =>
    have hsame : c.sendPacketMsg pick = c := by
      unfold sendPacketMsg
      rw [hidle]
      rfl
    show (c.sendPacketMsg pick).run C (picks.map .packet) = c
    rw [hsame, ih]

/-- With as many picks as there are packets the sender is done, whatever the picks are. -/
theorem Inv.pending_eq_nil (h : c.Inv C) (hfits : c.Fits) (hn : 0 < c.maxPacketMsgPayloadSize) {picks : List Nat}
    (hpicks : c.packetsLeft ≤ picks.length) : (c.run C (picks.map .packet)).pending = [] := by
  induction picks generalizing c with
  | nil =>
    by_contra hne
    obtain ⟨id, rest, hpending⟩ := exists_cons_of_ne_nil hne
    have hmem : id ∈ c.pending := by
      rw [show c.pending = id :: rest from hpending]
      exact mem_cons_self
    have hlt := h.packetsLeft_lt hfits hn hmem
    rw [length_nil] at hpicks
    omega
  | cons pick picks ih =>
    show ((c.sendPacketMsg pick).run C (picks.map .packet)).pending = []
    obtain ⟨hframe, hqueued⟩ := sendPacketMsg_frame c pick
    have hfits' : (c.sendPacketMsg pick).Fits := hfits.of_frame hframe hqueued
    have hinv : (c.sendPacketMsg pick).Inv C := h.step hfits (.packet pick)
    rcases sendPacketMsg_cases c pick with ⟨hidle, hsame⟩ | ⟨id, hid, hsame⟩
    · rw [hsame, run_of_idle hidle]
      exact hidle
    · have hlt := h.packetsLeft_lt hfits hn hid
      rw [length_cons] at hpicks
      refine ih hinv hfits' (by rw [hframe.maxPacketMsgPayloadSize]; exact hn) ?_
      rw [hsame]
      omega

theorem run_packets_queued (C : PacketCodec) (c : Connection) (picks : List Nat) :
    (c.run C (picks.map .packet)).queued = c.queued := by
  induction picks generalizing c with
  | nil => rfl
  | cons pick picks ih =>
    show ((c.sendPacketMsg pick).run C (picks.map .packet)).queued = c.queued
    rw [ih, (sendPacketMsg_frame c pick).2]

theorem run_recv_sender (C : PacketCodec) (c : Connection) (k : Nat) :
    (c.run C (List.replicate k .recv)).sender = c.sender ∧ (c.run C (List.replicate k .recv)).queued = c.queued := by
  induction k generalizing c with
  | zero => exact ⟨rfl, rfl⟩
  | succ k ih =>
    obtain ⟨-, hqueued, hsender⟩ := recvPacket_frame C c
    obtain ⟨hsender', hqueued'⟩ := ih (c.recvPacket C)
    exact ⟨hsender'.trans hsender, hqueued'.trans hqueued⟩

/-- As many turns of the receiver as there are packets empty the wire. -/
theorem Inv.wire_eq_nil (h : c.Inv C) (hfits : c.Fits) {k : Nat} (hk : c.wire.length ≤ k) :
    (c.run C (List.replicate k .recv)).wire = [] := by
  induction k generalizing c with
  | zero => exact length_eq_zero_iff.1 (Nat.le_zero.1 hk)
  | succ k ih =>
    obtain ⟨hframe, hqueued, -⟩ := recvPacket_frame C c
    refine ih (c := c.recvPacket C) (h.recvPacket hfits) (hfits.of_frame hframe hqueued) ?_
    cases hwire : c.wire with
    | nil =>
      rw [recvPacket_of_nil hwire, hwire]
      exact Nat.zero_le k
    | cons packet wire =>
      obtain ⟨-, -, -, hrest⟩ := h.recvPacket_eq hfits hwire
      rw [hwire, length_cons] at hk
      rw [hrest]
      omega

/-- Whatever is queued, picked and received in whatever order, the receiver gets what was queued on each channel and
reports no error, where its payload size is not less than the sender's. -/
theorem messages_delivered (C : PacketCodec) {n m : Nat} (hnm : n ≤ m) (sIds rIds : List UInt8) (hs : sIds.Nodup)
    (hr : rIds.Nodup) (sDesc rDesc : UInt8 → ChannelDescriptor) (events : List Event) {c : Connection}
    (hrun : (new C n m (.new sIds hs sDesc) (.new rIds hr rDesc)).run C events = c)
    (hqueued : ∀ entry ∈ c.queued, entry.2 ≠ [] ∧ entry.1 ∈ rIds ∧
      entry.2.length ≤ (rDesc entry.1).fillDefaults.recvMessageCapacity) :
    c.err = none ∧ (∀ id, ofChannel id c.received <+: ofChannel id c.queued) ∧
      (c.pending = [] → c.wire = [] → ∀ id, ofChannel id c.received = ofChannel id c.queued) ∧
      (0 < n → ∃ enough, ∀ picks : List Nat, enough ≤ picks.length → ∃ waiting, ∀ k, waiting ≤ k →
        ((c.run C (picks.map .packet)).run C (List.replicate k .recv)).err = none ∧
          ∀ id, ofChannel id ((c.run C (picks.map .packet)).run C (List.replicate k .recv)).received =
            ofChannel id c.queued) := by
  obtain ⟨hframe, -⟩ := run_frame C (new C n m (.new sIds hs sDesc) (.new rIds hr rDesc)) events
  rw [hrun] at hframe
  have hfits : c.Fits := by
    intro entry hentry
    rw [hframe.receiverIds, hframe.desc]
    exact hqueued entry hentry
  have hinv : c.Inv C := by
    have hall := (inv_new (C := C) hnm sIds rIds hs hr sDesc rDesc).run events
    rw [hrun] at hall
    exact hall hfits
  refine ⟨hinv.err, fun id => ⟨_, hinv.toCome id⟩, fun hidle hwire => hinv.received_eq hidle hwire, fun hn => ?_⟩
  refine ⟨c.packetsLeft, fun picks hpicks => ⟨(c.run C (picks.map .packet)).wire.length, fun k hk => ?_⟩⟩
  have hn' : 0 < c.maxPacketMsgPayloadSize := by
    rw [hframe.maxPacketMsgPayloadSize]
    exact hn
  -- after the picks the sender is done, and then the receiver takes what is on the wire
  have hsame := run_packets_queued C c picks
  have hfits' : (c.run C (picks.map .packet)).Fits := hfits.of_frame (run_frame C c _).1 hsame
  have hinv' := hinv.run (picks.map .packet) hfits'
  have hidle := hinv.pending_eq_nil hfits hn' hpicks
  obtain ⟨hsender, hqueued'⟩ := run_recv_sender C (c.run C (picks.map .packet)) k
  have hfits'' := hfits'.of_frame (run_frame C _ (List.replicate k .recv)).1 hqueued'
  have hinv'' := hinv'.run (List.replicate k .recv) hfits''
  have hidle' : ((c.run C (picks.map .packet)).run C (List.replicate k .recv)).pending = [] := by
    rw [pending, hsender]
    exact hidle
  refine ⟨hinv''.err, fun id => ?_⟩
  rw [hinv''.received_eq hidle' (hinv'.wire_eq_nil hfits' hk) id, hqueued', hsame]

/-- Two channels, whose packets are sent by turns. -/
theorem messages_delivered_two : ∃ c : Connection,
    (new .plain 2 3 (.new [1, 2] (by decide) fun _ => ⟨5, 0⟩) (.new [2, 1] (by decide) fun _ => ⟨0, 3⟩)).run .plain
      [.send 1 [1, 2, 3], .send 2 [4], .send 1 [5], .packet 0, .packet 1, .recv, .packet 0, .recv, .recv] = c ∧
    c.received = [(2, [4]), (1, [1, 2, 3])] ∧ c.err = none ∧
      (∀ id, ofChannel id c.received <+: ofChannel id c.queued) ∧
      ∃ enough, ∀ picks : List Nat, enough ≤ picks.length → ∃ waiting, ∀ k, waiting ≤ k →
        ((c.run .plain (picks.map .packet)).run .plain (List.replicate k .recv)).err = none ∧
          ∀ id, ofChannel id ((c.run .plain (picks.map .packet)).run .plain (List.replicate k .recv)).received =
            ofChannel id c.queued := by
  obtain ⟨herr, hfirst, -, hall⟩ := messages_delivered .plain (n := 2) (m := 3) (by decide) [1, 2] [2, 1] (by decide)
    (by decide) (fun _ => ⟨5, 0⟩) (fun _ => ⟨0, 3⟩)
    [.send 1 [1, 2, 3], .send 2 [4], .send 1 [5], .packet 0, .packet 1, .recv, .packet 0, .recv, .recv] rfl (by decide)
  exact ⟨_, rfl, by decide, herr, hfirst, hall (by decide)⟩

/-- A packet more than ten bytes longer than those of the receiver stops it. -/
theorem long_packet_refused : ∃ c : Connection,
    (new .plain 20 2 (.new [1] (by decide) fun _ => ⟨5, 0⟩) (.new [1] (by decide) fun _ => ⟨0, 100⟩)).run .plain
      [.send 1 (List.replicate 16 7), .packet 0, .recv] = c ∧
    c.queued = [(1, List.replicate 16 7)] ∧ c.received = [] ∧ c.wire = [] ∧ c.pending = [] ∧
      c.err = some (.readOverflow 15 19) :=
  ⟨_, rfl, rfl, rfl, rfl, rfl, rfl⟩

end Connection

end Demars.P2P
