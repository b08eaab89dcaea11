import Demars.Blockchain.Pool
import Demars.Blockchain.Store
import Demars.State.Update

/-!
# Messages to the blockchain reactor

`Receive` of `blockchain/reactor.go` and what it calls. Any pointer of a decoded message may be `nil`, and so may
those of a stored block. A call may also get stuck in a send: the requesters of bucket chains are never started, so
nobody reads the one message that the channel of such a requester holds.
-/

namespace Demars.Blockchain

open Machine Option

inductive BlockchainMessage
  | blockRequest (height : Int) (bucket : Bytes)
  | blockResponse (block : Option Block) (bucket : Option TxBucket) (lastBucketHash : Option Bytes)
  | noBlockResponse (height : Int)
  | statusRequest (height : Int)
  | statusResponse (height : Int)

structure MessageCodec where
  /-- `cdc.MustMarshalBinaryBare`, which panics where there is no encoding -/
  marshal : BlockchainMessage → Option Bytes
  /-- `cdc.UnmarshalBinaryBare`; without an error the message may still be `nil` -/
  unmarshal : Bytes → Option (Option BlockchainMessage)

def maxMsgSize : Int := maxBlockSizeBytes + 4 + 1

def decodeMessage (M : MessageCodec) (bz : Bytes) : Option (Option BlockchainMessage) :=
  if maxMsgSize < bz.length then none else M.unmarshal bz

/-- `bucketChainRequester`: its buckets by height, and whether its channel is full. -/
structure BucketChainRequester where
  buckets : AList fun _ : Int => TxBucket
  gotBlockCh : Bool

/-- `BlockchainReactor` with its pool, as far as `Receive` reads and writes them. -/
structure BcReactor where
  /-- `Switch.NodeInfo().ID` -/
  nodeID : NodeID
  store : BlockStore
  pool : BlockPool
  /-- the entries of `pool.peers` that `incrPending` was called on -/
  armed : List NodeID
  /-- the messages in `errorsCh` that nobody has read -/
  unreadErrors : Nat
  /-- the entries that are not `nil`, with whether there is a message in the channel -/
  utxoBucketRequesters : AList fun _ : Bytes => Bool
  bucketChainRequesters : AList fun _ : Bytes => BucketChainRequester
  fastSync : Bool
  claimToBeInProposerRegion : Bool
  claimToBeInProposerRegionBlock : Option Block
  /-- what was handed to `TrySend` -/
  sent : List (NodeID × Bytes)
  /-- the peers that were stopped because of a message that does not decode -/
  stopped : List NodeID

def errorsCapacity : Nat := 1000

/-- How a call ends that does not return. -/
inductive Stuck
  | panicked
  /-- in a send on a channel without room -/
  | waiting

def must {α : Type} (pointer : Option α) : Except Stuck α := pointer.elim (.error .panicked) .ok

section

variable (C : StoreCodec) (M : MessageCodec)

namespace BcReactor

/-- `strconv.ParseInt(SegmentID(), 16, 64)`: the first byte of the id. -/
def segmentID (r : BcReactor) : Int := (r.nodeID.ID.headD 0).toNat

def trySend (src : NodeID) (bz : Bytes) (r : BcReactor) : BcReactor := { r with sent := r.sent ++ [(src, bz)] }

/-! ## Requests -/

def answer (src : NodeID) (msg : BlockchainMessage) (r : BcReactor) : Except Stuck BcReactor :=
  (must (M.marshal msg)).map fun bz => r.trySend src bz

/-- `block.LastBucketHashes.BucketHashes[bucketId]`, where no pointer is `nil`. -/
def bucketHash (block : Block) (bucketId : Bytes) : Option Bytes :=
  block.header.bind fun header => header.lastBucketHashes.map fun hashes =>
    ((hashes.bucketHashes.find? (·.1 == bucketId)).map Prod.snd).getD []

/-- The loop of `respondToPeer`: a bucket is encoded, and the encoding is not used. -/
def answerBuckets (block : Block) (bucket : Bytes) : List TxBucket → Except Stuck Unit
  | [] => .ok ()
  | txBucket :: rest =>
    if txBucket.bucketId = bucket then do
      let hash ← must (bucketHash block txBucket.bucketId)
      let _ ← must (M.marshal (.blockResponse none (some txBucket) (some hash)))
      answerBuckets block bucket rest
    else answerBuckets block bucket rest

def respondToPeer (height : Int) (bucket : Bytes) (src : NodeID) (r : BcReactor) : Except Stuck BcReactor := do
  let found ← must (loadBlock C r.store.db height)
  match found with
  | none => r.answer M src (.noBlockResponse height)
  | some block =>
    if bucket = [] then r.answer M src (.blockResponse (some block) none none)
    else do
      let data ← must block.data
      answerBuckets M block bucket data.txBuckets
      r.answer M src (.noBlockResponse height)

/-! ## Responses -/

/-- `AddBucket`. The commit is only handed to a check that does nothing. -/
def addBucket (bucket : TxBucket) (height : Int) (r : BcReactor) : Except Stuck BcReactor :=
  match r.utxoBucketRequesters.lookup bucket.bucketId with
  | some gotBlockCh =>
    if gotBlockCh then .error .waiting
    else .ok { r with
      store := { r.store with db := (saveBucket C height bucket.bucketId (some bucket)).final r.store.db }
      utxoBucketRequesters := r.utxoBucketRequesters.erase bucket.bucketId }
  | none =>
    match r.bucketChainRequesters.lookup bucket.bucketId with
    | some requester =>
      if requester.gotBlockCh then .error .waiting
      else .ok { r with
        bucketChainRequesters :=
          r.bucketChainRequesters.insert bucket.bucketId ⟨requester.buckets.insert height bucket, true⟩ }
    | none => .ok r

def sendError (peerID : NodeID) (r : BcReactor) : Except Stuck BcReactor :=
  if r.pool.running then
    if r.unreadErrors < errorsCapacity then
      .ok { r with pool := r.pool.sendError peerID, unreadErrors := r.unreadErrors + 1 }
    else .error .waiting
  else .ok { r with pool := r.pool.sendError peerID }

/-- `decrPending` uses the timer or the monitor of the peer. -/
def decrPending (peerID : NodeID) (r : BcReactor) : Except Stuck BcReactor :=
  if (r.pool.peers.lookup peerID).isSome ∧ peerID ∉ r.armed then .error .panicked
  else .ok { r with pool := { r.pool with peers := BlockPool.decrPending peerID r.pool.peers } }

def addBlock (peerID : NodeID) (block : Option Block) (r : BcReactor) : Except Stuck (BcReactor × Bool) := do
  let block ← must block
  let header ← must block.header
  match r.pool.entry header.height with
  | none =>
    if r.pool.height < header.height ∧ BlockPool.inProposerRegion r.segmentID header.height then .ok (r, true)
    else if maxDiffBetweenCurrentAndReceivedBlockHeight < r.pool.heightDiff header.height then
      (r.sendError peerID).map fun r => (r, false)
    else .ok (r, false)
  | some (requester, i) =>
    match requester.setBlock block peerID with
    | none => .ok (r, false)
    | some filled =>
      (decrPending peerID { r with
        pool := { r.pool.update i fun _ => filled with numPending := r.pool.numPending - 1 } }).map fun r => (r, false)

/-- What `Receive` does with the result of `AddBlock`. -/
def claimRegion (block : Option Block) (claim : Bool) (r : BcReactor) : BcReactor :=
  if claim then
    { r with claimToBeInProposerRegion := true, claimToBeInProposerRegionBlock := block, fastSync := true }
  else { r with claimToBeInProposerRegion := false }

/-- `pool.SetPeerHeight`: a peer that was not in the map has neither timer nor monitor. -/
def setPeerHeight (peerID : NodeID) (height : Int) (r : BcReactor) : BcReactor :=
  { r with
    pool := r.pool.setPeerHeight peerID height
    armed := if (r.pool.peers.lookup peerID).isSome then r.armed else r.armed.filter (· ≠ peerID) }

/-! ## The switch -/

/-- The switch of `Receive`. -/
def handle (src : NodeID) (r : BcReactor) : Option BlockchainMessage → Except Stuck BcReactor
  | some (.blockRequest height bucket) => r.respondToPeer C M height bucket src
  | some (.blockResponse block bucket _) =>
    match bucket.filter fun b => decide (b.bucketId ≠ []) with
    | some bucket => do
      let block ← must block
      let header ← must block.header
      r.addBucket C bucket header.height
    | none => (r.addBlock src block).map fun e => e.1.claimRegion block e.2
  | some (.statusRequest _) => r.answer M src (.statusResponse r.store.height)
  | some (.statusResponse height) => .ok (r.setPeerHeight src height)
  | some (.noBlockResponse _) => .ok r
  | none => .ok r

def receive (src : NodeID) (bz : Bytes) (r : BcReactor) : Except Stuck BcReactor :=
  match decodeMessage M bz with
  | none => .ok { r with stopped := r.stopped ++ [src] }
  | some msg => r.handle C M src msg

end BcReactor

end

/-! ## How calls end -/

/-- A call does not panic exactly where `G` holds, and returns where `R` does too. -/
def Ends {α : Type} (m : Except Stuck α) (G R : Prop) : Prop :=
  (m ≠ .error .panicked ↔ G) ∧ ((∃ a, m = .ok a) ↔ G ∧ R)

namespace Ends

variable {α β : Type} {m : Except Stuck α} {G R : Prop}

theorem ok {a : α} (hG : G) (hR : R) : Ends (.ok a) G R := ⟨by simp [hG], by simp [hG, hR]⟩

theorem panicked (hG : ¬ G) : Ends (.error .panicked : Except Stuck α) G R := ⟨by simp [hG], by simp [hG]⟩

theorem waiting (hG : G) (hR : ¬ R) : Ends (.error .waiting : Except Stuck α) G R := ⟨by simp [hG], by simp [hR]⟩

theorem map {f : α → β} (h : Ends m G R) : Ends (m.map f) G R := by
  cases m with
  | error e | ok a => exact ⟨by simpa [Except.map] using h.1, by simpa [Except.map] using h.2⟩

theorem congr {G' R' : Prop} (h : Ends m G R) (hG : G ↔ G') (hR : G → (R ↔ R')) : Ends m G' R' :=
  ⟨h.1.trans hG, h.2.trans (by rw [← hG]; exact and_congr_right hR)⟩

theorem must_bind {pointer : Option α} {f : α → Except Stuck β} {G' R' : α → Prop}
    (h : ∀ a, pointer = some a → Ends (f a) (G' a) (R' a)) :
    Ends (must pointer >>= f) (∃ a, pointer = some a ∧ G' a) (∀ a, pointer = some a → R' a) := by
  cases pointer with
  | none => exact panicked (by simp)
  | some a => exact (h a rfl).congr (by simp) (by simp)

theorem bind {f : α → Except Stuck β} {G' R' : Prop} (hm : Ends m G True) (hf : ∀ a, m = .ok a → Ends (f a) G' R') :
    Ends (m >>= f) (G ∧ G') R' := by
  match m, hm, hf with
  | .ok a, hm, hf =>
    have hG : G := hm.1.1 (by simp)
    exact (hf a rfl).congr (by simp [hG]) (fun _ => Iff.rfl)
  | .error .panicked, hm, _ =>
    have hG : ¬ G := fun hG => hm.1.2 hG rfl
    exact panicked fun h => hG h.1
  | .error .waiting, hm, _ =>
    obtain ⟨a, ha⟩ := hm.2.2 ⟨hm.1.1 (by simp), trivial⟩
    cases ha

end Ends

namespace BcReactor

variable (C : StoreCodec) (M : MessageCodec)

/-! ## Conditions -/

def Encodes (msg : BlockchainMessage) : Prop := (M.marshal msg).isSome

/-- `respondToPeer` reads no `nil` pointer, and the answer can be encoded. -/
def RequestGuarded (height : Int) (bucket : Bytes) (r : BcReactor) : Prop :=
  ∃ found, loadBlock C r.store.db height = some found ∧
    match found with
    | none => Encodes M (.noBlockResponse height)
    | some block =>
      if bucket = [] then Encodes M (.blockResponse (some block) none none)
      else (∃ data, block.data = some data ∧ ∀ txBucket ∈ data.txBuckets, txBucket.bucketId = bucket →
          ∃ hash, bucketHash block txBucket.bucketId = some hash ∧
            Encodes M (.blockResponse none (some txBucket) (some hash))) ∧
        Encodes M (.noBlockResponse height)

def Fills (peerID : NodeID) (height : Int) (r : BcReactor) : Prop :=
  ∃ requester i, r.pool.entry height = some (requester, i) ∧ requester.block = none ∧ requester.peerID = peerID

/-- A peer in the map that fills a requester has its timer and monitor. -/
def FillerArmed (peerID : NodeID) (height : Int) (r : BcReactor) : Prop :=
  r.Fills peerID height → (r.pool.peers.lookup peerID).isSome → peerID ∈ r.armed

/-- The message meets no pointer that is `nil` and asks for no encoding that fails. -/
def Guarded (src : NodeID) (r : BcReactor) : Option BlockchainMessage → Prop
  | some (.blockRequest height bucket) => r.RequestGuarded C M height bucket
  | some (.blockResponse block bucket _) =>
    ∃ b header, block = some b ∧ b.header = some header ∧
      ((∀ bk, bucket = some bk → bk.bucketId = []) → r.FillerArmed src header.height)
  | some (.statusRequest _) => Encodes M (.statusResponse r.store.height)
  | some (.statusResponse _) => True
  | some (.noBlockResponse _) => True
  | none => True

/-- The channel of the requester that the bucket goes to is empty. -/
def BucketRoom (bucketId : Bytes) (r : BcReactor) : Prop :=
  match r.utxoBucketRequesters.lookup bucketId with
  | some gotBlockCh => gotBlockCh = false
  | none => ∀ requester, r.bucketChainRequesters.lookup bucketId = some requester → requester.gotBlockCh = false

/-- A block that was not asked for, is no sign of the proposer region and is too far away is an error. -/
def Reports (height : Int) (r : BcReactor) : Prop :=
  r.pool.entry height = none ∧ ¬ (r.pool.height < height ∧ BlockPool.inProposerRegion r.segmentID height) ∧
    maxDiffBetweenCurrentAndReceivedBlockHeight < r.pool.heightDiff height

/-- The channel that the message leads to a send on has room. -/
def HasRoom (r : BcReactor) : Option BlockchainMessage → Prop
  | some (.blockResponse block bucket _) => ∀ b header, block = some b → b.header = some header →
    (∀ bk, bucket = some bk → bk.bucketId ≠ [] → r.BucketRoom bk.bucketId) ∧
      ((∀ bk, bucket = some bk → bk.bucketId = []) → r.Reports header.height → r.pool.running →
        r.unreadErrors < errorsCapacity)
  | _ => True

/-! ## Each function -/

variable {C M} {r : BcReactor} {src peerID : NodeID} {r' : BcReactor}

theorem answer_ends {msg : BlockchainMessage} : Ends (r.answer M src msg) (Encodes M msg) True := by
  unfold answer Encodes
  cases hmsg : M.marshal msg with
  | none => exact Ends.panicked (by simp)
  | some bz => exact Ends.ok rfl trivial

theorem answerBuckets_ends (block : Block) (bucket : Bytes) : ∀ txBuckets : List TxBucket,
    Ends (answerBuckets M block bucket txBuckets) (∀ txBucket ∈ txBuckets, txBucket.bucketId = bucket →
      ∃ hash, bucketHash block txBucket.bucketId = some hash ∧
        Encodes M (.blockResponse none (some txBucket) (some hash))) True
  | [] => Ends.ok (by simp) trivial
  | txBucket :: rest => by
    have ih := answerBuckets_ends block bucket rest
    unfold answerBuckets
    split_ifs with hid
    · refine (Ends.must_bind fun hash _ => Ends.must_bind fun _ _ => ih).congr ?_ fun _ => by simp
      simp only [List.forall_mem_cons, hid, true_implies, Encodes, isSome_iff_exists, exists_and_right, ← and_assoc]
    · refine ih.congr ?_ fun _ => Iff.rfl
      simp only [List.forall_mem_cons, hid, false_implies, true_and]

theorem respondToPeer_ends {height : Int} {bucket : Bytes} :
    Ends (r.respondToPeer C M height bucket src) (r.RequestGuarded C M height bucket) True := by
  refine (Ends.must_bind fun found _ => (?_ : Ends _ _ True)).congr Iff.rfl fun _ => by simp
  cases found with
  | none => exact answer_ends
  | some block =>
    split_ifs with hbucket
    · exact answer_ends
    · refine (Ends.must_bind fun data _ => (answerBuckets_ends block bucket data.txBuckets).bind fun _ _ =>
        answer_ends).congr
        ?_ fun _ => by simp
      simp only [← and_assoc, exists_and_right]

theorem addBucket_ends {bucket : TxBucket} {height : Int} :
    Ends (r.addBucket C bucket height) True (r.BucketRoom bucket.bucketId) := by
  unfold addBucket BucketRoom
  cases r.utxoBucketRequesters.lookup bucket.bucketId with
  | some gotBlockCh =>
    cases gotBlockCh with
    | false => exact Ends.ok trivial rfl
    | true => exact Ends.waiting trivial (by simp)
  | none =>
    cases r.bucketChainRequesters.lookup bucket.bucketId with
    | none => exact Ends.ok trivial (by simp)
    | some requester =>
      dsimp only
      split_ifs with hch
      · exact Ends.waiting trivial (by simp [hch])
      · exact Ends.ok trivial (by simpa using hch)

theorem sendError_ends : Ends (r.sendError peerID) True (r.pool.running → r.unreadErrors < errorsCapacity) := by
  unfold sendError
  split_ifs with hrun hroom
  · exact Ends.ok trivial fun _ => hroom
  · exact Ends.waiting trivial fun h => hroom (h hrun)
  · exact Ends.ok trivial fun h => absurd h hrun

theorem decrPending_ends :
    Ends (r.decrPending peerID) ((r.pool.peers.lookup peerID).isSome → peerID ∈ r.armed) True := by
  unfold decrPending
  split_ifs with h
  · exact Ends.panicked fun hG => h.2 (hG h.1)
  · exact Ends.ok (fun hpeer => not_not.1 fun hnot => h ⟨hpeer, hnot⟩) trivial

theorem setBlock_eq_none {requester : BpRequester} {block : Block} :
    requester.setBlock block peerID = none ↔ ¬ (requester.block = none ∧ requester.peerID = peerID) := by
  unfold BpRequester.setBlock
  split_ifs with h
  · simp only [true_iff, not_and_or]
    exact h.imp (fun hsome hnone => by simp [hnone] at hsome) id
  · simpa using h

theorem addBlock_ends {block : Option Block} :
    Ends (r.addBlock peerID block) (∃ b, block = some b ∧ ∃ header, b.header = some header ∧
      r.FillerArmed peerID header.height)
      (∀ b, block = some b → ∀ header, b.header = some header → r.Reports header.height → r.pool.running →
        r.unreadErrors < errorsCapacity) := by
  refine Ends.must_bind fun b _ => Ends.must_bind fun header _ => ?_
  unfold FillerArmed Fills Reports
  cases hentry : r.pool.entry header.height with
  | none =>
    split_ifs with hregion hfar
    · exact Ends.ok (by simp) fun h => absurd hregion h.2.1
    · exact sendError_ends.map.congr (by simp) fun _ => by simp [hregion, hfar]
    · exact Ends.ok (by simp) fun h => absurd h.2.2 hfar
  | some e =>
    obtain ⟨requester, i⟩ := e
    dsimp only
    cases hset : requester.setBlock b peerID with
    | none =>
      have hnot := setBlock_eq_none.1 hset
      refine Ends.ok ?_ (by simp)
      rintro ⟨_, _, heq, hfills⟩
      cases heq
      exact absurd hfills hnot
    | some filled =>
      have hfills : requester.block = none ∧ requester.peerID = peerID := by
        by_contra hnot
        rw [setBlock_eq_none.2 hnot] at hset
        cases hset
      refine decrPending_ends.map.congr ?_ fun _ => by simp
      exact ⟨fun h _ => h, fun h => h ⟨requester, i, rfl, hfills⟩⟩

/-- A response with a bucket that has an id goes to the requesters of buckets, any other to those of blocks. -/
theorem blockResponse_ends (block : Option Block) (bucket : Option TxBucket) (hash : Option Bytes) :
    Ends (r.handle C M src (some (.blockResponse block bucket hash)))
      (r.Guarded C M src (some (.blockResponse block bucket hash)))
      (r.HasRoom (some (.blockResponse block bucket hash))) := by
  simp only [handle, Guarded]
  cases hbucket : bucket.filter fun b => decide (b.bucketId ≠ []) with
  | none =>
    have hid : ∀ bk, bucket = some bk → bk.bucketId = [] := fun bk hbk => by
      simpa using filter_eq_none_iff.1 hbucket bk hbk
    refine addBlock_ends.map.congr ?_ fun _ => ?_
    · simp only [exists_and_left, forall_prop_of_true hid]
    · constructor
      · exact fun h b header hb hheader => ⟨fun bk hbk hne => absurd (hid bk hbk) hne, fun _ => h b hb header hheader⟩
      · exact fun h b hb header hheader => (h b header hb hheader).2 hid
  | some bk =>
    obtain ⟨hbk, hne⟩ := filter_eq_some_iff.1 hbucket
    have hne : bk.bucketId ≠ [] := by simpa using hne
    have hid : ¬ ∀ bk', bucket = some bk' → bk'.bucketId = [] := fun h => hne (h bk hbk)
    refine (Ends.must_bind fun b _ => Ends.must_bind fun header _ => addBucket_ends).congr ?_ fun hguard => ?_
    · simp only [exists_and_left, hid, false_implies]
    · constructor
      · refine fun h b' header' hb' hheader' => ⟨fun bk' hbk' _ => ?_, fun hid' => absurd hid' hid⟩
        cases hbk.symm.trans hbk'
        exact h b' hb' header' hheader'
      · exact fun h b' hb' header' hheader' => (h b' header' hb' hheader').1 bk hbk hne

theorem handle_ends (C : StoreCodec) (M : MessageCodec) (src : NodeID) (r : BcReactor)
    (msg : Option BlockchainMessage) :
    Ends (r.handle C M src msg) (r.Guarded C M src msg) (r.HasRoom msg) := by
  match msg with
  | some (.blockRequest height bucket) => exact respondToPeer_ends
  | some (.blockResponse block bucket hash) => exact blockResponse_ends block bucket hash
  | some (.statusRequest _) => exact answer_ends
  | some (.statusResponse _) => exact Ends.ok trivial trivial
  | some (.noBlockResponse _) => exact Ends.ok trivial trivial
  | none => exact Ends.ok trivial trivial

/-- For every message and every state of the reactor, when the call panics and when it returns. -/
theorem receive_returns_iff (C : StoreCodec) (M : MessageCodec) (src : NodeID) (bz : Bytes) (r : BcReactor) :
    (r.receive C M src bz ≠ .error .panicked ↔ ∀ msg, decodeMessage M bz = some msg → r.Guarded C M src msg) ∧
    ((∃ r', r.receive C M src bz = .ok r') ↔
      ∀ msg, decodeMessage M bz = some msg → r.Guarded C M src msg ∧ r.HasRoom msg) := by
  unfold receive
  cases hdecode : decodeMessage M bz with
  | none => exact ⟨by simp, by simp⟩
  | some msg =>
    obtain ⟨hguard, hroom⟩ := handle_ends C M src r msg
    exact ⟨by simpa using hguard, by simpa using hroom⟩

/-- The first byte tells a response without anything, one with a bucket, and one with a bucket and an empty block. -/
def letters : MessageCodec where
  marshal := fun _ => some []
  unmarshal
    | [97] => some (some (.blockResponse none none none))
    | [98] => some (some (.blockResponse none (some ⟨ascii "a", []⟩) none))
    | [99, height] =>
      some (some (.blockResponse (some ⟨some ⟨[], height.toNat, 0, 0, BlockID.empty, 0, [], [], [], [], [], none⟩,
        none, none⟩) (some ⟨ascii "a", []⟩) none))
    | _ => none

def fresh : BcReactor where
  nodeID := NodeID.zero
  store := .empty
  pool := newBlockPool 1
  armed := []
  unreadErrors := 0
  utxoBucketRequesters := ∅
  bucketChainRequesters := AList.singleton (ascii "a") ⟨∅, false⟩
  fastSync := true
  claimToBeInProposerRegion := false
  claimToBeInProposerRegionBlock := none
  sent := []
  stopped := []

/-- A response without a block panics, and the second bucket of a chain never gets past the channel. -/
theorem nil_block_panics : ∃ src : NodeID,
    fresh.receive .plain letters src [97] = .error .panicked ∧
    fresh.receive .plain letters src [98] = .error .panicked ∧
    ∃ r, fresh.receive .plain letters src [99, 1] = .ok r ∧ r.receive .plain letters src [99, 2] = .error .waiting :=
  ⟨NodeID.zero, rfl, rfl, _, rfl, rfl⟩

end BcReactor

end Demars.Blockchain
