import Demars.Lib.Runs
import Demars.P2P.Key

/-!
# The block pool of fast sync

`blockchain/pool.go`. A requester asks one peer after another for the block of its height, in a goroutine of its
own. What a goroutine does between two locks is one step (`PoolEvent`), so a list of events is an interleaving of
the reactor, the peers, the timers and the requesters. A `panic` in the reactor's goroutine ends the process
(`none`); one in `Receive` is caught by the connection.
-/

namespace Demars.Blockchain

open Machine Runs

inductive Routine
  /-- before `pickIncrAvailablePeer` -/
  | picking
  /-- the peer is picked, and not yet written to the requester -/
  | picked (peerID : NodeID)
  /-- at the `select` -/
  | waiting
  | returned
deriving DecidableEq

/-- A block in a requester, with a record of who delivered it and whether that peer was removed afterwards. -/
structure Delivery where
  block : Block
  peerID : NodeID
  rejected : Bool
deriving DecidableEq

/-- `bpRequester`. Its two channels hold at most one message each. -/
structure BpRequester where
  height : Int
  peerID : NodeID
  block : Option Delivery
  gotBlockCh : Bool
  redoCh : Bool
  running : Bool
  routine : Routine
  /-- whether it is the value of `pool.requesters` at its height -/
  listed : Bool

/-- `bpPeer`, without the monitor of its rate and its timer. -/
structure BpPeer where
  height : Int
  numPending : Int
  didTimeout : Bool

/-- `BlockPool`, without the requesters of buckets. A goroutine outlives its entry in the map: `listed` are those in
the map. -/
structure BlockPool where
  height : Int
  requesters : List BpRequester
  peers : AList fun _ : NodeID => BpPeer
  maxPeerHeight : Int
  /-- never written -/
  maxRequesterHeight : Int
  /-- an `int32`; the pool makes no requester once it has 1000 -/
  numPending : Int
  running : Bool
  /-- what was sent on `requestsCh` -/
  requests : List (Int × NodeID)
  /-- what was sent on `errorsCh` -/
  errors : List NodeID
  /-- the peers that were removed and not set again since, as a record of the run -/
  removed : List NodeID

def maxPendingRequestsPerPeer : Int := 50

def maxDiffBetweenCurrentAndReceivedBlockHeight : Int := 1000

def newBlockPool (start : Int) : BlockPool where
  height := start
  requesters := []
  peers := ∅
  maxPeerHeight := 0
  maxRequesterHeight := 0
  numPending := 0
  running := true
  requests := []
  errors := []
  removed := []

/-! ## Requesters -/

namespace BpRequester

/-- `newBPRequester`, started and put into the map. -/
def newBPRequester (height : Int) : BpRequester where
  height := height
  peerID := NodeID.zero
  block := none
  gotBlockCh := false
  redoCh := false
  running := true
  routine := .picking
  listed := true

def setBlock (block : Block) (peerID : NodeID) (bpr : BpRequester) : Option BpRequester :=
  if bpr.block.isSome ∨ bpr.peerID ≠ peerID then none
  else some { bpr with block := some ⟨block, peerID, false⟩, gotBlockCh := true }

/-- `reset`, without the count of the pool. -/
def reset (bpr : BpRequester) : BpRequester := { bpr with peerID := NodeID.zero, block := none }

def redo (bpr : BpRequester) : BpRequester := { bpr with redoCh := true }

def unlist (bpr : BpRequester) : BpRequester := { bpr with listed := false }

def unfilled (bpr : BpRequester) : Bool := bpr.listed && bpr.block.isNone

def reject (peerID : NodeID) (bpr : BpRequester) : BpRequester :=
  { bpr with block := bpr.block.map fun d => if d.peerID = peerID then { d with rejected := true } else d }

def peerRemoved (peerID : NodeID) (bpr : BpRequester) : BpRequester :=
  if bpr.listed ∧ bpr.peerID = peerID then (bpr.reject peerID).redo else bpr.reject peerID

end BpRequester

/-! ## The pool -/

namespace BlockPool

/-- `pool.requesters[height]`, with its place among all requesters. -/
def entry (pool : BlockPool) (height : Int) : Option (BpRequester × Nat) :=
  pool.requesters.zipIdx.find? fun e => e.1.listed && e.1.height == height

def update (i : Nat) (f : BpRequester → BpRequester) (pool : BlockPool) : BlockPool :=
  { pool with requesters := pool.requesters.modify i f }

def unfilled (pool : BlockPool) : Nat := pool.requesters.countP BpRequester.unfilled

def sendError (peerID : NodeID) (pool : BlockPool) : BlockPool :=
  { pool with errors := if pool.running then pool.errors ++ [peerID] else pool.errors }

def sendRequest (height : Int) (peerID : NodeID) (pool : BlockPool) : BlockPool :=
  { pool with requests := if pool.running then pool.requests ++ [(height, peerID)] else pool.requests }

def peekBlock (pool : BlockPool) : Option Delivery := (pool.entry pool.height).bind fun e => e.1.block

def removePeer (peerID : NodeID) (pool : BlockPool) : BlockPool :=
  { pool with
    requesters := pool.requesters.map (BpRequester.peerRemoved peerID)
    peers := pool.peers.erase peerID
    removed := peerID :: pool.removed }

def popRequest (pool : BlockPool) : Option BlockPool :=
  (pool.entry pool.height).map fun e =>
    { pool.update e.2 fun r => { r.unlist with running := false } with height := pool.height + 1 }

/-- `RedoRequest`, which panics without a requester or without a block. -/
def redoRequest (height : Int) (pool : BlockPool) : Option BlockPool :=
  (pool.entry height).bind fun e => if e.1.block.isNone then none else some (pool.removePeer e.1.peerID)

/-- The test of `AddBlock` for a block from the segment that proposes after ours. -/
def inProposerRegion (segmentID height : Int) : Bool := segmentID.tmod 100 == height.tmod 100 + 1

/-- `|pool.height - height|` as `AddBlock` computes it. -/
def heightDiff (pool : BlockPool) (height : Int) : Int :=
  let diff := wrap64 (pool.height - height)
  if diff < 0 then wrap64 (diff * -1) else diff

/-- `decrPending` of the peer that sent the block, if it is there. -/
def decrPending (peerID : NodeID) (peers : AList fun _ : NodeID => BpPeer) : AList fun _ : NodeID => BpPeer :=
  match peers.lookup peerID with
  | some peer => peers.insert peerID { peer with numPending := peer.numPending - 1 }
  | none => peers

/-- `AddBlock`. A block without a header panics, and so does, at the end, a peer that was never asked. -/
def addBlock (peerID : NodeID) (block : Block) (segmentID : Int) (pool : BlockPool) : BlockPool × Bool :=
  match block.header with
  | none => (pool, false)
  | some header =>
    match pool.entry header.height with
    | none =>
      if pool.height < header.height ∧ inProposerRegion segmentID header.height then (pool, true)
      else if maxDiffBetweenCurrentAndReceivedBlockHeight < pool.heightDiff header.height then
        (pool.sendError peerID, false)
      else (pool, false)
    | some (requester, i) =>
      match requester.setBlock block peerID with
      | none => (pool, false)
      | some filled =>
        ({ pool.update i fun _ => filled with
            numPending := pool.numPending - 1
            peers := decrPending peerID pool.peers }, false)

def setPeerHeight (peerID : NodeID) (height : Int) (pool : BlockPool) : BlockPool :=
  { pool with
    peers := match pool.peers.lookup peerID with
      | some peer => pool.peers.insert peerID { peer with height := height }
      | none => pool.peers.insert peerID ⟨height, 0, false⟩
    maxPeerHeight := if pool.maxPeerHeight < height then height else pool.maxPeerHeight
    removed := pool.removed.filter (· ≠ peerID) }

def onTimeout (peerID : NodeID) (pool : BlockPool) : BlockPool :=
  { pool.sendError peerID with
    peers := match pool.peers.lookup peerID with
      | some peer => pool.peers.insert peerID { peer with didTimeout := true }
      | none => pool.peers }

/-- Whether `removeTimedoutPeers` removes a peer; `slow` is the finding of its monitor. -/
def timedOut (slow : NodeID → Bool) (pool : BlockPool) (peerID : NodeID) : Bool :=
  (pool.peers.lookup peerID).any fun peer => peer.didTimeout || (decide (0 < peer.numPending) && slow peerID)

def removeIfTimedout (slow : NodeID → Bool) (pool : BlockPool) (peerID : NodeID) : BlockPool :=
  if pool.timedOut slow peerID then
    (if pool.timedOut (fun _ => false) peerID then pool else pool.sendError peerID).removePeer peerID
  else pool

/-- `removeTimedoutPeers`, with the order in which Go ranges over the map. -/
def removeTimedoutPeers (order : List NodeID) (slow : NodeID → Bool) (pool : BlockPool) : BlockPool :=
  order.foldl (removeIfTimedout slow) pool

/-- The loop that picks a peer, with the order in which Go ranges over the map. -/
def pickAvailable (suits : NodeID → BpPeer → Bool) : List NodeID → BlockPool → BlockPool × Option NodeID
  | [], pool => (pool, none)
  | peerID :: order, pool =>
    match pool.peers.lookup peerID with
    | none => pickAvailable suits order pool
    | some peer =>
      if peer.didTimeout then pickAvailable suits order (pool.removePeer peerID)
      else if suits peerID peer then
        ({ pool with peers := pool.peers.insert peerID { peer with numPending := peer.numPending + 1 } }, some peerID)
      else pickAvailable suits order pool

def pickIncrAvailablePeer (minHeight : Int) : List NodeID → BlockPool → BlockPool × Option NodeID :=
  pickAvailable fun _ peer => decide (peer.numPending < maxPendingRequestsPerPeer) && decide (minHeight ≤ peer.height)

def pickIncrAvailablePeerInSegment (minHeight : Int) (targetSegment : Bytes) :
    List NodeID → BlockPool → BlockPool × Option NodeID :=
  pickAvailable fun peerID peer => decide (peer.numPending < maxPendingRequestsPerPeer) && decide
    (minHeight ≤ peer.height) &&
    decide (peerID.segmentID = targetSegment)

/-- The height that `makeNextRequester` chooses. -/
def nextHeight (pool : BlockPool) : Int :=
  if pool.maxRequesterHeight.tmod 1000 < pool.maxPeerHeight.tmod 1000 then (pool.maxRequesterHeight.tmod 1000 + 1) *
    1000
  else if pool.maxRequesterHeight.tmod 100 < pool.maxPeerHeight.tmod 100 then (pool.maxRequesterHeight.tmod 100 + 1) *
    100
  else pool.maxRequesterHeight + 1

/-- `makeNextRequester`: a requester that is in the map at the height is replaced. -/
def makeNextRequester (pool : BlockPool) : BlockPool :=
  let cleared := match pool.entry pool.nextHeight with
    | some e => pool.update e.2 BpRequester.unlist
    | none => pool
  { cleared with
    requesters := cleared.requesters ++ [BpRequester.newBPRequester pool.nextHeight]
    numPending := pool.numPending + 1 }

end BlockPool

/-! ## Interleavings -/

/-- The cases of the `select` in `requestRoutine`. -/
inductive SelectCase
  | quit
  | redo
  | gotBlock

inductive PoolEvent
  | makeNextRequester
  | addBlock (peerID : NodeID) (block : Block) (segmentID : Int)
  | popRequest
  | redoRequest (height : Int)
  | setPeerHeight (peerID : NodeID) (height : Int)
  | removePeer (peerID : NodeID)
  | onTimeout (peerID : NodeID)
  | removeTimedoutPeers (order : List NodeID) (slow : NodeID → Bool)
  | pickInSegment (minHeight : Int) (targetSegment : Bytes) (order : List NodeID)
  /-- the `i`th requester looks for a peer -/
  | pick (i : Nat) (order : List NodeID)
  /-- the `i`th requester writes down its peer and sends the request -/
  | assign (i : Nat)
  /-- the `i`th requester takes a case of its `select` -/
  | select (i : Nat) (taken : SelectCase)
  | stop

namespace BlockPool

def pick (i : Nat) (order : List NodeID) (pool : BlockPool) : BlockPool :=
  match pool.requesters[i]? with
  | none => pool
  | some bpr =>
    if bpr.routine ≠ .picking then pool
    else if !bpr.running || !pool.running then pool.update i fun r => { r with routine := .returned }
    else
      let (pool', picked) := pool.pickIncrAvailablePeer bpr.height order
      match picked with
      | none => pool'
      | some peerID => pool'.update i fun r => { r with routine := .picked peerID }

def assign (i : Nat) (pool : BlockPool) : BlockPool :=
  match pool.requesters[i]? with
  | none => pool
  | some bpr =>
    match bpr.routine with
    | .picked peerID =>
      (pool.update i fun r => { r with peerID := peerID, routine := .waiting }).sendRequest bpr.height peerID
    | _ => pool

def select (i : Nat) (taken : SelectCase) (pool : BlockPool) : BlockPool :=
  match pool.requesters[i]? with
  | none => pool
  | some bpr =>
    if bpr.routine ≠ .waiting then pool
    else
      match taken with
      | .quit =>
        if !pool.running || !bpr.running then pool.update i fun r => { r with running := false, routine := .returned }
        else pool
      | .redo =>
        if bpr.redoCh then
          { pool.update i fun r => { r.reset with redoCh := false, routine := .picking } with
            numPending := if bpr.block.isSome then pool.numPending + 1 else pool.numPending }
        else pool
      | .gotBlock =>
        if bpr.gotBlockCh then pool.update i fun r => { r with gotBlockCh := false, routine := .returned } else pool

/-- The pool after an event; `none` after a panic. -/
def step (pool : BlockPool) : PoolEvent → Option BlockPool
  | .makeNextRequester => some pool.makeNextRequester
  | .addBlock peerID block segmentID => some (pool.addBlock peerID block segmentID).1
  | .popRequest => pool.popRequest
  | .redoRequest height => pool.redoRequest height
  | .setPeerHeight peerID height => some (pool.setPeerHeight peerID height)
  | .removePeer peerID => some (pool.removePeer peerID)
  | .onTimeout peerID => some (pool.onTimeout peerID)
  | .removeTimedoutPeers order slow => some (pool.removeTimedoutPeers order slow)
  | .pickInSegment minHeight targetSegment order =>
    some (pool.pickIncrAvailablePeerInSegment minHeight targetSegment order).1
  | .pick i order => some (pool.pick i order)
  | .assign i => some (pool.assign i)
  | .select i taken => some (pool.select i taken)
  | .stop => some { pool with running := false }

end BlockPool

/-- A process that may have panicked. -/
def poolStep (process : Option BlockPool) (event : PoolEvent) : Option BlockPool :=
  process.bind fun pool => pool.step event

def poolRun (start : Int) (events : List PoolEvent) : Option BlockPool :=
  events.foldl poolStep (some (newBlockPool start))

end Demars.Blockchain
