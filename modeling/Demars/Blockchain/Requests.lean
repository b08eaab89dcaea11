import Demars.Blockchain.Pool

/-!
# What the requests of the block pool keep

An event removes some peers and lets one requester take a turn (`step_change`), so what holds over any interleaving
of the goroutines (`poolRun`) is shown for one removal and for one turn.
-/

namespace Demars.Blockchain

open Runs List Option

theorem modify_of_getElem? {α : Type*} {f : α → α} {l : List α} {i : Nat} {a : α} (h : l[i]? = some a) :
    l.modify i f = l.set i (f a) := by
  apply ext_getElem?
  intro j
  by_cases hij : i = j
  · subst hij
    obtain ⟨hlt, rfl⟩ := List.getElem?_eq_some_iff.1 h
    simp [hlt]
  · simp [hij]

namespace BlockPool

variable {pool pool' : BlockPool} {height : Int} {peerID : NodeID} {event : PoolEvent}

theorem entry_spec {e : BpRequester × Nat} (h : pool.entry height = some e) :
    pool.requesters[e.2]? = some e.1 ∧ e.1.listed = true ∧ e.1.height = height := by
  have hmem := mem_zipIdx_iff_getElem?.1 (mem_of_find?_eq_some h)
  have hfound := find?_some h
  simp only [Bool.and_eq_true, beq_iff_eq] at hfound
  exact ⟨hmem, hfound.1, hfound.2⟩

/-! ## Removals -/

/-- The pool after the removal of some peers, and some errors sent. -/
def Removes (peerIDs : List NodeID) (pool pool' : BlockPool) : Prop :=
  ∃ errors, pool' = { peerIDs.foldl (fun pool peerID => pool.removePeer peerID) pool with errors := errors }

theorem Removes.refl (pool : BlockPool) : Removes [] pool pool := ⟨pool.errors, rfl⟩

variable {peerIDs : List NodeID} {i : Nat}

theorem Removes.of_errors {errors : List NodeID} (h : Removes peerIDs { pool with errors := errors } pool') :
    Removes peerIDs pool pool' := by
  obtain ⟨errors', rfl⟩ := h
  refine ⟨errors', ?_⟩
  induction peerIDs generalizing pool with
  | nil => rfl
  | cons peerID peerIDs ih => exact @ih (pool.removePeer peerID)

theorem Removes.keeps {I : BlockPool → Prop} (h : Removes peerIDs pool pool') (hI : I pool)
    (hremove : ∀ pool, ∀ peerID ∈ peerIDs, I pool → I (pool.removePeer peerID))
    (herrors : ∀ pool errors, I pool → I { pool with errors := errors }) : I pool' := by
  obtain ⟨errors, rfl⟩ := h
  apply herrors
  induction peerIDs generalizing pool with
  | nil => exact hI
  | cons peerID peerIDs ih =>
    exact ih (hremove pool peerID mem_cons_self hI) fun pool p hp => hremove pool p (mem_cons_of_mem peerID hp)

section

variable (peerID) (r : BpRequester)

@[simp] theorem routine_peerRemoved : (r.peerRemoved peerID).routine = r.routine := by
  unfold BpRequester.peerRemoved
  split <;> rfl

@[simp] theorem peerID_peerRemoved : (r.peerRemoved peerID).peerID = r.peerID := by
  unfold BpRequester.peerRemoved
  split <;> rfl

@[simp] theorem listed_peerRemoved : (r.peerRemoved peerID).listed = r.listed := by
  unfold BpRequester.peerRemoved
  split <;> rfl

@[simp] theorem block_peerRemoved : (r.peerRemoved peerID).block =
    r.block.map fun d => if d.peerID = peerID then { d with rejected := true } else d := by
  unfold BpRequester.peerRemoved
  split <;> rfl

end

theorem Removes.getElem? {bpr : BpRequester} (h : Removes peerIDs pool pool')
    (hget : pool.requesters[i]? = some bpr) : ∃ r, pool'.requesters[i]? = some r ∧ r.routine = bpr.routine := by
  refine h.keeps (I := fun pool => ∃ r, pool.requesters[i]? = some r ∧ r.routine = bpr.routine) ⟨bpr, hget, rfl⟩ ?_
    fun _ _ h => h
  rintro pool peerID - ⟨r, hr, hroutine⟩
  exact ⟨r.peerRemoved peerID, by rw [removePeer, getElem?_map, hr, map_some],
    (routine_peerRemoved peerID r).trans hroutine⟩

theorem timedOut_of_removePeer {slow : NodeID → Bool} {other : NodeID}
    (h : (pool.removePeer peerID).timedOut slow other = true) : pool.timedOut slow other = true := by
  by_cases he : other = peerID
  · subst he
    rw [timedOut, removePeer, AList.lookup_erase] at h
    cases h
  · rwa [timedOut, removePeer, AList.lookup_erase_ne he] at h

/-- To pick a peer, peers that timed out are removed, and then one is picked or none. -/
theorem pickAvailable_removes (suits : NodeID → BpPeer → Bool) (order : List NodeID) (pool : BlockPool) :
    ∃ peerIDs mid, peerIDs ⊆ order.filter (pool.timedOut fun _ => false) ∧ Removes peerIDs pool mid ∧
      (pickAvailable suits order pool = (mid, none) ∨ ∃ peerID peer, mid.peers.lookup peerID = some peer ∧
        suits peerID peer = true ∧ pickAvailable suits order pool =
          ({ mid with peers := mid.peers.insert peerID { peer with numPending := peer.numPending + 1 } },
            some peerID)) := by
  induction order generalizing pool with
  | nil => exact ⟨[], pool, nil_subset _, .refl pool, .inl rfl⟩
  | cons peerID order ih =>
    have hskip := fun other (h : other ∈ order.filter (pool.timedOut fun _ => false)) =>
      ((sublist_cons_self peerID order).filter (pool.timedOut fun _ => false)).subset h
    rw [pickAvailable]
    cases hl : pool.peers.lookup peerID with
    | none =>
      obtain ⟨peerIDs, mid, hsub, h⟩ := ih pool
      exact ⟨peerIDs, mid, fun _ hmem => hskip _ (hsub hmem), h⟩
    | some peer =>
      dsimp only
      split_ifs with ht hs
      · obtain ⟨peerIDs, mid, hsub, hrem, h⟩ := ih (pool.removePeer peerID)
        refine ⟨peerID :: peerIDs, mid, ?_, hrem, h⟩
        have hself : pool.timedOut (fun _ => false) peerID = true := by simp [timedOut, hl, ht]
        rw [filter_cons_of_pos hself]
        refine cons_subset_cons peerID fun other hother => ?_
        have hin := mem_filter.1 (hsub hother)
        exact mem_filter.2 ⟨hin.1, timedOut_of_removePeer hin.2⟩
      · exact ⟨[], pool, nil_subset _, .refl pool, .inr ⟨peerID, peer, hl, hs, rfl⟩⟩
      · obtain ⟨peerIDs, mid, hsub, h⟩ := ih pool
        exact ⟨peerIDs, mid, fun _ hmem => hskip _ (hsub hmem), h⟩

theorem removeTimedoutPeers_removes (order : List NodeID) (slow : NodeID → Bool) (pool : BlockPool) :
    ∃ peerIDs, peerIDs ⊆ order.filter (pool.timedOut slow) ∧
      Removes peerIDs pool (pool.removeTimedoutPeers order slow) := by
  induction order generalizing pool with
  | nil => exact ⟨[], nil_subset _, .refl pool⟩
  | cons peerID order ih =>
    rw [removeTimedoutPeers, foldl_cons, removeIfTimedout]
    by_cases ht : pool.timedOut slow peerID = true
    · rw [if_pos ht, filter_cons_of_pos ht]
      -- the error is sent before the removal
      obtain ⟨errors, htold⟩ :
        ∃ errors, (if pool.timedOut (fun _ => false) peerID then pool else pool.sendError peerID).removePeer peerID =
          { pool.removePeer peerID with errors := errors } := by
        split
        · exact ⟨_, rfl⟩
        · exact ⟨_, rfl⟩
      rw [htold]
      obtain ⟨peerIDs, hsub, hrem⟩ := ih { pool.removePeer peerID with errors := errors }
      refine ⟨peerID :: peerIDs, ?_, hrem.of_errors⟩
      refine cons_subset_cons peerID fun other hother => ?_
      have hin := mem_filter.1 (hsub hother)
      exact mem_filter.2 ⟨hin.1, timedOut_of_removePeer hin.2⟩
    · rw [if_neg ht, filter_cons_of_neg ht]
      exact ih pool

/-! ## What an event can do -/

def mayRemove (pool : BlockPool) : PoolEvent → List NodeID
  | .redoRequest height => (pool.entry height).toList.map fun e => e.1.peerID
  | .removePeer peerID => [peerID]
  | .removeTimedoutPeers order slow => order.filter (pool.timedOut slow)
  | .pickInSegment _ _ order => order.filter (pool.timedOut fun _ => false)
  | .pick _ order => order.filter (pool.timedOut fun _ => false)
  | _ => []

/-- What an event can do with the `i`th requester, the counter and the peers. -/
inductive Turn (i : Nat) (peers : AList fun _ : NodeID => BpPeer) :
    PoolEvent → BpRequester → BpRequester → Int → (AList fun _ : NodeID => BpPeer) → Prop
  | abandon (order : List NodeID) {r : BpRequester} (picking : r.routine = .picking) :
      Turn i peers (.pick i order) r { r with routine := .returned } 0 peers
  | pick (order : List NodeID) {peerID : NodeID} {peer : BpPeer} {r : BpRequester} (picking : r.routine = .picking)
      (there : peers.lookup peerID = some peer) (room : peer.numPending < maxPendingRequestsPerPeer) :
      Turn i peers (.pick i order) r { r with routine := .picked peerID } 0
        (peers.insert peerID { peer with numPending := peer.numPending + 1 })
  | assign {peerID : NodeID} {r : BpRequester} (picked : r.routine = .picked peerID) :
      Turn i peers (.assign i) r { r with peerID := peerID, routine := .waiting } 0 peers
  | quit {r : BpRequester} (waiting : r.routine = .waiting) :
      Turn i peers (.select i .quit) r { r with running := false, routine := .returned } 0 peers
  | redo {r : BpRequester} (waiting : r.routine = .waiting) (ready : r.redoCh = true) :
      Turn i peers (.select i .redo) r { r.reset with redoCh := false, routine := .picking }
        (if r.block.isSome then 1 else 0) peers
  | gotBlock {r : BpRequester} (waiting : r.routine = .waiting) :
      Turn i peers (.select i .gotBlock) r { r with gotBlockCh := false, routine := .returned } 0 peers
  | fill (block : Block) (segmentID : Int) {r : BpRequester} (listed : r.listed = true) (empty : r.block = none) :
      Turn i peers (.addBlock r.peerID block segmentID) r
        { r with block := some ⟨block, r.peerID, false⟩, gotBlockCh := true } (-1) (decrPending r.peerID peers)
  | pop {r : BpRequester} : Turn i peers .popRequest r { r.unlist with running := false } 0 peers

/-- An event removes peers and one requester takes a turn, or it makes a requester, or sets a peer. -/
inductive Change (pool : BlockPool) (event : PoolEvent) (pool' : BlockPool) : Prop
  | removes {peerIDs : List NodeID} (sub : peerIDs ⊆ pool.mayRemove event) (removes : Removes peerIDs pool pool')
  | turns {peerIDs : List NodeID} {mid : BlockPool} {i : Nat} {r r' : BpRequester} {d : Int}
      (sub : peerIDs ⊆ pool.mayRemove event) (removes : Removes peerIDs pool mid) (get : mid.requesters[i]? = some r)
      (turn : Turn i mid.peers event r r' d pool'.peers) (requesters : pool'.requesters = mid.requesters.set i r')
      (numPending : pool'.numPending = mid.numPending + d) (removed : pool'.removed = mid.removed)
      (heights : (pool'.maxRequesterHeight, pool'.maxPeerHeight) = (mid.maxRequesterHeight, mid.maxPeerHeight))
  | picks {minHeight : Int} {targetSegment : Bytes} {order peerIDs : List NodeID} {mid : BlockPool}
      (picked : event = .pickInSegment minHeight targetSegment order) (sub : peerIDs ⊆ pool.mayRemove event)
      (removes : Removes peerIDs pool mid) (eq : pool' = { mid with peers := pool'.peers })
  | makes (made : event = .makeNextRequester) (eq : pool' = pool.makeNextRequester)
  | sets {peerID : NodeID} {height : Int} (set : event = .setPeerHeight peerID height)
      (eq : pool' = pool.setPeerHeight peerID height)
  | timesOut {peerID : NodeID} (eq : pool' = pool.onTimeout peerID)
  | stops (eq : pool' = { pool with running := false })

theorem Change.idle : Change pool event pool := .removes (nil_subset _) (.refl pool)

theorem Change.turn {r r' : BpRequester} {d : Int} (get : pool.requesters[i]? = some r)
    (turn : Turn i pool.peers event r r' d pool'.peers) (requesters : pool'.requesters = pool.requesters.set i r')
    (numPending : pool'.numPending = pool.numPending + d) (removed : pool'.removed = pool.removed)
    (heights : (pool'.maxRequesterHeight, pool'.maxPeerHeight) = (pool.maxRequesterHeight, pool.maxPeerHeight)) :
    Change pool event pool' :=
  .turns (nil_subset _) (.refl pool) get turn requesters numPending removed heights

theorem pick_change (i : Nat) (order : List NodeID) : Change pool (.pick i order) (pool.pick i order) := by
  unfold pick
  cases hget : pool.requesters[i]? with
  | none => exact .idle
  | some bpr =>
    by_cases hpicking : bpr.routine = .picking
    · simp only [ne_eq]
      split_ifs with hquit
      · exact .turn hget (.abandon order hpicking) (modify_of_getElem? hget) (add_zero _).symm rfl rfl
      · obtain ⟨peerIDs, mid, hsub, hrem, heq | ⟨peerID, peer, hl, hsuits, heq⟩⟩ := pickAvailable_removes
          (fun _ peer => decide (peer.numPending < maxPendingRequestsPerPeer) && decide (bpr.height ≤ peer.height))
            order pool
        · rw [pickIncrAvailablePeer, heq]
          exact .removes hsub hrem
        · rw [pickIncrAvailablePeer, heq]
          obtain ⟨r, hr, hroutine⟩ := hrem.getElem? hget
          rw [Bool.and_eq_true, decide_eq_true_eq] at hsuits
          exact .turns hsub hrem hr (.pick order (hroutine.trans hpicking) hl hsuits.1)
            (modify_of_getElem? hr) (add_zero _).symm rfl rfl
    · simp only [ne_eq, hpicking]
      exact .idle

theorem assign_change (i : Nat) : Change pool (.assign i) (pool.assign i) := by
  unfold assign
  cases hget : pool.requesters[i]? with
  | none => exact .idle
  | some bpr =>
    cases hroutine : bpr.routine with
    | picked peerID =>
      simp only [hroutine]
      exact .turn hget (.assign hroutine) (modify_of_getElem? hget) (add_zero _).symm rfl rfl
    | picking | waiting | returned =>
      simp only [hroutine]
      exact .idle

theorem select_change (i : Nat) (taken : SelectCase) : Change pool (.select i taken) (pool.select i taken) := by
  unfold select
  cases hget : pool.requesters[i]? with
  | none => exact .idle
  | some bpr =>
    by_cases hwaiting : bpr.routine = .waiting
    · simp only [hwaiting, ne_eq, not_true, if_false]
      cases taken with
      | quit =>
        simp only
        split
        · exact .turn hget (.quit hwaiting) (modify_of_getElem? hget) (add_zero _).symm rfl rfl
        · exact .idle
      | redo =>
        simp only
        split
        next hready =>
          refine .turn hget (.redo hwaiting hready) (modify_of_getElem? hget) ?_ rfl rfl
          split
          · rfl
          · exact (add_zero _).symm
        next => exact .idle
      | gotBlock =>
        simp only
        split
        · exact .turn hget (.gotBlock hwaiting) (modify_of_getElem? hget) (add_zero _).symm rfl rfl
        · exact .idle
    · simp only [ne_eq, hwaiting]
      exact .idle

theorem addBlock_change (block : Block) (segmentID : Int) :
    Change pool (.addBlock peerID block segmentID) (pool.addBlock peerID block segmentID).1 := by
  unfold addBlock
  cases block.header with
  | none => exact .idle
  | some header =>
    cases he : pool.entry header.height with
    | none =>
      simp only [he]
      split_ifs
      · exact .idle
      · exact .removes (nil_subset _) ⟨_, rfl⟩
      · exact .idle
    | some e =>
      obtain ⟨requester, i⟩ := e
      obtain ⟨hget, hlisted, -⟩ := entry_spec he
      simp only [he, BpRequester.setBlock]
      by_cases hrefused : requester.block.isSome = true ∨ requester.peerID ≠ peerID
      · simp only [if_pos hrefused]
        exact .idle
      · simp only [if_neg hrefused]
        rw [not_or, Bool.not_eq_true, isSome_eq_false_iff, isNone_iff_eq_none, not_not] at hrefused
        obtain ⟨hempty, rfl⟩ := hrefused
        exact .turn hget (.fill block segmentID hlisted hempty) (modify_of_getElem? hget) rfl rfl rfl

theorem step_change (h : pool.step event = some pool') : Change pool event pool' := by
  cases event with
  | makeNextRequester => exact .makes rfl (Option.some.inj h).symm
  | addBlock peerID block segmentID =>
    cases h
    exact addBlock_change block segmentID
  | popRequest =>
    obtain ⟨e, he, rfl⟩ := map_eq_some_iff.1 h
    obtain ⟨hget, -⟩ := entry_spec he
    exact .turn hget .pop (modify_of_getElem? hget) (add_zero _).symm rfl rfl
  | redoRequest height =>
    obtain ⟨e, he, h⟩ := bind_eq_some_iff.1 h
    split at h
    · cases h
    · cases h
      have hsub : [e.1.peerID] ⊆ pool.mayRemove (.redoRequest height) := by simp [mayRemove, he]
      exact .removes hsub ⟨_, rfl⟩
  | setPeerHeight peerID height => exact .sets rfl (Option.some.inj h).symm
  | removePeer peerID =>
    cases h
    exact .removes (List.Subset.refl [peerID]) ⟨_, rfl⟩
  | onTimeout peerID => exact .timesOut (Option.some.inj h).symm
  | removeTimedoutPeers order slow =>
    cases h
    obtain ⟨peerIDs, hsub, hrem⟩ := removeTimedoutPeers_removes order slow pool
    exact .removes hsub hrem
  | pickInSegment minHeight targetSegment order =>
    cases h
    obtain ⟨peerIDs, mid, hsub, hrem, heq | ⟨peerID, peer, -, -, heq⟩⟩ := pickAvailable_removes (fun peerID peer =>
      decide (peer.numPending < maxPendingRequestsPerPeer) && decide (minHeight ≤ peer.height) &&
        decide (peerID.segmentID = targetSegment)) order pool
    · exact .picks rfl hsub hrem (by rw [pickIncrAvailablePeerInSegment, heq])
    · exact .picks rfl hsub hrem (by rw [pickIncrAvailablePeerInSegment, heq])
  | pick i order =>
    cases h
    exact pick_change i order
  | assign i =>
    cases h
    exact assign_change i
  | select i taken =>
    cases h
    exact select_change i taken
  | stop => exact .stops (Option.some.inj h).symm

/-! ## The count of pending requests -/

theorem unfilled_peerRemoved (r : BpRequester) :
    (r.peerRemoved peerID).unfilled = r.unfilled := by simp [BpRequester.unfilled]

theorem Removes.counts (h : Removes peerIDs pool pool') :
    pool'.unfilled = pool.unfilled ∧ pool'.numPending = pool.numPending := by
  refine h.keeps (I := fun mid => mid.unfilled = pool.unfilled ∧ mid.numPending = pool.numPending) ⟨rfl, rfl⟩ ?_
    fun _ _ h => h
  rintro mid peerID - ⟨hunfilled, hpending⟩
  have hone : BpRequester.unfilled ∘ BpRequester.peerRemoved peerID = BpRequester.unfilled :=
    funext unfilled_peerRemoved
  refine ⟨?_, hpending⟩
  rw [BlockPool.unfilled, removePeer, countP_map, hone]
  exact hunfilled

/-- What a requester adds to the count. -/
def weight (r : BpRequester) : Int := if r.unfilled then 1 else 0

theorem countP_set {p : BpRequester → Bool} {requesters : List BpRequester} {r : BpRequester} (r' : BpRequester)
    (h : requesters[i]? = some r) : ((requesters.set i r').countP p : Int) =
      requesters.countP p - (if p r then 1 else 0) + (if p r' then 1 else 0) := by
  obtain ⟨hlt, rfl⟩ := List.getElem?_eq_some_iff.1 h
  rw [List.countP_set hlt]
  have hpos : p requesters[i] = true → 0 < requesters.countP p := fun hr => countP_pos_iff.2 ⟨_, getElem_mem hlt, hr⟩
  split_ifs with hr hr' hr'
  · have := hpos hr
    omega
  · have := hpos hr
    omega
  · omega
  · omega

theorem countP_set_weight {requesters : List BpRequester} {r : BpRequester} (r' : BpRequester)
    (h : requesters[i]? = some r) : ((requesters.set i r').countP BpRequester.unfilled : Int) =
      requesters.countP BpRequester.unfilled - weight r + weight r' := countP_set r' h

/-- The counter is the number of requesters in the map without a block. -/
def Counted (process : Option BlockPool) : Prop := ∀ pool, process = some pool → pool.numPending = pool.unfilled

def KeepsCount : Option BlockPool → PoolEvent → Prop
  | some pool, .makeNextRequester => ∀ e ∈ pool.entry pool.nextHeight, e.1.block.isSome = true
  | some pool, .popRequest => ∀ e ∈ pool.entry pool.height, e.1.block.isSome = true
  | some pool, .select i .redo => ∀ r ∈ pool.requesters[i]?,
      r.routine = .waiting → r.redoCh = true → r.block.isSome = true → r.listed = true
  | _, _ => True

def touchesCount : PoolEvent → Bool
  | .makeNextRequester | .popRequest | .select _ .redo => true
  | _ => false

theorem Turn.weight_eq {peers peers' : AList fun _ : NodeID => BpPeer} {r r' : BpRequester} {d : Int}
    (h : Turn i peers event r r' d peers') (hevent : touchesCount event = false) : weight r' - weight r = d := by
  cases h with
  | abandon | pick | assign | quit | gotBlock => exact sub_self (weight r)
  | fill block segmentID listed empty => simp [weight, BpRequester.unfilled, listed, empty]
  | redo | pop => cases hevent

theorem Change.counts (h : Change pool event pool') (hevent : touchesCount event = false)
    (hcount : pool.numPending = pool.unfilled) : pool'.numPending = pool'.unfilled := by
  cases h with
  | removes sub removes =>
    obtain ⟨hunfilled, hpending⟩ := removes.counts
    rw [hpending, hunfilled, hcount]
  | turns sub removes get turn requesters numPending removed heights =>
    obtain ⟨hunfilled, hpending⟩ := removes.counts
    rw [numPending, hpending, hcount, ← hunfilled, BlockPool.unfilled, BlockPool.unfilled, requesters,
      countP_set_weight _ get, ← turn.weight_eq hevent]
    ring
  | picks picked sub removes eq =>
    obtain ⟨hunfilled, hpending⟩ := removes.counts
    rw [eq]
    exact hpending.trans (hcount.trans (congrArg _ hunfilled.symm))
  | makes made => cases made ▸ hevent
  | sets set eq | timesOut eq | stops eq =>
    rw [eq]
    exact hcount

theorem makeNextRequester_counts_iff (hcount : pool.numPending = pool.unfilled) :
    pool.makeNextRequester.numPending = pool.makeNextRequester.unfilled ↔
    ∀ e ∈ pool.entry pool.nextHeight, e.1.block.isSome = true := by
  have hnew : [BpRequester.newBPRequester pool.nextHeight].countP BpRequester.unfilled = 1 := rfl
  unfold makeNextRequester
  cases he : pool.entry pool.nextHeight with
  | none => simp [BlockPool.unfilled, hnew, hcount]
  | some e =>
    obtain ⟨hget, hlisted, -⟩ := entry_spec he
    have hweight : weight e.1.unlist = 0 := by simp [weight, BpRequester.unfilled, BpRequester.unlist]
    simp only [BlockPool.unfilled, update, countP_append, hnew, modify_of_getElem? hget, Nat.cast_add,
      countP_set_weight _ hget, hweight, hcount, mem_def, Option.some.injEq, forall_eq']
    cases hblock : e.1.block with
    | none => simp [weight, BpRequester.unfilled, hlisted, hblock]
    | some d => simp [weight, BpRequester.unfilled, hblock]

theorem popRequest_counts_iff (hcount : pool.numPending = pool.unfilled) :
    (∀ pool', pool.popRequest = some pool' → pool'.numPending = pool'.unfilled) ↔
      ∀ e ∈ pool.entry pool.height, e.1.block.isSome = true := by
  unfold popRequest
  cases he : pool.entry pool.height with
  | none => simp
  | some e =>
    obtain ⟨hget, hlisted, -⟩ := entry_spec he
    have hweight : weight { e.1.unlist with running := false } = 0 := by
      simp [weight, BpRequester.unfilled, BpRequester.unlist]
    simp only [map_some, Option.some.injEq, forall_eq', BlockPool.unfilled, update, modify_of_getElem? hget,
      countP_set_weight _ hget, hweight, hcount, mem_def]
    cases hblock : e.1.block with
    | none =>
      simp only [weight, BpRequester.unfilled, hlisted, hblock, isNone_none, Bool.and_self, if_true, isSome_none,
        Bool.false_eq_true, iff_false]
      omega
    | some d => simp [weight, BpRequester.unfilled, hblock]

theorem redo_counts_iff (i : Nat) (hcount : pool.numPending = pool.unfilled) :
    (pool.select i .redo).numPending = (pool.select i .redo).unfilled ↔
      ∀ r ∈ pool.requesters[i]?, r.routine = .waiting → r.redoCh = true → r.block.isSome = true → r.listed = true := by
  unfold select
  cases hget : pool.requesters[i]? with
  | none => simp [hcount]
  | some r =>
    by_cases hwaiting : r.routine = .waiting
    · by_cases hready : r.redoCh = true
      · simp only [hwaiting, hready, ne_eq, not_true, if_false, if_true, BlockPool.unfilled, update,
          modify_of_getElem? hget,
          countP_set_weight _ hget, hcount, mem_def, Option.some.injEq, forall_eq', forall_const]
        cases hblock : r.block with
        | none => simp [weight, BpRequester.unfilled, BpRequester.reset, hblock]
        | some d =>
          cases hlisted : r.listed with
          | false | true => simp [weight, BpRequester.unfilled, BpRequester.reset, hblock, hlisted]
      · simp [hready, hcount]
    · simp [hwaiting, hcount]

theorem step_counts_iff (event : PoolEvent) (hcount : pool.numPending = pool.unfilled) :
    (∀ pool', pool.step event = some pool' → pool'.numPending = pool'.unfilled) ↔ KeepsCount (some pool) event := by
  have hrest (hevent : touchesCount event = false) : ∀ pool', pool.step event = some pool' →
    pool'.numPending = pool'.unfilled :=
    fun pool' h => (step_change h).counts hevent hcount
  cases event with
  | makeNextRequester =>
    simp only [step, Option.some.injEq, forall_eq']
    exact makeNextRequester_counts_iff hcount
  | popRequest => exact popRequest_counts_iff hcount
  | select i taken =>
    cases taken with
    | redo =>
      simp only [step, Option.some.injEq, forall_eq']
      exact redo_counts_iff i hcount
    | quit | gotBlock => exact iff_of_true (hrest rfl) trivial
  | addBlock => exact iff_of_true (hrest rfl) trivial
  | redoRequest | setPeerHeight | removePeer | onTimeout | removeTimedoutPeers | pickInSegment | pick | assign | stop =>
    exact iff_of_true (hrest rfl) trivial

end BlockPool

open BlockPool in
/-- `numPending` is the number of requesters without a block exactly as long as none of these is replaced or popped
and no popped one gives its block back. -/
theorem numPending_counts_iff (start : Int) (events : List PoolEvent) :
    (∀ done, done <+: events → ∀ pool, poolRun start done = some pool → pool.numPending = pool.unfilled) ↔
      Along poolStep KeepsCount (some (newBlockPool start)) events := by
  have hstep (process : Option BlockPool) (event : PoolEvent) (_ : True) (hcount : Counted process) :
      Counted (poolStep process event) ↔ KeepsCount process event := by
    cases process with
    | none => exact iff_of_true (fun _ h => nomatch h) trivial
    | some pool => exact step_counts_iff event (hcount pool rfl)
  have hstart : Counted (some (newBlockPool start)) := by
    rintro _ ⟨⟩
    rfl
  exact always_iff_along (I := fun _ => True) (fun _ _ _ _ => trivial) hstep trivial hstart events

/-- A requester that is replaced before its block came is counted twice. -/
theorem replaced_request_stays_pending : ∃ pool, poolRun 1 [.makeNextRequester, .makeNextRequester] = some pool ∧
    pool.numPending = 2 ∧ pool.unfilled = 1 := ⟨_, rfl, by decide, by decide⟩

/-! ## Blocks of removed peers -/

/-- What holds of a requester as long as its goroutine gets to see every removal of a peer. -/
structure BpRequester.Sound (removed : List NodeID) (r : BpRequester) : Prop where
  fresh : r.routine ≠ .waiting → r.routine ≠ .returned → r.block = none ∧ r.peerID = NodeID.zero
  sender : r.listed = true → ∀ d, r.block = some d → d.peerID = r.peerID
  redone : r.listed = true → ∀ d, r.block = some d → d.rejected = true → r.routine = .waiting ∧ r.redoCh = true
  known : r.listed = true → ∀ d, r.block = some d → d.peerID ∈ removed → d.rejected = true

namespace BpRequester

variable {removed : List NodeID} {peerID : NodeID} {r : BpRequester}

theorem Sound.mono {removed' : List NodeID} (h : r.Sound removed) (hsub : removed' ⊆ removed) : r.Sound removed' :=
  ⟨h.fresh, h.sender, h.redone, fun hl d hd hmem => h.known hl d hd (hsub hmem)⟩

theorem Sound.of_not_listed
    (hfresh : r.routine ≠ .waiting → r.routine ≠ .returned → r.block = none ∧ r.peerID = NodeID.zero)
    (hlisted : r.listed = false) : r.Sound removed := by
  have habsurd {p : Prop} (hl : r.listed = true) : p := by
    rw [hlisted] at hl
    cases hl
  exact ⟨hfresh, fun hl => habsurd hl, fun hl => habsurd hl, fun hl => habsurd hl⟩

theorem Sound.of_empty (hblock : r.block = none)
    (hpeer : r.routine ≠ .waiting → r.routine ≠ .returned → r.peerID = NodeID.zero) : r.Sound removed := by
  have habsurd {p : Prop} {d : Delivery} (hd : r.block = some d) : p := by
    rw [hblock] at hd
    cases hd
  exact ⟨fun hw hr => ⟨hblock, hpeer hw hr⟩, fun _ d hd => habsurd hd, fun _ d hd => habsurd hd,
    fun _ d hd => habsurd hd⟩

def Listens (peerID : NodeID) (r : BpRequester) : Prop :=
  r.listed = true → ∀ d ∈ r.block, d.peerID = peerID → r.routine ≠ .returned

instance (peerID : NodeID) (r : BpRequester) : Decidable (r.Listens peerID) :=
  inferInstanceAs (Decidable (r.listed = true → ∀ d ∈ r.block, d.peerID = peerID → r.routine ≠ .returned))

theorem Listens.peerRemoved {other : NodeID} (h : r.Listens other) : (r.peerRemoved peerID).Listens other := by
  intro hl d hd hpeer
  rw [BlockPool.listed_peerRemoved] at hl
  rw [BlockPool.block_peerRemoved] at hd
  rw [BlockPool.routine_peerRemoved]
  obtain ⟨d₀, hd₀, rfl⟩ := map_eq_some_iff.1 hd
  refine h hl d₀ hd₀ (Eq.trans ?_ hpeer)
  split <;> rfl

theorem Sound.peerRemoved (h : r.Sound removed) (hlistens : r.Listens peerID) :
    (r.peerRemoved peerID).Sound (peerID :: removed) := by
  have hblock := BlockPool.block_peerRemoved peerID r
  have hpeer := BlockPool.peerID_peerRemoved peerID r
  have hlisted := BlockPool.listed_peerRemoved peerID r
  -- a block afterwards is one from before, rejected if the peer sent it
  have hwas {d : Delivery} (hd : (r.peerRemoved peerID).block = some d) : ∃ d₀, r.block = some d₀ ∧
    d.peerID = d₀.peerID ∧
        ((d₀.peerID = peerID ∧ d.rejected = true) ∨ (d₀.peerID ≠ peerID ∧ d.rejected = d₀.rejected)) := by
    rw [hblock] at hd
    obtain ⟨d₀, hd₀, rfl⟩ := map_eq_some_iff.1 hd
    by_cases hsent : d₀.peerID = peerID
    · exact ⟨d₀, hd₀, by rw [if_pos hsent], .inl ⟨hsent, by rw [if_pos hsent]⟩⟩
    · exact ⟨d₀, hd₀, by rw [if_neg hsent], .inr ⟨hsent, by rw [if_neg hsent]⟩⟩
  constructor
  · intro hw hr
    rw [BlockPool.routine_peerRemoved] at hw hr
    rw [hblock, hpeer, (h.fresh hw hr).1]
    exact ⟨rfl, (h.fresh hw hr).2⟩
  · intro hl d hd
    rw [hlisted] at hl
    obtain ⟨d₀, hd₀, hsame, -⟩ := hwas hd
    rw [hsame, hpeer]
    exact h.sender hl d₀ hd₀
  · intro hl d hd hrejected
    rw [hlisted] at hl
    obtain ⟨d₀, hd₀, -, ⟨hsent, -⟩ | ⟨-, hsame⟩⟩ := hwas hd
    · have hself : r.peerID = peerID := (h.sender hl d₀ hd₀).symm.trans hsent
      have hreturned := hlistens hl d₀ hd₀ hsent
      have hwaiting : r.routine = .waiting := by
        by_contra hw
        rw [(h.fresh hw hreturned).1] at hd₀
        cases hd₀
      rw [BpRequester.peerRemoved, if_pos ⟨hl, hself⟩]
      exact ⟨hwaiting, rfl⟩
    · obtain ⟨hwaiting, hredo⟩ := h.redone hl d₀ hd₀ (hsame ▸ hrejected)
      unfold BpRequester.peerRemoved
      split
      · exact ⟨hwaiting, rfl⟩
      · exact ⟨hwaiting, hredo⟩
  · intro hl d hd hmem
    rw [hlisted] at hl
    obtain ⟨d₀, hd₀, hsame, ⟨-, hrejected⟩ | ⟨hother, hrejected⟩⟩ := hwas hd
    · exact hrejected
    · rw [hsame] at hmem
      rw [hrejected]
      exact h.known hl d₀ hd₀ ((mem_cons.1 hmem).resolve_left hother)

end BpRequester

namespace BlockPool

variable {pool pool' : BlockPool} {event : PoolEvent}

def Sound (pool : BlockPool) : Prop := ∀ r ∈ pool.requesters, r.Sound pool.removed

theorem Removes.sound {peerIDs : List NodeID} (h : Removes peerIDs pool pool') (hsound : pool.Sound)
    (hlistens : ∀ peerID ∈ peerIDs, ∀ r ∈ pool.requesters, r.Listens peerID) : pool'.Sound := by
  refine (h.keeps (I := fun pool => pool.Sound ∧ ∀ peerID ∈ peerIDs, ∀ r ∈ pool.requesters, r.Listens peerID)
    ⟨hsound, hlistens⟩ ?_ fun _ _ h => h).1
  rintro mid peerID hpeer ⟨hsound, hlistens⟩
  constructor
  · intro r hr
    obtain ⟨r₀, hr₀, rfl⟩ := List.mem_map.1 hr
    exact (hsound r₀ hr₀).peerRemoved (hlistens peerID hpeer r₀ hr₀)
  · intro other hother r hr
    obtain ⟨r₀, hr₀, rfl⟩ := List.mem_map.1 hr
    exact (hlistens other hother r₀ hr₀).peerRemoved

/-- A removed peer's blocks are asked for again: goroutines that hold one still listen and read the message before
their block, and no block comes from a removed peer or from none. -/
def Redoable : Option BlockPool → PoolEvent → Prop
  | none, _ => True
  | some pool, event => (∀ peerID ∈ pool.mayRemove event, ∀ r ∈ pool.requesters, r.Listens peerID) ∧
      match event with
      | .addBlock peerID _ _ => peerID ∉ pool.removed ∧ peerID ≠ NodeID.zero
      | .select i .quit | .select i .gotBlock =>
        ∀ r ∈ pool.requesters[i]?, r.listed = true → ∀ d ∈ r.block, d.rejected = false
      | _ => True

instance (process : Option BlockPool) (event : PoolEvent) : Decidable (Redoable process event) := by
  unfold Redoable
  split
  · infer_instance
  · exact @instDecidableAnd _ _ inferInstance (by split <;> infer_instance)

def Accepts (removed : List NodeID) (r : BpRequester) : PoolEvent → Prop
  | .addBlock peerID _ _ => peerID ∉ removed ∧ peerID ≠ NodeID.zero
  | .select _ .quit | .select _ .gotBlock => r.listed = true → ∀ d ∈ r.block, d.rejected = false
  | _ => True

variable {r : BpRequester}

/-- An event in which a block comes or a goroutine returns removes no peer. -/
theorem Redoable.accepts {peerIDs : List NodeID} {mid : BlockPool} {i : Nat} {peers : AList fun _ : NodeID => BpPeer}
    {r' : BpRequester} {d : Int} (h : Redoable (some pool) event) (hsub : peerIDs ⊆ pool.mayRemove event)
    (hrem : Removes peerIDs pool mid) (hget : mid.requesters[i]? = some r)
    (hturn : Turn i mid.peers event r r' d peers) :
    Accepts mid.removed r event := by
  have hsame (hnone : pool.mayRemove event = []) : mid.requesters = pool.requesters ∧ mid.removed = pool.removed := by
    obtain rfl : peerIDs = [] := subset_nil.1 (hnone ▸ hsub)
    obtain ⟨errors, rfl⟩ := hrem
    exact ⟨rfl, rfl⟩
  cases hturn with
  | abandon | pick | assign => trivial
  | quit waiting | gotBlock waiting => exact h.2 r ((hsame rfl).1 ▸ hget)
  | redo => trivial
  | fill block segmentID listed empty => exact ⟨(hsame rfl).2 ▸ h.2.1, h.2.2⟩
  | pop => trivial

theorem Turn.sound {removed : List NodeID} {i : Nat} {peers peers' : AList fun _ : NodeID => BpPeer}
    {r' : BpRequester} {d : Int} (h : Turn i peers event r r' d peers') (hsound : r.Sound removed)
    (haccepts : Accepts removed r event) : r'.Sound removed := by
  cases h with
  | abandon order picking | pick order picking =>
    have hfresh := hsound.fresh (by simp [picking]) (by simp [picking])
    exact .of_empty hfresh.1 fun _ _ => hfresh.2
  | assign picked =>
    have hfresh := hsound.fresh (by simp [picked]) (by simp [picked])
    exact .of_empty hfresh.1 fun hw _ => absurd rfl hw
  | quit waiting | gotBlock waiting =>
    refine ⟨fun _ hr => absurd rfl hr, hsound.sender, fun hl d hd hrejected => ?_, hsound.known⟩
    rw [haccepts hl d hd] at hrejected
    cases hrejected
  | redo waiting ready => exact .of_empty rfl fun _ _ => rfl
  | fill block segmentID listed empty =>
    obtain ⟨hpresent, hpeer⟩ := haccepts
    constructor
    · intro hw hr
      exact absurd (hsound.fresh hw hr).2 hpeer
    · rintro _ _ ⟨⟩
      rfl
    · rintro _ _ ⟨⟩ hrejected
      cases hrejected
    · rintro _ _ ⟨⟩ hmem
      exact absurd hmem hpresent
  | pop => exact .of_not_listed hsound.fresh rfl

theorem sound_newBPRequester (removed : List NodeID) (height : Int) :
    (BpRequester.newBPRequester height).Sound removed := .of_empty rfl fun _ _ => rfl

theorem mem_makeNextRequester (h : r ∈ pool.makeNextRequester.requesters) :
    r ∈ pool.requesters ∨ (∃ r₀ ∈ pool.requesters, r = r₀.unlist) ∨ r = BpRequester.newBPRequester pool.nextHeight := by
  rcases mem_append.1 h with h | h
  · cases he : pool.entry pool.nextHeight with
    | none =>
      rw [he] at h
      exact .inl h
    | some e =>
      obtain ⟨hget, -⟩ := entry_spec he
      simp only [he, update, modify_of_getElem? hget] at h
      rcases mem_or_eq_of_mem_set h with h | h
      · exact .inl h
      · exact .inr (.inl ⟨e.1, mem_of_getElem? hget, h⟩)
  · exact .inr (.inr (mem_singleton.1 h))

theorem Change.sound (h : Change pool event pool') (hsound : pool.Sound) (hredo : Redoable (some pool) event) :
    pool'.Sound := by
  cases h with
  | removes sub removes => exact removes.sound hsound fun peerID hmem => hredo.1 peerID (sub hmem)
  | turns sub removes get turn requesters numPending removed heights =>
    have hmid := removes.sound hsound fun peerID hmem => hredo.1 peerID (sub hmem)
    intro r hr
    rw [requesters] at hr
    rw [removed]
    rcases mem_or_eq_of_mem_set hr with hr | rfl
    · exact hmid r hr
    · exact turn.sound (hmid _ (mem_of_getElem? get)) (hredo.accepts sub removes get turn)
  | picks picked sub removes eq =>
    rw [eq]
    exact removes.sound hsound fun peerID hmem => hredo.1 peerID (sub hmem)
  | makes made eq =>
    subst eq
    have hremoved : pool.makeNextRequester.removed = pool.removed := by
      unfold makeNextRequester
      cases pool.entry pool.nextHeight <;> rfl
    intro r hr
    rw [hremoved]
    rcases mem_makeNextRequester hr with hr | ⟨r₀, hr₀, rfl⟩ | rfl
    · exact hsound r hr
    · exact .of_not_listed (hsound r₀ hr₀).fresh rfl
    · exact sound_newBPRequester _ _
  | sets set eq =>
    subst eq
    exact fun r hr => (hsound r hr).mono filter_sublist.subset
  | timesOut eq | stops eq =>
    subst eq
    exact hsound

/-- The goroutines have read their messages, but for those that have returned. -/
def Quiet (pool : BlockPool) : Prop :=
  ∀ r ∈ pool.requesters, r.routine ≠ .returned → r.redoCh = false ∧ r.gotBlockCh = false

instance (pool : BlockPool) : Decidable pool.Quiet :=
  inferInstanceAs (Decidable (∀ r ∈ pool.requesters, r.routine ≠ .returned → r.redoCh = false ∧ r.gotBlockCh = false))

theorem Sound.accepted (h : pool.Sound) (hquiet : pool.Quiet) (hr : r ∈ pool.requesters) (hlisted : r.listed = true)
    {d : Delivery} (hd : r.block = some d) : d.rejected = false ∧ d.peerID ∉ pool.removed := by
  have haccepted : d.rejected ≠ true := by
    intro hrejected
    obtain ⟨hwaiting, hredo⟩ := (h r hr).redone hlisted d hd hrejected
    rw [(hquiet r hr (by simp [hwaiting])).1] at hredo
    cases hredo
  exact ⟨Bool.eq_false_iff.2 haccepted, fun hmem => haccepted ((h r hr).known hlisted d hd hmem)⟩

end BlockPool

open BlockPool in
/-- `RedoRequest` and `RemovePeer` leave a message for the goroutine, which has returned once it got its block. Where
no message is for such a one, no block of a removed peer stays. -/
theorem rejected_blocks_refetched (start : Int) (events : List PoolEvent)
    (h : Along poolStep Redoable (some (newBlockPool start)) events) :
    ∀ done, done <+: events → ∀ pool, poolRun start done = some pool → pool.Quiet →
      (∀ r ∈ pool.requesters, r.listed = true → ∀ d, r.block = some d → d.rejected = false ∧ d.peerID ∉ pool.removed) ∧
      ∀ d, pool.peekBlock = some d → d.rejected = false ∧ d.peerID ∉ pool.removed := by
  have hstep (process : Option BlockPool) (event : PoolEvent) (hsound : ∀ pool, process = some pool → pool.Sound)
      (hredo : Redoable process event) : ∀ pool, poolStep process event = some pool → pool.Sound := by
    intro pool' hpool
    obtain ⟨pool, rfl, hpool⟩ := bind_eq_some_iff.1 hpool
    exact (step_change hpool).sound (hsound pool rfl) hredo
  have hstart : ∀ pool, some (newBlockPool start) = some pool → pool.Sound := by
    rintro _ ⟨⟩
    exact fun r hr => nomatch hr
  intro done hdone pool hpool hquiet
  have hsound := always_of_along hstep hstart h done hdone pool hpool
  refine ⟨fun r hr hlisted d hd => hsound.accepted hquiet hr hlisted hd, fun d hd => ?_⟩
  obtain ⟨e, he, hd⟩ := bind_eq_some_iff.1 hd
  obtain ⟨hget, hlisted, -⟩ := entry_spec he
  exact hsound.accepted hquiet (mem_of_getElem? hget) hlisted hd

def firstPeer : NodeID := ⟨List.replicate 64 1, rfl⟩

def secondPeer : NodeID := ⟨List.replicate 64 2, rfl⟩

def firstBlock : Block :=
  ⟨some ⟨[], 1, 0, 0, BlockID.empty, 0, [], [], [], [], [], none⟩, none, none⟩

/-- The first peer is removed before the requester reads that it got a block. -/
def refetchEvents : List PoolEvent :=
  [.makeNextRequester, .setPeerHeight firstPeer 5, .pick 0 [firstPeer], .assign 0, .addBlock firstPeer firstBlock 0,
    .removePeer firstPeer, .select 0 .redo, .setPeerHeight secondPeer 5, .pick 0 [secondPeer], .assign 0,
    .addBlock secondPeer firstBlock 0, .select 0 .gotBlock]

theorem isSome_refetchEvents : (poolRun 1 refetchEvents).isSome = true := by decide +kernel

theorem refetchEvents_refetch : ∃ pool, poolRun 1 refetchEvents = some pool ∧ firstPeer ∈ pool.removed ∧
    pool.peekBlock = some ⟨firstBlock, secondPeer, false⟩ ∧ secondPeer ∉ pool.removed := by
  have hpool : poolRun 1 refetchEvents = some ((poolRun 1 refetchEvents).get isSome_refetchEvents) :=
    (some_get isSome_refetchEvents).symm
  have hpeek : ((poolRun 1 refetchEvents).get isSome_refetchEvents).peekBlock =
    some ⟨firstBlock, secondPeer, false⟩ := by
    decide +kernel
  have hkept := rejected_blocks_refetched 1 refetchEvents (by decide +kernel) refetchEvents (prefix_refl _) _ hpool
    (by decide +kernel)
  exact ⟨_, hpool, by decide +kernel, hpeek, (hkept.2 _ hpeek).2⟩

/-- The events up to the return of the goroutine, and the block is found to be bad. -/
def badBlockEvents : List PoolEvent :=
  [.makeNextRequester, .setPeerHeight firstPeer 5, .pick 0 [firstPeer], .assign 0, .addBlock firstPeer firstBlock 0,
    .select 0 .gotBlock, .redoRequest 1]

theorem isSome_badBlockEvents : (poolRun 1 badBlockEvents).isSome = true := by decide +kernel

/-- The block of a peer that `RedoRequest` removed is the next one again. -/
theorem bad_block_stays : ∃ pool, poolRun 1 badBlockEvents = some pool ∧ pool.Quiet ∧ firstPeer ∈ pool.removed ∧
    pool.peekBlock = some ⟨firstBlock, firstPeer, true⟩ :=
  ⟨_, (some_get isSome_badBlockEvents).symm, by decide +kernel, by decide +kernel, by decide +kernel⟩

end Demars.Blockchain
