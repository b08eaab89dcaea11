import Demars.Blockchain.Requests

/-!
# The peers of the pool, and the heights it asks for

The counts and the timers of the peers, and `makeNextRequester`, which chooses the next height to ask for.
-/

namespace Demars.Blockchain

open Runs List Option

namespace BlockPool

variable {pool pool' : BlockPool} {event : PoolEvent}

/-! ## The schedule -/

theorem Removes.heights {peerIDs : List NodeID} (h : Removes peerIDs pool pool') :
    (pool'.maxRequesterHeight, pool'.maxPeerHeight) = (pool.maxRequesterHeight, pool.maxPeerHeight) :=
  h.keeps (I := fun mid => (mid.maxRequesterHeight, mid.maxPeerHeight) =
    (pool.maxRequesterHeight, pool.maxPeerHeight)) rfl
    (fun _ _ _ h => h) fun _ _ h => h

theorem Change.heights (h : Change pool event pool') :
    pool'.maxRequesterHeight = pool.maxRequesterHeight ∧ pool.maxPeerHeight ≤ pool'.maxPeerHeight := by
  have hsame (h : (pool'.maxRequesterHeight, pool'.maxPeerHeight) = (pool.maxRequesterHeight, pool.maxPeerHeight)) :
      pool'.maxRequesterHeight = pool.maxRequesterHeight ∧ pool.maxPeerHeight ≤ pool'.maxPeerHeight := by
    rw [Prod.mk.injEq] at h
    exact ⟨h.1, h.2.ge⟩
  cases h with
  | removes sub removes => exact hsame removes.heights
  | turns sub removes get turn requesters numPending removed heights => exact hsame (heights.trans removes.heights)
  | picks picked sub removes eq =>
    rw [eq] at hsame ⊢
    exact hsame removes.heights
  | makes made eq =>
    subst eq
    unfold makeNextRequester
    cases pool.entry pool.nextHeight <;> exact ⟨rfl, le_rfl⟩
  | sets set eq =>
    subst eq
    dsimp only [setPeerHeight]
    split <;> omega
  | timesOut eq | stops eq =>
    subst eq
    exact ⟨rfl, le_rfl⟩

/-- The states of the pool in which `makeNextRequester` is called. -/
def requestsMade : Option BlockPool → List PoolEvent → List BlockPool
  | _, [] => []
  | process, event :: events =>
    (match event with | .makeNextRequester => process.toList | _ => []) ++ requestsMade (poolStep process event) events

theorem nextHeight_of_mem_requestsMade {process : Option BlockPool} (events : List PoolEvent)
    (hprocess : ∀ pool ∈ process, pool.maxRequesterHeight = 0 ∧ 0 ≤ pool.maxPeerHeight) :
    ∀ pool ∈ requestsMade process events, pool.nextHeight = if 1000 ∣ pool.maxPeerHeight then 1 else 1000 := by
  induction events generalizing process with
  | nil => simp [requestsMade]
  | cons event events ih =>
    intro pool hpool
    rcases mem_append.1 hpool with hpool | hpool
    · have hmem : pool ∈ process := by
        cases event <;> simp at hpool ⊢
        exact hpool
      obtain ⟨hzero, hnonneg⟩ := hprocess pool hmem
      rw [nextHeight, hzero, Int.zero_tmod, Int.zero_tmod, Int.tmod_eq_emod_of_nonneg hnonneg,
        Int.tmod_eq_emod_of_nonneg hnonneg]
      split_ifs <;> omega
    · refine ih (fun pool' hpool' => ?_) pool hpool
      obtain ⟨pool₀, hpool₀, hstep⟩ := bind_eq_some_iff.1 hpool'
      obtain ⟨hreq, hmax⟩ := (step_change hstep).heights
      obtain ⟨hzero, hnonneg⟩ := hprocess pool₀ hpool₀
      exact ⟨hreq.trans hzero, hnonneg.trans hmax⟩

/-- The chosen heights increase, above the height of the pool and not above that of its peers. -/
def Scheduled (pools : List BlockPool) : Prop :=
  (pools.map nextHeight).Pairwise (· < ·) ∧ ∀ pool ∈ pools, pool.height < pool.nextHeight ∧
    pool.nextHeight ≤ pool.maxPeerHeight

/-- At most two calls, for heights 1 and 1000, while these lie ahead of the pool and its peers have them. -/
def InTurn : List BlockPool → Prop
  | [] => True
  | [pool] => (1000 ∣ pool.maxPeerHeight ∧ pool.height < 1 ∧ 1 ≤ pool.maxPeerHeight) ∨
      (¬ 1000 ∣ pool.maxPeerHeight ∧ pool.height < 1000 ∧ 1000 ≤ pool.maxPeerHeight)
  | [pool₁, pool₂] => (1000 ∣ pool₁.maxPeerHeight ∧ pool₁.height < 1 ∧ 1 ≤ pool₁.maxPeerHeight) ∧
      (¬ 1000 ∣ pool₂.maxPeerHeight ∧ pool₂.height < 1000 ∧ 1000 ≤ pool₂.maxPeerHeight)
  | _ => False

/-- `maxRequesterHeight` is never written, so the height chosen is 1 or 1000, and a third call is never in order. -/
theorem schedule_iff (start : Int) (events : List PoolEvent) :
    Scheduled (requestsMade (some (newBlockPool start)) events) ↔
    InTurn (requestsMade (some (newBlockPool start)) events) := by
  have hstart : ∀ pool ∈ some (newBlockPool start), pool.maxRequesterHeight = 0 ∧ 0 ≤ pool.maxPeerHeight := by
    rintro _ ⟨⟩
    exact ⟨rfl, le_rfl⟩
  have hnext := nextHeight_of_mem_requestsMade events hstart
  generalize requestsMade (some (newBlockPool start)) events = pools at hnext
  rcases pools with _ | ⟨p, _ | ⟨q, _ | ⟨r, rest⟩⟩⟩
  · simp [Scheduled, InTurn]
  · have hp := hnext p (by simp)
    by_cases hd : 1000 ∣ p.maxPeerHeight <;> simp [Scheduled, InTurn, hp, hd]
  · have hp := hnext p (by simp)
    have hq := hnext q (by simp)
    by_cases hd : 1000 ∣ p.maxPeerHeight <;> by_cases he : 1000 ∣ q.maxPeerHeight <;>
      simp [Scheduled, InTurn, hp, hq, hd, he]
  · refine iff_of_false ?_ id
    rintro ⟨hpair, -⟩
    have hp := hnext p (by simp)
    have hq := hnext q (by simp)
    have hr := hnext r (by simp)
    simp only [map_cons, pairwise_cons, mem_cons, forall_eq_or_imp] at hpair
    obtain ⟨⟨hpq, -⟩, ⟨hqr, -⟩, -⟩ := hpair
    rw [hq, hr] at hqr
    split_ifs at hpq hqr <;> omega

/-- With a peer at height 2500 the height 1000 is asked for each time, and with one at 500 too. -/
theorem schedule_repeats :
    ([2500, 500].map fun height =>
      (requestsMade (some (newBlockPool 1)) [.setPeerHeight firstPeer height, .makeNextRequester,
        .makeNextRequester]).map fun pool => (pool.nextHeight, pool.maxPeerHeight)) =
      [[(1000, 2500), (1000, 2500)], [(1000, 500), (1000, 500)]] := by
  decide +kernel

end BlockPool

/-! ## The counts of the peers -/

/-- The requester has picked the peer, and has no block since. -/
def BpRequester.awaits (peerID : NodeID) (r : BpRequester) : Bool :=
  decide (r.routine = .picked peerID) || (decide (r.peerID = peerID) && r.block.isNone)

/-- What the requesters keep, given the counts of the peers. -/
structure BpRequester.Orderly (count : NodeID → Option Int) (r : BpRequester) : Prop where
  fresh : r.routine ≠ .waiting → r.routine ≠ .returned → r.block = none ∧ r.peerID = NodeID.zero ∧ r.redoCh = false
  sent : r.block ≠ none → r.peerID ≠ NodeID.zero
  gone : r.redoCh = true → r.block = none → count r.peerID = none

namespace BlockPool

variable {pool pool' : BlockPool} {event : PoolEvent} {peerID : NodeID} {i : Nat} {r r' : BpRequester}

def outstanding (pool : BlockPool) (peerID : NodeID) : Nat := pool.requesters.countP (BpRequester.awaits peerID)

def count (peers : AList fun _ : NodeID => BpPeer) (peerID : NodeID) : Option Int :=
  (peers.lookup peerID).map BpPeer.numPending

theorem count_insert (peers : AList fun _ : NodeID => BpPeer) (peer : BpPeer) (p : NodeID) :
    count (peers.insert peerID peer) p = if p = peerID then some peer.numPending else count peers p := by
  unfold count
  split_ifs with hp
  · rw [hp, AList.lookup_insert, map_some]
  · rw [AList.lookup_insert_ne hp]

/-- Each count is the number of outstanding requests. -/
structure PeersOk (pool : BlockPool) : Prop where
  requesters : ∀ r ∈ pool.requesters, r.Orderly (count pool.peers)
  counted : ∀ peerID n, count pool.peers peerID = some n → n = pool.outstanding peerID ∧ n ≤ maxPendingRequestsPerPeer
  nonzero : count pool.peers NodeID.zero = none

theorem PeersOk.congr (h : pool.PeersOk) (hrequesters : pool'.requesters = pool.requesters)
    (hcount : count pool'.peers = count pool.peers) :
    pool'.PeersOk := by
  refine ⟨?_, ?_, by rw [hcount]; exact h.nonzero⟩
  · rw [hrequesters, hcount]
    exact h.requesters
  · simp only [hcount, outstanding, hrequesters]
    exact h.counted

theorem PeersOk.ne_zero (h : pool.PeersOk) {n : Int} (hn : count pool.peers peerID = some n) :
    NodeID.zero ≠ peerID := by
  rintro rfl
  rw [h.nonzero] at hn
  cases hn

/-- A requester takes a turn, and its peer counts it. -/
theorem PeersOk.turn (h : pool.PeersOk) (hget : pool.requesters[i]? = some r)
    (hset : pool'.requesters = pool.requesters.set i r') (hr : r'.Orderly (count pool.peers))
    (hcount : ∀ p, count pool'.peers p = (count pool.peers p).map fun n => n - (if r.awaits p then 1 else 0) +
      (if r'.awaits p then 1 else 0))
    (hmax : ∀ p n, count pool'.peers p = some n → n ≤ maxPendingRequestsPerPeer) : pool'.PeersOk := by
  have hgone : ∀ {x : BpRequester}, x.Orderly (count pool.peers) → x.Orderly (count pool'.peers) := fun hx =>
    ⟨hx.fresh, hx.sent, fun hredo hblock => by rw [hcount, hx.gone hredo hblock]; rfl⟩
  refine ⟨fun x hx => ?_, fun p n hn => ⟨?_, hmax p n hn⟩, by rw [hcount, h.nonzero]; rfl⟩
  · rw [hset] at hx
    rcases mem_or_eq_of_mem_set hx with hx | rfl
    · exact hgone (h.requesters x hx)
    · exact hgone hr
  · rw [hcount] at hn
    obtain ⟨n₀, hn₀, rfl⟩ := map_eq_some_iff.1 hn
    rw [(h.counted p n₀ hn₀).1, outstanding, outstanding, hset, countP_set _ hget]

/-- A turn that no peer has to do with. -/
theorem PeersOk.idle (h : pool.PeersOk) (hget : pool.requesters[i]? = some r)
    (hset : pool'.requesters = pool.requesters.set i r') (hpeers : pool'.peers = pool.peers)
    (hr : r'.Orderly (count pool.peers))
    (hawaits : ∀ p, NodeID.zero ≠ p → count pool.peers p ≠ none → r'.awaits p = r.awaits p) : pool'.PeersOk := by
  refine h.turn hget hset hr (fun p => ?_) fun p n hn => (h.counted p n (hpeers ▸ hn)).2
  rw [hpeers]
  cases hn : count pool.peers p with
  | none => rfl
  | some n =>
    rw [hawaits p (h.ne_zero hn) (by rw [hn]; nofun), map_some]
    congr 1
    omega

theorem Turn.peersOk {peers : AList fun _ : NodeID => BpPeer} {d : Int} (hturn : Turn i pool.peers event r r' d peers)
    (h : pool.PeersOk) (hget : pool.requesters[i]? = some r) (hset : pool'.requesters = pool.requesters.set i r')
    (hpeers : pool'.peers = peers)
    (hzero : ∀ peerID block segmentID, event = .addBlock peerID block segmentID → peerID ≠ NodeID.zero) :
    pool'.PeersOk := by
  have hr := h.requesters r (mem_of_getElem? hget)
  cases hturn with
  | abandon order picking =>
    exact h.idle hget hset hpeers ⟨fun _ hret => absurd rfl hret, hr.sent, hr.gone⟩
      fun p _ _ => by simp [BpRequester.awaits, picking]
  | @pick order peerID peer _ picking there room =>
    obtain ⟨hblock, hpeer, hredo⟩ := hr.fresh (by simp [picking]) (by simp [picking])
    have hcount : ∀ p, count pool'.peers p = if p = peerID then some (peer.numPending + 1) else count pool.peers p :=
      fun p => by
      rw [hpeers, count_insert]
    refine h.turn hget hset ⟨fun _ _ => ⟨hblock, hpeer, hredo⟩, fun hb => absurd hblock hb, fun hr => ?_⟩
      (fun p => ?_) fun p n hn => ?_
    · exact absurd hr (by simp [hredo])
    · rw [hcount]
      cases hn : count pool.peers p with
      | none =>
        rw [if_neg]
        · rfl
        · rintro rfl
          simp [count, there] at hn
      | some n =>
        have hne := h.ne_zero hn
        by_cases hp : peerID = p
        · subst hp
          simp only [count, there, map_some, some_inj] at hn
          simp [BpRequester.awaits, picking, hpeer, hne, hn]
        · simp [BpRequester.awaits, picking, hp, Ne.symm hp]
    · rw [hcount] at hn
      split_ifs at hn
      · cases hn
        omega
      · exact (h.counted p n hn).2
  | assign picked =>
    obtain ⟨hblock, hpeer, hredo⟩ := hr.fresh (by simp [picked]) (by simp [picked])
    refine h.idle hget hset hpeers ⟨fun hw => absurd rfl hw, fun hb => absurd hblock hb, fun hr => ?_⟩ fun p hne _ => ?_
    · exact absurd hr (by simp [hredo])
    · simp [BpRequester.awaits, picked, hblock, hpeer, hne]
  | quit waiting | gotBlock waiting =>
    exact h.idle hget hset hpeers ⟨fun _ hret => absurd rfl hret, hr.sent, hr.gone⟩
      fun p _ _ => by simp [BpRequester.awaits, waiting]
  | redo waiting ready =>
    refine h.idle hget hset hpeers ⟨fun _ _ => ⟨rfl, rfl, rfl⟩, fun hb => absurd rfl hb, fun hredo => by cases hredo⟩
      fun p hne hp => ?_
    -- a requester that is told to ask again waits for a peer that is gone, or has its block
    cases hblock : r.block with
    | none =>
      have hself : r.peerID ≠ p := by
        rintro rfl
        exact hp (hr.gone ready hblock)
      simp [BpRequester.awaits, BpRequester.reset, waiting, hne, hself]
    | some d => simp [BpRequester.awaits, BpRequester.reset, waiting, hne, hblock]
  | fill block segmentID listed empty =>
    have hnot := hzero _ _ _ rfl
    have hroutine : ∀ p, r.routine ≠ .picked p := fun p hp => hnot (hr.fresh (by simp [hp]) (by simp [hp])).2.1
    have hcount : ∀ p, count pool'.peers p = (count pool.peers p).map fun n => n - if r.peerID = p then 1 else 0 :=
      fun p => by
      rw [hpeers, decrPending]
      cases hl : pool.peers.lookup r.peerID with
      | none =>
        by_cases hp : r.peerID = p
        · subst hp
          simp [count, hl]
        · simp [hp]
      | some peer =>
        rw [count_insert]
        by_cases hp : r.peerID = p
        · subst hp
          simp [count, hl]
        · simp [hp, Ne.symm hp]
    refine h.turn hget hset ⟨fun hw hret => absurd (hr.fresh hw hret).2.1 hnot, fun _ => hnot,
      fun _ hb => by cases hb⟩ (fun p => ?_)
      fun p n hn => ?_
    · rw [hcount]
      simp [BpRequester.awaits, hroutine, empty]
    · rw [hcount] at hn
      obtain ⟨n₀, hn₀, rfl⟩ := map_eq_some_iff.1 hn
      have := (h.counted p n₀ hn₀).2
      split_ifs <;> omega
  | pop => exact h.idle hget hset hpeers ⟨hr.fresh, hr.sent, hr.gone⟩ fun p _ _ => rfl

theorem PeersOk.removePeer (h : pool.PeersOk) (hzero : peerID ≠ NodeID.zero) : (pool.removePeer peerID).PeersOk := by
  have hcount : ∀ p, count (pool.removePeer peerID).peers p = if p = peerID then none else count pool.peers p :=
    fun p => by
    unfold count
    split_ifs with hp
    · rw [hp, BlockPool.removePeer, AList.lookup_erase, map_none]
    · rw [BlockPool.removePeer, AList.lookup_erase_ne hp]
  refine ⟨fun r' hr' => ?_, fun p n hn => ?_, by rw [hcount, h.nonzero, ite_self]⟩
  · obtain ⟨r, hr, rfl⟩ := List.mem_map.1 hr'
    obtain ⟨hfresh, hsent, hgone⟩ := h.requesters r hr
    refine ⟨fun hw hret => ?_, by simpa using hsent, fun hredo hblock => ?_⟩
    · simp only [routine_peerRemoved] at hw hret
      obtain ⟨hblock, hpeer, hredo⟩ := hfresh hw hret
      rw [BpRequester.peerRemoved, if_neg fun hself => hzero (hself.2.symm.trans hpeer)]
      exact ⟨by simp [BpRequester.reject, hblock], hpeer, hredo⟩
    · rw [hcount, peerID_peerRemoved]
      split_ifs with hself
      · rfl
      · rw [BpRequester.peerRemoved, if_neg fun h => hself h.2] at hredo
        exact hgone hredo (by simpa using hblock)
  · have hone : BpRequester.awaits p ∘ BpRequester.peerRemoved peerID = BpRequester.awaits p := by
      funext r
      simp [BpRequester.awaits]
    rw [outstanding, BlockPool.removePeer, countP_map, hone]
    rw [hcount] at hn
    split_ifs at hn
    exact h.counted p n hn

theorem PeersOk.makeNextRequester (h : pool.PeersOk) : pool.makeNextRequester.PeersOk := by
  have hpeers : pool.makeNextRequester.peers = pool.peers := by
    unfold BlockPool.makeNextRequester
    cases pool.entry pool.nextHeight <;> rfl
  refine ⟨fun r hr => ?_, fun p n hn => ?_, by rw [hpeers, h.nonzero]⟩
  · rw [hpeers]
    rcases mem_makeNextRequester hr with hr | ⟨r₀, hr₀, rfl⟩ | rfl
    · exact h.requesters r hr
    · have := h.requesters r₀ hr₀
      exact ⟨this.fresh, this.sent, this.gone⟩
    · exact ⟨fun _ _ => ⟨rfl, rfl, rfl⟩, fun hb => absurd rfl hb, nofun⟩
  · rw [hpeers] at hn
    have hsame : (pool.makeNextRequester.outstanding p : Int) = pool.outstanding p := by
      have hnew : (BpRequester.newBPRequester pool.nextHeight).awaits p = false := by
        simp [BpRequester.awaits, BpRequester.newBPRequester, h.ne_zero hn]
      unfold BlockPool.makeNextRequester
      cases he : pool.entry pool.nextHeight with
      | none => simp [outstanding, hnew]
      | some e =>
        obtain ⟨hget, -⟩ := entry_spec he
        have hunlist : e.1.unlist.awaits p = e.1.awaits p := rfl
        simp [outstanding, BlockPool.update, modify_of_getElem? hget, countP_set _ hget, hnew, hunlist]
    rw [hsame]
    exact h.counted p n hn

theorem PeersOk.setPeerHeight (h : pool.PeersOk) (hzero : peerID ≠ NodeID.zero)
    (hnew : pool.peers.lookup peerID = none → pool.outstanding peerID = 0) (height : Int) :
    (pool.setPeerHeight peerID height).PeersOk := by
  cases hl : pool.peers.lookup peerID with
  | some peer =>
    refine h.congr rfl (funext fun p => ?_)
    simp only [BlockPool.setPeerHeight, hl, count_insert]
    split_ifs with hp
    · subst hp
      simp [count, hl]
    · rfl
  | none =>
    -- a new object counts from zero
    have hcount : ∀ p, count (pool.setPeerHeight peerID height).peers p = if p = peerID then some 0
      else count pool.peers p := fun p => by
      simp only [BlockPool.setPeerHeight, hl, count_insert]
    have hnone := hnew hl
    refine ⟨fun r hr => ?_, fun p n hn => ?_, by rw [hcount, if_neg hzero.symm, h.nonzero]⟩
    · obtain ⟨hfresh, hsent, hgone⟩ := h.requesters r hr
      refine ⟨hfresh, hsent, fun hredo hblock => ?_⟩
      rw [hcount, if_neg, hgone hredo hblock]
      intro hself
      exact countP_eq_zero.1 hnone r hr (by simp [BpRequester.awaits, hself, hblock])
    · rw [hcount] at hn
      split_ifs at hn with hp
      · cases hn
        subst hp
        exact ⟨(congrArg _ hnone).symm, by decide⟩
      · exact h.counted p n hn

/-- Events name peers, no peer is picked in a segment, and one is made only under an id that no requester without a
block has. -/
def Undisturbed : Option BlockPool → PoolEvent → Prop
  | some pool, .setPeerHeight peerID _ => peerID ≠ NodeID.zero ∧
      (pool.peers.lookup peerID = none → pool.outstanding peerID = 0)
  | _, .removePeer peerID => peerID ≠ NodeID.zero
  | _, .addBlock peerID _ _ => peerID ≠ NodeID.zero
  | _, .pickInSegment _ _ _ => False
  | _, _ => True

instance (process : Option BlockPool) (event : PoolEvent) : Decidable (Undisturbed process event) := by
  induction process using Option.casesOn <;> induction event using PoolEvent.casesOn <;> dsimp only [Undisturbed] <;>
    infer_instance

theorem PeersOk.mayRemove (h : pool.PeersOk) (hevent : Undisturbed (some pool) event)
    (hstep : pool.step event = some pool') :
    ∀ p ∈ pool.mayRemove event, p ≠ NodeID.zero := by
  have htimed {slow : NodeID → Bool} {order : List NodeID} : ∀ p ∈ order.filter (pool.timedOut slow), p ≠
    NodeID.zero := by
    rintro p hp rfl
    simp [timedOut, map_eq_none_iff.1 h.nonzero] at hp
  cases event with
  | redoRequest height =>
    obtain ⟨e, he, hstep⟩ := bind_eq_some_iff.1 hstep
    have hblock : e.1.block ≠ none := by
      intro hnone
      simp [hnone] at hstep
    simpa [BlockPool.mayRemove, he] using (h.requesters e.1 (mem_of_getElem? (entry_spec he).1)).sent hblock
  | removePeer peerID =>
    rintro p hp
    rw [mem_singleton.1 hp]
    exact hevent
  | removeTimedoutPeers | pickInSegment | pick => exact htimed
  | makeNextRequester | addBlock | popRequest | setPeerHeight | onTimeout | assign | select | stop =>
    exact fun _ hp => absurd hp not_mem_nil

theorem PeersOk.step (h : pool.PeersOk) (hevent : Undisturbed (some pool) event)
    (hstep : pool.step event = some pool') : pool'.PeersOk := by
  have hremoves {peerIDs : List NodeID} {mid : BlockPool} (hsub : peerIDs ⊆ pool.mayRemove event)
    (hrem : Removes peerIDs pool mid) :
      mid.PeersOk :=
    hrem.keeps h (fun mid p hp hok => hok.removePeer (h.mayRemove hevent hstep p (hsub hp))) fun mid errors hok =>
      hok.congr rfl rfl
  cases step_change hstep with
  | removes sub removes => exact hremoves sub removes
  | turns sub removes get turn requesters numPending removed heights =>
    refine turn.peersOk (hremoves sub removes) get requesters rfl ?_
    rintro peerID block segmentID rfl
    exact hevent
  | picks picked sub removes eq =>
    subst picked
    cases hevent
  | makes made eq =>
    subst eq
    exact h.makeNextRequester
  | sets set eq =>
    subst set eq
    exact h.setPeerHeight hevent.1 hevent.2 _
  | @timesOut peerID eq =>
    subst eq
    refine h.congr rfl (funext fun p => ?_)
    unfold onTimeout
    cases hl : pool.peers.lookup peerID with
    | none => rfl
    | some peer =>
      simp only [count_insert]
      split_ifs with hp
      · subst hp
        simp [count, hl]
      · rfl
  | stops eq =>
    subst eq
    exact h.congr rfl rfl

/-- The pool with the peers whose monitor and timer are set: `incrPending` sets them where it raises a count of zero.
-/
def armedStep (s : Option BlockPool × (NodeID → Bool)) (event : PoolEvent) : Option BlockPool × (NodeID → Bool) :=
  match s.1 with
  | none => s
  | some pool => (pool.step event, fun peerID => (pool.step event).any fun pool' =>
      (s.2 peerID && (count pool'.peers peerID).isSome) ||
        (decide ((count pool.peers peerID).getD 0 = 0) && decide (0 < (count pool'.peers peerID).getD 0)))

def armedRun (start : Int) (events : List PoolEvent) : Option BlockPool × (NodeID → Bool) :=
  events.foldl armedStep (some (newBlockPool start), fun _ => false)

/-- A peer with outstanding requests is armed. -/
structure ArmedOk (s : Option BlockPool × (NodeID → Bool)) : Prop where
  peers : ∀ pool, s.1 = some pool → pool.PeersOk
  armed : ∀ pool, s.1 = some pool → ∀ peerID n, count pool.peers peerID = some n → 0 < n → s.2 peerID = true

theorem ArmedOk.step {s : Option BlockPool × (NodeID → Bool)} (h : ArmedOk s) (hevent : Undisturbed s.1 event) :
    ArmedOk (armedStep s event) := by
  obtain ⟨process, armed⟩ := s
  cases process with
  | none => exact h
  | some pool =>
    have hok := h.peers pool rfl
    refine ⟨fun pool' hpool' => hok.step hevent hpool', fun pool' hpool' peerID n hn hpos => ?_⟩
    have hstep : pool.step event = some pool' := hpool'
    simp only [armedStep, hstep, any_some, hn, isSome_some, Bool.and_true, getD_some, hpos, decide_true,
      Bool.or_eq_true, decide_eq_true_eq]
    cases hbefore : count pool.peers peerID with
    | none => exact .inr rfl
    | some m =>
      have hcount := (hok.counted peerID m hbefore).1
      rcases Nat.eq_zero_or_pos (pool.outstanding peerID) with hzero | hmore
      · exact .inr (by rw [hcount, hzero]; rfl)
      · exact .inl (h.armed pool rfl peerID m hbefore (by omega))

theorem armedOk_newBlockPool (start : Int) : ArmedOk (some (newBlockPool start), fun _ => false) := by
  have hempty : ∀ peerID, count (newBlockPool start).peers peerID = none := fun peerID => rfl
  constructor
  · rintro _ ⟨⟩
    exact ⟨fun r hr => (nomatch hr), fun peerID n hn => by simp [hempty] at hn, hempty _⟩
  · rintro _ ⟨⟩ peerID n hn
    simp [hempty] at hn

/-- **The counts of the peers**: over any undisturbed interleaving the count of each peer is the number of its
outstanding requests and at most the maximum, and where it is lowered the monitor and the timer are set. -/
theorem pending_per_peer (start : Int) (events : List PoolEvent)
    (h : Along armedStep (fun s event => Undisturbed s.1 event) (some (newBlockPool start), fun _ => false) events) :
    ∀ done, done <+: events → ∀ pool armed, armedRun start done = (some pool, armed) →
      (∀ peerID n, count pool.peers peerID = some n → n = pool.outstanding peerID ∧ 0 ≤ n ∧
        n ≤ maxPendingRequestsPerPeer) ∧
      ∀ event pool' peerID m n, done ++ [event] <+: events → pool.step event = some pool' →
        count pool.peers peerID = some m →
        count pool'.peers peerID = some n → n < m → armed peerID = true := by
  intro done hdone pool armed hrun
  have hok := always_of_along (fun _ _ => ArmedOk.step) (armedOk_newBlockPool start) h done hdone
  change ArmedOk (armedRun start done) at hok
  rw [hrun] at hok
  have hpeers := hok.peers pool rfl
  refine ⟨fun peerID n hn => ?_, fun event pool' peerID m n hnext hstep hm hn hlower => ?_⟩
  · obtain ⟨hcount, hmax⟩ := hpeers.counted peerID n hn
    exact ⟨hcount, by omega, hmax⟩
  · have hevent := h.at_input hnext
    change Undisturbed (armedRun start done).1 event at hevent
    rw [hrun] at hevent
    have := ((hpeers.step hevent hstep).counted peerID n hn).1
    exact hok.armed pool rfl peerID m hm (by omega)

/-- A peer is removed and comes back, after its requester has been told, or before. -/
def readdedEvents (told : Bool) : List PoolEvent :=
  [.makeNextRequester, .setPeerHeight firstPeer 5, .pick 0 [firstPeer], .assign 0, .removePeer firstPeer] ++
    if told then [.select 0 .redo, .setPeerHeight firstPeer 5, .pick 0 [firstPeer], .assign 0]
    else [.setPeerHeight firstPeer 5]

/-- The count of the first peer, before and after it sends its block. -/
def firstCounts (pool : BlockPool) : Option Int × Option Int :=
  (count pool.peers firstPeer, (pool.step (.addBlock firstPeer firstBlock 0)).bind fun pool' =>
    count pool'.peers firstPeer)

theorem pending_per_peer_told :
    ∃ pool, (armedRun 1 (readdedEvents true)).1 = some pool ∧ firstCounts pool = (some 1, some 0) ∧
    (armedRun 1 (readdedEvents true)).2 firstPeer = true := by
  have hcounts : (armedRun 1 (readdedEvents true)).1.map firstCounts = some (some 1, some 0) := by decide +kernel
  obtain ⟨pool, hpool, hcounts⟩ := map_eq_some_iff.1 hcounts
  refine ⟨pool, hpool, hcounts, ?_⟩
  rw [firstCounts, Prod.mk.injEq, bind_eq_some_iff] at hcounts
  obtain ⟨hbefore, pool', hstep, hafter⟩ := hcounts
  exact (pending_per_peer 1 (readdedEvents true ++ [.addBlock firstPeer firstBlock 0]) (by decide +kernel)
    _ (prefix_append _ _)
    pool _ (Prod.ext hpool rfl)).2 _ pool' firstPeer 1 0 (prefix_refl _) hstep hbefore hafter (by decide)

/-- The peer comes back before the requester was told: its block is counted off from a peer that was never asked. -/
theorem readded_peer_below_zero : (armedRun 1 (readdedEvents false)).2 firstPeer = false ∧
    (armedRun 1 (readdedEvents false)).1.map firstCounts = some (some 0, some (-1)) := by
  decide +kernel

end BlockPool

end Demars.Blockchain
