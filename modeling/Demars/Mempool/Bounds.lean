import Demars.Lib.Fold
import Demars.Mempool.Mempool

/-!
# The bounds of the pool

`CheckTx` refuses a transaction when the pool is full and when the cache has seen it, but the pool grows when the
answers arrive, and the cache drops its oldest entry for a new one.
-/

namespace Demars

open List

/-! ## The cache -/

namespace TxCache

inductive Call
  | push (tx : Bytes)
  | remove (tx : Bytes)
deriving DecidableEq

def call (cache : TxCache) : Call → TxCache
  | .push tx => (cache.push tx).2
  | .remove tx => cache.remove tx

/-- How many of the calls are a `Push` that adds its transaction. -/
def additions (cache : TxCache) : List Call → Nat
  | [] => 0
  | .push tx :: calls => (cache.push tx).1.toNat + additions (cache.call (.push tx)) calls
  | .remove tx :: calls => additions (cache.call (.remove tx)) calls

variable {n : Int} {tx : Bytes}

/-- Each transaction of the map has an entry in the list. -/
def Listed (n : Int) : TxCache → Prop
  | .nopTxCache => False
  | .mapTxCache size map list => size = n ∧ map.Nodup ∧ map ⊆ list ∧ (list.length : Int) ≤ n

theorem Listed.call (hn : 1 ≤ n) {cache : TxCache} (h : cache.Listed n) (c : Call) : (cache.call c).Listed n := by
  cases cache with
  | nopTxCache => exact h.elim
  | mapTxCache size map list =>
    obtain ⟨rfl, hnodup, hsub, hlen⟩ := h
    cases c with
    | remove tx => exact ⟨rfl, hnodup.filter _, fun x hx => hsub (mem_filter.1 hx).1, hlen⟩
    | push tx =>
      rw [TxCache.call, push]
      split_ifs with hmem hfull
      · exact ⟨rfl, hnodup, hsub, hlen⟩
      · refine ⟨rfl, nodup_cons.2 ⟨fun h => hmem (mem_filter.1 h).1, hnodup.filter _⟩, ?_, ?_⟩
        · cases list <;> grind
        · rw [length_append, length_tail, length_singleton]
          omega
      · exact ⟨rfl, nodup_cons.2 ⟨hmem, hnodup⟩, by grind, by rw [length_append, length_singleton]; omega⟩

/-- The entry that is counted from is the transaction's first, so it is dropped last. -/
theorem has_calls {calls : List Call} {map newer older : List Bytes} (hmem : tx ∈ map) (holder : tx ∉ older)
    (hremove : Call.remove tx ∉ calls)
    (hcount : (newer.length + additions (.mapTxCache n map (older ++ tx :: newer)) calls : Int) < n) :
    (calls.foldl call (.mapTxCache n map (older ++ tx :: newer))).Has tx := by
  induction calls generalizing map newer older with
  | nil => exact hmem
  | cons c calls ih =>
    rw [mem_cons, not_or] at hremove
    cases c with
    | remove y =>
      have hne : tx ≠ y := fun heq => hremove.1 (by rw [heq])
      exact ih (mem_filter.2 ⟨hmem, by simpa using hne⟩) holder hremove.2 hcount
    | push y =>
      rw [additions] at hcount
      rw [foldl_cons]
      simp only [call, push] at hcount ⊢
      split_ifs at hcount ⊢ with hy hfull
      · exact ih hmem holder hremove.2 (by simpa using hcount)
      · cases older with
        | nil =>
          simp only [nil_append, length_cons] at hfull
          simp only [Bool.toNat_true] at hcount
          omega
        | cons popped older =>
          rw [mem_cons, not_or] at holder
          simp only [cons_append, tail_cons, append_assoc, Bool.toNat_true] at hcount ⊢
          refine ih (mem_cons_of_mem y (mem_filter.2 ⟨hmem, by simpa using Ne.symm holder.1⟩)) holder.2 hremove.2 ?_
          rw [length_append, length_singleton]
          omega
      · simp only [append_assoc, cons_append, Bool.toNat_true] at hcount ⊢
        refine ih (mem_cons_of_mem y hmem) holder hremove.2 ?_
        rw [length_append, length_singleton]
        omega

/-- A transaction without an old entry stays until it is removed or `n` others were pushed. -/
theorem cache_keeps (n : Int) (hn : 1 ≤ n) (calls : List Call) :
    ∃ map list, calls.foldl call (new n) = .mapTxCache n map list ∧ map.Nodup ∧ (map.length : Int) ≤ n ∧
      ∀ tx later, ((mapTxCache n map list).push tx).1 = true → tx ∉ list → Call.remove tx ∉ later →
        (additions ((mapTxCache n map list).call (.push tx)) later : Int) < n →
        ((Call.push tx :: later).foldl call (.mapTxCache n map list)).Has tx := by
  have hlisted : (calls.foldl call (new n)).Listed n := by
    refine foldlRecOn calls call ?_ fun _ h c _ => h.call hn c
    rw [new, if_pos (by omega)]
    exact ⟨rfl, nodup_nil, nil_subset [], by simp; omega⟩
  generalize calls.foldl call (new n) = cache at hlisted
  cases cache with
  | nopTxCache => exact hlisted.elim
  | mapTxCache size map list =>
    obtain ⟨rfl, hnodup, hsub, hlen⟩ := hlisted
    have hmap := (hnodup.subperm hsub).length_le
    refine ⟨map, list, rfl, hnodup, by omega, fun tx later _ hnew hremove hcount => ?_⟩
    rw [foldl_cons]
    simp only [call, push, if_neg fun h => hnew (hsub h)] at hcount ⊢
    split_ifs at hcount ⊢
    · exact has_calls mem_cons_self (fun h => hnew (mem_of_mem_tail h)) hremove (by simpa using hcount)
    · exact has_calls mem_cons_self hnew hremove (by simpa using hcount)

theorem cache_keeps_two : ([Call.push [1], .push [2]].foldl call (new 2)).Has [1] := by
  obtain ⟨map, list, heq, -, -, h⟩ := cache_keeps 2 (by decide) []
  cases heq
  exact h [1] [.push [2]] rfl (by decide) (by decide) (by decide)

/-- The list still has the entry from before the removal, and the next `Push` drops the transaction with it. -/
theorem cache_forgets_newest : additions ([Call.push [1], .remove [1], .push [1]].foldl call (new 2)) [.push [2]] = 1 ∧
    ¬ ([Call.push [1], .remove [1], .push [1], .push [2]].foldl call (new 2)).Has [1] := by decide

end TxCache

/-! ## The pool -/

namespace Session

/-- The transactions in the pool, and those that wait for their answer. -/
def live (s : Session) : List Bytes := s.mem.collectTxs (-1) ++ checks s.pending

/-- Where a call of `CheckTx` finds room and a transaction that is not in the cache, there is room for those that wait
for their answer as well, the entry that the cache drops is not of a live transaction, and without a cache the
transaction is new. -/
def Modest (s : Session) : MempoolEvent → Prop
  | .checkTx _ tx => (s.mem.size : Int) < s.mem.config.size → ¬ s.mem.cache.Has tx →
      (s.live.length : Int) < s.mem.config.size ∧ (∀ popped ∈ s.mem.cache.oldest, popped ∉ s.live) ∧
        (s.mem.cache = .nopTxCache → tx ∉ s.live)
  | .answer _ => True
  | .update _ _ | .send => False

instance (s : Session) (event : MempoolEvent) : Decidable (s.Modest event) := by
  induction event using MempoolEvent.casesOn <;> dsimp only [Modest] <;> infer_instance

/-- The live transactions are different, there is room for all, and the cache has them. -/
def Bounded (s : Session) (txs : List Bytes) : Prop :=
  (∃ ids, HoldsTxs s.mem.txs ids txs) ∧ s.mem.recheckCursor = none ∧ (txs ++ checks s.pending).Nodup ∧
    ((txs ++ checks s.pending).length : Int) ≤ s.mem.config.size ∧
    (s.mem.cache = .nopTxCache ∨ ∀ tx ∈ txs ++ checks s.pending, s.mem.cache.Has tx)

variable {s : Session} {txs : List Bytes}

theorem Bounded.pool (h : s.Bounded txs) : s.mem.collectTxs (-1) = txs := by
  obtain ⟨⟨ids, hholds⟩, -⟩ := h
  exact Mempool.collectTxs_spec hholds

theorem bounded_checkTx (h : s.Bounded txs) {connError : Bool} {tx : Bytes}
    (hmodest : s.Modest (.checkTx connError tx)) :
    ∃ s', s.step (.checkTx connError tx) = some s' ∧ s'.mem.config = s.mem.config ∧ s'.Bounded txs := by
  have hlive : s.live = txs ++ checks s.pending := by rw [live, h.pool]
  obtain ⟨hholds, hcursor, hnodup, hlen, hcache⟩ := h
  rw [Modest, hlive] at hmodest
  -- a transaction that is added is new, and the cache keeps the live ones
  have hpush : ∀ cache, (s.mem.size : Int) < s.mem.config.size → s.mem.cache.push tx = (true, cache) →
      tx ∉ txs ++ checks s.pending ∧ ((txs ++ checks s.pending).length : Int) < s.mem.config.size ∧
        (cache = .nopTxCache ∨ cache.Has tx ∧ ∀ x ∈ txs ++ checks s.pending, cache.Has x) := by
    intro cache hroom hadded
    rcases TxCache.push_eq_true hadded with ⟨hnop, hnop'⟩ | ⟨hnew, hhas⟩
    · obtain ⟨hlt, -, htx⟩ := hmodest hroom (by rw [hnop]; exact id)
      exact ⟨htx hnop, hlt, .inl hnop'⟩
    · obtain ⟨hlt, hspared, htx⟩ := hmodest hroom hnew
      rcases hcache with hnop | hcache
      · rw [hnop] at hadded
        cases hadded
        exact ⟨htx hnop, hlt, .inl rfl⟩
      · refine ⟨fun hmem => hnew (hcache tx hmem), hlt,
          .inr ⟨(hhas tx).2 (.inl rfl), fun x hx => (hhas x).2 (.inr ⟨hcache x hx, ?_⟩)⟩⟩
        exact fun hpopped => hspared x hpopped hx
  obtain ⟨cache, ⟨hsame | ⟨hroom, hadded⟩, hstep⟩ | ⟨hroom, hadded, hstep⟩⟩ := step_checkTx s connError tx
  · refine ⟨_, hstep, rfl, hholds, hcursor, hnodup, hlen, ?_⟩
    rw [hsame]
    exact hcache
  · obtain ⟨-, -, hcache'⟩ := hpush cache hroom hadded
    exact ⟨_, hstep, rfl, hholds, hcursor, hnodup, hlen, hcache'.imp_right And.right⟩
  · obtain ⟨htx, hlt, hcache'⟩ := hpush cache hroom hadded
    have hchecks : txs ++ checks (s.pending ++ [.checkTx tx (s.mem.height + 1)]) = txs ++ checks s.pending ++ [tx] := by
      rw [checks_append, checks_checkTx, checks_nil, append_assoc]
    refine ⟨_, hstep, rfl, hholds, hcursor, ?_, ?_, ?_⟩
    · dsimp only
      rw [hchecks]
      exact List.Nodup.append hnodup (nodup_singleton tx) (by simpa using htx)
    · dsimp only
      rw [hchecks, length_append, length_singleton]
      omega
    · dsimp only
      rw [hchecks]
      refine hcache'.imp_right fun hall x hx => ?_
      rcases mem_append.1 hx with hx | hx
      · exact hall.2 x hx
      · rw [mem_singleton.1 hx]
        exact hall.1

theorem bounded_answer (h : s.Bounded txs) (code : Nat) :
    ∃ s' txs', s.step (.answer code) = some s' ∧ s'.mem.config = s.mem.config ∧ s'.Bounded txs' := by
  match hpending : s.pending with
  | [] => exact ⟨s, txs, by rw [step, hpending], rfl, h⟩
  | .flush :: pending =>
    obtain ⟨hholds, hcursor, hrest⟩ := h
    rw [hpending, checks_flush] at hrest
    exact ⟨{ s with pending }, txs, by rw [step, hpending], rfl, hholds, hcursor, hrest⟩
  | .checkTx tx height :: pending =>
    obtain ⟨⟨ids, hholds⟩, hcursor, hnodup, hlen, hcache⟩ := h
    rw [hpending, checks_checkTx] at hnodup hlen hcache
    obtain ⟨mem, ids', hres, hholds', hcursor', -, hconfig, hcache'⟩ := Mempool.resCbNormal_spec hholds tx code
    have hstep : s.step (.answer code) = some { s with mem, pending } := by
      rw [step, hpending]
      dsimp only
      rw [Mempool.resCb, hcursor]
      dsimp only
      rw [hres, Option.map_some]
    refine ⟨{ s with mem, pending }, _, hstep, hconfig, ⟨ids', hholds'⟩, hcursor'.trans hcursor, ?_⟩
    dsimp only
    rw [hcache', hconfig]
    split
    · rw [append_assoc]
      exact ⟨hnodup, hlen, hcache⟩
    · have hmiddle := nodup_middle.1 hnodup
      refine ⟨(nodup_cons.1 hmiddle).2, ?_, ?_⟩
      · rw [length_append, length_cons] at hlen
        rw [length_append]
        omega
      · rw [TxCache.remove_eq_nopTxCache]
        refine hcache.imp_right fun hall x hx => ?_
        have hlive : x ∈ txs ++ tx :: checks pending := ((sublist_cons_self tx _).append_left txs).subset hx
        have hne : x ≠ tx := by
          rintro rfl
          exact (nodup_cons.1 hmiddle).1 hx
        exact TxCache.has_remove.2 ⟨hall x hlive, hne⟩

theorem bounded_new (config : MempoolConfig) (height : Int) (enableTxsAvailable : Bool) (hsize : 0 ≤ config.size) :
    (new config height enableTxsAvailable).Bounded [] :=
  ⟨⟨[], CList.represents_new, rfl⟩, rfl, nodup_nil, hsize, .inr fun _ htx => absurd htx not_mem_nil⟩

/-- Under `Modest` the pool keeps within its size and holds no transaction twice. -/
theorem pool_bounded (config : MempoolConfig) (height : Int) (enableTxsAvailable : Bool) (hsize : 0 ≤ config.size)
    (events : List MempoolEvent) (hmodest : Fold.Along step Modest (new config height enableTxsAvailable) events) :
    ∀ pre, pre <+: events → ∃ s, (new config height enableTxsAvailable).run pre = some s ∧
      ((s.mem.collectTxs (-1)).length : Int) ≤ config.size ∧ (s.mem.collectTxs (-1)).Nodup := by
  intro pre hpre
  have hstep : ∀ (s : Session) (event : MempoolEvent), (s.mem.config = config ∧ ∃ txs, s.Bounded txs) → s.Modest event →
      ∃ s', s.step event = some s' ∧ s'.mem.config = config ∧ ∃ txs, s'.Bounded txs := by
    rintro s event ⟨hconfig, txs, h⟩ hevent
    cases event with
    | checkTx connError tx =>
      obtain ⟨s', hs', hconfig', h'⟩ := bounded_checkTx h hevent
      exact ⟨s', hs', hconfig'.trans hconfig, txs, h'⟩
    | answer code =>
      obtain ⟨s', txs', hs', hconfig', h'⟩ := bounded_answer h code
      exact ⟨s', hs', hconfig'.trans hconfig, txs', h'⟩
    | update height txBuckets | send => exact hevent.elim
  obtain ⟨s, hrun, hconfig, txs, h⟩ :=
    Fold.always_of_along hstep ⟨rfl, [], bounded_new config height enableTxsAvailable hsize⟩ hmodest pre hpre
  refine ⟨s, hrun, ?_⟩
  rw [h.pool]
  obtain ⟨-, -, hnodup, hlen, -⟩ := h
  rw [length_append, hconfig] at hlen
  exact ⟨by omega, (nodup_append.1 hnodup).1⟩

/-- A pool for two and a cache for three: two calls, a refused one, and an answer that makes room for another. -/
theorem pool_bounded_two :
    ∃ s, (new ⟨true, true, 2, 3⟩ 0 false).run [.checkTx false [1], .checkTx false [2], .checkTx false [1],
      .answer 0, .answer 1,
        .checkTx false [3], .answer 0, .checkTx false [4]] = some s ∧
      ((s.mem.collectTxs (-1)).length : Int) ≤ 2 ∧ (s.mem.collectTxs (-1)).Nodup :=
  pool_bounded ⟨true, true, 2, 3⟩ 0 false (by decide) _ (by decide +kernel) _ (prefix_refl _)

/-- Two requests before the first answer exceed a pool of size 1. A cache for one transaction forgets the first when
it sees the second. In a cache for two, the entry of a refused transaction is dropped, and with it the one that has
come in since. -/
theorem pool_exceeded :
    (∃ s, (new ⟨true, true, 1, 100⟩ 0 false).run [.checkTx false [1], .checkTx false [2], .answer 0, .answer 0] =
      some s ∧ s.mem.collectTxs (-1) = [[1], [2]]) ∧
    (∃ s, (new ⟨true, true, 100, 1⟩ 0 false).run
        [.checkTx false [1], .answer 0, .checkTx false [2], .answer 0, .checkTx false [1], .answer 0] = some s ∧
      s.mem.collectTxs (-1) = [[1], [2], [1]]) ∧
    ∃ s, (new ⟨true, true, 100, 2⟩ 0 false).run
        [.checkTx false [1], .answer 1, .checkTx false [1], .answer 0, .checkTx false [2], .answer 0,
          .checkTx false [1], .answer 0] =
          some s ∧
      s.mem.collectTxs (-1) = [[1], [2], [1]] :=
  ⟨⟨_, rfl, by decide +kernel⟩, ⟨_, rfl, by decide +kernel⟩, ⟨_, rfl, by decide +kernel⟩⟩

end Session

end Demars
