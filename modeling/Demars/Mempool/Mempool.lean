import Demars.Clist.CList
import Demars.Types.Block

/-!
# The mempool

`mempool/mempool.go`: `CheckTx` asks the application about a transaction, and the answer puts it into the pool
(`resCbNormal`). `Update` takes the transactions of a block out and asks about those that are left; their answers
move a cursor along the list (`resCbRecheck`). In `Session` requests are sent and answered one by one.
-/

namespace Demars

open List Option

structure MempoolConfig where
  recheck : Bool
  recheckEmpty : Bool
  size : Int
  cacheSize : Int

/-! ## The cache of transactions -/

inductive TxCache where
  | nopTxCache
  | mapTxCache (size : Int) (map : List Bytes) (list : List Bytes)
deriving DecidableEq

namespace TxCache

def new (cacheSize : Int) : TxCache := if 0 < cacheSize then .mapTxCache cacheSize [] [] else .nopTxCache

/-- `Push`, with whether the transaction was added. The oldest entry goes when there are too many, even if it is no
more in the map. -/
def push : TxCache → Bytes → Bool × TxCache
  | .nopTxCache, _ => (true, .nopTxCache)
  | .mapTxCache size map list, tx =>
    if tx ∈ map then (false, .mapTxCache size map list)
    else if size ≤ list.length then
      (true, .mapTxCache size (tx :: map.filter (list.head? ≠ some ·)) (list.tail ++ [tx]))
    else (true, .mapTxCache size (tx :: map) (list ++ [tx]))

def remove : TxCache → Bytes → TxCache
  | .nopTxCache, _ => .nopTxCache
  | .mapTxCache size map list, tx => .mapTxCache size (map.filter (· ≠ tx)) list

def Has : TxCache → Bytes → Prop
  | .nopTxCache, _ => False
  | .mapTxCache _ map _, tx => tx ∈ map

instance : ∀ (cache : TxCache) (tx : Bytes), Decidable (cache.Has tx)
  | .nopTxCache, _ => .isFalse id
  | .mapTxCache _ map _, tx => inferInstanceAs (Decidable (tx ∈ map))

/-- The entry of the list that goes when another transaction is pushed. -/
def oldest : TxCache → Option Bytes
  | .nopTxCache => none
  | .mapTxCache size _ list => if size ≤ list.length then list.head? else none

variable {cache : TxCache}

theorem push_eq_true {cache' : TxCache} {tx : Bytes} (h : cache.push tx = (true, cache')) :
    cache = .nopTxCache ∧ cache' = .nopTxCache ∨
      ¬ cache.Has tx ∧ ∀ x, cache'.Has x ↔ x = tx ∨ cache.Has x ∧ cache.oldest ≠ some x := by
  cases cache with
  | nopTxCache =>
    cases h
    exact .inl ⟨rfl, rfl⟩
  | mapTxCache size map list =>
    rw [push] at h
    split at h
    · cases h
    · next hnew =>
      refine .inr ⟨hnew, fun x => ?_⟩
      split at h
      · next hfull =>
        cases h
        simp [Has, oldest, if_pos hfull]
      · next hroom =>
        cases h
        simp [Has, oldest, if_neg hroom]

theorem has_remove {tx x : Bytes} : (cache.remove tx).Has x ↔ cache.Has x ∧ x ≠ tx := by
  cases cache with
  | nopTxCache | mapTxCache size map list => simp [remove, Has]

theorem remove_eq_nopTxCache {tx : Bytes} : cache.remove tx = .nopTxCache ↔ cache = .nopTxCache := by
  cases cache with
  | nopTxCache | mapTxCache size map list => simp [remove]

end TxCache

/-! ## The pool -/

structure MempoolTx where
  counter : Int
  height : Int
  tx : Bytes

/-- `Mempool`. The channel for available transactions holds at most one height. -/
structure Mempool where
  config : MempoolConfig
  txs : CList MempoolTx
  counter : Int
  height : Int
  rechecking : Bool
  recheckCursor : Option Nat
  recheckEnd : Option Nat
  notifiedTxsAvailable : Bool
  txsAvailable : Option (Option Int)
  cache : TxCache

inductive AppRequest where
  | checkTx (tx : Bytes) (height : Int)
  | flush

inductive CheckTxError where
  | mempoolIsFull
  | txInCache
  /-- The error of the connection to the application. -/
  | appConn

def codeTypeOK : Nat := 0

namespace Mempool

def new (config : MempoolConfig) (height : Int) (enableTxsAvailable : Bool) : Mempool where
  config
  txs := CList.new
  counter := 0
  height
  rechecking := false
  recheckCursor := none
  recheckEnd := none
  notifiedTxsAvailable := false
  txsAvailable := if enableTxsAvailable then some none else none
  cache := TxCache.new config.cacheSize

def size (mem : Mempool) : Nat := mem.txs.len

def collectLoop (txs : CList MempoolTx) : Nat → Option Nat → List Bytes
  | 0, _ => []
  | _, none => []
  | n + 1, some e => ((txs.value e).map MempoolTx.tx).toList ++ collectLoop txs n (txs.next e)

section

variable (mem : Mempool)

/-- `Mempool.collectTxs`, which `Reap` returns. -/
def collectTxs (maxTxs : Int) : List Bytes :=
  collectLoop mem.txs (if maxTxs < 0 then mem.txs.len else maxTxs.toNat) mem.txs.head

/-- `Mempool.CheckTx`: the request that it sends, or the error that it returns. -/
def checkTx (connError : Bool) (tx : Bytes) : Except CheckTxError AppRequest × Mempool :=
  if mem.config.size ≤ mem.size then (.error .mempoolIsFull, mem)
  else match mem.cache.push tx with
    | (false, cache) => (.error .txInCache, { mem with cache })
    | (true, cache) =>
      if connError then (.error .appConn, { mem with cache })
      else (.ok (.checkTx tx (mem.height + 1)), { mem with cache })

def notifyTxsAvailable : Option Mempool :=
  if mem.size = 0 then none
  else if mem.txsAvailable.isSome ∧ ¬ mem.notifiedTxsAvailable then
    some { mem with
      txsAvailable := mem.txsAvailable.map fun sent => some (sent.getD (mem.height + 1)), notifiedTxsAvailable := true }
  else some mem

def resCbNormal (tx : Bytes) (code : Nat) : Option Mempool :=
  if code = codeTypeOK then do
    let txs ← mem.txs.pushBack ⟨mem.counter + 1, mem.height, tx⟩
    notifyTxsAvailable { mem with counter := mem.counter + 1, txs }
  else some { mem with cache := mem.cache.remove tx }

def removeInvalid (cursor : Nat) (tx : Bytes) : Option Mempool := do
  let txs ← (mem.txs.remove cursor).bind (·.detachPrev cursor)
  some { mem with txs, cache := mem.cache.remove tx }

/-- The cursor goes on, and when it has come to the end the recheck is done. -/
def advanceCursor (cursor : Nat) : Option Mempool :=
  let recheckCursor := if some cursor = mem.recheckEnd then none else mem.txs.next cursor
  if recheckCursor.isNone then
    let mem := { mem with recheckCursor, rechecking := false }
    if 0 < mem.size then mem.notifyTxsAvailable else some mem
  else some { mem with recheckCursor }

def resCbRecheck (cursor : Nat) (tx : Bytes) (code : Nat) : Option Mempool := do
  let memTx ← mem.txs.value cursor
  if tx ≠ memTx.tx then none -- "Unexpected tx response from proxy during recheck"
  else if code = codeTypeOK then mem.advanceCursor cursor
  else (mem.removeInvalid cursor tx).bind (·.advanceCursor cursor)

def resCb (tx : Bytes) (code : Nat) : Option Mempool :=
  match mem.recheckCursor with
  | none => mem.resCbNormal tx code
  | some cursor => mem.resCbRecheck cursor tx code

end

/-- The loop of `filterTxs`, with the good transactions so far. -/
def filterLoop (blockTxs : List Bytes) :
    Nat → CList MempoolTx → Option Nat → List Bytes → Option (CList MempoolTx × List Bytes)
  | _, txs, none, goodTxs => some (txs, goodTxs)
  | 0, _, some _, _ => none
  | n + 1, txs, some e, goodTxs => do
    let memTx ← txs.value e
    if memTx.tx ∈ blockTxs then do
      let txs ← (txs.remove e).bind (·.detachPrev e)
      filterLoop blockTxs n txs (txs.next e) goodTxs
    else filterLoop blockTxs n txs (txs.next e) (goodTxs ++ [memTx.tx])

def filterTxs (mem : Mempool) (blockTxs : List Bytes) : Option (CList MempoolTx × List Bytes) :=
  filterLoop blockTxs mem.txs.len mem.txs mem.txs.head []

def recheckTxs (mem : Mempool) (goodTxs : List Bytes) : Mempool × List AppRequest :=
  if goodTxs.isEmpty then (mem, [])
  else
    ({ mem with rechecking := true, recheckCursor := mem.txs.head, recheckEnd := mem.txs.tail },
      goodTxs.map (.checkTx · (mem.height + 1)) ++ [.flush])

def update (mem : Mempool) (height : Int) (txBuckets : List TxBucket) : Option (Mempool × List AppRequest) := do
  let (txs, goodTxs) ← mem.filterTxs (txBuckets.flatMap TxBucket.txs)
  let mem := { mem with height, notifiedTxsAvailable := false, txs }
  some (if mem.config.recheck ∧ (mem.config.recheckEmpty ∨ 0 < goodTxs.length) then mem.recheckTxs goodTxs
    else (mem, []))

end Mempool

/-! ## What the list of the pool holds -/

/-- The list holds these transactions, at these addresses. -/
def HoldsTxs (l : CList MempoolTx) (ids : List Nat) (txs : List Bytes) : Prop :=
  l.Represents ids ∧ ids.map (fun i => (l.value i).map MempoolTx.tx) = txs.map some

namespace HoldsTxs

variable {l : CList MempoolTx} {ids : List Nat} {txs txs' : List Bytes} {tx : Bytes}

theorem length_eq (h : HoldsTxs l ids txs) : ids.length = txs.length := by
  have hlen := congrArg List.length h.2
  rwa [length_map, length_map] at hlen

theorem split (h : HoldsTxs l ids (txs ++ tx :: txs')) :
    ∃ pre e post memTx, ids = pre ++ e :: post ∧ pre.length = txs.length ∧
    post.length = txs'.length ∧ l.value e = some memTx ∧ memTx.tx = tx := by
  have hmap := h.2
  rw [map_append, map_eq_append_iff] at hmap
  obtain ⟨pre, rest, rfl, hpre, hrest⟩ := hmap
  obtain ⟨e, post, rfl, he, hpost⟩ := map_eq_cons_iff.1 hrest
  obtain ⟨memTx, hvalue, htx⟩ := map_eq_some_iff.1 he
  have hlen := congrArg List.length hpre
  have hlen' := congrArg List.length hpost
  rw [length_map, length_map] at hlen hlen'
  exact ⟨pre, e, post, memTx, rfl, hlen, hlen', hvalue, htx⟩

theorem remove {pre post : List Nat} {e : Nat} (h : HoldsTxs l (pre ++ e :: post) (txs ++ tx :: txs'))
    (hlen : pre.length = txs.length) :
    ∃ l', (l.remove e).bind (·.detachPrev e) = some l' ∧ HoldsTxs l' (pre ++ post) (txs ++ txs') ∧
      l'.next e = post.head? ∧
      ∀ i, l'.value i = l.value i := by
  obtain ⟨l', hl', hrepresents, hnext, hvalue⟩ := CList.remove_detachPrev_spec h.1
  have hmap := h.2
  rw [map_append, map_append] at hmap
  obtain ⟨hpre, hpost⟩ := append_inj hmap (by simp [hlen])
  refine ⟨l', hl', ⟨hrepresents, ?_⟩, hnext, hvalue⟩
  simp only [hvalue]
  rw [map_append, map_append, hpre, (List.cons.inj hpost).2]

theorem pushBack (h : HoldsTxs l ids txs) (memTx : MempoolTx) :
    ∃ l', l.pushBack memTx = some l' ∧ HoldsTxs l' (ids ++ [l.elements.length]) (txs ++ [memTx.tx]) := by
  obtain ⟨l', hl', hrepresents, hnew, hold⟩ := CList.pushBack_spec h.1 memTx
  refine ⟨l', hl', hrepresents, ?_⟩
  rw [map_append, map_append, ← h.2, map_singleton, hnew]
  congr 1
  exact map_congr_left fun i hi => by rw [hold i hi]

end HoldsTxs

namespace Mempool

variable {txs : List Bytes} {mem : Mempool} {ids : List Nat}

theorem collectLoop_spec {l : CList MempoolTx} (pre : List Nat) {rest : List Nat} (h : l.Represents (pre ++ rest))
    (hvalue : rest.map (fun i => (l.value i).map MempoolTx.tx) = txs.map some) :
    collectLoop l rest.length rest.head? = txs := by
  induction rest generalizing pre txs with
  | nil =>
    rw [map_eq_nil_iff.1 hvalue.symm]
    rfl
  | cons e rest ih =>
    obtain ⟨tx, txs, rfl, htx, htxs⟩ := map_eq_cons_iff.1 hvalue.symm
    have hvalue : (l.value e).map MempoolTx.tx = some tx := htx.symm
    rw [length_cons, head?_cons, collectLoop, h.next_eq_head?, hvalue, ih (pre ++ [e]) (by rw [append_assoc]; exact h)
      htxs.symm]
    rfl

theorem collectTxs_spec (h : HoldsTxs mem.txs ids txs) : mem.collectTxs (-1) = txs := by
  rw [collectTxs, h.1.len, h.1.head]
  exact collectLoop_spec [] h.1 h.2

theorem filterLoop_spec (blockTxs : List Bytes) {l : CList MempoolTx} (pre : List Nat) {rest : List Nat}
    (before : List Bytes) (h : HoldsTxs l (pre ++ rest) (before ++ txs)) (hpre : pre.length = before.length) {n : Nat}
    (hn : rest.length ≤ n) (goodTxs : List Bytes) :
    ∃ l' ids, filterLoop blockTxs n l rest.head? goodTxs = some (l', goodTxs ++ txs.filter (· ∉ blockTxs)) ∧
      HoldsTxs l' ids (before ++ txs.filter (· ∉ blockTxs)) := by
  induction txs generalizing l pre rest before n goodTxs with
  | nil =>
    have hlen := h.length_eq
    rw [length_append, append_nil] at hlen
    obtain rfl : rest = [] := length_eq_zero_iff.1 (by omega)
    exact ⟨l, pre, by cases n <;> simp [filterLoop], by simpa using h⟩
  | cons tx txs ih =>
    obtain ⟨pre', e, post, memTx, hids, hpre', hpost, hvalue, htx⟩ := h.split
    obtain ⟨rfl, rfl⟩ := append_inj hids (hpre.trans hpre'.symm)
    obtain ⟨n, rfl⟩ : ∃ k, n = k + 1 := ⟨n - 1, by rw [length_cons] at hn; omega⟩
    have hn' : post.length ≤ n := Nat.le_of_succ_le_succ hn
    rw [head?_cons, filterLoop, hvalue, bind_eq_bind, bind_some, htx]
    by_cases hmem : tx ∈ blockTxs
    · obtain ⟨l', hl', hholds, hnext, -⟩ := h.remove hpre
      rw [if_pos hmem, hl', bind_eq_bind, bind_some, hnext, filter_cons_of_neg (by simpa using hmem)]
      exact ih pre before hholds hpre hn' goodTxs
    · have hkeep : HoldsTxs l ((pre ++ [e]) ++ post) ((before ++ [tx]) ++ txs) := by simpa using h
      rw [if_neg hmem, h.1.next_eq_head?, filter_cons_of_pos (by simpa using hmem)]
      obtain ⟨l', ids, hloop, hholds⟩ := ih (pre ++ [e]) (before ++ [tx]) hkeep (by simp [hpre]) hn' (goodTxs ++ [tx])
      exact ⟨l', ids, by simpa using hloop, by simpa using hholds⟩

theorem filterTxs_spec (h : HoldsTxs mem.txs ids txs) (blockTxs : List Bytes) :
    ∃ l' ids', mem.filterTxs blockTxs = some (l', txs.filter (· ∉ blockTxs)) ∧
      HoldsTxs l' ids' (txs.filter (· ∉ blockTxs)) := by
  have hloop := filterLoop_spec blockTxs [] [] h rfl (Nat.le_refl ids.length) []
  rw [filterTxs, h.1.len, h.1.head]
  exact hloop

theorem notifyTxsAvailable_spec (h : 0 < mem.size) :
    ∃ mem', mem.notifyTxsAvailable = some mem' ∧ mem'.txs = mem.txs ∧ mem'.recheckCursor = mem.recheckCursor ∧
      mem'.recheckEnd = mem.recheckEnd ∧ mem'.cache = mem.cache ∧ mem'.config = mem.config := by
  rw [notifyTxsAvailable, if_neg (by omega)]
  split
  · exact ⟨_, rfl, rfl, rfl, rfl, rfl, rfl⟩
  · exact ⟨_, rfl, rfl, rfl, rfl, rfl, rfl⟩

theorem resCbNormal_spec (h : HoldsTxs mem.txs ids txs) (tx : Bytes) (code : Nat) :
    ∃ mem' ids', mem.resCbNormal tx code = some mem' ∧
      HoldsTxs mem'.txs ids' (if code = codeTypeOK then txs ++ [tx] else txs) ∧
      mem'.recheckCursor = mem.recheckCursor ∧ mem'.recheckEnd = mem.recheckEnd ∧ mem'.config = mem.config ∧
      mem'.cache = if code = codeTypeOK then mem.cache else mem.cache.remove tx := by
  rw [resCbNormal]
  split
  · obtain ⟨l', hl', hholds⟩ := h.pushBack ⟨mem.counter + 1, mem.height, tx⟩
    have hsize : 0 < size { mem with counter := mem.counter + 1, txs := l' } := by
      rw [size, hholds.1.len, length_append, length_singleton]
      omega
    obtain ⟨mem', hnotify, htxs, hcursor, hend, hcache, hconfig⟩ := notifyTxsAvailable_spec hsize
    rw [hl']
    exact ⟨mem', _, hnotify, by rw [htxs]; exact hholds, hcursor, hend, hconfig, hcache⟩
  · exact ⟨_, ids, rfl, h, rfl, rfl, rfl, rfl⟩

theorem advanceCursor_spec (mem : Mempool) (cursor : Nat) :
    ∃ mem', mem.advanceCursor cursor = some mem' ∧ mem'.txs = mem.txs ∧
      mem'.recheckCursor = (if some cursor = mem.recheckEnd then none else mem.txs.next cursor) ∧
      mem'.recheckEnd = mem.recheckEnd ∧
      mem'.config = mem.config := by
  rw [advanceCursor]
  generalize (if some cursor = mem.recheckEnd then none else mem.txs.next cursor) = recheckCursor
  dsimp only
  split
  · split
    · next hsize =>
      obtain ⟨mem', hnotify, htxs, hcursor, hend, -, hconfig⟩ := notifyTxsAvailable_spec hsize
      exact ⟨mem', hnotify, htxs, hcursor, hend, hconfig⟩
    · exact ⟨_, rfl, rfl, rfl, rfl, rfl⟩
  · exact ⟨_, rfl, rfl, rfl, rfl, rfl⟩

/-- The answer at the cursor: the transaction stays or goes, and the cursor moves on. -/
theorem resCbRecheck_spec {pre post : List Nat} {cursor : Nat} {before after : List Bytes} {tx : Bytes}
    (h : HoldsTxs mem.txs (pre ++ cursor :: post) (before ++ tx :: after)) (hpre : pre.length = before.length)
    (hend : mem.recheckEnd = (pre ++ cursor :: post).getLast?) (code : Nat) :
    ∃ mem' kept, mem.resCbRecheck cursor tx code = some mem' ∧
      HoldsTxs mem'.txs (kept ++ post) (before ++ (if code = codeTypeOK then [tx] else []) ++ after) ∧
      kept.length = (before ++ if code = codeTypeOK then [tx] else []).length ∧ mem'.recheckCursor = post.head? ∧
      mem'.recheckEnd = mem.recheckEnd ∧ mem'.config = mem.config := by
  obtain ⟨pre', e, post', memTx, hids, hpre', -, hvalue, htx⟩ := h.split
  obtain ⟨rfl, hcons⟩ := append_inj hids (hpre.trans hpre'.symm)
  obtain ⟨rfl, rfl⟩ := List.cons.inj hcons
  have hcursor : ∀ next : Option Nat, next = post.head? → (if some cursor = mem.recheckEnd then none else next) =
    post.head? := by
    rw [hend, getLast?_append, getLast?_cons]
    cases hlast : post.getLast? with
    | none => simp [getLast?_eq_none_iff.1 hlast]
    | some i =>
      have hne : cursor ≠ i := by
        rintro rfl
        exact (nodup_cons.1 (nodup_append.1 h.1.nodup).2.1).1 (mem_of_getLast? hlast)
      simp [hne]
  rw [resCbRecheck, hvalue, bind_eq_bind, bind_some, if_neg (not_not.2 htx.symm)]
  split
  · obtain ⟨mem', hadvance, htxs, hcursor', hend', hconfig⟩ := advanceCursor_spec mem cursor
    refine ⟨mem', pre ++ [cursor], hadvance, ?_, by simp [hpre], ?_, hend', hconfig⟩
    · rw [htxs]
      simpa using h
    · rw [hcursor']
      exact hcursor _ h.1.next_eq_head?
  · obtain ⟨l', hl', hholds, hnext, -⟩ := h.remove hpre
    have hremove : mem.removeInvalid cursor tx = some { mem with txs := l', cache := mem.cache.remove tx } := by
      rw [removeInvalid, hl']
      rfl
    obtain ⟨mem', hadvance, htxs, hcursor', hend', hconfig⟩ :=
      advanceCursor_spec { mem with txs := l', cache := mem.cache.remove tx } cursor
    refine ⟨mem', pre, by rw [hremove, bind_some, hadvance], ?_, by simp [hpre], ?_, hend', hconfig⟩
    · rw [htxs, append_nil]
      exact hholds
    · rw [hcursor']
      exact hcursor _ hnext

end Mempool

/-! ## The connection to the application -/

def checks (requests : List AppRequest) : List Bytes :=
  requests.filterMap fun
    | .checkTx tx _ => some tx
    | .flush => none

@[simp] theorem checks_nil : checks [] = [] := rfl

@[simp] theorem checks_append (rs rs' : List AppRequest) :
    checks (rs ++ rs') = checks rs ++ checks rs' := filterMap_append

@[simp] theorem checks_checkTx (tx : Bytes) (height : Int) (rs : List AppRequest) :
    checks (.checkTx tx height :: rs) = tx :: checks rs :=
  rfl

@[simp] theorem checks_flush (rs : List AppRequest) : checks (.flush :: rs) = checks rs := rfl

theorem checks_map (txs : List Bytes) (height : Int) : checks (txs.map (.checkTx · height)) = txs := by
  induction txs with
  | nil => rfl
  | cons tx txs ih => rw [map_cons, checks_checkTx, ih]

/-- A mempool with the requests that `Update` has still to send, and the unanswered ones. -/
structure Session where
  mem : Mempool
  sending : List AppRequest
  pending : List AppRequest

inductive MempoolEvent where
  /-- `CheckTx`, with whether the connection reports an error. -/
  | checkTx (connError : Bool) (tx : Bytes)
  | update (height : Int) (txBuckets : List TxBucket)
  /-- `Update` sends its next request. -/
  | send
  /-- The first request is answered, with this code if it is about a transaction. -/
  | answer (code : Nat)

namespace Session

def new (config : MempoolConfig) (height : Int) (enableTxsAvailable : Bool) : Session :=
  ⟨Mempool.new config height enableTxsAvailable, [], []⟩

/-- One event. `none` is a panic. -/
def step (s : Session) : MempoolEvent → Option Session
  | .checkTx connError tx =>
    match s.mem.checkTx connError tx with
    | (.ok request, mem) => some { s with mem, pending := s.pending ++ [request] }
    | (.error _, mem) => some { s with mem }
  | .update height txBuckets => (s.mem.update height txBuckets).map fun r => { s with mem := r.1, sending := r.2 }
  | .send =>
    match s.sending with
    | [] => some s
    | request :: sending => some { s with sending, pending := s.pending ++ [request] }
  | .answer code =>
    match s.pending with
    | [] => some s
    | .checkTx tx _ :: pending => (s.mem.resCb tx code).map fun mem => { s with mem, pending }
    | .flush :: pending => some { s with pending }

/-- `CheckTx` sends a request, with the transaction in the cache, or changes at most the cache. -/
theorem step_checkTx (s : Session) (connError : Bool) (tx : Bytes) :
    ∃ cache, (cache = s.mem.cache ∨ (s.mem.size : Int) < s.mem.config.size ∧ s.mem.cache.push tx = (true, cache)) ∧
        s.step (.checkTx connError tx) = some { s with mem := { s.mem with cache } } ∨
      (s.mem.size : Int) < s.mem.config.size ∧ s.mem.cache.push tx = (true, cache) ∧ s.step (.checkTx connError tx) =
          some { s with mem := { s.mem with cache }, pending := s.pending ++ [.checkTx tx (s.mem.height + 1)] } := by
  have hfalse : ∀ cache, s.mem.cache.push tx = (false, cache) → cache = s.mem.cache := by
    intro cache hpush
    cases hcache : s.mem.cache with
    | nopTxCache =>
      rw [hcache] at hpush
      cases hpush
    | mapTxCache size map list =>
      rw [hcache, TxCache.push] at hpush
      split at hpush
      · cases hpush
        rfl
      · split at hpush
        · cases hpush
        · cases hpush
  rw [step, Mempool.checkTx]
  by_cases hfull : s.mem.config.size ≤ s.mem.size
  · rw [if_pos hfull]
    exact ⟨s.mem.cache, .inl ⟨.inl rfl, rfl⟩⟩
  · rw [if_neg hfull]
    rcases hpush : s.mem.cache.push tx with ⟨added, cache⟩
    refine ⟨cache, ?_⟩
    cases added with
    | false => exact .inl ⟨.inl (hfalse cache hpush), rfl⟩
    | true =>
      cases connError with
      | true => exact .inl ⟨.inr ⟨Int.not_le.1 hfull, rfl⟩, rfl⟩
      | false => exact .inr ⟨Int.not_le.1 hfull, rfl, rfl⟩

def run (s : Session) (events : List MempoolEvent) : Option Session := events.foldlM step s

def answeredBy (s : Session) : MempoolEvent → List (Bytes × Nat)
  | .answer code =>
    match s.pending with
    | .checkTx tx _ :: _ => [(tx, code)]
    | _ => []
  | .checkTx _ _ | .update _ _ | .send => []

def answers : Session → List MempoolEvent → List (Bytes × Nat)
  | _, [] => []
  | s, event :: events => s.answeredBy event ++ (s.step event).elim [] (answers · events)

end Session

end Demars
