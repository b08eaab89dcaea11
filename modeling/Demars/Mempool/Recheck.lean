import Demars.Lib.Fold
import Demars.Mempool.Mempool

/-!
# Rechecking the pool

After a block the mempool asks the application again about the transactions that are left. The answers come in the
order of the requests, so the cursor is at the transaction that the next answer is about.
-/

namespace Demars

open List Option

def accepted (answered : List (Bytes × Nat)) : List Bytes := (answered.filter (·.2 = codeTypeOK)).map (·.1)

theorem accepted_append (answered answered' : List (Bytes × Nat)) :
    accepted (answered ++ answered') = accepted answered ++ accepted answered' := by
  rw [accepted, filter_append, map_append]
  rfl

theorem accepted_singleton (tx : Bytes) (code : Nat) :
    accepted [(tx, code)] = if code = codeTypeOK then [tx] else [] := by
  by_cases h : code = codeTypeOK
  · simp [accepted, h]
  · simp [accepted, h]

namespace Session

/-- `CheckTx` and `Update` do not start while an `Update` sends its requests, and before an `Update` all requests have
been answered. -/
def Allowed (s : Session) : MempoolEvent → Prop
  | .checkTx _ _ => s.sending = []
  | .update _ _ => s.sending = [] ∧ s.pending = []
  | .send | .answer _ => True

instance (s : Session) (event : MempoolEvent) : Decidable (s.Allowed event) := by
  induction event using MempoolEvent.casesOn <;> dsimp only [Allowed] <;> infer_instance

def Rechecked (s : Session) (base todo : List Bytes) (answered : List (Bytes × Nat)) : Prop :=
  ∃ ids, HoldsTxs s.mem.txs ids (base ++ accepted answered ++ todo.drop answered.length) ∧
    s.mem.recheckCursor = (if answered.length < todo.length then ids[(base ++ accepted answered).length]? else none) ∧
    (answered.length < todo.length → s.mem.recheckEnd = ids.getLast?) ∧
    (answered.map (·.1)).take todo.length = todo.take answered.length ∧
    ∃ later, checks (s.pending ++ s.sending) = todo.drop answered.length ++ later

variable {s : Session} {base todo : List Bytes} {answered : List (Bytes × Nat)}

theorem rechecked_answer_recheck (h : s.Rechecked base todo answered) (hlt : answered.length < todo.length)
    {tx : Bytes} {height : Int} {pending : List AppRequest} (hpending : s.pending = .checkTx tx height :: pending)
    (code : Nat) :
    ∃ mem, s.mem.resCb tx code = some mem ∧ mem.config = s.mem.config ∧
      Rechecked { s with mem, pending } base todo (answered ++ [(tx, code)]) := by
  obtain ⟨ids, hholds, hcursor, hend, hanswered, later, hchecks⟩ := h
  have hdrop : todo.drop answered.length = todo[answered.length] :: todo.drop (answered.length + 1) :=
    drop_eq_getElem_cons hlt
  rw [hpending, hdrop] at hchecks
  obtain ⟨htx, hrest⟩ := List.cons.inj hchecks
  rw [hdrop, ← htx] at hholds
  obtain ⟨pre, cursor, post, -, rfl, hpre, hpost, -⟩ := hholds.split
  rw [if_pos hlt, ← hpre, getElem?_append_right (Nat.le_refl _), Nat.sub_self] at hcursor
  obtain ⟨mem, kept, hres, hholds', hkept, hcursor', hend', hconfig⟩ :=
    Mempool.resCbRecheck_spec hholds hpre (hend hlt) code
  have hlen : (answered ++ [(tx, code)]).length = answered.length + 1 := by simp
  refine ⟨mem, by rw [Mempool.resCb, hcursor]; exact hres, hconfig, kept ++ post, ?_, ?_, ?_, ?_, later, ?_⟩
  · rw [accepted_append, accepted_singleton, hlen, ← append_assoc]
    exact hholds'
  · rw [accepted_append, accepted_singleton, ← append_assoc, ← hkept, getElem?_append_right (Nat.le_refl _),
      Nat.sub_self]
    rw [hcursor']
    cases post with
    | nil => rw [if_neg (by simp at hpost; omega)]; rfl
    | cons i post => rw [if_pos (by simp at hpost; omega)]; rfl
  · intro hlt'
    rw [hend', hend hlt]
    cases post with
    | nil => simp at hpost; omega
    | cons i post => rw [getLast?_append, getLast?_append, getLast?_cons_cons, getLast?_cons, some_or,
        some_or]
  · rw [hlen, map_append, take_append, hanswered]
    have hmap : (answered.map (·.1)).length = answered.length := length_map _
    rw [hmap, take_succ_eq_append_getElem hlt, htx]
    obtain ⟨n, hn⟩ : ∃ n, todo.length - answered.length = n + 1 := ⟨todo.length - answered.length - 1, by omega⟩
    rw [hn, map_singleton, take_succ_cons, take_nil]
  · rw [hlen]
    exact hrest

theorem rechecked_answer_checkTx (h : s.Rechecked base todo answered) (hle : todo.length ≤ answered.length)
    {tx : Bytes} {height : Int} {pending : List AppRequest} (hpending : s.pending = .checkTx tx height :: pending)
    (code : Nat) :
    ∃ mem, s.mem.resCb tx code = some mem ∧ mem.config = s.mem.config ∧
      Rechecked { s with mem, pending } base todo (answered ++ [(tx, code)]) := by
  obtain ⟨ids, hholds, hcursor, -, hanswered, later, hchecks⟩ := h
  rw [if_neg (by omega)] at hcursor
  rw [drop_eq_nil_of_le hle] at hholds hchecks
  obtain ⟨mem, ids', hres, hholds', hcursor', -, hconfig, -⟩ := Mempool.resCbNormal_spec hholds tx code
  have hlen : (answered ++ [(tx, code)]).length = answered.length + 1 := by simp
  have hdrop : todo.drop (answered.length + 1) = [] := drop_eq_nil_of_le (by omega)
  refine ⟨mem, by rw [Mempool.resCb, hcursor]; exact hres, hconfig, ids', ?_, ?_, ?_, ?_, later.tail, ?_⟩
  · rw [hlen, hdrop, accepted_append, accepted_singleton]
    split at hholds'
    · next hok => simpa [hok] using hholds'
    · next hbad => simpa [hbad] using hholds'
  · rw [if_neg (by omega)]
    exact hcursor'.trans hcursor
  · exact fun hlt => absurd hlt (by omega)
  · rw [hlen, map_append, take_append_of_le_length (by simpa using hle), hanswered, take_of_length_le hle,
      take_of_length_le (by omega)]
  · rw [hpending, nil_append] at hchecks
    rw [hlen, hdrop, ← hchecks]
    rfl

theorem rechecked_step (h : s.Rechecked base todo answered) {event : MempoolEvent} (hallowed : s.Allowed event)
    (hupdate : ∀ height txBuckets, event ≠ .update height txBuckets) :
    ∃ s', s.step event = some s' ∧ s'.mem.config = s.mem.config ∧
      s'.Rechecked base todo (answered ++ s.answeredBy event) := by
  cases event with
  | update height txBuckets => exact absurd rfl (hupdate height txBuckets)
  | checkTx connError tx =>
    obtain ⟨ids, hholds, hcursor, hend, hanswered, later, hchecks⟩ := h
    have hsending : s.sending = [] := hallowed
    rw [answeredBy, append_nil]
    obtain ⟨cache, ⟨-, hstep⟩ | ⟨-, -, hstep⟩⟩ := step_checkTx s connError tx
    · exact ⟨_, hstep, rfl, ids, hholds, hcursor, hend, hanswered, later, hchecks⟩
    · refine ⟨_, hstep, rfl, ids, hholds, hcursor, hend, hanswered, later ++ [tx], ?_⟩
      rw [hsending, append_nil] at hchecks
      rw [hsending, append_nil, checks_append, hchecks, append_assoc]
      rfl
  | send =>
    obtain ⟨ids, hholds, hcursor, hend, hanswered, later, hchecks⟩ := h
    rw [answeredBy, append_nil, step]
    cases hsending : s.sending with
    | nil => exact ⟨s, rfl, rfl, ids, hholds, hcursor, hend, hanswered, later, hchecks⟩
    | cons request sending =>
      refine ⟨_, rfl, rfl, ids, hholds, hcursor, hend, hanswered, later, ?_⟩
      rw [hsending] at hchecks
      rw [append_assoc]
      exact hchecks
  | answer code =>
    rw [answeredBy, step]
    rcases hpending : s.pending with _ | ⟨⟨tx, height⟩ | _, pending⟩
    · exact ⟨s, rfl, rfl, by rw [append_nil]; exact h⟩
    · have hanswer : ∃ mem, s.mem.resCb tx code = some mem ∧ mem.config = s.mem.config ∧
          Rechecked { s with mem, pending } base todo (answered ++ [(tx, code)]) := by
        rcases Nat.lt_or_ge answered.length todo.length with hlt | hle
        · exact rechecked_answer_recheck h hlt hpending code
        · exact rechecked_answer_checkTx h hle hpending code
      obtain ⟨mem, hres, hconfig, hrechecked⟩ := hanswer
      exact ⟨{ s with mem, pending }, by dsimp only; rw [hres, map_some], hconfig, hrechecked⟩
    · obtain ⟨ids, hholds, hcursor, hend, hanswered, later, hchecks⟩ := h
      rw [hpending] at hchecks
      rw [append_nil]
      exact ⟨_, rfl, rfl, ids, hholds, hcursor, hend, hanswered, later, hchecks⟩

/-- What `Update` leaves of the pool. -/
def left (s : Session) (txBuckets : List TxBucket) : List Bytes :=
  (s.mem.collectTxs (-1)).filter (· ∉ txBuckets.flatMap TxBucket.txs)

theorem Rechecked.settled (h : s.Rechecked base todo answered) (hle : todo.length ≤ answered.length) :
    s.mem.collectTxs (-1) = base ++ accepted answered := by
  obtain ⟨ids, hholds, -⟩ := h
  rw [drop_eq_nil_of_le hle, append_nil] at hholds
  exact Mempool.collectTxs_spec hholds

theorem rechecked_update (h : s.Rechecked base todo answered) (hsending : s.sending = []) (hpending : s.pending = [])
    (height : Int) (txBuckets : List TxBucket) :
    ∃ s', s.step (.update height txBuckets) = some s' ∧ s'.mem.config = s.mem.config ∧
      if s.mem.config.recheck then s'.Rechecked [] (s.left txBuckets) [] else s'.Rechecked (s.left txBuckets)
        [] [] := by
  have hle : todo.length ≤ answered.length := by
    obtain ⟨-, -, -, -, -, later, hchecks⟩ := h
    rw [hsending, hpending] at hchecks
    exact drop_eq_nil_iff.1 (append_eq_nil_iff.1 hchecks.symm).1
  have hpool := h.settled hle
  obtain ⟨ids, hholds, hcursor, -⟩ := h
  rw [if_neg (by omega)] at hcursor
  rw [drop_eq_nil_of_le hle, append_nil, ← hpool] at hholds
  obtain ⟨l', ids', hfilter, hholds'⟩ := Mempool.filterTxs_spec hholds (txBuckets.flatMap TxBucket.txs)
  change HoldsTxs l' ids' (s.left txBuckets) at hholds'
  change s.mem.filterTxs _ = some (l', s.left txBuckets) at hfilter
  rw [step, Mempool.update, hfilter]
  refine ⟨_, rfl, ?_, ?_⟩
  · split
    · rw [Mempool.recheckTxs]
      split <;> rfl
    · rfl
  by_cases hrecheck : s.mem.config.recheck = true
  · rw [if_pos hrecheck]
    by_cases hleft : s.left txBuckets = []
    · have hmem : ∀ mem : Mempool, (mem.recheckTxs (s.left txBuckets)) = (mem, []) := by
        intro mem
        rw [hleft]
        rfl
      rw [hmem, ite_self, hleft]
      refine ⟨ids', by rw [hleft] at hholds'; exact hholds', ?_, fun hlt => absurd hlt (Nat.lt_irrefl 0), rfl, [], ?_⟩
      · exact hcursor
      · rw [hpending]
        rfl
    · have hpos : 0 < (s.left txBuckets).length := length_pos_of_ne_nil hleft
      rw [if_pos ⟨hrecheck, .inr hpos⟩, Mempool.recheckTxs, if_neg (by simpa using hleft)]
      refine ⟨ids', hholds', ?_, fun _ => hholds'.1.tail, ?_, [], ?_⟩
      · rw [if_pos (show ([] : List (Bytes × Nat)).length < _ from hpos)]
        rw [hholds'.1.head, head?_eq_getElem?]
        rfl
      · simp
      · rw [hpending, nil_append, checks_append, checks_map]
        simp
  · rw [if_neg hrecheck, if_neg (fun hboth => hrecheck hboth.1)]
    refine ⟨ids', ?_, ?_, fun hlt => absurd hlt (Nat.lt_irrefl 0), rfl, [], ?_⟩
    · simpa [accepted] using hholds'
    · exact hcursor
    · rw [hpending]
      rfl

theorem rechecked_new (config : MempoolConfig) (height : Int) (enableTxsAvailable : Bool) :
    (new config height enableTxsAvailable).Rechecked [] [] [] :=
  ⟨[], ⟨CList.represents_new, rfl⟩, rfl, fun hlt => absurd hlt (Nat.lt_irrefl 0), rfl, [], rfl⟩

theorem rechecked_run (h : s.Rechecked base todo answered) {events : List MempoolEvent}
    (hallowed : Fold.Along step Allowed s events)
    (hupdate : ∀ event ∈ events, ∀ height txBuckets, event ≠ .update height txBuckets) :
    ∃ s', s.run events = some s' ∧ s'.Rechecked base todo (answered ++ s.answers events) := by
  induction events generalizing s answered with
  | nil => exact ⟨s, rfl, by rw [answers, append_nil]; exact h⟩
  | cons event events ih =>
    obtain ⟨s₁, hstep, -, h₁⟩ := rechecked_step h hallowed.1 (hupdate event mem_cons_self)
    obtain ⟨s', hrun, h'⟩ := ih h₁ (hallowed.2 s₁ hstep) fun e he => hupdate e (mem_cons_of_mem event he)
    refine ⟨s', ?_, ?_⟩
    · rw [run, foldlM_cons, hstep]
      exact hrun
    · rw [answers, hstep, ← append_assoc]
      exact h'

/-- An allowed event does not panic, and the cursor keeps its place. -/
theorem exists_rechecked_step (h : s.Rechecked base todo answered) {event : MempoolEvent} (hallowed : s.Allowed event) :
    ∃ s', s.step event = some s' ∧ s'.mem.config = s.mem.config ∧
      ∃ base todo answered, s'.Rechecked base todo answered := by
  by_cases hupdate : ∃ height txBuckets, event = .update height txBuckets
  · obtain ⟨height, txBuckets, rfl⟩ := hupdate
    obtain ⟨s', hs', hconfig, h'⟩ := rechecked_update h hallowed.1 hallowed.2 height txBuckets
    split at h'
    · exact ⟨s', hs', hconfig, _, _, _, h'⟩
    · exact ⟨s', hs', hconfig, _, _, _, h'⟩
  · obtain ⟨s', hs', hconfig, h'⟩ := rechecked_step h hallowed fun height txBuckets heq =>
      hupdate ⟨height, txBuckets, heq⟩
    exact ⟨s', hs', hconfig, _, _, _, h'⟩

theorem exists_rechecked_run (h : s.Rechecked base todo answered) {events : List MempoolEvent}
    (hallowed : Fold.Along step Allowed s events) :
    ∃ s', s.run events = some s' ∧ s'.mem.config = s.mem.config ∧
      ∃ base todo answered, s'.Rechecked base todo answered := by
  refine Fold.always_of_along (I := fun s' : Session => s'.mem.config = s.mem.config ∧
    ∃ base todo answered, s'.Rechecked base todo answered)
    ?_ ⟨rfl, base, todo, answered, h⟩ hallowed events prefix_rfl
  rintro s₁ event ⟨hconfig, base, todo, answered, h₁⟩ hevent
  obtain ⟨s₂, hs₂, hconfig', h₂⟩ := exists_rechecked_step h₁ hevent
  exact ⟨s₂, hs₂, hconfig'.trans hconfig, h₂⟩

theorem exists_codes {txs : List Bytes} (hle : txs.length ≤ answered.length)
    (h : (answered.map (·.1)).take txs.length = txs) :
    ∃ codes later, codes.length = txs.length ∧ answered = txs.zip codes ++ later := by
  refine ⟨(answered.take txs.length).map (·.2), answered.drop txs.length, ?_, ?_⟩
  · rw [length_map, length_take_of_le hle]
  · have hzip : answered.take txs.length = txs.zip ((answered.take txs.length).map (·.2)) :=
      zip_of_prod (by rw [map_take]; exact h) rfl
    rw [← hzip, take_append_drop]

/-- The pool after its last `Update`. With a recheck: when the answers have come, what the block left without those
whose recheck failed, followed by those accepted since. -/
def SettlesRecheck (start : Session) (events : List MempoolEvent) (s : Session) : Prop :=
  ∀ pre height txBuckets post, events = pre ++ .update height txBuckets :: post →
    (∀ event ∈ post, ∀ height txBuckets, event ≠ .update height txBuckets) →
    ∃ s₁ s₂, start.run pre = some s₁ ∧ s₁.step (.update height txBuckets) = some s₂ ∧
      if start.mem.config.recheck then
        (s₁.left txBuckets).length ≤ (s₂.answers post).length →
          ∃ codes later, codes.length = (s₁.left txBuckets).length ∧
            s₂.answers post = (s₁.left txBuckets).zip codes ++ later ∧
            s.mem.collectTxs (-1) = accepted ((s₁.left txBuckets).zip codes) ++ accepted later
      else s.mem.collectTxs (-1) = s₁.left txBuckets ++ accepted (s₂.answers post)

/-- No run panics, and what the pool is after the answers to a recheck. -/
theorem recheck_protocol (config : MempoolConfig) (height : Int) (enableTxsAvailable : Bool)
    (events : List MempoolEvent) (hallowed : Fold.Along step Allowed (new config height enableTxsAvailable) events) :
    ∃ s, (new config height enableTxsAvailable).run events = some s ∧
      (new config height enableTxsAvailable).SettlesRecheck events s := by
  obtain ⟨s, hrun, -⟩ := exists_rechecked_run (rechecked_new config height enableTxsAvailable) hallowed
  refine ⟨s, hrun, ?_⟩
  rintro pre blockHeight txBuckets post rfl hpost
  obtain ⟨hpre, hrest⟩ := hallowed.of_append
  obtain ⟨s₁, hrun₁, hconfig, base, todo, answered, h₁⟩ :=
    exists_rechecked_run (rechecked_new config height enableTxsAvailable) hpre
  obtain ⟨hupdate, hallowed₂⟩ := hrest s₁ hrun₁
  obtain ⟨s₂, hs₂, -, h₂⟩ := rechecked_update h₁ hupdate.1 hupdate.2 blockHeight txBuckets
  have hrun₂ : s₂.run post = some s := by
    rw [run, foldlM_append] at hrun
    rw [run] at hrun₁
    rw [hrun₁, bind_eq_bind, bind_some, foldlM_cons, hs₂] at hrun
    exact hrun
  refine ⟨s₁, s₂, hrun₁, hs₂, ?_⟩
  rw [hconfig] at h₂
  split at h₂
  · next hon =>
    rw [if_pos hon]
    intro hle
    obtain ⟨s', hs', h'⟩ := rechecked_run h₂ (hallowed₂ s₂ hs₂) hpost
    cases hs'.symm.trans hrun₂
    rw [nil_append] at h'
    have hpool := h'.settled hle
    obtain ⟨-, -, -, -, hanswered, -⟩ := h'
    rw [take_of_length_le hle] at hanswered
    obtain ⟨codes, later, hcodes, hzip⟩ := exists_codes hle hanswered
    refine ⟨codes, later, hcodes, hzip, ?_⟩
    rw [hpool, nil_append, hzip, accepted_append]
  · next hoff =>
    rw [if_neg hoff]
    obtain ⟨s', hs', h'⟩ := rechecked_run h₂ (hallowed₂ s₂ hs₂) hpost
    cases hs'.symm.trans hrun₂
    exact h'.settled (Nat.zero_le _)

/-- Of three transactions one is committed and one becomes invalid; another is checked meanwhile. -/
def recheckRun : List MempoolEvent :=
  [.checkTx false [1], .checkTx false [2], .answer 0, .checkTx false [3], .answer 0, .answer 0,
    .update 1 [⟨[49], [[2]]⟩], .send, .answer 7, .send, .send, .checkTx false [4], .answer 0, .answer 0, .answer 0]

theorem recheck_protocol_three : ∃ s, (new ⟨true, true, 100, 100⟩ 0 true).run recheckRun = some s ∧
    (new ⟨true, true, 100, 100⟩ 0 true).SettlesRecheck recheckRun s :=
  recheck_protocol ⟨true, true, 100, 100⟩ 0 true recheckRun (by decide +kernel)

example :
    ((new ⟨true, true, 100, 100⟩ 0 true).run recheckRun).map (·.mem.collectTxs (-1)) = some [[3], [4]] := by
      decide +kernel

end Session

end Demars
