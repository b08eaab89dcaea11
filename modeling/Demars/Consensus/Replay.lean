import Demars.Consensus.Heights

/-!
# Replay of blocks that the application has lost

An application that comes back at a lower height gets the blocks that it lacks from the handshake, executed with
the last validators of the current state, whatever their height. A `History` is a chain of blocks with the states
before and after each, as `ApplyBlock` made them.
-/

namespace Demars

open Crash Crash.Prog List Option

/-! ## Histories -/

structure History {σ : Type} (P : Primitives) (A : Amino) (B : BlockCodec) (app : Application σ) where
  blocks : List StoredBlock
  state : Nat → SavedState
  appState : Nat → σ
  start : (state 0).lastBlockHeight = 0
  applied : ∀ k stored, blocks[k]? = some stored → ∃ d : Disk σ,
    (applyBlock P A B app keepApp (state k) stored.blockID stored.block (appState k) d).2 =
      .ok (state (k + 1), appState (k + 1))

section

variable {σ : Type} {P : Primitives} {A : Amino} {B : BlockCodec} {app : Application σ} {block : Block}
  {res : σ × ABCIResponses}

theorem exists_commit_of_checkBlock {state : SavedState} {header : Header}
    (h : checkBlock P A B state block = .ok header) : ∃ commit, block.commit = some commit := by
  have hheader := (checkBlock_spec h).1
  cases hcommit : block.commit with
  | some commit => exact ⟨commit, rfl⟩
  | none =>
    unfold checkBlock ChainState.validateBlock at h
    simp only [hheader, bind_some, hcommit] at h
    split at h
    · cases h
    · cases h
    · next hvalid =>
      split at hvalid
      · cases hvalid
      · cases hvalid
      · split at hvalid <;> cases hvalid

/-- Told of the validators of another height, the application begins the block as with its own. -/
def BeginsAlike (P : Primitives) (B : BlockCodec) (app : Application σ) (block : Block) (own current : ValidatorSet)
    (s : σ) :
    Prop :=
  ∀ header signVals signVals', block.header = some header →
    getBeginBlockValidatorInfo header block.commit own = some signVals →
    getBeginBlockValidatorInfo header block.commit current = some signVals' →
    app.beginBlock s ⟨Block.hash P B (some block), header.toAbci, signVals'⟩ =
      app.beginBlock s ⟨Block.hash P B (some block), header.toAbci, signVals⟩

def FitsCommit (block : Block) (valSet : ValidatorSet) : Prop :=
  ∀ header commit, block.header = some header → block.commit = some commit → 1 < header.height →
    commit.precommits.length = valSet.size

theorem fitsCommit_of_exec {valSet : ValidatorSet} {s : σ}
    (h : execBlockOnProxyApp P B app block valSet s = some res) : FitsCommit block valSet := by
  intro header commit hheader hcommit hheight
  rw [execBlockOnProxyApp, hheader, bind_some] at h
  split_ifs at h
  obtain ⟨signVals, hinfo, -⟩ := bind_eq_some_iff.1 h
  rw [hcommit] at hinfo
  unfold getBeginBlockValidatorInfo at hinfo
  simp only at hinfo
  by_contra hne
  rw [if_pos ⟨hheight, hne⟩] at hinfo
  cases hinfo

/-- A block is executed with other validators to the same effect. -/
theorem execBlockOnProxyApp_alike {commit : Commit} {own current : ValidatorSet} {s : σ}
    (hcommit : block.commit = some commit) (halike : BeginsAlike P B app block own current s)
    (hfits : FitsCommit block current) (h : execBlockOnProxyApp P B app block own s = some res) :
    execBlockOnProxyApp P B app block current s = some res := by
  obtain ⟨header, hheader, h⟩ := bind_eq_some_iff.1 h
  rw [execBlockOnProxyApp, hheader, bind_some]
  split_ifs at h ⊢
  obtain ⟨signVals, hinfo, h⟩ := bind_eq_some_iff.1 h
  obtain ⟨signVals', hinfo'⟩ : ∃ signVals', getBeginBlockValidatorInfo header block.commit current =
    some signVals' := by
    rw [hcommit]
    unfold getBeginBlockValidatorInfo
    simp only
    rw [if_neg fun hne => hne.2 (hfits header commit hheader hcommit hne.1)]
    exact ⟨_, rfl⟩
  rw [hinfo', bind_some]
  simp only [halike header signVals signVals' hheader hinfo hinfo']
  exact h

/-! ## The calls of a block -/

def AppCall.ofBlock : AppCall → Option AppCall
  | .initChain _ => none
  | .beginBlock req => some (.beginBlock { req with validators := [] })
  | call => some call

def executionCalls (P : Primitives) (B : BlockCodec) (stored : StoredBlock) : List AppCall :=
  (stored.block.header.map fun header =>
    .beginBlock ⟨Block.hash P B (some stored.block), header.toAbci, []⟩ ::
      stored.block.txs.map (.deliverTx · header.height) ++
        [.endBlock, .getValidatorSet (header.height + 1), .commit]).getD []

theorem ofBlock_blockCalls {stored : StoredBlock} {valSet : ValidatorSet} {s : σ}
    (h : execBlockOnProxyApp P B app stored.block valSet s = some res) :
    (blockCalls P B stored.block valSet ++ [AppCall.commit]).filterMap AppCall.ofBlock = executionCalls P B stored := by
  obtain ⟨header, hheader, h⟩ := bind_eq_some_iff.1 h
  split_ifs at h
  obtain ⟨signVals, hinfo, -⟩ := bind_eq_some_iff.1 h
  simp [blockCalls, executionCalls, hheader, hinfo, AppCall.ofBlock, filterMap_append, filterMap_map, Function.comp_def]

theorem Applies.recorded {state : SavedState} {blockID : BlockID} {s : σ} {header : Header} {executed : σ}
    {responses : ABCIResponses} {updated : SavedState}
    (h : Applies P A B app state blockID block s header executed responses updated) (log : List AppCall) :
    Applies P A B app.recorded state blockID block (s, log) header
      (executed, log ++ blockCalls P B block state.lastValidators) responses updated := by
  refine ⟨h.check, ?_, h.update⟩
  rw [execBlockOnProxyApp_recorded, h.exec]
  rfl

end

/-! ## Along a history -/

namespace History

variable {σ : Type} {P : Primitives} {A : Amino} {B : BlockCodec} {app : Application σ} {hist : History P A B app}
  {k : Nat} {stored : StoredBlock} {state : SavedState}

theorem applies (hget : hist.blocks[k]? = some stored) : ∃ header executed responses updated,
      Applies P A B app (hist.state k) stored.blockID stored.block (hist.appState k) header executed responses updated ∧
      hist.state (k + 1) = { updated with appHash := (app.commit executed).2 } ∧
      hist.appState (k + 1) = (app.commit executed).1 := by
  obtain ⟨d, happly⟩ := hist.applied k stored hget
  exact applies_of_ok happly

theorem height (hk : k ≤ hist.blocks.length) : (hist.state k).lastBlockHeight = k := by
  induction k with
  | zero => exact hist.start
  | succ k ih =>
    obtain ⟨header, executed, responses, updated, happlies, hstate, -⟩ := hist.applies (getElem?_eq_getElem hk)
    have hheights := happlies.height_eq
    have hlast : (hist.state (k + 1)).lastBlockHeight = updated.lastBlockHeight := by rw [hstate]
    have hbefore := ih (by omega)
    push_cast
    omega

variable {τ : Type} {appHash : Bytes} {other : Application τ}

theorem loadBlock {d : Disk τ} (hblocks : d.blocks = hist.blocks) (k : Nat) :
    d.loadBlock (k + 1) = hist.blocks[k]? := by
  rw [Disk.loadBlock, if_neg (by omega), hblocks]
  congr 1
  omega

/-- **One block replayed** without a state: the application is where the history has it. -/
theorem execCommitBlock_yields (hget : hist.blocks[k]? = some stored)
    (halike : BeginsAlike P B app stored.block (hist.state k).lastValidators state.lastValidators (hist.appState k))
    (hfits : FitsCommit stored.block state.lastValidators) (log : List AppCall) (d : Disk (σ × List AppCall)) :
    ∃ log', (execCommitBlock P B app.recorded stored.block state.lastValidators (hist.appState k, log)).Yields d
        ((hist.appState (k + 1), log'), (hist.state (k + 1)).appHash) (d.saveApp (hist.appState (k + 1), log')) ∧
      log'.filterMap AppCall.ofBlock = log.filterMap AppCall.ofBlock ++ executionCalls P B stored := by
  obtain ⟨header, executed, responses, updated, happlies, hstate, hs⟩ := hist.applies hget
  obtain ⟨commit, hcommit⟩ := exists_commit_of_checkBlock happlies.check
  have hexec := execBlockOnProxyApp_alike hcommit halike hfits happlies.exec
  refine ⟨log ++ blockCalls P B stored.block state.lastValidators ++ [.commit], ?_, ?_⟩
  · have hrec : execBlockOnProxyApp P B app.recorded stored.block state.lastValidators (hist.appState k, log) =
        some ((executed, log ++ blockCalls P B stored.block state.lastValidators), responses) := by
      rw [execBlockOnProxyApp_recorded, hexec]
      rfl
    rw [hstate, hs]
    exact (yields_lift (orPanic_eq_ok.2 hrec) d).bind (.bind (yields_write _ d) (yields_pure _ _))
  · rw [append_assoc, filterMap_append, ofBlock_blockCalls hexec]

theorem replayLoop_yields (n k : Nat) (hk : k + n ≤ hist.blocks.length)
    (halike : ∀ i stored, k ≤ i → i < k + n → hist.blocks[i]? = some stored →
      BeginsAlike P B app stored.block (hist.state i).lastValidators state.lastValidators (hist.appState i))
    (hfits : ∀ i stored, k ≤ i → i < k + n → hist.blocks[i]? = some stored →
      FitsCommit stored.block state.lastValidators)
    (log : List AppCall) (hhash : n = 0 → appHash = (hist.state k).appHash) {d : Disk (σ × List AppCall)}
    (hblocks : d.blocks = hist.blocks) :
    ∃ log' d', (replayLoop P B app.recorded state n (k + 1) (hist.appState k, log) appHash).Yields d
        ((hist.appState (k + n), log'), (hist.state (k + n)).appHash) d' ∧ d'.blocks = hist.blocks ∧
        log'.filterMap AppCall.ofBlock =
        log.filterMap AppCall.ofBlock ++ ((hist.blocks.drop k).take n).flatMap (executionCalls P B) := by
  induction n generalizing k log appHash d with
  | zero =>
    refine ⟨log, d, ?_, hblocks, by simp⟩
    rw [hhash rfl]
    exact yields_pure _ d
  | succ n ih =>
    have hlt : k < hist.blocks.length := by omega
    have hget := getElem?_eq_getElem hlt
    obtain ⟨log₁, hfirst, hlog₁⟩ := hist.execCommitBlock_yields hget (halike k _ le_rfl (by omega) hget)
      (hfits k _ le_rfl (by omega) hget) log d
    have hkept : (d.saveApp (hist.appState (k + 1), log₁)).blocks = hist.blocks := hblocks
    obtain ⟨log', d', hrest, hblocks', hlog'⟩ := ih (k + 1) (by omega)
      (fun i stored hi hin => halike i stored (by omega) (by omega))
      (fun i stored hi hin => hfits i stored (by omega) (by omega)) log₁ (fun _ => rfl) hkept
    refine ⟨log', d', ?_, hblocks', ?_⟩
    · have hload : d.loadBlock (k + 1) = some hist.blocks[k] := (hist.loadBlock hblocks k).trans hget
      rw [Nat.add_right_comm, Nat.add_assoc] at hrest
      push_cast at hrest
      refine Yields.congr (q := execCommitBlock P B app.recorded hist.blocks[k].block state.lastValidators
        (hist.appState k, log) >>= fun res => replayLoop P B app.recorded state n (k + 1 + 1) res.1 res.2)
        (hfirst.bind hrest) ?_
      rw [replayLoop, Prog.get_bind, lift_bind _ _ (orPanic_eq_ok.2 hload)]
    · rw [hlog', hlog₁, append_assoc, drop_eq_getElem_cons hlt, take_succ_cons, flatMap_cons]

theorem fitsCommit_of_replayLoop {state : SavedState} (n : Nat) {k : Nat} {x : τ}
    {d : Disk τ} (hblocks : d.blocks = hist.blocks) {res : τ × Bytes}
    (h : (replayLoop P B other state n (k + 1) x appHash d).2 = .ok res) :
    ∀ i stored, k ≤ i → i < k + n → hist.blocks[i]? = some stored → FitsCommit stored.block state.lastValidators := by
  induction n generalizing k x appHash d with
  | zero =>
    intro i stored hi hin
    omega
  | succ n ih =>
    intro i stored hi hin hget
    rw [replayLoop, Prog.get_bind] at h
    obtain ⟨loaded, hload, h, -⟩ := bind_eq_ok h
    obtain ⟨res', hexec, h, -⟩ := bind_eq_ok h
    rw [lift_apply, orPanic_eq_ok, hist.loadBlock hblocks k] at hload
    by_cases heq : i = k
    · rw [heq, hload] at hget
      cases hget
      obtain ⟨⟨executed, responses⟩, hrun, -⟩ := bind_eq_ok hexec
      exact fitsCommit_of_exec (orPanic_eq_ok.1 hrun)
    · have hsame := (execCommitBlock_ensures (SameStores.refl d)).post res' hexec
      exact ih (k := k + 1) (hsame.blocks.trans hblocks) h i stored (by omega) (by omega) hget

theorem replayBlock_yields (hget : hist.blocks[k]? = some stored) (log : List AppCall) {d : Disk (σ × List AppCall)}
    (hblocks : d.blocks = hist.blocks) :
    ∃ log' d', (replayBlock P A B app.recorded keepApp (hist.state k) (k + 1) (hist.appState k, log)).Yields d
        (hist.state (k + 1), hist.appState (k + 1), log') d' ∧
      log'.filterMap AppCall.ofBlock = log.filterMap AppCall.ofBlock ++ executionCalls P B stored := by
  obtain ⟨header, executed, responses, updated, happlies, hstate, hs⟩ := hist.applies hget
  have hload : d.loadBlock (k + 1) = some stored := (hist.loadBlock hblocks k).trans hget
  have hkeep : keepApp
    (app.recorded.commit (executed, log ++ blockCalls P B stored.block (hist.state k).lastValidators)).1
      (d.saveResponses header.height responses) = ([_], .ok ()) := rfl
  have hrun := (replayBlock_eq hload).trans (applyBlock_eq (happlies.recorded log) hkeep)
  have hcalls : (log ++ blockCalls P B stored.block (hist.state k).lastValidators ++ [AppCall.commit]).filterMap
      AppCall.ofBlock = log.filterMap AppCall.ofBlock ++ executionCalls P B stored := by
    rw [append_assoc, filterMap_append, ofBlock_blockCalls happlies.exec]
  rw [hstate, hs]
  exact ⟨_, _, ⟨_, hrun, rfl⟩, hcalls⟩

/-- The state with which blocks are replayed: that of the history but for what an answer to `InitChain` sets, and
unchanged if there is a block to apply. -/
structure Resumes (hist : History P A B app) (h : Nat) (state : SavedState) : Prop where
  height : state.lastBlockHeight = h
  lastValidators : state.lastValidators = (hist.state h).lastValidators
  appHash : state.appHash = (hist.state h).appHash
  next : hist.blocks.length = h + 1 → state = hist.state h

variable {h a : Nat} {d : Disk (σ × List AppCall)}

theorem height_eq {d : Disk τ} (hblocks : d.blocks = hist.blocks) : d.height = hist.blocks.length := by
  rw [Disk.height, hblocks]

theorem replayBlocks_yields (log : List AppCall) (hstore : hist.blocks.length = h ∨ hist.blocks.length = h + 1)
    (ha : a < h) (hstate : hist.Resumes h state)
    (halike : ∀ i stored, a ≤ i → i < h → hist.blocks[i]? = some stored →
      BeginsAlike P B app stored.block (hist.state i).lastValidators state.lastValidators (hist.appState i))
    (hfits : ∀ i stored, a ≤ i → i < h → hist.blocks[i]? = some stored → FitsCommit stored.block state.lastValidators)
    (hblocks : d.blocks = hist.blocks) :
    ∃ log' d', (replayBlocks P A B app.recorded state a hist.blocks.length (decide (hist.blocks.length = h + 1))
        (hist.appState a, log)).Yields d (hist.appState hist.blocks.length, log') d' ∧ log'.filterMap AppCall.ofBlock =
        log.filterMap AppCall.ofBlock ++ (hist.blocks.drop a).flatMap (executionCalls P B) := by
  have hsum : a + (h - a) = h := by omega
  obtain ⟨log₁, d₁, hloop, hblocks₁, hlog₁⟩ := hist.replayLoop_yields (h - a) a (by omega)
    (fun i stored hi hih => halike i stored hi (by omega)) (fun i stored hi hih => hfits i stored hi (by omega)) log
    (fun hzero => absurd hzero (by omega) : h - a = 0 → [] = _) hblocks
  rw [hsum] at hloop
  rw [replayBlocks]
  rcases hstore with hlen | hlen
  · have hlast : ((hist.blocks.length : Int) - a).toNat = h - a := by omega
    have hcheck : checkAppHash state (hist.state h).appHash = .ok () := if_pos hstate.appHash
    rw [decide_eq_false (by omega)]
    simp only [Bool.false_eq_true, if_false]
    rw [hlast, hlen]
    refine ⟨log₁, d₁, hloop.bind ((yields_lift hcheck d₁).bind (yields_pure _ d₁)), ?_⟩
    rw [hlog₁, take_of_length_le (by rw [length_drop]; omega)]
  · have hlast : ((hist.blocks.length : Int) - 1 - a).toNat = h - a := by omega
    have hget := getElem?_eq_getElem (by omega : h < hist.blocks.length)
    obtain ⟨log₂, d₂, hblock, hlog₂⟩ := hist.replayBlock_yields hget log₁ hblocks₁
    have hcheck : checkAppHash (hist.state (h + 1)) (hist.state (h + 1)).appHash = .ok () := if_pos rfl
    rw [decide_eq_true hlen]
    simp only [if_true]
    rw [hstate.next hlen] at hloop ⊢
    rw [hlast, hlen, Nat.cast_add, Nat.cast_one]
    refine ⟨log₂, d₂, hloop.bind (hblock.bind ((yields_lift hcheck d₂).bind (yields_pure _ d₂))), ?_⟩
    -- the last block is the one after those of the loop
    have hend : hist.blocks.drop h = [hist.blocks[h]] := by
      rw [drop_eq_getElem_cons (by omega), drop_eq_nil_of_le (by omega)]
    have hdrop : (hist.blocks.drop a).take (h - a) ++ [hist.blocks[h]] = hist.blocks.drop a := by
      rw [← hend, ← hsum, ← drop_drop, hsum, take_append_drop]
    rw [hlog₂, hlog₁, ← hdrop, flatMap_append, flatMap_singleton, append_assoc, hdrop]

/-- An application that lacks blocks of the state gets them from `replayBlocks`. -/
theorem replayCases_behind {x : τ} {d : Disk τ} (appHash : Bytes) {appBlockHeight : Int}
    (hnonneg : 0 ≤ appBlockHeight) (hbehind : appBlockHeight < state.lastBlockHeight)
    (hheight : d.height = state.lastBlockHeight ∨ d.height = state.lastBlockHeight + 1) :
    replayCases P A B other state appHash appBlockHeight x d =
      replayBlocks P A B other state appBlockHeight d.height (decide (d.height = state.lastBlockHeight + 1)) x d := by
  rw [replayCases, Prog.get_bind, if_neg (by omega), if_neg (by omega), if_neg (by omega), if_neg (by omega)]
  rcases hheight with heq | hone
  · rw [if_pos heq, if_pos (by omega), decide_eq_false (by omega)]
  · rw [if_neg (by omega), if_pos hone, if_pos hbehind, decide_eq_true hone]

/-- **The missing blocks are executed**, from any height of the application up to the state's. -/
theorem replayCases_yields (log : List AppCall) (hstore : hist.blocks.length = h ∨ hist.blocks.length = h + 1)
    (ha : a ≤ h) (hstate : hist.Resumes h state)
    (halike : ∀ i stored, a ≤ i → i < h → hist.blocks[i]? = some stored →
      BeginsAlike P B app stored.block (hist.state i).lastValidators state.lastValidators (hist.appState i))
    (hfits : ∀ i stored, a ≤ i → i < h → hist.blocks[i]? = some stored → FitsCommit stored.block state.lastValidators)
    (hblocks : d.blocks = hist.blocks) :
    ∃ log' d', (replayCases P A B app.recorded state (hist.state a).appHash a (hist.appState a, log)).Yields d
        (hist.appState hist.blocks.length, log') d' ∧ log'.filterMap AppCall.ofBlock =
        log.filterMap AppCall.ofBlock ++ (hist.blocks.drop a).flatMap (executionCalls P B) := by
  have hheight := hist.height_eq hblocks
  have hat := hstate.height
  rcases ha.lt_or_eq with hlt | rfl
  · obtain ⟨log', d', hrun, hlog'⟩ := hist.replayBlocks_yields log hstore hlt hstate halike hfits hblocks
    refine ⟨log', d', hrun.congr ?_, hlog'⟩
    rw [replayCases_behind _ (by omega) (by omega) (by omega), hheight, hat]
    norm_cast
  · rcases hstore with hlen | hlen
    · refine ⟨log, d, ⟨[], ?_, rfl⟩, ?_⟩
      · have hdone : replayCases P A B app.recorded state (hist.state a).appHash d.height (hist.appState a, log) d =
            ([], .ok (hist.appState a, log)) := replayCases_done (hheight.trans (by omega)) hstate.appHash
        rw [hheight, hlen] at hdone
        rw [hlen]
        exact hdone
      · rw [drop_eq_nil_of_le hlen.le, flatMap_nil, append_nil]
    · have hget := getElem?_eq_getElem (by omega : a < hist.blocks.length)
      obtain ⟨log', d', hrun, hlog'⟩ := hist.replayBlock_yields hget log hblocks
      refine ⟨log', d', ?_, ?_⟩
      · have hreal : replayCases P A B app.recorded state (hist.state a).appHash state.lastBlockHeight
            (hist.appState a, log) d =
            (replayBlock P A B app.recorded keepApp state d.height (hist.appState a, log) >>= fun res => pure res.2)
              d :=
          replayCases_real _ (by omega) (by omega)
        rw [hat, hheight, hlen, hstate.next hlen, Nat.cast_add, Nat.cast_one] at hreal
        rw [hlen, hstate.next hlen]
        exact Yields.congr (hrun.bind (yields_pure _ d')) hreal
      · rw [hlog', drop_eq_getElem_cons (by omega), drop_eq_nil_of_le (by omega), flatMap_singleton]

theorem fitsCommit_of_replayCases {x y : τ} {d : Disk τ}
    (hstore : hist.blocks.length = h ∨ hist.blocks.length = h + 1) (hat : state.lastBlockHeight = h)
    (hblocks : d.blocks = hist.blocks) (hrun : (replayCases P A B other state appHash a x d).2 = .ok y) :
    ∀ i stored, a ≤ i → i < h → hist.blocks[i]? = some stored → FitsCommit stored.block state.lastValidators := by
  intro i stored hi hih hget
  have hheight := hist.height_eq hblocks
  rw [replayCases_behind _ (by omega) (by omega) (by omega), replayBlocks] at hrun
  obtain ⟨res, hloop, -⟩ := bind_eq_ok hrun
  refine hist.fitsCommit_of_replayLoop _ hblocks hloop i stored hi ?_ hget
  rcases hstore with hlen | hlen
  · rw [decide_eq_false (by omega), if_neg (by decide)]
    omega
  · rw [decide_eq_true (by omega), if_pos rfl]
    omega

/-- The application when the node is started reports its last commit, and is where that left it. Before the first one
it waits for `InitChain`. -/
structure AtHeight (hist : History P A B app) (a : Nat) (s : σ) : Prop where
  info : app.info s = ((a : Int), (hist.state a).appHash)
  kept : a ≠ 0 → s = hist.appState a

/-- A second `InitChain` takes the application to where the history began, and does not change a state that has a
block to apply. -/
def InitRepeats (hist : History P A B app) (genDoc : GenesisDoc) (h : Nat) (s : σ) : Prop :=
  (app.initChain s (initChainRequest genDoc (hist.state h))).1 = hist.appState 0 ∧
    ∃ state, initChainState (hist.state h) (app.initChain s (initChainRequest genDoc (hist.state h))).2 = some state ∧
      (hist.blocks.length = h + 1 → state = hist.state h)

/-- The handshake ends with the application where the history leads, and has executed the blocks above `a`, each once
and in order, and no others. -/
def Replays (hist : History P A B app) (genDoc : GenesisDoc) (h a : Nat) (s : σ) (d : Disk (σ × List AppCall)) : Prop :=
  ∃ log d', (handshake P A B app.recorded genDoc (hist.state h) (s, [])).Yields d
    (hist.appState hist.blocks.length, log) d' ∧
    log.filterMap AppCall.ofBlock = (hist.blocks.drop a).flatMap (executionCalls P B)

theorem resumes_of_initChainState {res : ResponseInitChain} (hh : h ≤ hist.blocks.length)
    (hinit : initChainState (hist.state h) res = some state)
    (hnext : hist.blocks.length = h + 1 → state = hist.state h) :
    hist.Resumes h state := by
  obtain ⟨validators, -, hinit⟩ := bind_eq_some_iff.1 hinit
  obtain ⟨consensusParams, -, hinit⟩ := map_eq_some_iff.1 hinit
  have hheight := hist.height hh
  refine ⟨?_, ?_, ?_, hnext⟩ <;> rw [← hinit]
  exact hheight

theorem initChain_yields {genDoc : GenesisDoc} {s : σ} (hh : h ≤ hist.blocks.length) (hat : hist.AtHeight a s)
    (hinit : a = 0 → hist.InitRepeats genDoc h s) (hblocks : d.blocks = hist.blocks) :
    ∃ state log d', (initChain app.recorded genDoc (hist.state h) a (s, [])).Yields d (state, hist.appState a, log) d' ∧
      d'.blocks = hist.blocks ∧ log.filterMap AppCall.ofBlock = [] ∧ hist.Resumes h state := by
  by_cases hzero : a = 0
  · obtain ⟨hs, state, hstate, hnext⟩ := hinit hzero
    rw [hzero, initChain, if_pos Nat.cast_zero, ← hs]
    refine ⟨state, [.initChain (initChainRequest genDoc (hist.state h))], d.saveState state, ?_, hblocks, rfl,
      resumes_of_initChainState hh hstate hnext⟩
    exact (yields_lift (orPanic_eq_ok.2 hstate) d).bind (.bind (yields_write _ d) (yields_pure _ _))
  · rw [initChain_past (by exact_mod_cast hzero), hat.kept hzero]
    exact ⟨hist.state h, [], d, yields_pure _ d, hblocks, rfl, hist.height hh, rfl, rfl, fun _ => rfl⟩

end History

/-- **Lost blocks are replayed, exactly when**: for an application at any height up to that of the state, the
handshake executes the blocks that the application lacks, each once and in order, if and only if those up to the
height of the state have commits with as many slots as the current state has last validators. The application may not
mind which validators it is told of, nor a second `InitChain`. -/
theorem replays_iff {σ : Type} (P : Primitives) (A : Amino) (B : BlockCodec) (app : Application σ) (genDoc : GenesisDoc)
    (hist : History P A B app) (h a : Nat) (hstore : hist.blocks.length = h ∨ hist.blocks.length = h + 1) (ha : a ≤ h)
    (d : Disk (σ × List AppCall)) (hblocks : d.blocks = hist.blocks) (s : σ) (hat : hist.AtHeight a s)
    (hinit : a = 0 → hist.InitRepeats genDoc h s)
    (halike : ∀ i stored, a ≤ i → i < h → hist.blocks[i]? = some stored → BeginsAlike P B app stored.block
      (hist.state i).lastValidators (hist.state h).lastValidators (hist.appState i)) :
    hist.Replays genDoc h a s d ↔
      ∀ i stored, a ≤ i → i < h → hist.blocks[i]? = some stored →
        FitsCommit stored.block (hist.state h).lastValidators := by
  obtain ⟨state, log, d₁, hstart, hblocks₁, hlog, hstate⟩ :=
    hist.initChain_yields (by omega : h ≤ hist.blocks.length) hat hinit hblocks
  have hshake : handshake P A B app.recorded genDoc (hist.state h) (s, []) = _ :=
    handshake_eq hat.info (Int.natCast_nonneg a)
  rw [← hstate.lastValidators] at halike ⊢
  constructor
  · rintro ⟨log', d', hrun, -⟩
    rw [hshake] at hrun
    have hend := hrun.snd
    rw [hstart.bind_snd] at hend
    exact hist.fitsCommit_of_replayCases hstore hstate.height hblocks₁ hend
  · intro hfits
    obtain ⟨log', d', hrun, hlog'⟩ := hist.replayCases_yields log hstore ha hstate halike hfits hblocks₁
    refine ⟨log', d', ?_, ?_⟩
    · rw [hshake]
      exact hstart.bind hrun
    · rw [hlog', hlog, nil_append]

/-! ## Two blocks -/

section

def keyValidator : Validator := ⟨PubKey.address .transparent (.ed25519 [7]), some (.ed25519 [7]), 10, 0⟩

def keyState : SavedState := { soloState with validators := ⟨[keyValidator], some keyValidator⟩ }

def emptyBlock (state : SavedState) (commit : Commit) : StoredBlock :=
  let block : Block := {
    header := some {
      chainID := state.chainID, height := state.lastBlockHeight + 1, time := 0, numTxs := 0
      lastBlockID := state.lastBlockID, totalTxs := state.lastBlockTotalTx
      dataHash := dataHash .transparent (some ⟨[]⟩)
      validatorsHash := state.validators.hash .transparent .plain
      consensusHash := state.consensusParams.hash .transparent .plain
      appHash := state.appHash, lastResultsHash := state.lastResultsHash }
    data := some ⟨[]⟩
    commit := some commit }
  ⟨block, Block.hash .transparent .plain (some block),
    ((block.makePartSet .transparent .plain 65536).map PartSet.header).getD PartSetHeader.empty⟩

variable (vals : Int → List AbciValidator)

def keeperApply (before : SavedState × Int) (stored : StoredBlock) : Prog (Disk Int) Stop (SavedState × Int) :=
  applyBlock .transparent .plain .plain (.keeper vals) keepApp before.1 stored.blockID stored.block before.2

def keeperApplied (before : SavedState × Int) (stored : StoredBlock) : SavedState × Int :=
  (keeperApply vals before stored blankDisk).2.toOption.getD before

def firstBlock : StoredBlock := emptyBlock keyState ⟨BlockID.empty, []⟩

def firstVote : Vote := Vote.signedBy [7] (ascii "c")
  ⟨keyValidator.address, 0, 1, 0, 0, voteTypePrecommit, firstBlock.blockID, none⟩

def afterFirst : SavedState × Int := keeperApplied vals (keyState, 0) firstBlock

def secondBlock : StoredBlock := emptyBlock (afterFirst vals).1 ⟨firstBlock.blockID, [some firstVote]⟩

def afterSecond : SavedState × Int := keeperApplied vals (afterFirst vals) (secondBlock vals)

variable {vals}

def twoBlocks (hfirst : (keeperApply vals (keyState, 0) firstBlock blankDisk).2.toOption = some (afterFirst vals))
    (hsecond : (keeperApply vals (afterFirst vals) (secondBlock vals) blankDisk).2.toOption = some (afterSecond vals)) :
    History .transparent .plain .plain (.keeper vals) where
  blocks := [firstBlock, secondBlock vals]
  state
    | 0 => keyState
    | 1 => (afterFirst vals).1
    | _ + 2 => (afterSecond vals).1
  appState
    | 0 => 0
    | 1 => (afterFirst vals).2
    | _ + 2 => (afterSecond vals).2
  start := rfl
  applied k stored hget := by
    match k, hget with
    | 0, hget =>
      cases hget
      exact ⟨blankDisk, (yields_of_toOption hfirst).snd⟩
    | 1, hget =>
      cases hget
      exact ⟨blankDisk, (yields_of_toOption hsecond).snd⟩

end

/-- The chain with one validator throughout. -/
def steadyHistory : History .transparent .plain .plain (.keeper fun _ => []) :=
  twoBlocks (by decide +kernel) (by decide +kernel)

/-- The chain with a validator that the application names after the first block. -/
def growingHistory : History .transparent .plain .plain (.keeper fun height => if height = 2 then [⟨[2], 3⟩] else []) :=
  twoBlocks (by decide +kernel) (by decide +kernel)

def storeOf {app : Application Int} (hist : History .transparent .plain .plain app) : Disk (Int × List AppCall) :=
  ⟨hist.blocks, [], fun _ => none, none, 0, []⟩

theorem initChainState_empty (state : SavedState) : initChainState state ⟨[], none⟩ = some state := rfl

theorem replays_steady : steadyHistory.Replays soloGenesis 2 0 0 (storeOf steadyHistory) := by
  refine (replays_iff .transparent .plain .plain (.keeper fun _ => []) soloGenesis steadyHistory 2 0 (.inl rfl)
    (by decide) (storeOf steadyHistory) rfl 0 ⟨rfl, fun hne => absurd rfl hne⟩
    (fun _ => ⟨rfl, steadyHistory.state 2, initChainState_empty _, fun _ => rfl⟩) ?_).2 ?_
  · intro i stored _ _ _ header signVals signVals' _ _ _
    rfl
  · intro i stored _ hi hget header commit hheader hcommit hheight
    match i, hi, hget with
    | 0, _, hget =>
      cases hget
      cases hheader
      exact absurd hheight (by decide)
    | 1, _, hget =>
      cases hget
      cases hcommit
      decide +kernel

/-- The second block was committed by one validator, and now there are two: an application that lacks it cannot get it
back. -/
theorem grown_set_stops_replay :
    growingHistory.blocks.length = 2 ∧ growingHistory.AtHeight 1 (growingHistory.appState 1) ∧
      (handshake .transparent .plain .plain (Application.keeper fun height => if height = 2 then [⟨[2], 3⟩]
        else []).recorded
        soloGenesis (growingHistory.state 2) (growingHistory.appState 1, []) (storeOf growingHistory)).2 =
          .error .panic :=
  ⟨rfl, ⟨by decide +kernel, fun _ => rfl⟩, by decide +kernel⟩

end Demars
