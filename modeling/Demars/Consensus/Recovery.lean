import Demars.Consensus.Handshake
import Demars.Lib.Fold

/-!
# Recovery from a crash

The process may be stopped after any write of `finalizeCommit` and started again. A node is `UpToDate` when the
state on disk is the one it works with, and the block store and the application end at its height.
-/

namespace Demars

open Crash Crash.Prog List Option

/-! ## What a valid block says -/

section

variable {P : Primitives} {A : Amino} {B : BlockCodec}

theorem validateBasic_numTxs {block : Block} (h : block.validateBasic P = some (.ok ())) :
    ∃ header, block.header = some header ∧ header.numTxs = totalTxsInBuckets block.data := by
  obtain ⟨header, hheader, h⟩ := bind_eq_some_iff.1 h
  refine ⟨header, hheader, ?_⟩
  by_contra hne
  rw [if_pos hne] at h
  cases h

theorem checkBlock_spec {state : SavedState} {block : Block} {header : Header}
    (h : checkBlock P A B state block = .ok header) :
    block.header = some header ∧ header.height = state.lastBlockHeight + 1 ∧
    header.numTxs = totalTxsInBuckets block.data := by
  unfold checkBlock at h
  split at h
  · cases h
  · cases h
  · next hvalid =>
    obtain ⟨header', hheader, hbasic, hok, -⟩ := ChainState.validateBlock_eq_ok hvalid
    cases Option.some.inj (hheader.symm.trans (orPanic_eq_ok.1 h))
    obtain ⟨header', hheader', hnum⟩ := validateBasic_numTxs hbasic
    cases Option.some.inj (hheader.symm.trans hheader')
    exact ⟨hheader, ChainState.validateHeader_height hok, hnum⟩

end

/-! ## The stand-in repeats the responses -/

section

variable {σ : Type} {P : Primitives} {B : BlockCodec} {app : Application σ}

/-- Deliveries leave the responses before them, and the number of responses, as they are. -/
theorem deliverStep_before (height : Int) : ∀ (txs : List Bytes) {st st' : σ × List (Option ResponseDeliverTx) × Nat},
    txs.foldlM (deliverStep app height) st = some st' → st'.2.1.length = st.2.1.length ∧
    ∀ k < st.2.2, st'.2.1[k]? = st.2.1[k]?
  | [], st, st', h => by
    cases h
    exact ⟨rfl, fun _ _ => rfl⟩
  | tx :: txs, st, st', h => by
    rw [foldlM_cons, bind_eq_bind, bind_eq_some_iff] at h
    obtain ⟨mid, hmid, hrest⟩ := h
    obtain ⟨res, -, hset⟩ := bind_eq_some_iff.1 hmid
    split_ifs at hset with hlt
    cases hset
    obtain ⟨hlen, hkeep⟩ := deliverStep_before height txs hrest
    refine ⟨by rw [hlen, length_set], fun k hk => ?_⟩
    rw [hkeep k (by simp only; omega), getElem?_set_ne (by omega)]

theorem deliverStep_mock (appHash : Bytes) (responses : ABCIResponses) (height : Int) : ∀ (txs : List Bytes)
    {st st' : σ × List (Option ResponseDeliverTx) × Nat}, txs.foldlM (deliverStep app height) st = some st' →
      st'.2.1 = responses.deliverTx → txs.foldlM (deliverStep (mockProxyApp appHash responses) height)
        (st.2.2, st.2.1, st.2.2) =
        some (st'.2.2, st'.2.1, st'.2.2)
  | [], st, st', h, _ => by
    cases h
    rfl
  | tx :: txs, st, st', h, hresp => by
    rw [foldlM_cons, bind_eq_bind, bind_eq_some_iff] at h
    obtain ⟨mid, hmid, hrest⟩ := h
    obtain ⟨res, -, hset⟩ := bind_eq_some_iff.1 hmid
    split_ifs at hset with hlt
    cases hset
    -- later deliveries do not touch this response, so it is the one that was saved
    have hsaved : responses.deliverTx[st.2.2]? = some (some res.2) := by
      rw [← hresp, (deliverStep_before height txs hrest).2 st.2.2 (by simp only; omega)]
      exact getElem?_set_self hlt
    have hstep : deliverStep (mockProxyApp appHash responses) height (st.2.2, st.2.1, st.2.2) tx =
        some (st.2.2 + 1, st.2.1.set st.2.2 (some res.2), st.2.2 + 1) := by
      simp [deliverStep, mockProxyApp, hsaved, hlt]
    rw [foldlM_cons, hstep]
    exact deliverStep_mock appHash responses height txs hrest hresp

/-- Executed on the stand-in, a block gives the saved responses again, but no validators. -/
theorem execBlockOnProxyApp_mock {block : Block} {valSet : ValidatorSet} {s executed : σ} {responses : ABCIResponses}
    (h : execBlockOnProxyApp P B app block valSet s = some (executed, responses)) (appHash : Bytes) :
    execBlockOnProxyApp P B (mockProxyApp appHash responses) block valSet 0 =
      some (0, { responses with getValidatorSet := [] }) := by
  obtain ⟨header, hheader, h⟩ := bind_eq_some_iff.1 h
  split_ifs at h with hneg
  obtain ⟨signVals, hsign, h⟩ := bind_eq_some_iff.1 h
  obtain ⟨data, hdata, h⟩ := bind_eq_some_iff.1 h
  obtain ⟨st, hfold, heq⟩ := map_eq_some_iff.1 h
  have hmock := deliverStep_mock appHash responses header.height _ hfold (by cases heq; rfl)
  unfold execBlockOnProxyApp
  simp only [hheader, bind_some, hneg, if_false, hsign, hdata]
  have hbegin : (mockProxyApp appHash responses).beginBlock 0 ⟨Block.hash P B (some block), header.toAbci, signVals⟩ =
    0 :=
    rfl
  rw [hbegin]
  simp only at hmock
  rw [hmock]
  cases heq
  rfl

end

theorem updateState_unchanged {P : Primitives} {B : BlockCodec} {state updated : SavedState} {blockID : BlockID}
    {header : Header} {responses : ABCIResponses}
    (h : updateState P B state blockID header responses = some (.ok updated)) :
    updateState P B state blockID header { responses with getValidatorSet := [] } =
      (state.validators.incrementAccum 1).map fun validators => .ok { updated with
        validators, lastHeightValidatorsChanged := state.lastHeightValidatorsChanged } := by
  unfold updateState at h
  split at h
  · cases h
  · obtain ⟨turned, hturn, h⟩ := bind_eq_some_iff.1 h
    split at h
    · cases h
    · next params hparams =>
      obtain ⟨hash, hhash, heq⟩ := map_eq_some_iff.1 h
      cases heq
      have hsame : ABCIResponses.resultsHash P B { responses with getValidatorSet := [] } = some hash := hhash
      cases hold : state.validators.incrementAccum 1 with
      | none => simp [updateState, nextValidators, hold]
      | some validators => simp [updateState, nextValidators, hold, hparams, hsame]

/-! ## Nodes that are up to date -/

section

variable {σ : Type} (P : Primitives) (A : Amino) (B : BlockCodec) (app : Application σ) (genDoc : GenesisDoc)

/-- The contract of `Info`: it reports the height and the hash of the last `Commit`. -/
def Application.ReportsCommits : Prop :=
  ∀ (block : Block) (header : Header) (valSet : ValidatorSet) (s executed : σ) (responses : ABCIResponses),
    block.header = some header → execBlockOnProxyApp P B app block valSet s = some (executed, responses) →
    app.info (app.commit executed).1 = (header.height, (app.commit executed).2)

/-- The node works with the state on disk, the block store and the application are at its height, and the application
is as a restart would bring it up. No change of the validators lies ahead of the next height. -/
structure UpToDate (d : Disk σ) (state : SavedState) (s : σ) : Prop where
  state_eq : d.state = some state
  height_eq : d.height = state.lastBlockHeight
  reports : (app.info d.app).1 = state.lastBlockHeight
  kept : state.lastBlockHeight ≠ 0 → d.app = s
  init : state.lastBlockHeight = 0 → (app.initChain d.app (initChainRequest genDoc state)).1 = s ∧
    initChainState state (app.initChain d.app (initChainRequest genDoc state)).2 = some state
  changed : state.lastHeightValidatorsChanged ≤ state.lastBlockHeight + 1

def Disk.commitWrites (d : Disk σ) (block : Block) (parts : PartSet) (header : Header) (responses : ABCIResponses)
    (s : σ) (state : SavedState) : List (Disk σ) :=
  let d₁ := d.addBlock P B block parts
  let d₂ := d₁.addEndHeight header.height
  let d₃ := d₂.saveResponses header.height responses
  let d₄ := d₃.saveApp s
  [d₁, d₂, d₃, d₄, d₄.saveState state]

end

section

variable {σ : Type} {P : Primitives} {A : Amino} {B : BlockCodec} {app : Application σ} {genDoc : GenesisDoc}
  {d : Disk σ} {state : SavedState} {s : σ} {block : Block} {parts : PartSet}

theorem Disk.height_nonneg (d : Disk σ) : 0 ≤ d.height := Int.natCast_nonneg _

@[simp] theorem Disk.height_addBlock : (d.addBlock P B block parts).height = d.height + 1 := by
  simp [Disk.addBlock, Disk.height]

theorem Disk.loadBlock_of_blocks_eq {d' : Disk σ} (h : d'.blocks = (d.addBlock P B block parts).blocks) :
    d'.height = d.height + 1 ∧
      d'.loadBlock d'.height = some ⟨block, ⟨Block.hash P B (some block), parts.header⟩⟩ := by
  have hheight : d'.height = d.height + 1 := by
    rw [← Disk.height_addBlock (P := P) (B := B), Disk.height, h, Disk.height]
  have hpos := d.height_nonneg
  refine ⟨hheight, ?_⟩
  rw [Disk.loadBlock, if_neg (by omega), h, hheight]
  simp [Disk.addBlock, Disk.height]

theorem saveNewBlock_eq {height : Int} (hheight : height = d.height + 1)
    (h : (saveNewBlock P B height block parts d).2 = .ok ()) :
    saveNewBlock P B height block parts d = ([d.addBlock P B block parts], .ok ()) := by
  have hlt : d.height < height := by omega
  have hne : ¬ height ≠ d.height + 1 := not_not_intro hheight
  rw [saveNewBlock, Prog.get_bind, if_pos hlt, saveBlock, Prog.get_bind, if_neg hne] at h ⊢
  split_ifs at h with hparts
  · cases h
  · rw [if_neg hparts]
    rfl

theorem finalizeCommit_eq (hheight : d.height = state.lastBlockHeight) {state' : SavedState} {s' : σ}
    (h : (finalizeCommit P A B app state block parts s d).2 = .ok (state', s')) : ∃ header executed responses updated,
      Applies P A B app state ⟨Block.hash P B (some block), parts.header⟩ block s header executed responses updated ∧
      state' = { updated with appHash := (app.commit executed).2 } ∧ s' = (app.commit executed).1 ∧
      finalizeCommit P A B app state block parts s d = (d.commitWrites P B block parts header responses s' state',
        .ok (state', s')) := by
  obtain ⟨header, hcheck, h, -⟩ := bind_eq_ok h
  obtain ⟨_, hsave, h, -⟩ := bind_eq_ok h
  obtain ⟨_, -, h, -⟩ := bind_eq_ok h
  obtain ⟨header', executed, responses, updated, happlies, rfl, rfl⟩ := applies_of_ok h
  obtain rfl : header' = header := by
    have hcheck' := happlies.check
    change checkBlock P A B state block = .ok header at hcheck
    rw [hcheck] at hcheck'
    cases hcheck'
    rfl
  have hnext := (checkBlock_spec happlies.check).2.1
  have hsaved := saveNewBlock_eq (by omega : header'.height = d.height + 1) hsave
  have hkeep : keepApp (app.commit executed).1 (((d.addBlock P B block parts).addEndHeight header'.height).saveResponses
      header'.height responses) = ([_], .ok ()) := rfl
  refine ⟨header', executed, responses, updated, happlies, rfl, rfl, ?_⟩
  rw [finalizeCommit, lift_bind _ _ happlies.check]
  refine Prog.seq (t := [d.addBlock P B block parts]) (a := ()) hsaved ?_
  refine Prog.seq (t := [(d.addBlock P B block parts).addEndHeight header'.height]) (a := ()) ?_ ?_
  · rw [← hnext]
    rfl
  · exact applyBlock_eq happlies hkeep

end

/-! ## Restarts -/

section

variable {σ : Type} {P : Primitives} {A : Amino} {B : BlockCodec} {app : Application σ} {genDoc : GenesisDoc}
  {d : Disk σ} {state : SavedState} {s : σ}

theorem Disk.saveState_self (h : d.state = some state) : d.saveState state = d := by
  rw [Disk.saveState, ← h]

theorem loadStateOrGenesis_eq (hstate : d.state = some state) : loadStateOrGenesis P genDoc d = ([], .ok state) := by
  rw [loadStateOrGenesis, Prog.get_bind, hstate]
  rfl

theorem startNode_yields {d' : Disk σ} {state' : SavedState} (hstate : d.state = some state)
    (hshake : Yields (handshake P A B app genDoc state d.app) d s d') (hstate' : d'.state = some state')
    (hheight : state'.lastBlockHeight = d'.height) (emptyLog : Bool) :
    ∃ d'', Yields (startNode P A B app genDoc emptyLog) d (state', s) d'' ∧ d''.state = some state' ∧
      d''.app = d'.app := by
  have hreload : Yields loadState d' state' d' := by
    refine ⟨[], ?_, rfl⟩
    rw [loadState, Prog.get_bind, lift_bind _ _ (orPanic_eq_ok.2 hstate'), if_neg (not_not_intro hheight)]
    rfl
  obtain ⟨d'', hlog, hst, happ⟩ : ∃ d'', Yields (startLog emptyLog) d' () d'' ∧ d''.state = some state' ∧
    d''.app = d'.app := by
    cases emptyLog
    · exact ⟨d', yields_pure () d', hstate', rfl⟩
    · exact ⟨d'.addEndHeight 0, yields_write _ d', hstate', rfl⟩
  have hload : Yields (loadStateOrGenesis P genDoc) d state d := ⟨[], loadStateOrGenesis_eq hstate, rfl⟩
  exact ⟨d'', hload.bind (.bind ⟨[], rfl, rfl⟩ (hshake.bind (hreload.bind (hlog.bind (yields_pure _ d''))))), hst, happ⟩

theorem startNode_error {t : List (Disk σ)} {e : Stop} (hstate : d.state = some state)
    (hshake : handshake P A B app genDoc state d.app d = (t, .error e)) (emptyLog : Bool) :
    (startNode P A B app genDoc emptyLog d).2 = .error e := by
  rw [startNode, bind_ok (loadStateOrGenesis_eq hstate), last_nil, Prog.get_bind, bind_error hshake]

theorem handshake_eq {appBlockHeight : Int} {appHash : Bytes} {a : σ} (hinfo : app.info a = (appBlockHeight, appHash))
    (hnonneg : 0 ≤ appBlockHeight) : handshake P A B app genDoc state a =
      initChain app genDoc state appBlockHeight a >>= fun res => replayCases P A B app res.1 appHash appBlockHeight
        res.2 := by
  rw [handshake, hinfo]
  simp only
  rw [if_neg (by omega)]

theorem initChain_past {appBlockHeight : Int} (h : appBlockHeight ≠ 0) :
    initChain app genDoc state appBlockHeight s = (pure (state, s) : Prog (Disk σ) Stop _) := by
  rw [initChain, if_neg h]

/-- `InitChain` or its omission leads back to what an up-to-date node has in memory. -/
theorem UpToDate.initChain_yields {d₀ : Disk σ} (h : UpToDate app genDoc d₀ state s) (hstate : d.state = some state) :
    Yields (initChain app genDoc state state.lastBlockHeight d₀.app) d (state, s) d := by
  by_cases hzero : state.lastBlockHeight = 0
  · obtain ⟨hs, hres⟩ := h.init hzero
    rw [initChain, if_pos hzero]
    simp only
    rw [hs]
    have hsame := Disk.saveState_self hstate
    refine (yields_lift (orPanic_eq_ok.2 hres) d).bind (.bind (yields_write _ d) ?_)
    rw [hsame]
    exact yields_pure _ d
  · rw [initChain_past hzero, h.kept hzero]
    exact yields_pure _ d

theorem replayCases_real (appHash : Bytes) (hnonneg : 0 ≤ state.lastBlockHeight)
    (hheight : d.height = state.lastBlockHeight + 1) :
    replayCases P A B app state appHash state.lastBlockHeight s d =
      (replayBlock P A B app keepApp state d.height s >>= fun res => pure res.2) d := by
  rw [replayCases, Prog.get_bind, if_neg (by omega), if_neg (by omega), if_neg (by omega), if_neg (by omega),
    if_neg (by omega), if_pos hheight, if_neg (by omega), if_pos rfl]

theorem replayCases_mock (appHash : Bytes) {responses : ABCIResponses} (hnonneg : 0 ≤ state.lastBlockHeight)
    (hheight : d.height = state.lastBlockHeight + 1) (hresp : d.responses d.height = some responses) :
    replayCases P A B app state appHash d.height s d =
      (replayBlock P A B (mockProxyApp appHash responses) (fun _ => pure ()) state d.height 0 >>= fun _ => pure s)
        d := by
  rw [replayCases, Prog.get_bind, if_neg (by omega), if_neg (by omega), if_neg (by omega), if_neg (by omega),
    if_neg (by omega), if_pos hheight, if_neg (by omega), if_neg (by omega), if_pos rfl]
  exact lift_bind _ _ (by rw [hresp]; rfl) d

theorem replayCases_done {appHash : Bytes} (hheight : d.height = state.lastBlockHeight)
    (hhash : state.appHash = appHash) :
    replayCases P A B app state appHash d.height s d = ([], .ok s) := by
  have hcheck : checkAppHash state appHash = .ok () := if_pos hhash
  rw [replayCases, Prog.get_bind]
  split_ifs with hzero
  · rw [lift_bind _ _ hcheck]
    rfl
  all_goals first
    | omega
    | (rw [lift_bind _ _ hcheck]; rfl)

theorem replayBlock_eq {τ : Type} {other : Application τ} {keep : τ → Prog (Disk σ) Stop Unit} {height : Int} {x : τ}
    {stored : StoredBlock} (hload : d.loadBlock height = some stored) : replayBlock P A B other keep state height x d =
      applyBlock P A B other keep state stored.blockID stored.block x d := by
  rw [replayBlock, Prog.get_bind, lift_bind _ _ (orPanic_eq_ok.2 hload)]

end

/-! ## Every point of a commit -/

/-- The points at which the process is stopped, named by the last thing that it has done. -/
inductive CrashPoint
  | saveBlock
  | endHeight
  | exec
  | saveResponses
  | appCommit
  | saveState

/-- How many writes have been done by then; executing a block writes nothing. -/
def CrashPoint.writes : CrashPoint → Nat
  | .saveBlock => 1
  | .endHeight => 2
  | .exec => 2
  | .saveResponses => 3
  | .appCommit => 4
  | .saveState => 5

section

variable {σ : Type} (P : Primitives) (A : Amino) (B : BlockCodec) (app : Application σ) (genDoc : GenesisDoc)

/-- A node started on the disk comes up, with the given states in memory and on disk. -/
def Recovers (emptyLog : Bool) (d : Disk σ) (state : SavedState) (s : σ) : Prop :=
  ∃ d', Yields (startNode P A B app genDoc emptyLog) d (state, s) d' ∧ d'.state = some state ∧ d'.app = s

variable {P A B app genDoc} {d₀ d : Disk σ} {state updated : SavedState} {s executed : σ} {stored : StoredBlock}
  {header : Header} {responses : ABCIResponses} {blockID : BlockID} {block : Block}

theorem Applies.height_eq (h : Applies P A B app state blockID block s header executed responses updated) :
    header.height = state.lastBlockHeight + 1 ∧ updated.lastBlockHeight = state.lastBlockHeight + 1 := by
  have hheight := (checkBlock_spec h.check).2.1
  exact ⟨hheight, (updateState_eq_ok h.update).2.1.trans hheight⟩

theorem recovers_real (hup : UpToDate app genDoc d₀ state s)
    (happlies : Applies P A B app state stored.blockID stored.block s header executed responses updated)
    (hstate : d.state = some state) (happ : d.app = d₀.app) (hheight : d.height = state.lastBlockHeight + 1)
    (hload : d.loadBlock d.height = some stored) (emptyLog : Bool) :
    Recovers P A B app genDoc emptyLog d { updated with appHash := (app.commit executed).2 }
      (app.commit executed).1 := by
  have hnonneg : 0 ≤ state.lastBlockHeight := hup.height_eq ▸ d₀.height_nonneg
  have hkeep : keepApp (app.commit executed).1 (d.saveResponses header.height responses) = ([_], .ok ()) := rfl
  have happly : Yields (replayBlock P A B app keepApp state d.height s) d (_, _) _ :=
    ⟨_, (replayBlock_eq hload).trans (applyBlock_eq happlies hkeep), rfl⟩
  have hcases := (happly.bind (yields_pure (app.commit executed).1 _)).congr
    (replayCases_real (app.info d₀.app).2 hnonneg hheight)
  have hshake := ((hup.initChain_yields hstate).bind hcases).congr
    (congrFun (handshake_eq (Prod.ext hup.reports rfl) hnonneg) d)
  rw [← happ] at hshake
  obtain ⟨d'', hstart, hst, hap⟩ := startNode_yields hstate hshake rfl (happlies.height_eq.2.trans hheight.symm)
    emptyLog
  exact ⟨d'', hstart, hst, hap⟩

/-- Stopped after the commit of the application, before the state is saved: the stand-in repeats the block without the
validators. -/
theorem startNode_mock (genDoc : GenesisDoc)
    (happlies : Applies P A B app state stored.blockID stored.block s header executed responses updated)
    (hnonneg : 0 ≤ state.lastBlockHeight) (hstate : d.state = some state) (happ : d.app = (app.commit executed).1)
    (hinfo : app.info d.app = (d.height, (app.commit executed).2)) (hheight : d.height = state.lastBlockHeight + 1)
    (hload : d.loadBlock d.height = some stored) (hresp : d.responses d.height = some responses) (emptyLog : Bool) :
    match state.validators.incrementAccum 1 with
    | none => (startNode P A B app genDoc emptyLog d).2 = .error .panic
    | some validators => Recovers P A B app genDoc emptyLog d { updated with
        validators, lastHeightValidatorsChanged := state.lastHeightValidatorsChanged
        appHash := (app.commit executed).2 } (app.commit executed).1 := by
  have hexec := execBlockOnProxyApp_mock happlies.exec (app.commit executed).2
  have hupdate := updateState_unchanged happlies.update
  have hcases : replayCases P A B app state (app.commit executed).2 d.height d.app d = _ :=
    replayCases_mock _ hnonneg hheight hresp
  have hinit : Yields (initChain app genDoc state d.height d.app) d (state, d.app) d :=
    (yields_pure _ d).congr (by rw [initChain_past (by omega)])
  have hpast : handshake P A B app genDoc state d.app d = _ := congrFun (handshake_eq hinfo (by omega)) d
  cases hturn : state.validators.incrementAccum 1 with
  | none =>
    rw [hturn] at hupdate
    have hpanic : replayBlock P A B (mockProxyApp (app.commit executed).2 responses) (fun _ => pure ()) state
      d.height 0 d =
        (_, _) := (replayBlock_eq hload).trans (applyBlock_panic happlies.check hexec hupdate)
    rw [bind_error hpanic] at hcases
    rw [initChain_past (by omega)] at hpast
    exact startNode_error hstate (hpast.trans hcases) emptyLog
  | some validators =>
    rw [hturn] at hupdate
    have hmock : Applies P A B (mockProxyApp (app.commit executed).2 responses) state stored.blockID
      stored.block 0 header
        0 { responses with getValidatorSet := [] } _ := ⟨happlies.check, hexec, hupdate⟩
    have happly : Yields (replayBlock P A B (mockProxyApp (app.commit executed).2 responses) (fun _ => pure ()) state
        d.height 0) d (_, _) _ := ⟨_, (replayBlock_eq hload).trans (applyBlock_eq hmock rfl), rfl⟩
    have hshake := (hinit.bind ((happly.bind (yields_pure d.app _)).congr hcases)).congr hpast
    obtain ⟨d'', hstart, hst, hap⟩ := startNode_yields hstate hshake rfl (hmock.height_eq.2.trans hheight.symm) emptyLog
    rw [happ] at hstart
    exact ⟨d'', hstart, hst, hap.trans happ⟩

theorem recovers_done (hstate : d.state = some state) (hheight : d.height = state.lastBlockHeight)
    (hinfo : app.info d.app = (state.lastBlockHeight, state.appHash)) (hpos : 0 < state.lastBlockHeight)
    (emptyLog : Bool) :
    Recovers P A B app genDoc emptyLog d state d.app := by
  rw [← hheight] at hinfo
  have hinit : Yields (initChain app genDoc state d.height d.app) d (state, d.app) d :=
    (yields_pure _ d).congr (by rw [initChain_past (by omega)])
  have hdone : Yields (replayCases P A B app state state.appHash d.height d.app) d d.app d :=
    ⟨[], replayCases_done hheight rfl, rfl⟩
  have hshake := (hinit.bind hdone).congr (congrFun (handshake_eq hinfo (by omega)) d)
  obtain ⟨d'', hstart, hst, hap⟩ := startNode_yields hstate hshake hstate hheight.symm emptyLog
  exact ⟨d'', hstart, hst, hap⟩

/-- The application asks for a change of the validators exactly if the update shows it. -/
theorem Applies.changed_iff (h : Applies P A B app state blockID block s header executed responses updated)
    (hchanged : state.lastHeightValidatorsChanged ≤ state.lastBlockHeight + 1) :
    updated.lastHeightValidatorsChanged = state.lastHeightValidatorsChanged ↔ responses.getValidatorSet = [] := by
  have hheight := h.height_eq.1
  rw [(updateState_eq_ok h.update).2.2.2]
  split_ifs with hnil
  · exact ⟨fun _ => hnil, fun _ => rfl⟩
  · exact ⟨fun hn => absurd hn (by omega), fun hn => absurd hn hnil⟩

theorem Applies.reports (hreports : app.ReportsCommits P B)
    (h : Applies P A B app state blockID block s header executed responses updated) :
    app.info (app.commit executed).1 = (header.height, (app.commit executed).2) :=
  hreports block header _ s executed responses (checkBlock_spec h.check).1 h.exec

section

variable {d' : Disk σ} {block : Block} {parts : PartSet} (hup : UpToDate app genDoc d state s)
  (happlies : Applies P A B app state ⟨Block.hash P B (some block), parts.header⟩ block s header executed
    responses updated)
  (hblocks : d'.blocks = (d.addBlock P B block parts).blocks)
include hup happlies hblocks

theorem recovers_before (hstate : d'.state = d.state) (happ : d'.app = d.app) (emptyLog : Bool) :
    Recovers P A B app genDoc emptyLog d' { updated with appHash := (app.commit executed).2 }
      (app.commit executed).1 := by
  obtain ⟨hheight, hload⟩ := Disk.loadBlock_of_blocks_eq hblocks
  rw [hup.height_eq] at hheight
  exact recovers_real hup happlies (hstate.trans hup.state_eq) happ hheight hload emptyLog

variable (hreports : app.ReportsCommits P B)
include hreports

theorem recovers_between_iff (hstate : d'.state = d.state) (happ : d'.app = (app.commit executed).1)
    (hresp : d'.responses header.height = some responses) (emptyLog : Bool) :
    Recovers P A B app genDoc emptyLog d' { updated with appHash := (app.commit executed).2 } (app.commit executed).1 ↔
      responses.getValidatorSet = [] := by
  obtain ⟨hheight, hload⟩ := Disk.loadBlock_of_blocks_eq hblocks
  rw [hup.height_eq] at hheight
  have hhead : header.height = d'.height := happlies.height_eq.1.trans hheight.symm
  have hinfo := happlies.reports hreports
  rw [hhead] at hresp hinfo
  rw [← happ] at hinfo
  have hmock := startNode_mock genDoc happlies (hup.height_eq ▸ d.height_nonneg) (hstate.trans hup.state_eq)
    happ hinfo hheight hload hresp emptyLog
  -- without a change the update was made by the same turn
  have hupdate := updateState_unchanged happlies.update
  have hsame (hnil : responses.getValidatorSet = []) : { responses with getValidatorSet := [] } = responses := by
    rw [← hnil]
  cases hturn : state.validators.incrementAccum 1 with
  | none =>
    simp only [hturn] at hmock
    constructor
    · rintro ⟨d'', ⟨t, hstart, -⟩, -⟩
      rw [hstart] at hmock
      cases hmock
    · intro hnil
      rw [hsame hnil, happlies.update, hturn] at hupdate
      cases hupdate
  | some validators =>
    simp only [hturn] at hmock
    constructor
    · rintro ⟨d'', hstart, -⟩
      obtain ⟨d₁, hstart', -⟩ := hmock
      exact (happlies.changed_iff hup.changed).1
        (congrArg (fun res => res.1.lastHeightValidatorsChanged) (hstart.unique hstart'))
    · intro hnil
      rw [hsame hnil, happlies.update, hturn] at hupdate
      have hupd : updated = { updated with
          validators, lastHeightValidatorsChanged := state.lastHeightValidatorsChanged } :=
        Except.ok.inj (Option.some.inj hupdate)
      rw [hupd]
      exact hmock

theorem recovers_after (hstate : d'.state = some { updated with appHash := (app.commit executed).2 })
    (happ : d'.app = (app.commit executed).1) (emptyLog : Bool) :
    Recovers P A B app genDoc emptyLog d' { updated with appHash := (app.commit executed).2 }
      (app.commit executed).1 := by
  obtain ⟨hheight, -⟩ := Disk.loadBlock_of_blocks_eq hblocks
  have hnonneg := d.height_nonneg
  rw [hup.height_eq] at hheight hnonneg
  have hheights := happlies.height_eq
  have hinfo := happlies.reports hreports
  rw [hheights.1, ← hheights.2, ← happ] at hinfo
  have hpos : 0 < updated.lastBlockHeight := by omega
  rw [← happ]
  exact recovers_done hstate (hheight.trans hheights.2.symm) hinfo hpos emptyLog

end

theorem finalizeCommit_upToDate (hreports : app.ReportsCommits P B) (hup : UpToDate app genDoc d state s)
    {parts : PartSet} {state' : SavedState} {s' : σ} {d' : Disk σ}
    (h : Yields (finalizeCommit P A B app state block parts s) d (state', s') d') :
    UpToDate app genDoc d' state' s' := by
  obtain ⟨t, hrun, rfl⟩ := h
  obtain ⟨header, executed, responses, updated, happlies, rfl, rfl, heq⟩ :=
    finalizeCommit_eq hup.height_eq (congrArg Prod.snd hrun)
  rw [hrun] at heq
  cases heq
  have hheight := happlies.height_eq
  have hnonneg : 0 ≤ state.lastBlockHeight := hup.height_eq ▸ d.height_nonneg
  have hne : updated.lastBlockHeight ≠ 0 := by omega
  have hinfo := happlies.reports hreports
  refine ⟨rfl, ?_, ?_, fun _ => rfl, fun h => absurd h hne, ?_⟩
  · change (d.addBlock P B block parts).height = updated.lastBlockHeight
    rw [Disk.height_addBlock, hup.height_eq, hheight.2]
  · change (app.info (app.commit executed).1).1 = updated.lastBlockHeight
    rw [hinfo, hheight.1, hheight.2]
  · change updated.lastHeightValidatorsChanged ≤ updated.lastBlockHeight + 1
    rw [(updateState_eq_ok happlies.update).2.2.2]
    have hchanged := hup.changed
    split_ifs <;> omega

/-- **A node stays up to date** over any number of blocks. -/
theorem commits_upToDate (hreports : app.ReportsCommits P B) {x y : Disk σ × SavedState × σ}
    (hup : UpToDate app genDoc x.1 x.2.1 x.2.2)
    (h : Relation.ReflTransGen (fun x y => ∃ block parts, Yields (finalizeCommit P A B app x.2.1 block parts x.2.2)
      x.1 y.2 y.1) x y) :
    UpToDate app genDoc y.1 y.2.1 y.2.2 := by
  induction h with
  | refl => exact hup
  | tail _ hcommit ih =>
    obtain ⟨block, parts, hyields⟩ := hcommit
    exact finalizeCommit_upToDate hreports ih hyields

end

/-- **Recovery, point by point**: a process that is stopped at any point of `finalizeCommit` and started again comes
up with the same state of the chain and of the application, unless it was stopped between the commit of the
application and the saving of the state: there exactly if the application named no validators. -/
theorem recovers_iff {σ : Type} (P : Primitives) (A : Amino) (B : BlockCodec) (app : Application σ)
    (hreports : app.ReportsCommits P B) (genDoc : GenesisDoc) (d : Disk σ) (state : SavedState) (s : σ)
    (hup : UpToDate app genDoc d state s) (block : Block) (parts : PartSet) {disks : List (Disk σ)}
    {state' : SavedState} {s' : σ} (hrun : finalizeCommit P A B app state block parts s d = (disks, .ok (state', s')))
    {executed : σ} {responses : ABCIResponses}
    (hexec : execBlockOnProxyApp P B app block state.lastValidators s = some (executed, responses)) (emptyLog : Bool)
    (point : CrashPoint) : ∃ d', disks[point.writes - 1]? = some d' ∧
      (Recovers P A B app genDoc emptyLog d' state' s' ↔ (point = .appCommit → responses.getValidatorSet = [])) := by
  obtain ⟨header, executed', responses', updated, happlies, rfl, rfl, heq⟩ :=
    finalizeCommit_eq hup.height_eq (congrArg Prod.snd hrun)
  have hsame := happlies.exec
  rw [hexec] at hsame
  cases hsame
  rw [hrun] at heq
  cases heq
  cases point with
  | saveBlock | endHeight | exec | saveResponses =>
    refine ⟨_, rfl, iff_of_true ?_ fun h => nomatch h⟩
    apply recovers_before hup happlies <;> rfl
  | appCommit =>
    refine ⟨_, rfl, Iff.trans ?_ ⟨fun h _ => h, fun h => h rfl⟩⟩
    apply recovers_between_iff hup happlies _ hreports
    · rfl
    · rfl
    · exact if_pos rfl
    · rfl
  | saveState =>
    refine ⟨_, rfl, iff_of_true ?_ fun h => nomatch h⟩
    apply recovers_after hup happlies _ hreports <;> rfl

/-! ## A first block -/

theorem keeper_reportsCommits (P : Primitives) (B : BlockCodec) (vals : Int → List AbciValidator) :
    (Application.keeper vals).ReportsCommits P B := by
  intro block header valSet s executed responses hheader h
  obtain ⟨header', hheader', h⟩ := bind_eq_some_iff.1 h
  rw [hheader] at hheader'
  cases hheader'
  split_ifs at h
  obtain ⟨signVals, -, h⟩ := bind_eq_some_iff.1 h
  obtain ⟨data, -, h⟩ := bind_eq_some_iff.1 h
  obtain ⟨st, hfold, heq⟩ := map_eq_some_iff.1 h
  have hkeep : st.1 = header.height := by
    refine Fold.induct (p := fun st => st.1 = header.height) ?_ rfl hfold
    intro tx _ st st' hst hstep
    obtain ⟨res, hres, hset⟩ := bind_eq_some_iff.1 hstep
    split_ifs at hset
    cases hres
    cases hset
    exact hst
  cases heq
  rw [← hkeep]
  rfl

/-- The chain of `soloState` as a genesis document; its key does not matter to the keeper. -/
def soloGenesis : GenesisDoc := ⟨0, ascii "c", defaultConsensusParams, [(.ed25519 [], 10)], [], []⟩

/-- A disk with that chain before its first block, after a start. -/
def soloDisk : Disk Int := ⟨[], [0], fun _ => none, some soloState, 0⟩

def soloParts : PartSet := (soloBlock.makePartSet .transparent .plain 65536).getD ⟨0, [], [], 0⟩

theorem soloDisk_upToDate (vals : Int → List AbciValidator) :
    UpToDate (.keeper vals) soloGenesis soloDisk soloState 0 :=
  ⟨rfl, rfl, rfl, fun h => absurd rfl h, fun _ => ⟨rfl, rfl⟩, le_rfl⟩

def soloCommit (vals : List AbciValidator) : List (Disk Int) × Except Stop (SavedState × Int) :=
  finalizeCommit .transparent .plain .plain (.keeper fun _ => vals) soloState soloBlock soloParts 0 soloDisk

theorem recovers_everywhere : ∃ disks state' s', soloCommit [] = (disks, .ok (state', s')) ∧ ∀ point : CrashPoint, ∃ d',
      disks[point.writes - 1]? = some d' ∧ Recovers .transparent .plain .plain (.keeper fun _ => []) soloGenesis false
        d' state' s' := by
  have heval : (soloCommit []).2.toOption.isSome := by decide +kernel
  rcases hrun : soloCommit [] with ⟨disks, e | ⟨state', s'⟩⟩
  · rw [hrun] at heval
    cases heval
  · refine ⟨disks, state', s', rfl, fun point => ?_⟩
    obtain ⟨d', hd', hiff⟩ := recovers_iff .transparent .plain .plain (.keeper fun _ => [])
      (keeper_reportsCommits _ _ _)
      soloGenesis soloDisk soloState 0 (soloDisk_upToDate _) soloBlock soloParts hrun
      (by decide +kernel : execBlockOnProxyApp .transparent .plain (.keeper fun _ => []) soloBlock
        soloState.lastValidators 0 = some (1, ⟨[], none, []⟩)) false point
    exact ⟨d', hd', hiff.2 fun _ => rfl⟩

theorem solo_stays_upToDate : ∃ res d, (soloCommit []).2.toOption = some res ∧
    UpToDate (.keeper fun _ => []) soloGenesis d res.1 res.2 := by
  have heval : (soloCommit []).2.toOption.isSome := by decide +kernel
  obtain ⟨res, hres⟩ := isSome_iff_exists.1 heval
  obtain ⟨d, hyields⟩ : ∃ d, Yields (finalizeCommit .transparent .plain .plain (.keeper fun _ => []) soloState soloBlock
    soloParts 0) soloDisk res d := ⟨_, yields_of_toOption hres⟩
  exact ⟨res, d, hres, commits_upToDate (x := (_, soloState, 0)) (y := (d, res)) (keeper_reportsCommits _ _ _)
    (soloDisk_upToDate _) (.single ⟨_, _, hyields⟩)⟩

/-- The application names a second validator. After a stop between its commit and the saving of the state the node
comes up with the old one alone. -/
theorem named_validator_lost :
    (soloCommit [⟨[2], 3⟩]).2.toOption.map (fun res => (res.1.validators.validators.map Validator.toAbci, res.2)) =
        some ([⟨[1], 10⟩, ⟨[2], 3⟩], 1) ∧
      (((soloCommit [⟨[2], 3⟩]).1[CrashPoint.appCommit.writes - 1]?).bind fun d =>
        (startNode .transparent .plain .plain (.keeper fun _ => [⟨[2], 3⟩]) soloGenesis false d).2.toOption.map
          fun res =>
          (res.1.lastBlockHeight, res.1.validators.validators.map Validator.toAbci, res.2)) =
        some (1, [⟨[1], 10⟩], 1) := by
  decide +kernel

end Demars
