import Demars.Consensus.Recovery

/-!
# The heights of the stores

A node writes to the block store, the log with the ends of heights, and the state store. Three programs do, each of
them stopped anywhere: `finalizeCommit`, the application of a block by fast sync, and the start of the node with
its handshake.
-/

namespace Demars

open Crash Crash.Prog List Option

/-! ## Fast sync -/

section

variable {σ : Type} (P : Primitives) (A : Amino) (B : BlockCodec) (app : Application σ)

/-- One turn of the loop in `poolRoutine`. An error of the check is the peer's, one of `ApplyBlock` panics. -/
def syncBlock (state : SavedState) (block : Block) (s : σ) : Prog (Disk σ) Stop (SavedState × σ) := do
  let header ← Prog.lift (orPanic block.header)
  let parts ← Prog.lift (orPanic (block.makePartSet P B state.consensusParams.blockPartSizeBytes))
  let commit ← Prog.lift (orPanic block.commit)
  let blockID : BlockID := ⟨Block.hash P B (some block), parts.header⟩
  match ← Prog.lift (orPanic (state.validators.verifyCommit P A state.chainID blockID header.height commit)) with
  | .error _ => return (state, s)
  | .ok _ =>
    saveBlock P B header.height block parts
    applyBlock P A B app keepApp state blockID block s

end

/-! ## What holds of the disk -/

/-- The sanity checks on the order of heights. -/
def Stop.heightOrder : Stop → Bool
  | .stateAhead _ _ | .storeAhead _ _ | .neverHappens | .heightMismatch _ _ => true
  | _ => false

variable {σ : Type}

/-- What holds on the disk at every moment. -/
structure DiskOk (d : Disk σ) : Prop where
  /-- the blocks have the heights from one on -/
  numbered : ∀ (i : Nat) stored, d.blocks[i]? = some stored →
    ∃ header, stored.block.header = some header ∧ header.height = i + 1
  fresh : d.state = none → d.height = 0
  /-- the block store is at the height of the state or one ahead -/
  apart : ∀ state, d.state = some state →
    0 ≤ state.lastBlockHeight ∧ (d.height = state.lastBlockHeight ∨ d.height = state.lastBlockHeight + 1)
  /-- the log has the ends of stored heights, and its beginning -/
  ended : ∀ h ∈ d.endHeights, h = 0 ∨ (1 ≤ h ∧ h ≤ d.height)

/-- The disks differ in the application and the responses at most. -/
structure SameStores (d d' : Disk σ) : Prop where
  blocks : d'.blocks = d.blocks
  endHeights : d'.endHeights = d.endHeights
  state : d'.state = d.state

namespace SameStores

variable {d d' d'' : Disk σ}

theorem refl (d : Disk σ) : SameStores d d := ⟨rfl, rfl, rfl⟩

theorem trans (h : SameStores d d') (h' : SameStores d' d'') : SameStores d d'' :=
  ⟨h'.blocks.trans h.blocks, h'.endHeights.trans h.endHeights, h'.state.trans h.state⟩

theorem height_eq (h : SameStores d d') : d'.height = d.height := by rw [Disk.height, h.blocks, Disk.height]

end SameStores

namespace DiskOk

variable {d d' : Disk σ}

theorem of_same (h : DiskOk d) (hsame : SameStores d d') : DiskOk d' := by
  have hheight := hsame.height_eq
  refine ⟨?_, ?_, ?_, ?_⟩
  · rw [hsame.blocks]
    exact h.numbered
  · rw [hsame.state, hheight]
    exact h.fresh
  · rw [hsame.state, hheight]
    exact h.apart
  · rw [hsame.endHeights, hheight]
    exact h.ended

theorem saveState (h : DiskOk d) {state : SavedState} (hnonneg : 0 ≤ state.lastBlockHeight)
    (hheight : d.height = state.lastBlockHeight ∨ d.height = state.lastBlockHeight + 1) :
    DiskOk (d.saveState state) := by
  refine ⟨h.numbered, (fun hn => nomatch hn), ?_, h.ended⟩
  intro state' hstate'
  cases hstate'
  exact ⟨hnonneg, hheight⟩

theorem addBlock {P : Primitives} {B : BlockCodec} {block : Block} {parts : PartSet} {header : Header} (h : DiskOk d)
    (hheader : block.header = some header) (hnext : header.height = d.height + 1) {state : SavedState}
    (hstate : d.state = some state) (hheight : d.height = state.lastBlockHeight) :
    DiskOk (d.addBlock P B block parts) := by
  refine ⟨?_, ?_, ?_, ?_⟩
  · intro i stored hget
    change (d.blocks ++ [_])[i]? = some stored at hget
    rw [getElem?_append] at hget
    split_ifs at hget with hlt
    · exact h.numbered i stored hget
    · rw [getElem?_singleton] at hget
      split_ifs at hget with hzero
      cases hget
      refine ⟨header, hheader, ?_⟩
      rw [hnext, Disk.height]
      omega
  · intro hn
    change d.state = none at hn
    rw [hstate] at hn
    cases hn
  · intro state' hstate'
    change d.state = some state' at hstate'
    rw [hstate] at hstate'
    cases hstate'
    rw [Disk.height_addBlock]
    exact ⟨(h.apart state hstate).1, .inr (by rw [hheight])⟩
  · intro k hk
    rw [Disk.height_addBlock]
    rcases h.ended k hk with hzero | ⟨hpos, hle⟩
    · exact .inl hzero
    · exact .inr ⟨hpos, by omega⟩

theorem addEndHeight (h : DiskOk d) {k : Int} (hk : k = 0 ∨ (1 ≤ k ∧ k ≤ d.height)) : DiskOk (d.addEndHeight k) := by
  refine ⟨h.numbered, h.fresh, h.apart, ?_⟩
  intro k' hk'
  rcases mem_append.1 hk' with hk' | hk'
  · exact h.ended k' hk'
  · rw [mem_singleton] at hk'
    exact hk' ▸ hk

end DiskOk

/-- The block store is at the height of the saved state. -/
structure SyncedTo (state : SavedState) (d : Disk σ) : Prop where
  ok : DiskOk d
  saved : d.state = some state
  height : d.height = state.lastBlockHeight

def StoreAt (height : Int) (d : Disk σ) : Prop := DiskOk d ∧ d.height = height

/-! ## The programs -/

section

variable {P : Primitives} {A : Amino} {B : BlockCodec} {app : Application σ} {genDoc : GenesisDoc} {d d₀ : Disk σ}
  {state : SavedState} {s : σ} {block : Block} {parts : PartSet}

def Stop.Other (e : Stop) : Prop := e.heightOrder = false

theorem other_of_orPanic {α : Type} {x : Option α} (e : Stop) (h : orPanic x = .error e) : e.Other := by
  cases x with
  | none =>
    cases h
    rfl
  | some a => cases h

theorem other_of_orStop {α : Type} {x : Option (Except ApplyError α)} (e : Stop) (h : orStop x = .error e) :
    e.Other := by
  rcases x with _ | err | a
  · cases h
    rfl
  · cases h
    rfl
  · cases h

theorem other_of_checkBlock (e : Stop) (h : checkBlock P A B state block = .error e) : e.Other := by
  unfold checkBlock at h
  split at h
  · cases h
    rfl
  · cases h
    rfl
  · exact other_of_orPanic e h

variable {appHash : Bytes} {height appBlockHeight : Int} {commit : Commit}

theorem other_of_checkAppHash (e : Stop) (h : checkAppHash state appHash = .error e) : e.Other := by
  unfold checkAppHash at h
  split_ifs at h
  cases h
  rfl

/-- A `Commit` that keeps the application or nothing. -/
def KeepsStores {τ : Type} (keep : τ → Prog (Disk σ) Stop Unit) : Prop :=
  ∀ (x : τ) (d : Disk σ), Ensures (keep x) d (SameStores d) Stop.Other fun _ d' => SameStores d d'

theorem keepApp_keepsStores : KeepsStores (keepApp : σ → Prog (Disk σ) Stop Unit) := by
  intro x d
  exact ensures_write ⟨rfl, rfl, rfl⟩ ⟨rfl, rfl, rfl⟩

theorem pure_keepsStores {τ : Type} : KeepsStores fun _ : τ => (pure () : Prog (Disk σ) Stop Unit) := by
  intro x d
  exact ensures_pure (SameStores.refl d)

theorem saveBlock_ensures {crash : Disk σ → Prop} (hadd : height = d.height + 1 → crash (d.addBlock P B block parts)) :
    Ensures (saveBlock P B height block parts) d crash Stop.Other fun _ d' => d' = d.addBlock P B block parts := by
  refine ensures_get_bind ?_
  split_ifs with hne hparts
  · exact ensures_stop rfl
  · exact ensures_stop rfl
  · exact ensures_write (hadd (not_not.1 hne)) rfl

/-- **`ApplyBlock`** of the block at the height of the store brings the state to that height. -/
theorem applyBlock_ensures {τ : Type} {other : Application τ} {keep : τ → Prog (Disk σ) Stop Unit}
    (hkeep : KeepsStores keep) {x : τ} {blockID : BlockID} (hok : DiskOk d)
    (hheight : d.height = state.lastBlockHeight + 1) :
    Ensures (applyBlock P A B other keep state blockID block x) d (StoreAt d.height) Stop.Other fun res d' =>
      SyncedTo res.1 d' := by
  refine ensures_lift_bind other_of_checkBlock fun header hcheck => ?_
  refine ensures_lift_bind other_of_orPanic ?_
  rintro ⟨executed, responses⟩ -
  have hsaved : SameStores d (d.saveResponses header.height responses) := ⟨rfl, rfl, rfl⟩
  have hcrash : ∀ d', SameStores d d' → StoreAt d.height d' := fun d' hsame => ⟨hok.of_same hsame, hsame.height_eq⟩
  refine ensures_write_bind (hcrash _ hsaved) ?_
  refine ensures_lift_bind other_of_orStop fun updated hupdate => ?_
  have hkept : Ensures (keep (other.commit executed).1) (d.saveResponses header.height responses) (StoreAt d.height)
      Stop.Other fun _ d' => SameStores d d' :=
    (hkeep _ _).mono (fun _ h => hcrash _ (hsaved.trans h)) (fun _ h => h) fun _ _ h => hsaved.trans h
  refine hkept.bind fun _ d' hsame => ?_
  have hheight' : d'.height = updated.lastBlockHeight := by
    rw [hsame.height_eq, hheight, (updateState_eq_ok (orStop_eq_ok.1 hupdate)).2.1, (checkBlock_spec hcheck).2.1]
  have hnonneg : 0 ≤ updated.lastBlockHeight := hheight' ▸ d'.height_nonneg
  have hfinal : DiskOk (d'.saveState { updated with appHash := (other.commit executed).2 }) :=
    (hok.of_same hsame).saveState hnonneg (.inl hheight')
  exact ensures_write_bind ⟨hfinal, hsame.height_eq⟩ (ensures_pure ⟨hfinal, rfl, hheight'⟩)

/-- **`finalizeCommit`** on the state of the disk: its first write is the block. -/
theorem finalizeCommit_ensures (hsync : SyncedTo state d) :
    Ensures (finalizeCommit P A B app state block parts s) d (StoreAt (d.height + 1)) Stop.Other fun res d' =>
      SyncedTo res.1 d' := by
  refine ensures_lift_bind other_of_checkBlock fun header hcheck => ?_
  obtain ⟨hheader, hnext, -⟩ := checkBlock_spec hcheck
  rw [← hsync.height] at hnext
  have hadd : DiskOk (d.addBlock P B block parts) := hsync.ok.addBlock hheader hnext hsync.saved hsync.height
  have hsave : Ensures (saveNewBlock P B header.height block parts) d (StoreAt (d.height + 1)) Stop.Other
      fun _ d' => d' = d.addBlock P B block parts := by
    refine ensures_get_bind ?_
    rw [if_pos (by omega)]
    exact saveBlock_ensures fun _ => ⟨hadd, d.height_addBlock ..⟩
  refine hsave.bind ?_
  rintro _ _ rfl
  have hnonneg := d.height_nonneg
  have hheight := hsync.height
  have hstored : (d.addBlock P B block parts).height = d.height + 1 := d.height_addBlock ..
  have hend : DiskOk ((d.addBlock P B block parts).addEndHeight (state.lastBlockHeight + 1)) :=
    hadd.addEndHeight (.inr ⟨by omega, by omega⟩)
  refine ensures_write_bind ⟨hend, hstored⟩ ?_
  refine (applyBlock_ensures keepApp_keepsStores hend (hstored.trans (by rw [hheight]))).mono ?_ (fun _ h => h)
    fun _ _ h => h
  exact fun d' h => ⟨h.1, h.2.trans hstored⟩

theorem ValidatorSet.height_of_verifyCommit {valSet : ValidatorSet} {chainID : Bytes} {blockID : BlockID}
    (h : valSet.verifyCommit P A chainID blockID height commit = some (.ok ())) : height = commit.height := by
  unfold ValidatorSet.verifyCommit at h
  by_contra hne
  split_ifs at h <;> cases h

theorem validateLastCommit_height {state : ChainState} {header : Header}
    (h : state.validateLastCommit P A header (some commit) = some (.ok ())) : commit.height = header.height - 1 := by
  rw [ChainState.validateLastCommit, bind_some] at h
  split_ifs at h with hone hempty hsize
  · cases h
  · rw [Commit.height]
    omega
  · cases h
  · obtain ⟨res, hres, heq⟩ := map_eq_some_iff.1 h
    cases res with
    | error err => cases heq
    | ok _ => exact (ValidatorSet.height_of_verifyCommit hres).symm

theorem commit_height_of_checkBlock {header : Header} (hcommit : block.commit = some commit)
    (hcheck : checkBlock P A B state block = .ok header) : commit.height = header.height - 1 := by
  have hheader := (checkBlock_spec hcheck).1
  unfold checkBlock at hcheck
  split at hcheck
  · cases hcheck
  · cases hcheck
  · next hvalid =>
    obtain ⟨header', hheader', -, -, hlast⟩ := ChainState.validateBlock_eq_ok hvalid
    cases Option.some.inj (hheader.symm.trans hheader')
    rw [hcommit] at hlast
    exact validateLastCommit_height hlast

/-- **Fast sync** never gets past the block that it saves: a commit for its height is refused for the height before.
-/
theorem syncBlock_ensures (hok : DiskOk d)
    (hnext : ∀ header, block.header = some header → header.height = d.height + 1 → ∃ saved, d.state = some saved ∧
      d.height = saved.lastBlockHeight) :
    Ensures (syncBlock P A B app state block s) d DiskOk Stop.Other fun res d' => res.1 = state ∧ d' = d := by
  refine ensures_lift_bind other_of_orPanic fun header hheader => ?_
  refine ensures_lift_bind other_of_orPanic fun parts _ => ?_
  refine ensures_lift_bind other_of_orPanic fun commit hcommit => ?_
  refine ensures_lift_bind other_of_orPanic fun res hverify => ?_
  cases res with
  | error err => exact ensures_pure ⟨rfl, rfl⟩
  | ok _ =>
    rw [orPanic_eq_ok] at hheader hcommit hverify
    have hsave : Ensures (saveBlock P B header.height block parts) d DiskOk Stop.Other
        fun _ d' => d' = d.addBlock P B block parts := by
      refine saveBlock_ensures fun hheight => ?_
      obtain ⟨saved, hsaved, hat⟩ := hnext header hheader hheight
      exact hok.addBlock hheader hheight hsaved hat
    refine hsave.bind fun _ d' _ => ?_
    refine ensures_lift_bind other_of_checkBlock fun header' hcheck => ?_
    have hheader' := (checkBlock_spec hcheck).1
    rw [hheader] at hheader'
    cases hheader'
    have hown := ValidatorSet.height_of_verifyCommit hverify
    have hbefore := commit_height_of_checkBlock hcommit hcheck
    omega

/-! ## The start of a node -/

theorem execCommitBlock_ensures {lastValSet : ValidatorSet} (hsame : SameStores d₀ d) :
    Ensures (execCommitBlock P B app block lastValSet s) d (SameStores d₀) Stop.Other fun _ d' => SameStores d₀ d' := by
  refine ensures_lift_bind other_of_orPanic ?_
  rintro ⟨executed, responses⟩ -
  have hkeep : SameStores d₀ (d.saveApp (app.commit executed).1) := hsame.trans ⟨rfl, rfl, rfl⟩
  exact ensures_write_bind hkeep (ensures_pure hkeep)

theorem replayLoop_ensures (n : Nat) {i : Int} (hsame : SameStores d₀ d) :
    Ensures (replayLoop P B app state n i s appHash) d (SameStores d₀) Stop.Other fun _ d' => SameStores d₀ d' := by
  induction n generalizing i s appHash d with
  | zero => exact ensures_pure hsame
  | succ n ih =>
    refine ensures_get_bind ?_
    refine ensures_lift_bind other_of_orPanic fun stored _ => ?_
    refine (execCommitBlock_ensures hsame).bind ?_
    rintro ⟨s', appHash'⟩ d' hsame'
    exact ih hsame'

theorem replayBlock_ensures {τ : Type} {other : Application τ} {keep : τ → Prog (Disk σ) Stop Unit}
    (hkeep : KeepsStores keep) {x : τ} (hok : DiskOk d) (hheight : d.height = state.lastBlockHeight + 1) :
    Ensures (replayBlock P A B other keep state height x) d DiskOk Stop.Other fun res d' => SyncedTo res.1 d' := by
  refine ensures_get_bind ?_
  refine ensures_lift_bind other_of_orPanic fun stored _ => ?_
  exact (applyBlock_ensures hkeep hok hheight).mono (fun _ h => h.1) (fun _ h => h) fun _ _ h => h

/-- **`replayBlocks`** brings the state to the height of the store, if it is not there. -/
theorem replayBlocks_ensures (hok : DiskOk d) (hstate : d.state = some state) {storeBlockHeight : Int}
    {mutateState : Bool}
    (hheight : d.height = if mutateState then state.lastBlockHeight + 1 else state.lastBlockHeight) :
    Ensures (replayBlocks P A B app state appBlockHeight storeBlockHeight mutateState s) d DiskOk Stop.Other
      fun _ d' => ∃ state', SyncedTo state' d' := by
  have hloop : ∀ n, Ensures (replayLoop P B app state n (appBlockHeight + 1) s []) d DiskOk Stop.Other
      fun _ d' => SameStores d d' := fun n =>
    (replayLoop_ensures n (SameStores.refl d)).mono (fun _ h => hok.of_same h) (fun _ h => h) fun _ _ h => h
  refine (hloop _).bind ?_
  rintro ⟨s', appHash⟩ d' hsame
  rw [← hsame.height_eq] at hheight
  cases mutateState with
  | true =>
    refine (replayBlock_ensures keepApp_keepsStores (hok.of_same hsame) hheight).bind ?_
    rintro ⟨state', s''⟩ d'' hsync
    exact ensures_lift_bind other_of_checkAppHash fun _ _ => ensures_pure ⟨state', hsync⟩
  | false =>
    have hsync : SyncedTo state d' := ⟨hok.of_same hsame, hsame.state.trans hstate, hheight⟩
    exact ensures_lift_bind other_of_checkAppHash fun _ _ => ensures_pure ⟨state, hsync⟩

/-- **`ReplayBlocks`** finds the heights in order and leaves them equal. -/
theorem replayCases_ensures (hok : DiskOk d) (hstate : d.state = some state) :
    Ensures (replayCases P A B app state appHash appBlockHeight s) d DiskOk Stop.Other fun _ d' => ∃ state',
      SyncedTo state' d' := by
  obtain ⟨hnonneg, hapart⟩ := hok.apart state hstate
  have hdone : d.height = state.lastBlockHeight →
    Ensures (do Prog.lift (checkAppHash state appHash); return s) d DiskOk Stop.Other
        fun _ d' => ∃ state', SyncedTo state' d' := fun hheight =>
    ensures_lift_bind other_of_checkAppHash fun _ _ => ensures_pure ⟨state, hok, hstate, hheight⟩
  refine ensures_get_bind ?_
  split_ifs with hzero happ hahead hstore heq hbehind hsame hone hbehind hreal hmock
  · exact hdone (by omega)
  · exact ensures_stop rfl
  · omega
  · omega
  · exact replayBlocks_ensures hok hstate heq
  · exact hdone heq
  · omega
  · exact replayBlocks_ensures hok hstate hone
  · refine (replayBlock_ensures keepApp_keepsStores hok hone).bind ?_
    rintro ⟨state', s'⟩ d' hsync
    exact ensures_pure ⟨state', hsync⟩
  · refine ensures_lift_bind ?_ fun responses _ => ?_
    · intro e he
      cases hresponses : d.responses d.height with
      | none =>
        rw [hresponses] at he
        cases he
        rfl
      | some responses =>
        rw [hresponses] at he
        cases he
    · refine (replayBlock_ensures pure_keepsStores hok hone).bind ?_
      rintro ⟨state', s'⟩ d' hsync
      exact ensures_pure ⟨state', hsync⟩
  · omega
  · omega

theorem initChainState_height {res : ResponseInitChain} {state' : SavedState}
    (h : initChainState state res = some state') :
    state'.lastBlockHeight = state.lastBlockHeight := by
  obtain ⟨validators, -, h⟩ := bind_eq_some_iff.1 h
  obtain ⟨consensusParams, -, h⟩ := map_eq_some_iff.1 h
  cases h
  rfl

theorem initChain_ensures (hok : DiskOk d) (hstate : d.state = some state) :
    Ensures (initChain app genDoc state appBlockHeight s) d DiskOk Stop.Other fun res d' => DiskOk d' ∧
    d'.state = some res.1 := by
  rw [initChain]
  split_ifs with hzero
  · refine ensures_lift_bind other_of_orPanic fun state' hstate' => ?_
    have hheight := initChainState_height (orPanic_eq_ok.1 hstate')
    obtain ⟨hnonneg, hapart⟩ := hok.apart state hstate
    rw [← hheight] at hnonneg hapart
    have hsaved : DiskOk (d.saveState state') := hok.saveState hnonneg hapart
    exact ensures_write_bind hsaved (ensures_pure ⟨hsaved, rfl⟩)
  · exact ensures_pure ⟨hok, hstate⟩

theorem loadStateOrGenesis_ensures (hok : DiskOk d) :
    Ensures (loadStateOrGenesis P genDoc) d DiskOk Stop.Other fun state d' => DiskOk d' ∧ d'.state = some state := by
  refine ensures_get_bind ?_
  cases hstate : d.state with
  | some state => exact ensures_pure ⟨hok, hstate⟩
  | none =>
    refine ensures_lift_bind ?_ fun state hmake => ?_
    · intro e he
      split at he
      · cases he
        rfl
      · cases he
        rfl
      · cases he
    · have hmade : makeGenesisState P genDoc = some (.ok state) := by
        split at hmake
        · cases hmake
        · cases hmake
        · next state' hmade =>
          cases hmake
          exact hmade
      have hheight := lastBlockHeight_makeGenesisState hmade
      have hsaved : DiskOk (d.saveState state) :=
        hok.saveState hheight.ge (.inl ((hok.fresh hstate).trans hheight.symm))
      exact ensures_write_bind hsaved (ensures_pure ⟨hsaved, rfl⟩)

theorem handshake_ensures (hok : DiskOk d) (hstate : d.state = some state) :
    Ensures (handshake P A B app genDoc state s) d DiskOk Stop.Other fun _ d' => ∃ state', SyncedTo state' d' := by
  rw [handshake]
  dsimp only
  split_ifs with hneg
  · exact ensures_stop rfl
  · refine (initChain_ensures hok hstate).bind ?_
    rintro ⟨state', s'⟩ d' ⟨hok', hstate'⟩
    exact replayCases_ensures hok' hstate'

theorem loadState_ensures (hsync : SyncedTo state d) :
    Ensures loadState d DiskOk Stop.Other fun loaded d' => loaded = state ∧ d' = d := by
  refine ensures_get_bind ?_
  rw [hsync.saved]
  refine ensures_lift_bind other_of_orPanic fun loaded hloaded => ?_
  cases orPanic_eq_ok.1 hloaded
  rw [if_neg (not_not.2 hsync.height.symm)]
  exact ensures_pure ⟨rfl, rfl⟩

theorem startLog_ensures (hsync : SyncedTo state d) {emptyLog : Bool} :
    Ensures (startLog emptyLog) d DiskOk Stop.Other fun _ d' => SyncedTo state d' := by
  cases emptyLog with
  | true =>
    have hbegun := hsync.ok.addEndHeight (.inl rfl)
    exact ensures_write hbegun ⟨hbegun, hsync.saved, hsync.height⟩
  | false => exact ensures_pure hsync

/-- **A node that has started** has all its stores at one height. -/
theorem startNode_ensures (hok : DiskOk d) {emptyLog : Bool} :
    Ensures (startNode P A B app genDoc emptyLog) d DiskOk Stop.Other fun res d' => SyncedTo res.1 d' := by
  refine (loadStateOrGenesis_ensures hok).bind ?_
  rintro state d' ⟨hok', hstate'⟩
  refine ensures_get_bind ?_
  refine (handshake_ensures hok' hstate').bind ?_
  rintro s' d'' ⟨state', hsync⟩
  refine (loadState_ensures hsync).bind ?_
  rintro _ _ ⟨rfl, rfl⟩
  refine (startLog_ensures hsync).bind fun _ d₃ hsync' => ?_
  exact ensures_pure hsync'

end

/-! ## Runs -/

structure Process where
  /-- the state of the consensus routine, `none` after it has failed -/
  consensus : Option SavedState
  /-- the state of fast sync, whose pool is at the height after it -/
  chain : SavedState

structure Host (σ : Type) where
  disk : Disk σ
  process : Option Process

def Host.new (s : σ) : Host σ := ⟨⟨[], [], fun _ => none, none, s⟩, none⟩

/-- `updateToState`, as `SwitchToConsensus` calls it with the state of fast sync. -/
def updateToState (consensus chain : SavedState) : SavedState :=
  if chain.lastBlockHeight ≤ consensus.lastBlockHeight then consensus else chain

section

variable (P : Primitives) (A : Amino) (B : BlockCodec) (app : Application σ) (genDoc : GenesisDoc)

/-- What can happen to a node. A program can be stopped anywhere, and the application is in any state when it is
called. -/
inductive HostStep : Host σ → Host σ → Prop
  | start {d d' : Disk σ} {emptyLog : Bool} {state : SavedState} {s : σ}
      (h : (startNode P A B app genDoc emptyLog).Yields d (state, s) d') :
        HostStep ⟨d, none⟩ ⟨d', some ⟨some state, state⟩⟩
  | startCrash {d d' : Disk σ} {emptyLog : Bool} (h : Leaves (startNode P A B app genDoc emptyLog) d d') :
      HostStep ⟨d, none⟩ ⟨d', none⟩
  | commit {d d' : Disk σ} {state chain state' : SavedState} {block : Block} {parts : PartSet} {s s' : σ}
      (h : (finalizeCommit P A B app state block parts s).Yields d (state', s') d') :
      HostStep ⟨d, some ⟨some state, chain⟩⟩ ⟨d', some ⟨some state', chain⟩⟩
  | commitFail {d : Disk σ} {state chain : SavedState} {block : Block} {parts : PartSet} {s : σ} {e : Stop}
      (h : (finalizeCommit P A B app state block parts s d).2 = .error e) :
      HostStep ⟨d, some ⟨some state, chain⟩⟩
        ⟨(finalizeCommit P A B app state block parts s).final d, some ⟨none, chain⟩⟩
  | commitCrash {d d' : Disk σ} {state chain : SavedState} {block : Block} {parts : PartSet} {s : σ}
      (h : Leaves (finalizeCommit P A B app state block parts s) d d') :
      HostStep ⟨d, some ⟨some state, chain⟩⟩ ⟨d', none⟩
  | sync {d d' : Disk σ} {consensus : Option SavedState} {chain chain' : SavedState} {block : Block} {header : Header}
      {s s' : σ} (hheader : block.header = some header) (hpool : header.height = chain.lastBlockHeight + 1)
      (h : (syncBlock P A B app chain block s).Yields d (chain', s') d') :
      HostStep ⟨d, some ⟨consensus, chain⟩⟩ ⟨d', some ⟨consensus, chain'⟩⟩
  | syncCrash {d d' : Disk σ} {consensus : Option SavedState} {chain : SavedState} {block : Block}
      {header : Header} {s : σ}
      (hheader : block.header = some header) (hpool : header.height = chain.lastBlockHeight + 1)
      (h : Leaves (syncBlock P A B app chain block s) d d') : HostStep ⟨d, some ⟨consensus, chain⟩⟩ ⟨d', none⟩
  | switch {d : Disk σ} {state chain : SavedState} :
      HostStep ⟨d, some ⟨some state, chain⟩⟩ ⟨d, some ⟨some (updateToState state chain), chain⟩⟩
  | restore {d : Disk σ} (s : σ) : HostStep ⟨d, none⟩ ⟨d.saveApp s, none⟩

end

/-- What a running process knows about the disk. -/
structure ProcessOk (d : Disk σ) (process : Process) : Prop where
  consensus : ∀ state, process.consensus = some state → SyncedTo state d
  behind : process.chain.lastBlockHeight ≤ d.height
  /-- where fast sync can save a block, the state is at the height of the store -/
  next : d.height = process.chain.lastBlockHeight → ∃ saved, d.state = some saved ∧ d.height = saved.lastBlockHeight

/-- What holds of a node, running or stopped. -/
structure HostOk (host : Host σ) : Prop where
  disk : DiskOk host.disk
  process : ∀ process, host.process = some process → ProcessOk host.disk process

section

variable {P : Primitives} {A : Amino} {B : BlockCodec} {app : Application σ} {genDoc : GenesisDoc}

theorem HostOk.new (s : σ) : HostOk (Host.new s) := by
  refine ⟨⟨?_, fun _ => rfl, (fun _ h => nomatch h), (fun _ h => nomatch h)⟩, (fun _ h => nomatch h)⟩
  intro i stored hget
  cases hget

variable {d : Disk σ}

theorem HostOk.stopped (h : DiskOk d) : HostOk ⟨d, none⟩ := ⟨h, (fun _ h => nomatch h)⟩

theorem HostOk.running {process : Process} (h : DiskOk d) (hprocess : ProcessOk d process) :
    HostOk ⟨d, some process⟩ := by
  refine ⟨h, ?_⟩
  intro process' heq
  cases heq
  exact hprocess

theorem ProcessOk.of_synced {state chain : SavedState} (hsync : SyncedTo state d)
    (hbehind : chain.lastBlockHeight ≤ d.height) : ProcessOk d ⟨some state, chain⟩ := by
  refine ⟨?_, hbehind, fun _ => ⟨state, hsync.saved, hsync.height⟩⟩
  intro state' heq
  cases heq
  exact hsync

/-- Where the block at the height of the pool is saved, the state is at the height of the store. -/
theorem ProcessOk.pool {process : Process} (h : ProcessOk d process) {block : Block} {header : Header}
    (hheader : block.header = some header) (hpool : header.height = process.chain.lastBlockHeight + 1) :
    ∀ header', block.header = some header' → header'.height = d.height + 1 →
      ∃ saved, d.state = some saved ∧ d.height = saved.lastBlockHeight := by
  intro header' hheader' hnext
  rw [hheader] at hheader'
  cases hheader'
  exact h.next (by omega)

theorem finalizeCommit_leaves {state : SavedState} {block : Block} {parts : PartSet} {s : σ} {d' : Disk σ}
    (hsync : SyncedTo state d) (h : Leaves (finalizeCommit P A B app state block parts s) d d') :
    d' = d ∨ StoreAt (d.height + 1) d' := by
  rcases h with rfl | hmem
  · exact .inl rfl
  · exact .inr ((finalizeCommit_ensures hsync).crash d' hmem)

theorem HostOk.step {host host' : Host σ} (hok : HostOk host) (hstep : HostStep P A B app genDoc host host') :
    HostOk host' := by
  cases hstep with
  | start h =>
    have hsync := (startNode_ensures hok.disk).yields h
    exact .running hsync.ok (.of_synced hsync hsync.height.ge)
  | startCrash h => exact .stopped ((startNode_ensures hok.disk).leaves hok.disk h)
  | @commit d d' state chain state' block parts s s' h =>
    have hprocess : ProcessOk d ⟨some state, chain⟩ := hok.process _ rfl
    have hbehind : chain.lastBlockHeight ≤ d.height := hprocess.behind
    have hsync := (finalizeCommit_ensures (hprocess.consensus state rfl)).yields h
    refine .running hsync.ok (.of_synced hsync ?_)
    rcases finalizeCommit_leaves (hprocess.consensus state rfl) h.leaves with rfl | ⟨-, hat⟩
    · exact hbehind
    · omega
  | @commitFail d state chain block parts s e h =>
    have hprocess : ProcessOk d ⟨some state, chain⟩ := hok.process _ rfl
    have hbehind : chain.lastBlockHeight ≤ d.height := hprocess.behind
    rcases finalizeCommit_leaves (hprocess.consensus state rfl) (leaves_final _ d) with heq | ⟨hdisk, hat⟩
    · rw [heq]
      exact .running hok.disk ⟨(fun _ h => nomatch h), hbehind, hprocess.next⟩
    · refine .running hdisk ⟨(fun _ h => nomatch h), hbehind.trans (by omega), ?_⟩
      -- the store has gone past the pool
      intro heq
      change _ = chain.lastBlockHeight at heq
      omega
  | @commitCrash d d' state chain block parts s h =>
    have hsync : SyncedTo state d := (hok.process _ rfl).consensus state rfl
    rcases finalizeCommit_leaves hsync h with rfl | ⟨hdisk, -⟩
    · exact .stopped hok.disk
    · exact .stopped hdisk
  | sync hheader hpool h =>
    have hprocess := hok.process _ rfl
    obtain ⟨rfl, rfl⟩ := (syncBlock_ensures hok.disk (hprocess.pool hheader hpool)).yields h
    exact .running hok.disk hprocess
  | syncCrash hheader hpool h =>
    have hprocess := hok.process _ rfl
    exact .stopped ((syncBlock_ensures hok.disk (hprocess.pool hheader hpool)).leaves hok.disk h)
  | @switch d state chain =>
    have hprocess : ProcessOk d ⟨some state, chain⟩ := hok.process _ rfl
    have hsync : SyncedTo state d := hprocess.consensus state rfl
    have hbehind : chain.lastBlockHeight ≤ d.height := hprocess.behind
    rw [updateToState, if_pos (hsync.height ▸ hbehind)]
    exact .running hok.disk hprocess
  | restore s => exact .stopped (hok.disk.of_same ⟨rfl, rfl, rfl⟩)

theorem HostOk.run {host host' : Host σ} (hok : HostOk host)
    (hrun : Relation.ReflTransGen (HostStep P A B app genDoc) host host') : HostOk host' := by
  induction hrun with
  | refl => exact hok
  | tail _ hstep ih => exact ih.step hstep

theorem DiskOk.loadBlock (h : DiskOk d) {k : Int} (hpos : 1 ≤ k) (hle : k ≤ d.height) :
    ∃ stored header, d.loadBlock k = some stored ∧ stored.block.header = some header ∧ header.height = k := by
  have hlt : (k - 1).toNat < d.blocks.length := by
    rw [Disk.height] at hle
    omega
  have hget := getElem?_eq_getElem hlt
  obtain ⟨header, hheader, hheight⟩ := h.numbered _ _ hget
  refine ⟨_, header, ?_, hheader, by omega⟩
  rw [Disk.loadBlock, if_neg (by omega), hget]

end

/-- At every moment the block store is at the height of the state or one ahead, so that no sanity check of the
handshake fails, and the log ends only heights whose block is stored. -/
theorem heights_one_apart (P : Primitives) (A : Amino) (B : BlockCodec) (app : Application σ) (genDoc : GenesisDoc)
    (s : σ) {host : Host σ} (hrun : Relation.ReflTransGen (HostStep P A B app genDoc) (Host.new s) host) :
    ((host.disk.state = none ∧ host.disk.height = 0) ∨ ∃ state, host.disk.state = some state ∧
        (host.disk.height = state.lastBlockHeight ∨ host.disk.height = state.lastBlockHeight + 1)) ∧
      (∀ emptyLog e, (startNode P A B app genDoc emptyLog host.disk).2 = .error e → e.heightOrder = false) ∧
      ∀ k ∈ host.disk.endHeights, k ≠ 0 → ∃ stored header,
        host.disk.loadBlock k = some stored ∧ stored.block.header = some header ∧ header.height = k := by
  have hok := ((HostOk.new s).run hrun).disk
  refine ⟨?_, fun emptyLog e he => (startNode_ensures hok).stop e he, ?_⟩
  · cases hstate : host.disk.state with
    | none => exact .inl ⟨rfl, hok.fresh hstate⟩
    | some state => exact .inr ⟨state, rfl, (hok.apart state hstate).2⟩
  · intro k hk hne
    rcases hok.ended k hk with hzero | ⟨hpos, hle⟩
    · exact absurd hzero hne
    · exact hok.loadBlock hpos hle

def soloApp : Application Int :=
  { Application.keeper fun _ => [] with initChain := fun s _ => (s, ⟨[⟨[1], 10⟩], none⟩) }

def soloStart : Prog (Disk Int) Stop (SavedState × Int) := startNode .transparent .plain .plain soloApp soloGenesis true

def soloFinalize : Prog (Disk Int) Stop (SavedState × Int) :=
  finalizeCommit .transparent .plain .plain soloApp soloState soloBlock soloParts 0

theorem soloStart_yields : soloStart.Yields blankDisk (soloState, 0) (soloStart.final blankDisk) :=
  yields_of_toOption (by decide +kernel)

theorem heights_one_apart_solo :
    ∃ host, Relation.ReflTransGen (HostStep .transparent .plain .plain soloApp soloGenesis) (Host.new 0) host ∧
      1 ∈ host.disk.endHeights ∧ ∃ stored header,
        host.disk.loadBlock 1 = some stored ∧ stored.block.header = some header ∧ header.height = 1 := by
  have heval : (soloFinalize (soloStart.final blankDisk)).2.toOption.isSome := by decide +kernel
  rcases hcommit : (soloFinalize (soloStart.final blankDisk)).2 with e | ⟨state', s'⟩
  · rw [hcommit] at heval
    cases heval
  · have hstart : HostStep .transparent .plain .plain soloApp soloGenesis (Host.new 0) _ := .start soloStart_yields
    have hrun := (Relation.ReflTransGen.single hstart).tail (.commit (yields_final hcommit))
    have hended : 1 ∈ (soloFinalize.final (soloStart.final blankDisk)).endHeights := by decide +kernel
    exact ⟨_, hrun, hended, (heights_one_apart .transparent .plain .plain soloApp soloGenesis 0 hrun).2.2 1 hended
      one_ne_zero⟩

/-- A log begins with the end of height zero, and no block has that height. -/
theorem log_begins_without_block :
    ∃ host, Relation.ReflTransGen (HostStep .transparent .plain .plain soloApp soloGenesis) (Host.new 0) host ∧
      0 ∈ host.disk.endHeights ∧ host.disk.loadBlock 0 = none :=
  ⟨_, .single (.start soloStart_yields), by decide +kernel, rfl⟩

end Demars
