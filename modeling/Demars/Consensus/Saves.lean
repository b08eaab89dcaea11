import Demars.Consensus.Recovery
import Demars.State.Store

/-!
# Looking up validators and parameters of a height

The states that a node saves one after the other (`Saves`): the first one, made from the genesis document; the one
that the handshake saves when the application is at height zero; the one after each block. What is in force at a
height is what the last state saved before that height says.
-/

namespace Demars

open StateStore ChangeLog Crash List Option

def ValidatorSet.members (valSet : ValidatorSet) : List (Bytes × Option PubKey × Int) :=
  valSet.validators.map fun val => (val.address, val.pubKey, val.votingPower)

/-- The states that a node saves, the last one first. -/
inductive Saves (P : Primitives) (B : BlockCodec) (genDoc : GenesisDoc) : List SavedState → Prop
  | genesis {state : SavedState} (h : makeGenesisState P genDoc = some (.ok state)) : Saves P B genDoc [state]
  | initChain {state state' : SavedState} {older : List SavedState} {res : ResponseInitChain}
      (hs : Saves P B genDoc (state :: older)) (h : initChainState state res = some state') :
      Saves P B genDoc (state' :: state :: older)
  | applied {state updated : SavedState} {older : List SavedState} {blockID : BlockID} {header : Header}
      {responses : ABCIResponses} (hs : Saves P B genDoc (state :: older))
      (hheight : header.height = state.lastBlockHeight + 1)
      (h : updateState P B state blockID header responses = some (.ok updated)) (appHash : Bytes) :
      Saves P B genDoc ({ updated with appHash } :: state :: older)

def stateAt (states : List SavedState) (height : Int) : Option SavedState :=
  states.find? fun state => decide (height = state.lastBlockHeight + 1)

/-- For every height up to the next one, the loads give what is in force. -/
def LookupsRight (C : StateCodec) : List SavedState → Prop
  | [] => True
  | last :: older => ∀ height, 1 ≤ height → height ≤ last.lastBlockHeight + 1 →
      ∃ state, stateAt (last :: older) height = some state ∧
        (∃ valSet, loadValidators C (saved C (last :: older)) height = some (.ok (some valSet)) ∧
          valSet.members = state.validators.members) ∧
        loadConsensusParams C (saved C (last :: older)) height = some (.ok state.consensusParams)

/-- A state saved once more for its height: the records are in full, or the same as before. -/
def SavesSame (state' state : SavedState) : Prop :=
  state'.lastBlockHeight = state.lastBlockHeight →
    (state.lastHeightValidatorsChanged = state.lastBlockHeight + 1 ∨
      state'.validators.members = state.validators.members) ∧
    (state.lastHeightConsensusParamsChanged = state.lastBlockHeight + 1 ∨
      state'.consensusParams = state.consensusParams)

instance (state' state : SavedState) : Decidable (SavesSame state' state) := by
  unfold SavesSame
  infer_instance

variable {P : Primitives} {B : BlockCodec} {C : StateCodec} {genDoc : GenesisDoc} {state state' : SavedState}
  {states older : List SavedState} {blockID : BlockID}

theorem Saves.applyBlock {σ τ : Type} {A : Amino} {app : Application τ} {keep : τ → Prog (Disk σ) Stop Unit}
    {block : Block} {s s' : τ} {d : Disk σ} (hs : Saves P B genDoc (state :: older))
    (h : (applyBlock P A B app keep state blockID block s d).2 = .ok (state', s')) :
    Saves P B genDoc (state' :: state :: older) := by
  obtain ⟨header, executed, responses, updated, happlies, rfl, -⟩ := applies_of_ok h
  exact hs.applied (checkBlock_spec happlies.check).2.1 happlies.update _

theorem Saves.built (hs : Saves P B genDoc states) : ∀ state ∈ states, state.validators.Built := by
  induction hs with
  | genesis h =>
    unfold makeGenesisState at h
    split at h
    · cases h
    · obtain ⟨valSet, hnew, heq⟩ := map_eq_some_iff.1 h
      cases heq
      exact forall_mem_singleton.2 (.new hnew)
  | initChain _ h ih =>
    refine forall_mem_cons.2 ⟨?_, ih⟩
    obtain ⟨validators, hvals, h⟩ := bind_eq_some_iff.1 h
    obtain ⟨params, -, rfl⟩ := map_eq_some_iff.1 h
    split_ifs at hvals
    · cases hvals
      exact (forall_mem_cons.1 ih).1
    · exact .new hvals
  | applied _ _ h _ ih =>
    have hbuilt := updateState_built (forall_mem_cons.1 ih).1 h
    exact forall_mem_cons.2 ⟨hbuilt, ih⟩

/-- **The search for a validator**: in every state that a node saves, the validators stand in the order of their
addresses, so `GetByAddress` fails only where no validator has the address, and finds the first that has it. -/
theorem Saves.getByAddress_right (hs : Saves P B genDoc states) {valSet : ValidatorSet}
    (hset : valSet ∈ states.map (·.validators)) (address : Bytes) :
    valSet.Ordered ∧ (valSet.getByAddress address = none ↔ ∀ val ∈ valSet.validators, val.address ≠ address) ∧
      ∀ i val, valSet.getByAddress address = some (i, val) → valSet.validators[i]? = some val ∧ val.address = address ∧
        ∀ other ∈ valSet.validators.take i, other.address ≠ address := by
  obtain ⟨state, hstate, rfl⟩ := mem_map.1 hset
  have hordered := (hs.built state hstate).ordered
  refine ⟨hordered, ValidatorSet.getByAddress_eq_none hordered, fun i val hget => ?_⟩
  obtain ⟨_, heq, hval, haddr⟩ := ValidatorSet.getByAddress_eq_some hget
  cases heq
  exact ⟨hval, haddr, fun other hother => (ValidatorSet.search_isSlot hordered address).before_ne hother⟩

/-! ## The log of a node -/

theorem initChainState_eq {res : ResponseInitChain} (h : initChainState state res = some state') :
    state' = { state with validators := state'.validators, consensusParams := state'.consensusParams } := by
  obtain ⟨validators, -, h⟩ := bind_eq_some_iff.1 h
  obtain ⟨params, -, rfl⟩ := map_eq_some_iff.1 h
  rfl

theorem step_validatorsPoint {updated : SavedState} {header : Header} {responses : ABCIResponses}
    (hheight : header.height = state.lastBlockHeight + 1)
    (h : updateState P B state blockID header responses = some (.ok updated)) :
    Step ValidatorSet.members (validatorsPoint state) (validatorsPoint updated) := by
  obtain ⟨⟨nextValSet, hnext, hturn⟩, hlast, -, hchanged⟩ := updateState_eq_ok h
  have hmembers : updated.validators.members = nextValSet.members :=
    ValidatorSet.incrementAccum_map (fun val => (val.address, val.pubKey, val.votingPower)) (fun _ _ => rfl) hturn
  unfold validatorsPoint
  rw [hlast, hchanged, hheight]
  split_ifs with hnone
  · rw [nextValidators, if_pos hnone] at hnext
    cases hnext
    exact .keep _ hmembers
  · exact .change _

theorem step_paramsPoint {updated : SavedState} {header : Header} {responses : ABCIResponses}
    (hheight : header.height = state.lastBlockHeight + 1)
    (h : updateState P B state blockID header responses = some (.ok updated)) :
    Step id (paramsPoint state) (paramsPoint updated) := by
  obtain ⟨hparams, hchanged⟩ := consensusParams_updateState h
  obtain ⟨-, hlast, -⟩ := updateState_eq_ok h
  unfold paramsPoint
  rw [hlast, hchanged, hheight]
  split_ifs with hnone
  · rw [hnone] at hparams
    exact .keep _ (Except.ok.inj hparams).symm
  · exact .change _

theorem Saves.runs (hs : Saves P B genDoc states) :
    Run ValidatorSet.members (states.map validatorsPoint) ∧ Run id (states.map paramsPoint) ∧
      ∃ first, states.getLast? = some first ∧ first.lastBlockHeight = 0 := by
  induction hs with
  | genesis h =>
    have hzero := lastBlockHeight_makeGenesisState h
    unfold makeGenesisState at h
    split at h
    · cases h
    · obtain ⟨valSet, -, heq⟩ := map_eq_some_iff.1 h
      cases heq
      exact ⟨.start _ rfl, .start _ rfl, _, rfl, hzero⟩
  | initChain _ h ih =>
    rw [initChainState_eq h]
    exact ⟨ih.1.step (.again _), ih.2.1.step (.again _), ih.2.2⟩
  | applied _ hheight h _ ih =>
    have hvals := ih.1.step (step_validatorsPoint hheight h)
    have hparams := ih.2.1.step (step_paramsPoint hheight h)
    exact ⟨hvals, hparams, ih.2.2⟩

theorem inForce_map {α : Type} (point : SavedState → Point α)
    (hpoint : ∀ state, (point state).pos = state.lastBlockHeight + 1) (height : Int) :
    ∀ states : List SavedState, inForce (states.map point) height = (stateAt states height).map point
  | [] => rfl
  | state :: older => by
    rw [map_cons, inForce, stateAt, find?_cons, hpoint]
    by_cases heq : height = state.lastBlockHeight + 1
    · simp [heq]
    · simp only [heq, if_false, decide_false]
      exact inForce_map point hpoint height older

theorem Saves.lookupsRight_iff (hs : Saves P B genDoc states) : LookupsRight C states ↔
    Finds ValidatorSet.members (states.map validatorsPoint) ∧ Finds id (states.map paramsPoint) := by
  obtain ⟨hvals, hparams, first, hfirst, hzero⟩ := hs.runs
  have hv := inForce_map validatorsPoint fun _ => rfl
  have hp := inForce_map paramsPoint fun _ => rfl
  obtain ⟨last, older, rfl⟩ : ∃ last older, states = last :: older := by cases hs <;> exact ⟨_, _, rfl⟩
  obtain ⟨hvalsPos, hex⟩ := hvals.between (by rw [getLast?_map, hfirst, map_some]) rfl
  obtain ⟨hparamsPos, -⟩ := hparams.between (by rw [getLast?_map, hfirst, map_some]) rfl
  simp only [validatorsPoint, paramsPoint, List.forall_mem_map] at hvalsPos hparamsPos
  have hloadv : ∀ {height state}, stateAt (last :: older) height = some state →
    loadValidators C (saved C (last :: older)) height =
      some (.ok (find (table ((last :: older).map validatorsPoint)) height)) := fun hstate =>
    loadValidators_saved hvals (fun s hmem => by have := hvalsPos s hmem; omega) (by rw [hv, hstate]; rfl)
  have hloadp : ∀ {height state}, stateAt (last :: older) height = some state →
    loadConsensusParams C (saved C (last :: older)) height =
        (find (table ((last :: older).map paramsPoint)) height).map .ok := fun hstate =>
    loadConsensusParams_saved hparams (fun s hmem => by have := hparamsPos s hmem; omega) (by rw [hp, hstate]; rfl)
  have hright : LookupsRight C (last :: older) ↔ ∀ height state, stateAt (last :: older) height = some state →
      (find (table ((last :: older).map validatorsPoint)) height).map ValidatorSet.members =
        some state.validators.members ∧
      find (table ((last :: older).map paramsPoint)) height = some state.consensusParams := by
    constructor
    · intro h height state hstate
      have hheight : height = state.lastBlockHeight + 1 := by simpa using find?_some hstate
      have hbetween := hvalsPos state (mem_of_find?_eq_some hstate)
      obtain ⟨state', hstate', ⟨valSet, hval, hmembers⟩, hparam⟩ := h height (by omega) (by omega)
      cases hstate.symm.trans hstate'
      rw [hloadv hstate] at hval
      rw [hloadp hstate, map_eq_some_iff] at hparam
      obtain ⟨params, hfound, heq⟩ := hparam
      cases heq
      rw [Except.ok.inj (Option.some.inj hval)]
      exact ⟨by rw [map_some, hmembers], hfound⟩
    · intro h height hlow hhigh
      obtain ⟨p, hpoint⟩ := hex height (by simp only [validatorsPoint]; omega) hhigh
      rw [hv] at hpoint
      obtain ⟨state, hstate, -⟩ := map_eq_some_iff.1 hpoint
      obtain ⟨hval, hparam⟩ := h height state hstate
      obtain ⟨valSet, hfound, hmembers⟩ := map_eq_some_iff.1 hval
      exact ⟨state, hstate, ⟨valSet, by rw [hloadv hstate, hfound], hmembers⟩, by rw [hloadp hstate, hparam]; rfl⟩
  rw [hright]
  constructor
  · intro h
    refine ⟨fun height p hpoint => ?_, fun height p hpoint => ?_⟩
    · rw [hv] at hpoint
      obtain ⟨state, hstate, rfl⟩ := map_eq_some_iff.1 hpoint
      exact (h height state hstate).1
    · rw [hp] at hpoint
      obtain ⟨state, hstate, rfl⟩ := map_eq_some_iff.1 hpoint
      rw [(h height state hstate).2]
      rfl
  · intro h height state hstate
    refine ⟨h.1 height (validatorsPoint state) (by rw [hv, hstate]; rfl), ?_⟩
    have hfound := h.2 height (paramsPoint state) (by rw [hp, hstate]; rfl)
    rwa [Option.map_id] at hfound

theorem Saves.suffix (hs : Saves P B genDoc states) : ∀ ss, ss <:+ states → ss ≠ [] → Saves P B genDoc ss := by
  induction hs with
  | genesis h =>
    intro ss hss hne
    rw [(suffix_cons_iff.1 hss).resolve_right fun h => hne (suffix_nil.1 h)]
    exact .genesis h
  | initChain hs h ih =>
    intro ss hss hne
    rcases suffix_cons_iff.1 hss with rfl | hss
    · exact hs.initChain h
    · exact ih ss hss hne
  | applied hs hheight h appHash ih =>
    intro ss hss hne
    rcases suffix_cons_iff.1 hss with rfl | hss
    · exact hs.applied hheight h appHash
    · exact ih ss hss hne

/-- At every moment the loads give what is in force at each height, exactly where no answer to `InitChain` changes
validators or parameters under a record that points back. -/
theorem lookups_iff (C : StateCodec) (hs : Saves P B genDoc states) :
    (∀ ss, ss <:+ states → ss ≠ [] → LookupsRight C ss) ↔ states.IsChain SavesSame := by
  have hvals := finds_iff hs.runs.1
  have hparams := finds_iff hs.runs.2.1
  have hmap : ∀ {α : Type} (point : SavedState → Point α) (Q : List (Point α) → Prop),
      (∀ qs, qs <:+ states.map point → qs ≠ [] → Q qs) ↔ ∀ ss, ss <:+ states → ss ≠ [] → Q (ss.map point) := by
    intro α point Q
    constructor
    · exact fun h ss hss hne => h _ (hss.map point) (by simpa using hne)
    · intro h qs hqs hne
      obtain ⟨ss, hss, rfl⟩ := suffix_map_iff.1 hqs
      exact h ss hss (by simpa using hne)
  rw [hmap validatorsPoint] at hvals
  rw [hmap paramsPoint] at hparams
  rw [isChain_map] at hvals hparams
  have hsame : states.IsChain SavesSame ↔
      states.IsChain (fun a b => Sound ValidatorSet.members (validatorsPoint a) (validatorsPoint b)) ∧
      states.IsChain (fun a b => Sound id (paramsPoint a) (paramsPoint b)) := by
    simp only [isChain_iff_getElem, ← forall_and]
    simp only [SavesSame, Sound, validatorsPoint, paramsPoint, add_left_inj, imp_and, id_eq]
  rw [hsame, ← hvals, ← hparams]
  constructor
  · intro h
    exact ⟨fun ss hss hne => ((hs.suffix ss hss hne).lookupsRight_iff.1 (h ss hss hne)).1,
      fun ss hss hne => ((hs.suffix ss hss hne).lookupsRight_iff.1 (h ss hss hne)).2⟩
  · intro h ss hss hne
    exact (hs.suffix ss hss hne).lookupsRight_iff.2 ⟨h.1 ss hss hne, h.2 ss hss hne⟩

/-! ## A chain of two blocks -/

def smallGenesis : GenesisDoc := ⟨0, ascii "c", ⟨100, 10, -1, 10, -1, 10, 5⟩, [(.ed25519 [7], 10)], [], []⟩

def smallState : SavedState := ((makeGenesisState .transparent smallGenesis).bind Except.toOption).getD soloState

def answered (state : SavedState) (val : AbciValidator) : SavedState := (initChainState state ⟨[val], none⟩).getD state

/-- A block without transactions, with which the application names validators. -/
def blockOutcome (state : SavedState) (vals : List AbciValidator) : Option SavedState :=
  (updateState .transparent .plain state BlockID.empty
    ⟨state.chainID, state.lastBlockHeight + 1, 0, 0, BlockID.empty, 0, [], [], [], [], [], none⟩ ⟨[], none, vals⟩).bind
      Except.toOption

def afterBlock (state : SavedState) (vals : List AbciValidator) : SavedState := (blockOutcome state vals).getD state

section

variable (hs : Saves .transparent .plain smallGenesis (state :: older))

include hs

theorem Saves.answered {val : AbciValidator} (h : (initChainState state ⟨[val], none⟩).isSome) :
    Saves .transparent .plain smallGenesis (answered state val :: state :: older) := by
  obtain ⟨state', hstate'⟩ := isSome_iff_exists.1 h
  rw [Demars.answered, hstate']
  exact hs.initChain hstate'

theorem Saves.afterBlock {vals : List AbciValidator} (h : (blockOutcome state vals).isSome) :
    Saves .transparent .plain smallGenesis (afterBlock state vals :: state :: older) := by
  obtain ⟨updated, hupdated⟩ := isSome_iff_exists.1 h
  rw [Demars.afterBlock, hupdated]
  obtain ⟨e | u, hres, hok⟩ := bind_eq_some_iff.1 hupdated
  · cases hok
  · cases hok
    exact hs.applied rfl hres updated.appHash

end

/-- `InitChain` gives another validator, the first block a second one, and the second block changes nothing. -/
def steadySaves : List SavedState :=
  let init := answered smallState ⟨[1], 3⟩
  let first := afterBlock init [⟨[2], 4⟩]
  [afterBlock first [], first, init, smallState]

/-- After the first block the application has lost its data, and answers to `InitChain` with another validator. -/
def restartedSaves : List SavedState :=
  let first := afterBlock smallState []
  [answered first ⟨[2], 3⟩, first, smallState]

theorem saves_smallState : Saves .transparent .plain smallGenesis [smallState] := .genesis (by decide +kernel)

theorem saves_steady : Saves .transparent .plain smallGenesis steadySaves :=
  ((saves_smallState.answered (by decide +kernel)).afterBlock (by decide +kernel)).afterBlock (by decide +kernel)

def steadyVals : ValidatorSet := (steadySaves.head (cons_ne_nil _ _)).validators

/-- After two blocks, of which the first brings in another validator. -/
theorem getByAddress_steady : steadyVals ∈ steadySaves.map (·.validators) ∧
    steadyVals.members = [([1], none, 3), ([2], none, 4)] ∧ steadyVals.Ordered ∧
    (∃ val, steadyVals.getByAddress [2] = some (1, val) ∧ ∀ other ∈ steadyVals.validators.take 1, other.address ≠ [2]) ∧
    ∀ val ∈ steadyVals.validators, val.address ≠ [9] := by
  have hmem : steadyVals ∈ steadySaves.map (·.validators) := mem_map.2 ⟨_, head_mem _, rfl⟩
  have hindex : (steadyVals.getByAddress [2]).map Prod.fst = some 1 := by decide +kernel
  have hlacks : steadyVals.getByAddress [9] = none := by decide +kernel
  obtain ⟨⟨i, val⟩, hget, rfl⟩ := Option.map_eq_some_iff.1 hindex
  obtain ⟨hordered, -, hright⟩ := saves_steady.getByAddress_right hmem [2]
  obtain ⟨-, hnone, -⟩ := saves_steady.getByAddress_right hmem [9]
  exact ⟨hmem, by decide +kernel, hordered, ⟨val, hget, (hright _ val hget).2.2⟩, hnone.1 hlacks⟩

theorem lookups_steady : LookupsRight .plain steadySaves ∧ steadySaves.map (fun state => state.validators.members) =
    [[([1], none, 3), ([2], none, 4)], [([1], none, 3), ([2], none, 4)], [([1], none, 3)],
      smallState.validators.members] := by
  have hsame : steadySaves.IsChain SavesSame := .cons_cons (by decide +kernel) (.cons_cons (by decide +kernel)
    (.cons_cons (by decide +kernel) (.singleton _)))
  exact ⟨(lookups_iff .plain saves_steady).2 hsame steadySaves (suffix_refl _) (cons_ne_nil _ _), by decide +kernel⟩

/-- The validator that `InitChain` answered is in force at the second height, and the one of the genesis document is
found. -/
theorem old_validators_found : Saves .transparent .plain smallGenesis restartedSaves ∧
    (stateAt restartedSaves 2).map (fun state => state.validators.members) = some [([2], none, 3)] ∧
    ((loadValidators .plain (saved .plain restartedSaves) 2).bind fun res => res.toOption.join).map
      ValidatorSet.members =
      some smallState.validators.members :=
  ⟨(saves_smallState.afterBlock (by decide +kernel)).answered (by decide +kernel), by decide +kernel, by decide +kernel⟩

end Demars
