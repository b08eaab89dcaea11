import Demars.Consensus.Heights

/-!
# Fast sync of a finalized chain

The loop of `poolRoutine` checks a block with `VerifyCommit` at the block's own height, with the commit inside the
block, which is of the height before.
-/

namespace Demars.Blockchain

open Crash Option

section

variable {σ : Type} (P : Primitives) (A : Amino) (B : BlockCodec) (app : Application σ)

/-- The blocks that the pool has, one turn of `SYNC_LOOP` after the other. -/
def syncLoop : SavedState → List Block → σ → Prog (Disk σ) Stop (SavedState × σ)
  | state, [], s => pure (state, s)
  | state, block :: blocks, s => do
    let res ← syncBlock P A B app state block s
    syncLoop res.1 blocks res.2

/-- A chain that consensus finalizes: each block is valid, more than two thirds of the power have precommitted its id,
and applying it leads on. -/
inductive Finalized : SavedState → σ → List Block → SavedState → σ → Prop
  | nil (state : SavedState) (s : σ) : Finalized state s [] state s
  | cons {state final updated : SavedState} {s sFinal executed : σ} {block : Block} {blocks : List Block}
      {parts : PartSet}
      {header : Header} {responses : ABCIResponses} (seen : Commit)
      (cut : block.makePartSet P B state.consensusParams.blockPartSizeBytes = some parts)
      (applies : Applies P A B app state ⟨Block.hash P B (some block), parts.header⟩ block s header executed
        responses updated)
      (decided : ValidatorSet.Justified P A state.validators state.chainID ⟨Block.hash P B (some block), parts.header⟩
        header.height seen)
      (rest : Finalized { updated with appHash := (app.commit executed).2 } (app.commit executed).1 blocks
        final sFinal) :
      Finalized state s (block :: blocks) final sFinal

end

variable {σ : Type} {P : Primitives} {A : Amino} {B : BlockCodec} {app : Application σ} {state final : SavedState}
  {s sFinal : σ} {d : Disk σ} {block : Block}

theorem commit_of_checkBlock {header : Header} (h : checkBlock P A B state block = .ok header) :
    ∃ commit, block.commit = some commit ∧ commit.height = header.height - 1 := by
  have hcheck := h
  unfold checkBlock at h
  split at h
  · cases h
  · cases h
  next hvalid =>
    obtain ⟨_, -, -, -, hlast⟩ := ChainState.validateBlock_eq_ok hvalid
    obtain ⟨commit, hcommit, -⟩ := bind_eq_some_iff.1 hlast
    exact ⟨commit, hcommit, commit_height_of_checkBlock hcommit hcheck⟩

theorem syncBlock_refuses {header : Header} {commit : Commit} (hheader : block.header = some header)
    (hcommit : block.commit = some commit) (hheight : commit.height ≠ header.height) {res : SavedState × σ}
    {d' : Disk σ} (h : (syncBlock P A B app state block s).Yields d res d') : res = (state, s) ∧ d' = d := by
  have hensures : Prog.Ensures (syncBlock P A B app state block s) d (fun _ => True) (fun _ => True)
      fun res d' => res = (state, s) ∧ d' = d := by
    refine Prog.ensures_lift_bind (fun _ _ => trivial) fun header' hheader' => ?_
    refine Prog.ensures_lift_bind (fun _ _ => trivial) fun parts _ => ?_
    refine Prog.ensures_lift_bind (fun _ _ => trivial) fun commit' hcommit' => ?_
    refine Prog.ensures_lift_bind (fun _ _ => trivial) fun verified hverified => ?_
    rw [orPanic_eq_ok] at hheader' hcommit' hverified
    cases verified with
    | error err => exact Prog.ensures_pure ⟨rfl, rfl⟩
    | ok _ =>
      cases Option.some.inj (hheader.symm.trans hheader')
      cases Option.some.inj (hcommit.symm.trans hcommit')
      exact absurd (ValidatorSet.height_of_verifyCommit hverified).symm hheight
  exact hensures.yields h

theorem syncLoop_refuses {start : SavedState} {sStart : σ} {blocks : List Block}
    (hchain : Finalized P A B app state s blocks final sFinal) {res : SavedState × σ}
    (h : (syncLoop P A B app start blocks sStart d).2 = .ok res) : res = (start, sStart) := by
  induction hchain generalizing d with
  | nil =>
    cases h
    rfl
  | cons seen cut applies decided rest ih =>
    obtain ⟨commit, hcommit, hheight⟩ := commit_of_checkBlock applies.check
    obtain ⟨first, hfirst, hrest, -⟩ := Prog.bind_eq_ok h
    obtain ⟨rfl, -⟩ := syncBlock_refuses (checkBlock_spec applies.check).1 hcommit (by omega) (Prog.yields_final hfirst)
    exact ih hrest

theorem Finalized.lastBlockHeight {blocks : List Block} (h : Finalized P A B app state s blocks final sFinal) :
    final.lastBlockHeight = state.lastBlockHeight + blocks.length := by
  induction h with
  | nil => simp
  | cons seen cut applies decided rest ih =>
    have hnext : _ = _ := (updateState_eq_ok applies.update).2.1
    have hheight := (checkBlock_spec applies.check).2.1
    rw [ih, List.length_cons]
    push_cast
    omega

/-- The loop refuses each block that consensus finalizes: a node follows a finalized chain by fast sync exactly if it
has no blocks. -/
theorem sync_follows_iff (P : Primitives) (A : Amino) (B : BlockCodec) (app : Application σ) (state final : SavedState)
    (s sFinal : σ) (d : Disk σ) (blocks : List Block) (hchain : Finalized P A B app state s blocks final sFinal) :
    (∃ d', (syncLoop P A B app state blocks s).Yields d (final, sFinal) d') ↔ blocks = [] := by
  constructor
  · rintro ⟨d', h⟩
    have hsame := syncLoop_refuses hchain h.snd
    have hheight := hchain.lastBlockHeight
    rw [(Prod.mk.inj hsame).1] at hheight
    apply List.length_eq_zero_iff.1
    omega
  · rintro rfl
    cases hchain
    exact ⟨d, Prog.yields_pure _ d⟩

/-! A chain of one block, with one validator. -/

def soloValidator : Validator := ⟨[1], some (.ed25519 [1]), 10, 0⟩

def keyedState : SavedState := { soloState with validators := ⟨[soloValidator], some soloValidator⟩ }

def keyedBlock : Block :=
  { soloBlock with
    header := soloBlock.header.map fun header =>
      { header with validatorsHash := keyedState.validators.hash .transparent .plain } }

def keyedParts : Option PartSet :=
  keyedBlock.makePartSet .transparent .plain keyedState.consensusParams.blockPartSizeBytes

def keyedID : BlockID :=
  ⟨Block.hash .transparent .plain (some keyedBlock), (keyedParts.map PartSet.header).getD ⟨0, []⟩⟩

def keyedPrecommit : Vote := Vote.signedBy [1] (ascii "c") ⟨[1], 0, 1, 0, 0, voteTypePrecommit, keyedID, none⟩

def keyedHeader : Header := keyedBlock.header.get rfl

def keyedUpdated : SavedState :=
  ((updateState .transparent .plain keyedState keyedID keyedHeader ⟨[], none, []⟩).bind Except.toOption).getD soloState

theorem keyed_applies :
    Applies .transparent .plain .plain (.keeper fun _ => []) keyedState keyedID keyedBlock 0 keyedHeader 1
    ⟨[], none, []⟩ keyedUpdated :=
  ⟨by decide +kernel, by decide +kernel, by decide +kernel⟩

theorem keyed_justified : ValidatorSet.Justified .transparent .plain keyedState.validators keyedState.chainID keyedID 1
    ⟨keyedID, [some keyedPrecommit]⟩ := by
  apply ValidatorSet.justified_of_powerOf
  · intro i vote hvote
    match i, hvote with
    | 0, rfl => exact ⟨rfl, rfl, rfl, soloValidator, .ed25519 [1], rfl, rfl, by decide +kernel⟩
    | i + 1, hvote => simp at hvote
  · decide +kernel

def keyedFinal : SavedState := { keyedUpdated with appHash := [1] }

theorem keyed_finalized :
    Finalized .transparent .plain .plain (.keeper fun _ => []) keyedState 0 [keyedBlock] keyedFinal 1 := by
  obtain ⟨parts, hparts⟩ : ∃ parts, keyedParts = some parts := isSome_iff_exists.1 (by decide +kernel)
  have hid : keyedID = ⟨Block.hash .transparent .plain (some keyedBlock), parts.header⟩ := by
    rw [keyedID, hparts, map_some, getD_some]
  have happlies := keyed_applies
  have hdecided := keyed_justified
  rw [hid] at happlies hdecided
  exact .cons _ hparts happlies hdecided (.nil keyedFinal 1)

theorem sync_follows_keyed :
    ((∃ d', (syncLoop .transparent .plain .plain (.keeper fun _ => []) keyedState [keyedBlock] 0).Yields blankDisk
      (keyedFinal, 1) d') ↔ [keyedBlock] = []) ∧
    ((∃ d', (syncLoop .transparent .plain .plain (.keeper fun _ => []) keyedState [] 0).Yields blankDisk
      (keyedState, 0) d') ↔ ([] : List Block) = []) :=
  ⟨sync_follows_iff _ _ _ _ _ _ _ _ blankDisk _ keyed_finalized, sync_follows_iff _ _ _ _ _ _ _ _ blankDisk
    _ (.nil _ _)⟩

/-- Consensus finalizes the block, and fast sync refuses it. -/
theorem finalized_block_refused :
    Finalized .transparent .plain .plain (.keeper fun _ => []) keyedState 0 [keyedBlock] keyedFinal 1 ∧
    keyedState.validators.verifyCommit .transparent .plain keyedState.chainID keyedID 1 ⟨BlockID.empty, []⟩ =
      some (.error (.wrongSetSize 1 0)) ∧
    (syncLoop .transparent .plain .plain (.keeper fun _ => []) keyedState [keyedBlock] 0 blankDisk).2.toOption =
      some (keyedState, 0) ∧ keyedFinal ≠ keyedState :=
  ⟨keyed_finalized, by decide +kernel, by decide +kernel, by decide +kernel⟩

end Demars.Blockchain
