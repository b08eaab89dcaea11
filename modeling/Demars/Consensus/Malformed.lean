import Demars.Consensus.Lock

/-!
# Malformed parts and blocks

What `addProposalBlockPart` does with a part up to the block that it completes (`addedBlock`), and `validateBlock`
on that block. A missing part, a negative index, a block without a header, one without a commit and a validator
without a key are not guarded against.
-/

namespace Demars

open List Option

/-! ## Precommits -/

namespace ValidatorSet

def keyAt (valSet : ValidatorSet) (idx : Nat) : Option PubKey := (valSet.validators[idx]?).bind Validator.pubKey

def StopsAt (P : Primitives) (A : Amino) (valSet : ValidatorSet) (chainID : Bytes) (idx : Nat) (vote : Vote) : Prop :=
  ∃ key, valSet.keyAt idx = some key ∧ key.verifyBytes P (vote.signBytes A chainID) vote.signature = false

def KeysReached (P : Primitives) (A : Amino) (valSet : ValidatorSet) (chainID : Bytes) (idx : Nat)
    (slots : List (Option Vote)) :
    Prop :=
  ∀ k vote, slots[k]? = some (some vote) → (valSet.keyAt (idx + k)).isSome ∨
    ∃ j < k, ∃ vote', slots[j]? = some (some vote') ∧ StopsAt P A valSet chainID (idx + j) vote'

variable {P : Primitives} {A : Amino} {valSet : ValidatorSet} {chainID : Bytes} {blockID : BlockID} {height round : Int}

theorem keysReached_none_cons {idx : Nat} {slots : List (Option Vote)} :
    KeysReached P A valSet chainID idx (none :: slots) ↔ KeysReached P A valSet chainID (idx + 1) slots := by
  have hidx (k : Nat) : idx + (k + 1) = idx + 1 + k := by omega
  constructor
  · intro h k vote hk
    rcases h (k + 1) vote hk with hkey | ⟨j, hj, vote', hj', hstop⟩
    · exact .inl (hidx k ▸ hkey)
    · cases j with
      | zero => cases hj'
      | succ j => exact .inr ⟨j, by omega, vote', hj', hidx j ▸ hstop⟩
  · intro h k vote hk
    cases k with
    | zero => cases hk
    | succ k =>
      rcases h k vote hk with hkey | ⟨j, hj, vote', hj', hstop⟩
      · exact .inl ((hidx k).symm ▸ hkey)
      · exact .inr ⟨j + 1, by omega, vote', hj', (hidx j).symm ▸ hstop⟩

/-- The first precommit needs a key, and the others count only if it verifies. -/
theorem keysReached_some_cons {idx : Nat} {vote : Vote} {slots : List (Option Vote)} :
    KeysReached P A valSet chainID idx (some vote :: slots) ↔ (valSet.keyAt idx).isSome ∧
      (StopsAt P A valSet chainID idx vote ∨ KeysReached P A valSet chainID (idx + 1) slots) := by
  have hidx (k : Nat) : idx + (k + 1) = idx + 1 + k := by omega
  constructor
  · intro h
    have hfirst : (valSet.keyAt idx).isSome := by
      rcases h 0 vote rfl with hkey | ⟨j, hj, -⟩
      · exact hkey
      · exact absurd hj (Nat.not_lt_zero j)
    refine ⟨hfirst, ?_⟩
    by_cases hstop : StopsAt P A valSet chainID idx vote
    · exact .inl hstop
    · refine .inr fun k vote' hk => ?_
      rcases h (k + 1) vote' hk with hkey | ⟨j, hj, vote'', hj', hstop'⟩
      · exact .inl (hidx k ▸ hkey)
      · cases j with
        | zero =>
          cases hj'
          exact absurd hstop' hstop
        | succ j => exact .inr ⟨j, by omega, vote'', hj', hidx j ▸ hstop'⟩
  · rintro ⟨hfirst, hrest⟩ k vote' hk
    cases k with
    | zero => exact .inl hfirst
    | succ k =>
      rcases hrest with hstop | hrest
      · exact .inr ⟨0, by omega, vote, rfl, hstop⟩
      · rcases hrest k vote' hk with hkey | ⟨j, hj, vote'', hj', hstop'⟩
        · exact .inl ((hidx k).symm ▸ hkey)
        · exact .inr ⟨j + 1, by omega, vote'', hj', (hidx j).symm ▸ hstop'⟩

theorem checkPrecommit_eq {idx : Nat} {vote : Vote}
    (hvote : vote.type_ = voteTypePrecommit ∧ vote.height = height ∧ vote.round = round) (hidx : idx < valSet.size) :
    (valSet.keyAt idx = none ∧ checkPrecommit P A valSet chainID blockID height round idx vote = none) ∨
    (StopsAt P A valSet chainID idx vote ∧
      checkPrecommit P A valSet chainID blockID height round idx vote = some (.error (.invalidSignature vote))) ∨
    ((valSet.keyAt idx).isSome ∧ ¬ StopsAt P A valSet chainID idx vote ∧
      ∃ power, checkPrecommit P A valSet chainID blockID height round idx vote = some (.ok power)) := by
  obtain ⟨htype, hheight, hround⟩ := hvote
  obtain ⟨val, hval⟩ : ∃ val, valSet.validators[idx]? = some val := ⟨_, getElem?_eq_getElem hidx⟩
  have hget : valSet.getByIndex idx = some val := getByIndex_eq_some.2 ⟨by omega, hval⟩
  have hkeyAt : valSet.keyAt idx = val.pubKey := by rw [keyAt, hval, bind_some]
  rw [checkPrecommit, if_neg (not_not.2 hheight), if_neg (not_not.2 hround), if_neg (not_not.2 htype), hget, bind_some]
  unfold StopsAt
  rw [hkeyAt]
  cases val.pubKey with
  | none => exact .inl ⟨rfl, rfl⟩
  | some key =>
    rw [map_some]
    by_cases hverify : key.verifyBytes P (vote.signBytes A chainID) vote.signature = false
    · rw [if_pos hverify]
      exact .inr (.inl ⟨⟨key, rfl, hverify⟩, rfl⟩)
    · rw [if_neg hverify]
      refine .inr (.inr ⟨rfl, ?_, _, rfl⟩)
      rintro ⟨key', heq, hfalse⟩
      cases heq
      exact hverify hfalse

theorem isSome_tallyLoop_iff : ∀ (slots : List (Option Vote)) (idx : Nat) (tallied : Int),
    (∀ vote, some vote ∈ slots → vote.type_ = voteTypePrecommit ∧ vote.height = height ∧ vote.round = round) →
    idx + slots.length ≤ valSet.size →
    ((tallyLoop P A valSet chainID blockID height round idx slots tallied).isSome ↔
      KeysReached P A valSet chainID idx slots)
  | [], idx, tallied, _, _ => by
    refine iff_of_true rfl fun k vote hk => ?_
    cases hk
  | none :: slots, idx, tallied, hvotes, hlen => by
    rw [length_cons] at hlen
    rw [tallyLoop, keysReached_none_cons]
    exact isSome_tallyLoop_iff slots _ tallied (fun vote hv => hvotes vote (mem_cons_of_mem _ hv)) (by omega)
  | some vote :: slots, idx, tallied, hvotes, hlen => by
    rw [length_cons] at hlen
    have ih (tallied : Int) := isSome_tallyLoop_iff slots (idx + 1) tallied
      (fun vote hv => hvotes vote (mem_cons_of_mem _ hv)) (by omega)
    rw [tallyLoop, keysReached_some_cons]
    rcases checkPrecommit_eq (P := P) (A := A) (hvotes vote mem_cons_self) (show idx < valSet.size by omega) with
      ⟨hkey, hcheck⟩ | ⟨hstop, hcheck⟩ | ⟨hkey, hgoes, power, hcheck⟩
    · rw [hcheck, hkey]
      simp
    · obtain ⟨key, hkey, hfalse⟩ := hstop
      rw [hcheck, hkey]
      exact iff_of_true rfl ⟨rfl, .inl ⟨key, hkey, hfalse⟩⟩
    · rw [hcheck, and_iff_right hkey, or_iff_right hgoes]
      cases power with
      | none => exact ih tallied
      | some power => exact ih _

end ValidatorSet

theorem Commit.validatePrecommits_ok {height round : Int} : ∀ {slots : List (Option Vote)},
    validatePrecommits height round slots = .ok () → ∀ vote, some vote ∈ slots →
      vote.type_ = voteTypePrecommit ∧ vote.height = height ∧ vote.round = round
  | [], _, vote, hvote => by cases hvote
  | none :: slots, h, vote, hvote => by
    rcases mem_cons.1 hvote with heq | hvote
    · cases heq
    · rw [validatePrecommits] at h
      exact validatePrecommits_ok h vote hvote
  | some first :: slots, h, vote, hvote => by
    rw [validatePrecommits] at h
    split_ifs at h with htype hheight hround
    rcases mem_cons.1 hvote with heq | hvote
    · cases heq
      exact ⟨not_not.1 htype, not_not.1 hheight, not_not.1 hround⟩
    · exact validatePrecommits_ok h vote hvote

/-! ## Blocks -/

section

variable (P : Primitives) (A : Amino) (B : BlockCodec) (state : ChainState) (block : Block)

/-- A block that `validateBlock` can check: it has a header, it has a commit or fails before that is read, and
validators whose signatures are checked have keys. -/
def Checkable : Prop :=
  ∃ header, block.header = some header ∧
    (block.commit = none → header.numTxs ≠ totalTxsInBuckets block.data ∨ (header.height = 1 ∧
      (header.dataHash ≠ dataHash P block.data ∨ state.validateHeader P B header (totalTxsInBuckets block.data) ≠
        .ok ()))) ∧
    ∀ commit, block.commit = some commit → header.height ≠ 1 → block.validateBasic P = some (.ok ()) →
      state.validateHeader P B header (totalTxsInBuckets block.data) = .ok () →
      commit.precommits.length = state.lastValidators.size → commit.height = header.height - 1 →
      state.lastValidators.KeysReached P A state.chainID 0 commit.precommits

end

section

variable {P : Primitives} {A : Amino} {B : BlockCodec} {state : ChainState} {block : Block} {header : Header}
  {commit : Commit}

theorem Block.validateBasic_commit (hheader : block.header = some header) (hcommit : block.commit = some commit)
    (hheight : header.height ≠ 1) (h : block.validateBasic P = some (.ok ())) : commit.validateBasic = .ok () := by
  cases hc : commit.validateBasic with
  | ok u => rfl
  | error err =>
    rw [Block.validateBasic, hheader, bind_some, hcommit] at h
    by_cases htxs : header.numTxs ≠ totalTxsInBuckets block.data
    · rw [if_pos htxs] at h
      cases h
    · simp [htxs, hheight, hc] at h

theorem isSome_verifyCommit_iff (hbasic : commit.validateBasic = .ok ()) (height : Int) :
    (state.lastValidators.verifyCommit P A state.chainID state.lastBlockID height commit).isSome ↔
      (commit.precommits.length = state.lastValidators.size → commit.height = height →
        state.lastValidators.KeysReached P A state.chainID 0 commit.precommits) := by
  rw [ValidatorSet.verifyCommit]
  by_cases hsize : state.lastValidators.size ≠ commit.precommits.length
  · rw [if_pos hsize]
    exact iff_of_true rfl fun h => absurd h.symm hsize
  rw [if_neg hsize]
  by_cases hheight : height ≠ commit.height
  · rw [if_pos hheight]
    exact iff_of_true rfl fun _ h => absurd h.symm hheight
  rw [if_neg hheight]
  rw [not_not] at hsize hheight
  have hvotes : Commit.validatePrecommits commit.height commit.round commit.precommits = .ok () := by
    unfold Commit.validateBasic at hbasic
    split_ifs at hbasic
    exact hbasic
  have hloop : (ValidatorSet.tallyLoop P A state.lastValidators state.chainID state.lastBlockID commit.height
    commit.round 0
      commit.precommits 0).isSome ↔ state.lastValidators.KeysReached P A state.chainID 0 commit.precommits :=
    ValidatorSet.isSome_tallyLoop_iff commit.precommits 0 0 (Commit.validatePrecommits_ok hvotes) (by omega)
  rw [hheight, forall_prop_of_true hsize.symm, forall_prop_of_true rfl, ← hloop]
  cases ValidatorSet.tallyLoop P A state.lastValidators state.chainID state.lastBlockID commit.height commit.round 0
      commit.precommits 0 with
  | none => rfl
  | some res =>
    cases res with
    | error err => rfl
    | ok tallied =>
      dsimp only
      split_ifs <;> rfl

theorem isSome_validateLastCommit_iff
    (hbasic : header.height ≠ 1 → ∀ commit, block.commit = some commit → commit.validateBasic = .ok ()) :
    (state.validateLastCommit P A header block.commit).isSome ↔ ∃ commit, block.commit = some commit ∧
      (header.height ≠ 1 → commit.precommits.length = state.lastValidators.size → commit.height = header.height - 1 →
        state.lastValidators.KeysReached P A state.chainID 0 commit.precommits) := by
  cases hcommit : block.commit with
  | none => simp [ChainState.validateLastCommit]
  | some commit =>
    rw [ChainState.validateLastCommit, bind_some]
    simp only [Option.some.injEq, exists_eq_left']
    by_cases hheight : header.height = 1
    · refine iff_of_true ?_ fun hne => absurd hheight hne
      split_ifs <;> rfl
    rw [if_neg hheight, forall_prop_of_true hheight]
    by_cases hsize : commit.precommits.length ≠ state.lastValidators.size
    · rw [if_pos hsize]
      exact iff_of_true rfl fun h => absurd h hsize
    · rw [if_neg hsize, isSome_map, isSome_verifyCommit_iff (hbasic hheight commit hcommit)]

theorem isSome_validateBlock_iff (P : Primitives) (A : Amino) (B : BlockCodec) (state : ChainState) (block : Block) :
    (state.validateBlock P A B (some block)).isSome ↔ Checkable P A B state block := by
  cases hheader : block.header with
  | none =>
    refine iff_of_false ?_ ?_
    · rw [ChainState.validateBlock, Block.validateBasic, hheader]
      simp
    · rintro ⟨header, heq, -⟩
      rw [hheader] at heq
      cases heq
  | some header =>
    -- the header is there, so the rest is about the commit
    have hcheckable : Checkable P A B state block ↔
        (block.commit = none → header.numTxs ≠ totalTxsInBuckets block.data ∨ (header.height = 1 ∧
          (header.dataHash ≠ dataHash P block.data ∨ state.validateHeader P B header (totalTxsInBuckets block.data) ≠
            .ok ()))) ∧
        ∀ commit, block.commit = some commit → header.height ≠ 1 → block.validateBasic P = some (.ok ()) →
          state.validateHeader P B header (totalTxsInBuckets block.data) = .ok () →
          commit.precommits.length = state.lastValidators.size → commit.height = header.height - 1 →
          state.lastValidators.KeysReached P A state.chainID 0 commit.precommits := by
      rw [Checkable, hheader]
      simp only [Option.some.injEq, exists_eq_left']
    rw [hcheckable, ChainState.validateBlock]
    cases hvalid : block.validateBasic P with
    | none =>
      -- only the commit can be missing
      refine iff_of_false (by simp) ?_
      rintro ⟨hnone, -⟩
      rw [Block.validateBasic, hheader, bind_some] at hvalid
      by_cases htxs : header.numTxs ≠ totalTxsInBuckets block.data
      · rw [if_pos htxs] at hvalid
        cases hvalid
      · by_cases hheight : header.height = 1
        · simp [htxs, hheight] at hvalid
        · have hcommit : block.commit = none := by simpa [htxs, hheight] using hvalid
          rcases hnone hcommit with h | ⟨h, -⟩
          · exact htxs h
          · exact hheight h
    | some res =>
      cases res with
      | error err =>
        refine iff_of_true rfl ⟨fun hcommit => ?_, fun _ _ _ hok => nomatch hok⟩
        rw [Block.validateBasic, hheader, bind_some, hcommit] at hvalid
        by_contra hno
        rw [not_or, not_and_or, not_or] at hno
        obtain ⟨htxs, hheight | ⟨hdata, -⟩⟩ := hno
        · simp [htxs, hheight] at hvalid
        · by_cases hheight : header.height = 1
          · simp [htxs, hdata] at hvalid
          · simp [htxs, hheight] at hvalid
      | ok u =>
        simp only [hheader, bind_some]
        cases hchecked : state.validateHeader P B header (totalTxsInBuckets block.data) with
        | error err =>
          refine iff_of_true rfl ⟨fun hcommit => ?_, fun _ _ _ _ hok => nomatch hok⟩
          by_cases hheight : header.height = 1
          · exact .inr ⟨hheight, .inr fun hok => nomatch hok⟩
          · rw [Block.validateBasic, hheader, hcommit] at hvalid
            by_cases htxs : header.numTxs ≠ totalTxsInBuckets block.data
            · exact .inl htxs
            · simp [hheight] at hvalid
        | ok u' =>
          have hbasic : header.height ≠ 1 → ∀ commit, block.commit = some commit → commit.validateBasic = .ok () :=
            fun hheight commit hcommit => Block.validateBasic_commit hheader hcommit hheight hvalid
          rw [isSome_validateLastCommit_iff hbasic]
          constructor
          · rintro ⟨commit, hcommit, hkeys⟩
            refine ⟨fun hnone => ?_, fun commit' hcommit' hheight _ _ => ?_⟩
            · rw [hcommit] at hnone
              cases hnone
            · rw [hcommit] at hcommit'
              cases hcommit'
              exact hkeys hheight
          · rintro ⟨hnone, hkeys⟩
            cases hcommit : block.commit with
            | some commit => exact ⟨commit, rfl, fun hheight => hkeys commit hcommit hheight trivial rfl⟩
            | none =>
              -- a valid block with a valid header has passed all the checks before
              rw [Block.validateBasic, hheader, bind_some] at hvalid
              rcases hnone hcommit with htxs | ⟨hheight, hdata | hbad⟩
              · simp [htxs] at hvalid
              · by_cases htxs : header.numTxs ≠ totalTxsInBuckets block.data
                · simp [htxs] at hvalid
                · simp [htxs, hheight, hdata] at hvalid
              · exact absurd rfl hbad

end

/-! ## Parts -/

namespace Consensus

open Handler
open ConsensusState (writeParts setProposalBlock)

section

variable (L : Platform) (N : Node) (O : Outside) (cs : ConsensusState) (height : Int) (part : Option Part)

/-- `addProposalBlockPart` up to the block that the part completes, if it does. -/
def addedBlock : Option (Option Block) :=
  if cs.height ≠ height then some none
  else part.bind fun part =>
    match cs.proposalBlockParts with
    | none => some none
    | some parts => (parts.val.addPart L.prims part).bind fun res =>
      if res.2.1 = true ∧ res.1.isComplete = true then
        if (decodeBlock L cs res.1).2 = true then
          (decodeBlock L cs res.1).1.bind fun block => block.header.map fun _ => some block
        else some none
      else some none

/-- Adding a part and validating the block that it completes; `none` is a panic. -/
def receivePart : Option (Option (Except BlockError Unit)) :=
  (addedBlock L cs height part).bind fun block =>
    match block with
    | none => some none
    | some block => (cs.state.validateBlock L.prims L.amino L.blocks (some block)).map some

/-- A message for another height, or one whose part has no negative index and completes a block that can be checked.
-/
def Harmless : Prop :=
  cs.height ≠ height ∨ ∃ p, part = some p ∧ ∀ parts, cs.proposalBlockParts = some parts →
    (parts.val.total ≤ p.index ∨ 0 ≤ p.index) ∧
    ∀ ps err block, parts.val.addPart L.prims p = some (ps, true, err) → ps.isComplete = true →
      decodeBlock L cs ps = (block, true) → ∃ b, block = some b ∧ Checkable L.prims L.amino L.blocks cs.state b

end

variable {L : Platform} {N : Node} {O : Outside} {cs : ConsensusState} {height : Int} {part : Option Part}

theorem addPart_eq_none_iff {P : Primitives} {ps : PartSet} {p : Part} :
    ps.addPart P p = none ↔ ¬ (ps.total ≤ p.index ∨ 0 ≤ p.index) := by
  unfold PartSet.addPart
  by_cases htotal : p.index ≥ ps.total
  · simp [htotal]
  rw [if_neg htotal]
  by_cases hneg : p.index < 0
  · simp
    omega
  · rw [if_neg hneg]
    refine iff_of_false ?_ (not_not.2 (.inr (not_lt.1 hneg)))
    split
    · exact fun h => nomatch h
    · split_ifs <;> exact fun h => nomatch h

/-- The messages on which a node does not panic: a block that fails an early check is refused before its commit is
read. -/
theorem receivePart_returns_iff (L : Platform) (cs : ConsensusState) (height : Int) (part : Option Part) :
    (receivePart L cs height part).isSome ↔ Harmless L cs height part := by
  unfold receivePart addedBlock Harmless
  by_cases hheight : cs.height ≠ height
  · rw [if_pos hheight]
    exact iff_of_true rfl (.inl hheight)
  rw [if_neg hheight, or_iff_right hheight]
  cases part with
  | none => simp
  | some p =>
    simp only [bind_some, Option.some.injEq, exists_eq_left']
    cases hparts : cs.proposalBlockParts with
    | none => simp
    | some parts =>
      simp only [Option.some.injEq, forall_eq']
      cases hadd : parts.val.addPart L.prims p with
      | none =>
        rw [addPart_eq_none_iff] at hadd
        simp [hadd]
      | some res =>
        have hindex : parts.val.total ≤ p.index ∨ 0 ≤ p.index := by
          by_contra hno
          rw [← addPart_eq_none_iff (P := L.prims), hadd] at hno
          cases hno
        rw [and_iff_right hindex, bind_some]
        obtain ⟨ps, added, err⟩ := res
        by_cases hdone : added = true ∧ ps.isComplete = true
        · obtain ⟨rfl, hcomplete⟩ := hdone
          rw [if_pos ⟨rfl, hcomplete⟩]
          by_cases hdecoded : (decodeBlock L cs ps).2 = true
          · rw [if_pos hdecoded]
            cases hblock : (decodeBlock L cs ps).1 with
            | none =>
              refine iff_of_false (by simp) fun h => ?_
              obtain ⟨b, hb, -⟩ := h ps err none rfl hcomplete (Prod.ext hblock hdecoded)
              cases hb
            | some block =>
              have hharmless : (∀ ps' err' block', some (ps, true, err) = some (ps', true, err') →
                ps'.isComplete = true →
                  decodeBlock L cs ps' = (block', true) →
                  ∃ b, block' = some b ∧ Checkable L.prims L.amino L.blocks cs.state b) ↔
                    Checkable L.prims L.amino L.blocks cs.state block := by
                constructor
                · intro h
                  obtain ⟨b, hb, hcheck⟩ := h ps err (some block) rfl hcomplete (Prod.ext hblock hdecoded)
                  cases hb
                  exact hcheck
                · rintro hcheck ps' err' block' heq _ hdec
                  cases heq
                  rw [hdec] at hblock
                  exact ⟨block, hblock, hcheck⟩
              rw [hharmless, ← isSome_validateBlock_iff, bind_some]
              cases hheader : block.header with
              | none =>
                rw [ChainState.validateBlock, Block.validateBasic, hheader]
                simp
              | some header =>
                rw [map_some, bind_some, isSome_map]
          · rw [if_neg hdecoded]
            refine iff_of_true rfl fun ps' err' block' heq _ hdec => ?_
            cases heq
            exact absurd (congrArg Prod.snd hdec) hdecoded
        · rw [if_neg hdone]
          refine iff_of_true rfl fun ps' err' block' heq hcomplete _ => ?_
          cases heq
          exact absurd ⟨rfl, hcomplete⟩ hdone

namespace Fork

def received (events : List Event) : NodeState :=
  NodeState.run .plain (node 1) ⟨startState, true⟩ (events.map (outside, ·))

def partsOf (block : Block) : PartSet := (block.makePartSet .checked .plain 1000).getD ⟨0, [], [], 0⟩

/-- The start of the first round and the proposal of a block, without its parts. -/
def proposed (block : Block) : List Event := timeout 0 .newHeight :: (propose 0 (partsOf block)).take 1

def partOf (block : Block) : Option Part := ((partsOf block).parts[0]?).join

def goesDown (block : Block) (part : Option Part) : Bool :=
  (received (proposed block)).running && !(received (proposed block ++ [.msg (.blockPart 1 0 part) []])).running

/-- What becomes of a part after the proposal of a block. -/
def receives (block : Block) (part : Option Part) : Option (Option (Except BlockError Unit)) :=
  receivePart .plain (received (proposed block)).cs 1 part

/-- A chain state after the first block, whose only validator has lost its key. -/
def keyless : ChainState := { state with
  lastBlockHeight := 1, lastBlockID := idA, lastValidators := ⟨[⟨address 0, none, 1, 0⟩], none⟩ }

def second : Block where
  header := (block 0).header.map fun header => { header with height := 2, lastBlockID := idA }
  data := some ⟨[]⟩
  commit := some ⟨idA, [some { emptyPrecommit with height := 1, blockID := idA }]⟩

end Fork

open Fork in
/-- A part with a negative index, a missing one, one of a block without a header or a commit, and a commit of a
validator without a key bring a node down. -/
theorem malformed_parts_panic :
    receives (block 0) (partOf (block 0)) = some (some (.ok ())) ∧
    receives (block 0) (some ⟨-1, [], []⟩) = none ∧ goesDown (block 0) (some ⟨-1, [], []⟩) = true ∧
    receives (block 0) none = none ∧ goesDown (block 0) none = true ∧
    receives { block 0 with header := none } (partOf { block 0 with header := none }) = none ∧
    goesDown { block 0 with header := none } (partOf { block 0 with header := none }) = true ∧
    receives { block 0 with commit := none } (partOf { block 0 with commit := none }) = none ∧
    goesDown { block 0 with commit := none } (partOf { block 0 with commit := none }) = true ∧
    keyless.validateBlock .checked .plain .plain (some second) = none := by
  decide +kernel

end Consensus

end Demars
