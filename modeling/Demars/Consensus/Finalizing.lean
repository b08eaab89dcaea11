import Demars.Blockchain.Saved
import Demars.Consensus.Commits
import Demars.Consensus.Network
import Demars.Consensus.Pairs

/-!
# Finalizing a block

`finalizeCommit` panics where the proposal block and its parts are not what was committed, where the block is not
valid, and where the block store refuses it. By agreement there is one block ID at each height, and its parts have
one content, so there is one chain state (`OneChain`), which all nodes follow (`Follows`). A finalized block was
prevoted by a correct node, which has checked it.
-/

namespace Demars.Consensus

open Handler Relation Blockchain List Option
open ConsensusState (blockHash hashesTo partsHeader startRound startHeight)

/-! ## What `finalizeCommit` checks -/

/-- The checks of `finalizeCommit` at a call, and the parts of the block that it saves. -/
structure Finalizes (L : Platform) (f : Finalized) : Prop where
  quorum : f.votes.majority f.commitRound voteTypePrecommit = some f.blockID
  header : PartSet.hasHeader (f.parts.map Ref.val) f.blockID.partsHeader = true
  hash : hashesTo L f.block f.blockID.hash = true
  valid : f.state.validateBlock L.prims L.amino L.blocks (f.block.map Ref.val) = some (.ok ())
  whole : Paired L f.state f.block f.parts

variable {L : Platform} {E : Env} {O : Outside} {cs cs' : ConsensusState}

/-- A call that passes the checks goes on to apply the block. -/
theorem wp_finalizeCommit {height : Int} {blockID : BlockID} {Q : Unit → ConsensusState → Prop}
    {F : ConsensusState → Prop} (hheight : cs.height = height) (hstep : cs.step = .commit)
    (h : Finalizes L (cs.call blockID)) :
    ∃ block, cs.proposalBlock = some block ∧ (wp (finalizeCommit L O height) Q F cs ↔
      wp (applyAndUpdate O ⟨blockHash L block, partsHeader cs.proposalBlockParts⟩ block.val) Q F { cs with
        finalized := cs.finalized ++ [cs.call blockID] }) := by
  obtain ⟨-, block, hblock, -⟩ := hashesTo_iff.1 h.hash
  have hquorum : cs.votes.majority cs.commitRound voteTypePrecommit = some blockID := h.quorum
  have hheader : PartSet.hasHeader (cs.proposalBlockParts.map Ref.val) blockID.partsHeader = true := h.header
  have hhash : hashesTo L cs.proposalBlock blockID.hash = true := h.hash
  have hvalid : cs.state.validateBlock L.prims L.amino L.blocks (cs.proposalBlock.map Ref.val) = some (.ok ()) :=
    h.valid
  have hblock' : cs.proposalBlock = some block := hblock
  rw [hblock', map_some] at hvalid
  refine ⟨block, hblock, ?_⟩
  unfold finalizeCommit
  rw [wp_bind, wp_get, if_neg (by simp [hheight, hstep]), wp_bind, hquorum, wp_ofOption_some, wp_bind, wp_modify,
    if_neg (by simp [hheader]), if_neg (by simp [hhash]), wp_bind, hblock', wp_ofOption_some, wp_bind, hvalid,
      wp_ofOption_some]

/-- `tryFinalizeCommit` waits or goes on to apply the proposal block: nothing panics before. -/
def PassesChecks (L : Platform) (cs : ConsensusState) : Prop :=
  ∀ (O : Outside) (Q : Unit → ConsensusState → Prop) (F : ConsensusState → Prop), Q () cs →
    (∀ blockID block, cs.proposalBlock = some block →
      wp (applyAndUpdate O ⟨blockHash L block, partsHeader cs.proposalBlockParts⟩ block.val) Q F
        { cs with finalized := cs.finalized ++ [cs.call blockID] }) →
    wp (tryFinalizeCommit L O cs.height) Q F cs

/-- The majority that `finalizeCommit` asks for is the one that `tryFinalizeCommit` has found. -/
theorem passesChecks (hstep : cs.step = .commit) (h : ∀ blockID,
    cs.votes.majority cs.commitRound voteTypePrecommit = some blockID → Finalizes L (cs.call blockID)) :
    PassesChecks L cs := by
  intro O Q F hwait happly
  unfold tryFinalizeCommit
  rw [wp_bind, wp_get, if_neg (by simp)]
  cases hquorum : cs.votes.majority cs.commitRound voteTypePrecommit with
  | none => exact hwait
  | some blockID =>
    dsimp only
    split_ifs
    · exact hwait
    · obtain ⟨block, hblock, hiff⟩ := wp_finalizeCommit (O := O) (Q := Q) (F := F) rfl hstep (h blockID hquorum)
      exact hiff.2 (happly blockID block hblock)

/-! ## Saving the block -/

section

variable (L) in
def saveFinalized (C : StoreCodec) (bs : BlockStore) (f : Finalized) : Option BlockStore :=
  f.block.bind fun block => block.val.header.bind fun header =>
    if bs.height < header.height then
      (f.votes.precommits f.commitRound).bind fun precommits => precommits.makeCommit.bind fun seenCommit =>
        bs.call L.prims L.blocks C (.saveBlock (some block.val) (f.parts.map Ref.val) (some seenCommit))
    else some bs

variable (L) in
/-- The calls of `finalizeCommit` one after the other; `none` is a panic. -/
def saveAll (C : StoreCodec) (bs : BlockStore) (calls : List Finalized) : Option BlockStore :=
  calls.foldlM (saveFinalized L C) bs

/-- A call that the block store can take. -/
structure Savable (L : Platform) (f : Finalized) : Prop extends Finalizes L f where
  wf : ∀ ps, f.parts = some ps → ps.val.Wf
  type_ : ∀ precommits, f.votes.precommits f.commitRound = some precommits → precommits.type_ = voteTypePrecommit
  height : f.state.lastBlockHeight + 1 = f.height

variable {C : StoreCodec} {bs bs₀ : BlockStore} {f : Finalized}

theorem commit_of_hash {P : Primitives} {B : BlockCodec} {b : Block} (h : Block.hash P B (some b) ≠ []) :
    ∃ commit, b.commit = some commit := by
  cases hc : b.commit with
  | some commit => exact ⟨commit, rfl⟩
  | none =>
    refine absurd ?_ h
    simp only [Block.hash, hc]
    cases (b.fillHeader P).header <;> cases b.data <;> rfl

theorem Savable.saveFinalized (h : Savable L f) (hbs : bs.height = f.height ∨ bs.height + 1 = f.height) :
    ∃ bs', saveFinalized L C bs f = some bs' ∧ bs'.height = f.height := by
  obtain ⟨hne, block, hblock, hhash⟩ := hashesTo_iff.1 h.hash
  have hvalid := h.valid
  rw [hblock, map_some] at hvalid
  obtain ⟨header, hheader, -, hok, -⟩ := ChainState.validateBlock_eq_ok hvalid
  have hat : header.height = f.height := (ChainState.validateHeader_height hok).trans h.height
  obtain ⟨precommits, hprecommits, hmaj⟩ := bind_eq_some_iff.1 h.quorum
  have hcommit : precommits.makeCommit = some ⟨f.blockID, precommits.votes⟩ := by
    have htype := h.type_ precommits hprecommits
    have hmaj' : precommits.maj23 = some f.blockID := hmaj
    simp [VoteSet.makeCommit, htype, hmaj']
  obtain ⟨ps, hps, hcomplete, -⟩ := h.whole block hblock
  have hnil : Block.hash L.prims L.blocks (some block.val) ≠ [] := fun hn => hne (hhash.symm.trans hn)
  obtain ⟨commit, hc⟩ := commit_of_hash hnil
  rw [Consensus.saveFinalized, hblock, bind_some, hheader, bind_some]
  by_cases hlt : bs.height < header.height
  · obtain ⟨bs', hbs', hat'⟩ := bs.call_saveBlock (P := L.prims) (B := L.blocks) (C := C)
      ⟨f.blockID, precommits.votes⟩ hheader (by omega) hcomplete (h.wf ps hps) hc
    refine ⟨bs', ?_, hat'.trans hat⟩
    have hps' : f.parts = some ps := hps
    rw [if_pos hlt, HeightVoteSet.precommits, hprecommits, bind_some, hcommit, bind_some, hps', map_some, hbs']
  · refine ⟨bs, if_neg hlt, ?_⟩
    omega

/-- The block store has taken the blocks of all calls so far. -/
structure Stored (L : Platform) (C : StoreCodec) (bs₀ : BlockStore) (cs : ConsensusState) : Prop where
  height : cs.state.lastBlockHeight + 1 = cs.height
  saved : ∃ bs, saveAll L C bs₀ cs.finalized = some bs ∧ (bs.height = cs.height ∨ bs.height + 1 = cs.height) ∧
    ∀ f, cs.finalized.getLast? = some f → f.height = cs.height → bs.height = cs.height

theorem Trans.stored (ht : Trans L E cs cs')
    (hE : ∀ state blockID block state', E.applied state blockID block state' →
      state'.lastBlockHeight = state.lastBlockHeight + 1)
    (hsav : ∀ f ∈ cs'.finalized, Savable L f) (h : Stored L C bs₀ cs) : Stored L C bs₀ cs' := by
  obtain ⟨bs, hbs, hheight, hlast⟩ := h.saved
  rcases ht.calls with ⟨h₁, h₂, h₃, -⟩ | ⟨blockID, rfl⟩ | ⟨state, votes, lastCommit, fin, block, happ,
    hfin, hfh, rfl, -⟩
  · refine ⟨by rw [h₁, h₂, h.height], bs, by rw [h₃, hbs], by rw [h₁]; exact hheight, ?_⟩
    rw [h₁, h₃]
    exact hlast
  · have hnew := hsav _ (mem_append_right _ mem_cons_self)
    obtain ⟨bs', hbs', hat⟩ := hnew.saveFinalized (C := C) hheight
    refine ⟨h.height, bs', ?_, .inl hat, fun _ _ _ => hat⟩
    rw [saveAll] at hbs ⊢
    simp only [foldlM_append, hbs, foldlM_cons, foldlM_nil, bind_eq_bind, bind_some, hbs', Option.pure_def]
  · have hat := hlast fin hfin hfh
    have hstate : state.lastBlockHeight + 1 = cs.height + 1 := by rw [hE _ _ _ _ happ, h.height]
    refine ⟨rfl, bs, hbs, .inr (by rw [hat]; exact hstate.symm), fun f hf hfheight => ?_⟩
    -- the last call was at the height before
    cases Option.some.inj (hfin.symm.trans hf)
    omega

end

/-! ## One chain -/

/-- What the correct nodes agree on: the first chain state, the application, the block ID of each height, the parts of
a block and their bytes. -/
structure OneChain where
  start : ChainState
  next : ChainState → BlockID → Block → ChainState
  idAt : Int → BlockID
  partsOf : Bytes → PartSetHeader
  contentOf : PartSetHeader → Bytes

namespace OneChain

variable (L) (H : OneChain)

def heightAt (k : Nat) : Int := H.start.lastBlockHeight + 1 + k

def state : Nat → ChainState
  | 0 => H.start
  | k + 1 => H.next (state k) (H.idAt (H.heightAt k))
      ((readBlock L (state k) (H.contentOf (H.idAt (H.heightAt k)).partsHeader)).getD ⟨none, none, none⟩)

def At (height : Int) (state : ChainState) : Prop := ∃ k, height = H.heightAt k ∧ state = H.state L k

def Decodes (state : ChainState) (parts : PartSet) (block : Block) : Prop :=
  readBlock L state parts.data = some block ∧
    (Block.hash L.prims L.blocks (some block) = [] ∨
      parts.header = H.partsOf (Block.hash L.prims L.blocks (some block))) ∧
      parts.data = H.contentOf parts.header

def Valid (height : Int) (blockID : BlockID) : Prop :=
  ∃ state block, H.At L height state ∧ readBlock L state (H.contentOf blockID.partsHeader) = some block ∧
    state.validateBlock L.prims L.amino L.blocks (some block) = some (.ok ())

/-- What holds of a call of `finalizeCommit` at the moment of the call. -/
structure Recorded (f : Finalized) : Prop where
  state : H.At L f.height f.state
  height : f.state.lastBlockHeight + 1 = f.height
  quorum : f.votes.majority f.commitRound voteTypePrecommit = some f.blockID
  hash : hashesTo L f.block f.blockID.hash = true
  whole : ∀ b ∈ f.block, ∃ ps ∈ f.parts, ps.val.isComplete = true ∧ ps.val.Wf ∧ H.Decodes L f.state ps.val b.val

def Agreed (f : Finalized) : Prop := f.blockID = H.idAt f.height ∧ f.blockID.partsHeader = H.partsOf f.blockID.hash

/-- What a node of the chain may be handed. -/
def env : Env where
  vote _ := True
  proposal cs proposal := Accepts cs proposal → cs.proposalBlock = none
  parts cs parts := Readable L cs parts ∧ parts.data = H.contentOf parts.header
  block header block :=
    Block.hash L.prims L.blocks (some block) = [] ∨ header = H.partsOf (Block.hash L.prims L.blocks (some block))
  applied state blockID block state' := state' = H.next state blockID block ∧
    state'.lastBlockHeight = state.lastBlockHeight + 1

variable {L H}

theorem At.unique {height : Int} {s s' : ChainState} (h : H.At L height s) (h' : H.At L height s') : s = s' := by
  obtain ⟨k, hk, rfl⟩ := h
  obtain ⟨k', hk', rfl⟩ := h'
  have heq : k = k' := by
    unfold heightAt at hk hk'
    omega
  rw [heq]

theorem env_pairs : (H.env L).Pairs L (H.Decodes L) where
  proposal cs proposal hnone hacc parts _ b hb := by
    rw [hnone hacc] at hb
    cases hb
  parts _ _ _ hparts hnone hb hblock := ⟨readBlock_of_decodeBlock hnone hparts.1 hb, hblock, hparts.2⟩

variable {f : Finalized}

/-- With the block ID of the chain, the block is the one of its content. -/
theorem Recorded.block_eq (h : H.Recorded L f) (hparts : f.blockID.partsHeader = H.partsOf f.blockID.hash)
    {b : Ref Block} (hb : f.block = some b) : readBlock L f.state (H.contentOf f.blockID.partsHeader) = some b.val ∧
      f.blockID = ⟨blockHash L b, partsHeader f.parts⟩ ∧
      PartSet.hasHeader (f.parts.map Ref.val) f.blockID.partsHeader = true := by
  obtain ⟨ps, hps, -, -, hread, hheader, hdata⟩ := h.whole b hb
  obtain ⟨hne, b', hb', hhash⟩ := hashesTo_iff.1 h.hash
  cases Option.some.inj (hb.symm.trans hb')
  have hhash' : Block.hash L.prims L.blocks (some b.val) = f.blockID.hash := hhash
  rw [hhash'] at hheader
  have heq : ps.val.header = f.blockID.partsHeader := (hheader.resolve_left hne).trans hparts.symm
  have hps' : f.parts = some ps := hps
  refine ⟨by rw [← heq, ← hdata, hread], ?_, ?_⟩
  · cases hid : f.blockID with
    | mk hash header =>
      rw [hid] at heq hhash
      simp only [hps', partsHeader, map_some, getD_some, heq, hhash]
  · rw [hps', map_some, PartSet.hasHeader, any_some, heq]
    exact decide_eq_true rfl

end OneChain

/-! ## The nodes follow the chain -/

/-- The invariant of a node that follows the one chain. -/
structure Follows (L : Platform) (H : OneChain) (cs : ConsensusState) : Prop where
  pairs : PairInv (H.Decodes L) cs
  height : cs.state.lastBlockHeight + 1 = cs.height
  state : H.At L cs.height cs.state
  locked : ∀ b, cs.lockedBlock = some b → cs.state.validateBlock L.prims L.amino L.blocks (some b.val) = some (.ok ())
  signed : ∀ e ∈ cs.signed, e.vote.type_ = voteTypePrevote → e.vote.blockID.hash ≠ [] →
    H.Valid L e.vote.height e.vote.blockID
  finalized : ∀ f ∈ cs.finalized, H.Recorded L f

namespace Follows

variable {H : OneChain}

section

variable (h : Follows L H cs)
include h

theorem sign (hpairs : PairInv (H.Decodes L) cs') (hheight : cs'.height = cs.height) (hstate : cs'.state = cs.state)
    (hfinal : cs'.finalized = cs.finalized)
    (hlocked : ∀ b, cs'.lockedBlock = some b → cs.state.validateBlock L.prims L.amino L.blocks (some b.val) =
      some (.ok ()))
    {l : List SignedVote} (hsigned : cs'.signed = cs.signed ++ l)
    (hl : ∀ e ∈ l, e.vote.type_ = voteTypePrevote → e.vote.blockID.hash ≠ [] → H.Valid L e.vote.height e.vote.blockID) :
    Follows L H cs' where
  pairs := hpairs
  height := by rw [hstate, hheight, h.height]
  state := by
    rw [hheight, hstate]
    exact h.state
  locked b hb := by
    rw [hstate]
    exact hlocked b hb
  signed e he := by
    rw [hsigned] at he
    rcases mem_append.1 he with he | he
    · exact h.signed e he
    · exact hl e he
  finalized := hfinal ▸ h.finalized

/-- Nothing is signed and the lock stays, or is released. -/
theorem same (hpairs : PairInv (H.Decodes L) cs') (hheight : cs'.height = cs.height) (hstate : cs'.state = cs.state)
    (hfinal : cs'.finalized = cs.finalized) (hlocked : cs'.lockedBlock = cs.lockedBlock ∨ cs'.lockedBlock = none)
    (hsigned : cs'.signed = cs.signed) : Follows L H cs' := by
  refine h.sign hpairs hheight hstate hfinal (fun b hb => ?_) (l := []) (by simpa using hsigned) fun _ he => nomatch he
  rcases hlocked with heq | hnone
  · exact h.locked b (heq ▸ hb)
  · rw [hnone] at hb
    cases hb

theorem valid_of_prevoteFor {blockID : BlockID} (hp : PrevoteFor L cs blockID)
    (hne : blockID.hash ≠ []) : H.Valid L cs.height blockID := by
  have hpair : ∀ (x : Option (Ref Block) × Option (Ref PartSet)) (b : Ref Block), x ∈ Consensus.pairs cs →
    x.1 = some b →
      blockID = ⟨blockHash L b, partsHeader x.2⟩ →
      cs.state.validateBlock L.prims L.amino L.blocks (some b.val) = some (.ok ()) → H.Valid L cs.height blockID := by
    rintro x b hx hb rfl hvalid
    obtain ⟨ps, hps, -, hread, -, hdata⟩ := h.pairs.paired x hx b hb
    refine ⟨cs.state, b.val, h.state, ?_, hvalid⟩
    have hps' : x.2 = some ps := hps
    simp only [hps', partsHeader, map_some, getD_some]
    rw [← hdata, hread]
  unfold PrevoteFor at hp
  cases hl : cs.lockedBlock with
  | some b =>
    rw [hl] at hp
    exact hpair (cs.lockedBlock, cs.lockedBlockParts) b (by simp [Consensus.pairs]) hl hp (h.locked b hl)
  | none =>
    rw [hl] at hp
    rcases hp with rfl | ⟨b, hb, hid, hvalid⟩
    · exact absurd rfl hne
    · exact hpair (cs.proposalBlock, cs.proposalBlockParts) b (by simp [Consensus.pairs]) hb hid hvalid

theorem locked_precommits (hp : Precommits L cs cs') (b : Ref Block) (hb : cs'.lockedBlock = some b) :
    cs.state.validateBlock L.prims L.amino L.blocks (some b.val) = some (.ok ()) := by
  have hsigned : ∀ type_ blockID cs₁, Signed type_ blockID cs₁ cs' → cs₁.lockedBlock = some b := by
    rintro _ _ _ ⟨_, _, _, rfl, _⟩
    exact hb
  cases hp with
  | nil hs => exact h.locked b (hsigned _ _ _ hs)
  | release _ _ hun hs =>
    have hlocked := hsigned _ _ _ hs
    rcases hun with rfl | rfl | ⟨_, _, rfl⟩ <;> cases hlocked
  | relock _ _ hs =>
    have hlocked := hsigned _ _ _ hs
    exact h.locked b hlocked
  | lock _ _ hs hvalid =>
    have hlocked : cs.proposalBlock = some b := hsigned _ _ _ hs
    rwa [hlocked] at hvalid

theorem finalize {blockID : BlockID} (hquorum : cs.votes.majority cs.commitRound voteTypePrecommit = some blockID)
    (hknown : hashesTo L cs.proposalBlock blockID.hash = true) :
    Follows L H { cs with finalized := cs.finalized ++ [cs.call blockID] } := by
  refine ⟨h.pairs.same rfl rfl rfl, h.height, h.state, h.locked, h.signed, fun f hf => ?_⟩
  rcases mem_append.1 hf with hf | hf
  · exact h.finalized f hf
  · cases mem_singleton.1 hf
    refine ⟨h.state, h.height, hquorum, hknown, fun b hb => ?_⟩
    obtain ⟨ps, hps, hcomplete, hdecodes⟩ := h.pairs.paired _ (PairInv.mem_proposal cs) b hb
    exact ⟨ps, hps, hcomplete, (h.pairs.sets _ (PairInv.mem_proposal cs) ps hps).2, hdecodes⟩

theorem nextState {fin : Finalized} {block : Ref Block} {state : ChainState} (hfin : fin ∈ cs.finalized)
    (hagreed : H.Agreed fin) (hcall : fin.height = cs.height ∧ fin.state = cs.state ∧ fin.block = some block)
    (happ : (H.env L).applied cs.state ⟨blockHash L block, partsHeader fin.parts⟩ block.val state) :
    H.At L (state.lastBlockHeight + 1) state := by
  obtain ⟨hheight, hstate, hblock⟩ := hcall
  obtain ⟨k, hk, hkstate⟩ := h.state
  obtain ⟨hread, hid, -⟩ := (h.finalized fin hfin).block_eq hagreed.2 hblock
  rw [hstate, hkstate] at hread
  refine ⟨k + 1, ?_, ?_⟩
  · have hnext := happ.2
    have hat := h.height
    unfold OneChain.heightAt at hk ⊢
    omega
  · have hidAt : fin.blockID = H.idAt (H.heightAt k) := by rw [hagreed.1, hheight, hk]
    rw [happ.1, ← hid, OneChain.state, ← hidAt, hread, getD_some, hkstate]

end

end Follows

/-- Every transition keeps a node on the chain, as long as its calls agree with it. -/
theorem Trans.follows {H : OneChain} (ht : Trans L (H.env L) cs cs') (hagreed : ∀ f ∈ cs.finalized, H.Agreed f)
    (h : Follows L H cs) : Follows L H cs' := by
  have hpairs : PairInv (H.Decodes L) cs' := ht.pairInv OneChain.env_pairs h.pairs
  cases ht with
  | idle hi => cases hi <;> exact h.same hpairs rfl rfl rfl (.inl rfl) rfl
  | newRound =>
    refine h.same hpairs ?_ ?_ ?_ (.inl ?_) ?_
    all_goals
      unfold startRound
      split_ifs <;> rfl
  | enter | votes | addPart => exact h.same hpairs rfl rfl rfl (.inl rfl) rfl
  | prevote _ choice hs =>
    obtain ⟨l, hl, hall⟩ := hs.signed_eq
    refine h.sign hpairs hs.frame.height hs.frame.state hs.frame.finalized (fun b hb => ?_) hl fun e he _ hne => ?_
    · exact h.locked b (hs.samePointers.lockedBlock ▸ hb)
    · obtain ⟨-, hheight, -, hblock⟩ := hall e he
      rw [hheight, hblock]
      rw [hblock] at hne
      exact h.valid_of_prevoteFor choice hne
  | precommit _ hp =>
    obtain ⟨l, hl, hall⟩ := hp.signed_eq
    refine h.sign hpairs hp.frame.height hp.frame.state hp.frame.finalized (fun b hb => ?_) hl fun e he htype => ?_
    · exact h.locked_precommits hp b hb
    · rw [(hall e he).2.2] at htype
      cases htype
  | unlock => exact h.same hpairs rfl rfl rfl (.inr rfl) rfl
  | commit _ ha =>
    cases ha with
    | none | locked => exact h.same hpairs rfl rfl rfl (.inl rfl) rfl
    | refetch _ hf => rcases hf with rfl | ⟨_, _, rfl⟩ <;> exact h.same hpairs rfl rfl rfl (.inl rfl) rfl
  | finalize quorum _ known => exact h.finalize quorum known
  | @nextHeight state votes lastCommit fin block _ applied _ last call _ =>
    have hfin : fin ∈ cs.finalized := mem_of_getLast? last
    exact ⟨hpairs, rfl, h.nextState hfin (hagreed fin hfin) call applied, fun _ hb => (nomatch hb), h.signed,
      h.finalized⟩
  | propose _ _ hp => rcases hp with rfl | ⟨_, _, rfl⟩ <;> exact h.same hpairs rfl rfl rfl (.inl rfl) rfl
  | @completePart parts _ res block hparts hadd hc =>
    have hframe := frame_completePart parts.addr res.1 block cs
    have hnone := h.pairs.no_proposalBlock hparts hadd hc.1
    have hrest : ((ConsensusState.writeParts parts.addr res.1 cs).setProposalBlock block).lockedBlock = cs.lockedBlock ∧
        ((ConsensusState.writeParts parts.addr res.1 cs).setProposalBlock block).signed = cs.signed := by
      unfold ConsensusState.setProposalBlock
      rw [show (ConsensusState.writeParts parts.addr res.1 cs).proposalBlock = none from hnone]
      cases block <;> exact ⟨rfl, rfl⟩
    exact h.same hpairs hframe.height hframe.state hframe.finalized (.inl hrest.1) hrest.2

/-! ## Runs of the network -/

namespace Network

variable {ι : Type} [DecidableEq ι] {S : Setting ι}

theorem Along.imp {Q₁ Q₂ Q : Network ι → Input ι → Prop} (h : ∀ net x, Q₁ net x → Q₂ net x → Q net x)
    {inputs : List (Input ι)} :
    ∀ {net : Network ι}, Along S Q₁ net inputs → Along S Q₂ net inputs → Along S Q net inputs := by
  induction inputs with
  | nil => exact fun _ _ => trivial
  | cons x inputs ih => exact fun h₁ h₂ => ⟨h _ x h₁.1 h₂.1, ih h₁.2 h₂.2⟩

theorem run_nodes {I : ConsensusState → Prop} {E : Env} (hI : ∀ s s', Trans S.platform E s s' → I s → I s')
    {inputs : List (Input ι)} : ∀ {net : Network ι}, (∀ i, Timely (net.nodes i).cs ∧ I (net.nodes i).cs) →
      (∀ x ∈ inputs, E.Applies x.2.1) → Along S (fun net x => E.Admits S.platform (net.nodes x.1).cs x.2.2) net inputs →
      ∀ i, I ((net.run S inputs).nodes i).cs := by
  induction inputs with
  | nil => exact fun h _ _ i => (h i).2
  | cons x inputs ih =>
    intro net h happ hadm
    obtain ⟨happ₁, happ₂⟩ := forall_mem_cons.1 happ
    refine ih (fun i => ?_) happ₂ hadm.2
    by_cases hi : i = x.1
    · subst hi
      simp only [Network.step, Function.update_self]
      exact chain_inv (I := fun s => Timely s ∧ I s) (fun s s' ht hs => ⟨ht.timely hs.1, hI s s' ht hs.2⟩)
        (NodeState.step_chain (h x.1).1 happ₁ hadm.1) (h x.1)
    · simp only [Network.step, Function.update_of_ne hi]
      exact h i

/-- What agreement gives: a block ID for each height. -/
theorem Agrees.exists_idAt {ι : Type} {net : Network ι} (h : net.Agrees) :
    ∃ idAt : Int → BlockID, ∀ i, ∀ f ∈ (net.nodes i).cs.finalized, f.blockID = idAt f.height := by
  classical
  refine ⟨fun height => if hf : ∃ f i, f ∈ (net.nodes i).cs.finalized ∧ f.height = height then hf.choose.blockID
    else BlockID.empty, fun i f hf => ?_⟩
  have hex : ∃ g j, g ∈ (net.nodes j).cs.finalized ∧ g.height = f.height := ⟨f, i, hf, rfl⟩
  simp only [dif_pos hex]
  obtain ⟨j, hg, hheight⟩ := hex.choose_spec
  exact h i j f hf _ hg hheight.symm

variable (S) in
def Tidy (contentOf : PartSetHeader → Bytes) (net : Network ι) (x : Input ι) : Prop :=
  (∀ proposal ∈ x.2.2.proposals, Accepts (net.nodes x.1).cs proposal → (net.nodes x.1).cs.proposalBlock = none) ∧
    ∀ parts ∈ completes S.platform (net.nodes x.1).cs x.2.2,
      Readable S.platform (net.nodes x.1).cs parts ∧ parts.data = contentOf parts.header

omit [DecidableEq ι] in
instance (contentOf : PartSetHeader → Bytes) (net : Network ι) (x : Input ι) : Decidable (Tidy S contentOf net x) := by
  unfold Tidy
  infer_instance

end Network

/-- `ApplyBlock` is one function for all nodes. -/
structure SameApplication (next : ChainState → BlockID → Block → ChainState) (O : Outside) : Prop where
  next : ∀ state blockID block state', O.applyBlock state blockID block = some (some state') →
    state' = next state blockID block
  height : AppliesNext O

section

variable {ι : Type} [DecidableEq ι] {S : Setting ι} {net : Network ι} {H : OneChain} {inputs : List (Input ι)}

omit [DecidableEq ι] in
theorem Network.Initial.cases (hinit : net.Initial S) {state : ChainState}
    (hstart : ∀ i, (net.nodes i).cs.state = state) (i : ι) :
    ∃ lastCommit pv, ConsensusState.newConsensusState state lastCommit pv = some (net.nodes i).cs := by
  obtain ⟨state', lastCommit, pv, cs, hcs, -, -, hnode⟩ := hinit.nodes i
  have hstate : cs.state = state' := by
    obtain ⟨votes, _, rfl⟩ := map_eq_some_iff.1 hcs
    rfl
  have hsame := hstart i
  rw [hnode] at hsame ⊢
  exact ⟨lastCommit, pv, by rw [← hsame, hstate, hcs]⟩

theorem follows_new {lastCommit : Option VoteSet} {pv : Option FilePV}
    (h : ConsensusState.newConsensusState H.start lastCommit pv = some cs) : Follows L H cs := by
  obtain ⟨votes, _, rfl⟩ := map_eq_some_iff.1 h
  refine ⟨.fresh fun x hx => ?_, rfl, ⟨0, by simp [OneChain.heightAt], rfl⟩, fun _ hb => (nomatch hb),
    fun _ he => (nomatch he), fun _ hf => nomatch hf⟩
  simpa [pairs] using hx

theorem stored_new {state : ChainState} {lastCommit : Option VoteSet} {pv : Option FilePV} {C : StoreCodec}
    {bs : BlockStore} (h : ConsensusState.newConsensusState state lastCommit pv = some cs)
    (hbs : bs.height = state.lastBlockHeight ∨ bs.height = state.lastBlockHeight + 1) : Stored L C bs cs := by
  obtain ⟨votes, _, rfl⟩ := map_eq_some_iff.1 h
  refine ⟨rfl, bs, rfl, ?_, fun _ hf => nomatch hf⟩
  show bs.height = state.lastBlockHeight + 1 ∨ bs.height + 1 = state.lastBlockHeight + 1
  omega

theorem admits_env (hparts : Network.Along S (Network.OneHeader S H.partsOf) net inputs)
    (htidy : Network.Along S (Network.Tidy S H.contentOf) net inputs) :
    Network.Along S (fun net x => (H.env S.platform).Admits S.platform (net.nodes x.1).cs x.2.2) net inputs :=
  hparts.imp (fun _ _ h₁ h₂ => ⟨fun _ _ => trivial, h₂.1, h₂.2, h₁⟩) htidy

theorem applies_env {O : Outside} (h : SameApplication H.next O) : (H.env L).Applies O :=
  fun state blockID block state' happ => ⟨h.next state blockID block state' happ,
    h.height state blockID block state' happ⟩

/-- A call that agrees with the chain passes its checks, if a correct node has prevoted the block. -/
theorem OneChain.Recorded.savable {f : Finalized} (h : H.Recorded L f) (hagreed : H.Agreed f)
    (hvalid : H.Valid L f.height f.blockID)
    (htype : ∀ precommits, f.votes.precommits f.commitRound = some precommits → precommits.type_ = voteTypePrecommit) :
    Savable L f := by
  obtain ⟨-, b, hb, -⟩ := hashesTo_iff.1 h.hash
  obtain ⟨hread, -, hheader⟩ := h.block_eq hagreed.2 hb
  obtain ⟨ps, hps, hcomplete, hwf, hdecodes, -⟩ := h.whole b hb
  refine ⟨⟨h.quorum, hheader, h.hash, ?_, fun b' hb' => ?_⟩, fun ps' hps' => ?_, htype, h.height⟩
  · obtain ⟨state, block, hat, hblock, hok⟩ := hvalid
    cases hat.unique h.state
    rw [hread] at hblock
    cases hblock
    rw [hb, map_some, hok]
  · cases Option.some.inj (hb.symm.trans hb')
    exact ⟨ps, hps, hcomplete, hdecodes⟩
  · cases Option.some.inj (hps'.symm.trans hps)
    exact hwf

end

/-- **Finalizing**: whatever the faulty validators send, each call of `finalizeCommit` at a correct node passes its
checks, and the block store takes the blocks of all the calls. -/
theorem finalizing_never_panics {ι : Type} [DecidableEq ι] (S : Setting ι) {net : Network ι} (hinit : net.Initial S)
    {state : ChainState} (hstart : ∀ i, (net.nodes i).cs.state = state) (inputs : List (Input ι))
    (happ : ∀ x ∈ inputs, S.Applies x.2.1) {next : ChainState → BlockID → Block → ChainState}
    (hnext : ∀ x ∈ inputs, SameApplication next x.2.1) (hauth : Network.Along S (Network.Authentic S) net inputs)
    (hkeys : OneBlockID S.platform.amino (inputs.flatMap fun x => x.2.2.votes)) {partsOf : Bytes → PartSetHeader}
    (hparts : Network.Along S (Network.OneHeader S partsOf) net inputs) {contentOf : PartSetHeader → Bytes}
    (htidy : Network.Along S (Network.Tidy S contentOf) net inputs) (i : ι) :
    (∀ f ∈ ((net.run S inputs).nodes i).cs.finalized, Finalizes S.platform f) ∧
      (∀ cs : ConsensusState, cs.step = .commit → (∀ blockID,
          cs.votes.majority cs.commitRound voteTypePrecommit = some blockID →
            cs.call blockID ∈ ((net.run S inputs).nodes i).cs.finalized) → PassesChecks S.platform cs) ∧
      ∀ (C : StoreCodec) (bs : BlockStore), bs.height = state.lastBlockHeight ∨ bs.height = state.lastBlockHeight + 1 →
        (saveAll S.platform C bs ((net.run S inputs).nodes i).cs.finalized).isSome = true := by
  have hinv : (net.run S inputs).Inv S (inputs.flatMap fun x => x.2.2.votes) partsOf :=
    Network.Inv.run inputs hinit.inv happ hauth (fun _ hv => hv) hparts
  obtain ⟨idAt, hid⟩ := (hinv.agrees hkeys).exists_idAt
  let H : OneChain := ⟨state, next, idAt, partsOf, contentOf⟩
  have hagreed : ∀ j, ∀ f ∈ ((net.run S inputs).nodes j).cs.finalized, H.Agreed f := fun j f hf =>
    ⟨hid j f hf, hinv.final_parts hkeys hf⟩
  have hadmits := admits_env (H := H) hparts htidy
  have henv : ∀ x ∈ inputs, (H.env S.platform).Applies x.2.1 := fun x hx => applies_env (hnext x hx)
  have hnew : ∀ j, ∃ lastCommit pv, ConsensusState.newConsensusState state lastCommit pv = some (net.nodes j).cs :=
    hinit.cases hstart
  have htimely : ∀ j, Timely (net.nodes j).cs := fun j => by
    obtain ⟨lastCommit, pv, hcs⟩ := hnew j
    exact (nodeInv_new (L := S.platform) (E := Env.any) hcs).timely
  -- the calls of a node are among those at the end of the run, which agree
  have hfollows : ∀ j, Follows S.platform H ((net.run S inputs).nodes j).cs := by
    intro j
    refine Network.run_nodes (E := H.env S.platform)
      (I := fun s => (∀ f ∈ s.finalized, H.Agreed f) → Follows S.platform H s) (fun s s' ht hs hag => ?_)
        (fun k => ?_) henv
      hadmits j (hagreed j)
    · have hold : ∀ f ∈ s.finalized, H.Agreed f := fun f hf => hag f (ht.finalized_subset hf)
      exact ht.follows hold (hs hold)
    · obtain ⟨lastCommit, pv, hcs⟩ := hnew k
      exact ⟨htimely k, fun _ => follows_new hcs⟩
  have hsavable : ∀ j, ∀ f ∈ ((net.run S inputs).nodes j).cs.finalized, Savable S.platform f := by
    intro j f hf
    refine ((hfollows j).finalized f hf).savable (hagreed j f hf) ?_ fun precommits hget => ?_
    · obtain ⟨⟨k, e⟩, he, htype, hheight, hblock⟩ := hinv.final_prevoted hkeys hf
      have hmem : e ∈ ((net.run S inputs).nodes k).cs.signed := by
        rw [hinv.signed k]
        exact List.mem_map.2 ⟨(k, e), mem_filter.2 ⟨he, by simp⟩, rfl⟩
      have hne : e.vote.blockID.hash ≠ [] := by
        rw [hblock]
        exact (hinv.final_backed hkeys hf).1
      have hvalid := (hfollows k).signed e hmem htype hne
      rwa [hheight, hblock] at hvalid
    · exact (((hinv.nodes j).finalized f hf).votes.inv _ _ precommits (by decide) hget).type_
  have hpass : ∀ f ∈ ((net.run S inputs).nodes i).cs.finalized, Finalizes S.platform f := fun f hf =>
    (hsavable i f hf).toFinalizes
  refine ⟨hpass, fun cs hstep hcall => passesChecks hstep fun blockID hquorum => hpass _ (hcall blockID hquorum),
    fun C bs hbs => ?_⟩
  have hstored : Stored S.platform C bs ((net.run S inputs).nodes i).cs := by
    refine Network.run_nodes (E := H.env S.platform)
      (I := fun s => (∀ f ∈ s.finalized, Savable S.platform f) → Stored S.platform C bs s) (fun s s' ht hs hsav => ?_)
      (fun k => ?_) henv hadmits i (hsavable i)
    · exact ht.stored (fun _ _ _ _ h => h.2) hsav (hs fun f hf => hsav f (ht.finalized_subset hf))
    · obtain ⟨lastCommit, pv, hcs⟩ := hnew k
      exact ⟨htimely k, fun _ => stored_new hcs hbs⟩
  obtain ⟨bs', hbs', -⟩ := hstored.saved
  rw [hbs']
  rfl

/-! ## Runs of three nodes -/

namespace Fork

def keepVals (state : ChainState) (blockID : BlockID) (_ : Block) : ChainState :=
  { state with lastBlockHeight := state.lastBlockHeight + 1, lastBlockID := blockID, validators := vals }

theorem sameApplication_inputs (events : List (Fin 3 × Event)) :
    ∀ x ∈ inputs events, SameApplication keepVals x.2.1 := by
  intro x hx
  obtain ⟨y, _, rfl⟩ := List.mem_map.1 hx
  refine ⟨fun state blockID block state' happ => ?_, fun state blockID block state' happ => ?_⟩
  · exact (Option.some.inj (Option.some.inj happ)).symm
  · cases happ
    rfl

/-- The faulty proposer gives node 1 the block in halves. -/
def byHalves : List (Fin 3 × Event) :=
  at_ 0 (timeout 0 .newHeight :: propose 0 (parts 0 1000)) ++
  at_ 1 (timeout 0 .newHeight :: propose 0 (parts 0 100)) ++
  at_ 2 (timeout 0 .newHeight :: propose 0 (parts 0 1000)) ++
  at_ 0 [prevote 0 idA 0, prevote 0 idA 2, prevote 0 idA 3] ++
  at_ 1 [prevote 0 idA 0, prevote 0 idA 2, prevote 0 idA 3] ++
  at_ 1 [precommit 0 idA 0, precommit 0 idA 1, precommit 0 idA 3]

/-- Node 0 has fetched the block of the polka when the proposal comes. -/
def byDelay : List (Fin 3 × Event) :=
  at_ 0 [timeout 0 .newHeight, timeout 0 .propose] ++
  at_ 1 (timeout 0 .newHeight :: propose 0 (parts 0 1000)) ++
  at_ 2 (timeout 0 .newHeight :: propose 0 (parts 0 1000)) ++
  at_ 0 [prevote 0 idA 1, prevote 0 idA 2, prevote 0 idA 3] ++
  at_ 1 [prevote 0 idA 1, prevote 0 idA 2, prevote 0 idA 3] ++
  at_ 2 [prevote 0 idA 1, prevote 0 idA 2, prevote 0 idA 3] ++
  at_ 0 ((propose 0 (parts 0 1000)).drop 1 ++ (propose 0 (parts 0 1000)).take 1) ++
  at_ 0 [precommit 0 idA 1, precommit 0 idA 2, precommit 0 idA 3]

end Fork

open Fork

/-- Node 0 finalizes the block that all have prevoted, and saves it. -/
theorem finalizing_together :
    net.Initial setting ∧
      (((net.run setting (inputs together)).nodes 0).cs.finalized.map fun f => (f.height, f.blockID)) =
        [(1, idA)] ∧
      (saveAll setting.platform .plain .empty
        ((net.run setting (inputs together)).nodes 0).cs.finalized).isSome = true := by
  obtain ⟨hauth, hkeys, hparts, hfinal⟩ := run_together
  have htidy : Network.Along setting (Network.Tidy setting fun _ => (parts 0 1000).data) net
      (inputs together) := by
    decide +kernel
  have hall := (finalizing_never_panics setting net_initial (fun _ => rfl) (inputs together)
    (applies_inputs _) (sameApplication_inputs _) hauth hkeys hparts htidy 0).2.2 .plain .empty (.inl rfl)
  exact ⟨net_initial, hfinal 0 (by decide), hall⟩

/-- One validator in four is faulty. With two serializations of a block the parts do not have the committed header,
and node 1 stops. With a late proposal the parts are not complete, and the block store refuses the block. -/
theorem finalizing_panics :
    (net.Initial setting ∧ (∀ x ∈ inputs byHalves, setting.Applies x.2.1) ∧
      Network.Along setting (Network.Authentic setting) net (inputs byHalves) ∧
      OneBlockID setting.platform.amino ((inputs byHalves).flatMap fun x => x.2.2.votes) ∧
      (((net.run setting (inputs byHalves)).nodes 1).cs.finalized.map fun f =>
        (f.blockID, PartSet.hasHeader (f.parts.map Ref.val) f.blockID.partsHeader)) = [(idA, false)] ∧
      ((net.run setting (inputs byHalves)).nodes 1).running = false) ∧
    (∀ x ∈ inputs byDelay, setting.Applies x.2.1) ∧
      Network.Along setting (Network.Authentic setting) net (inputs byDelay) ∧
      OneBlockID setting.platform.amino ((inputs byDelay).flatMap fun x => x.2.2.votes) ∧
      Network.Along setting (Network.OneHeader setting fun _ => idA.partsHeader) net
        (inputs byDelay) ∧
      (((net.run setting (inputs byDelay)).nodes 0).cs.finalized.map fun f =>
        (f.blockID, f.parts.map fun parts => parts.val.isComplete)) = [(idA, some false)] ∧
      (saveAll setting.platform .plain .empty
        ((net.run setting (inputs byDelay)).nodes 0).cs.finalized).isSome = false :=
  ⟨⟨net_initial, applies_inputs _, by decide +kernel⟩, applies_inputs _, by decide +kernel⟩

end Demars.Consensus
