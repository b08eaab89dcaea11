import Demars.Blockchain.Saved
import Demars.Consensus.Lock
import Demars.Consensus.Reactor
import Demars.Lib.Runs

/-!
# Messages that the reactor survives

The bit arrays of a peer's state are made by the node itself, except for those of `CommitStepMessage` and
`ProposalPOLMessage`, which are kept as they come. As long as these have the words that their bits need, every
array of the state does (`PeerState.Ok`), and each function of the reactor keeps it so.
-/

namespace Demars.Consensus

open Handler Machine Blockchain Runs List Option

/-! ## The bit arrays of a peer -/

/-- A `nil` pointer, or an array with the words of its bits. -/
def BitsOk (bits : Bits) : Prop := ∀ ref, bits = some ref → ref.val.Agrees

/-- Every bit array has the words that its bits need. -/
structure PeerState.Ok (ps : PeerState) : Prop where
  proposalBlockParts : BitsOk ps.proposalBlockParts
  proposalPOL : BitsOk ps.proposalPOL
  prevotes : BitsOk ps.prevotes
  precommits : BitsOk ps.precommits
  lastCommit : BitsOk ps.lastCommit
  catchupCommit : BitsOk ps.catchupCommit

variable {L : Platform} {C : StoreCodec} {O : Own} {ps : PeerState} {bits : Bits} {bA : RawBitArray}

@[simp] theorem bitsOk_none : BitsOk none := fun _ h => nomatch h

theorem BitsOk.agreesOf (h : BitsOk bits) : RawBitArray.AgreesOf (bits.map Ref.val) := by
  intro b hb
  obtain ⟨ref, href, rfl⟩ := map_eq_some_iff.1 hb
  exact h ref href

theorem BitsOk.write {addr : Nat} (h : BitsOk bits) (hbA : bA.Agrees) : BitsOk (bits.map (Ref.write addr bA)) := by
  intro ref href
  obtain ⟨old, hold, rfl⟩ := map_eq_some_iff.1 href
  unfold Ref.write
  split_ifs
  · exact hbA
  · exact h old hold

theorem PeerState.Ok.write {addr : Nat} (h : ps.Ok) (hbA : bA.Agrees) : (ps.write addr bA).Ok :=
  ⟨h.1.write hbA, h.2.write hbA, h.3.write hbA, h.4.write hbA, h.5.write hbA, h.6.write hbA⟩

theorem PeerState.Ok.getVoteBitArray (h : ps.Ok) (height round : Int) (type_ : UInt8) :
    BitsOk (ps.getVoteBitArray height round type_) := by
  obtain ⟨-, hpol, hprevotes, hprecommits, hlast, hcatchup⟩ := h
  unfold PeerState.getVoteBitArray
  split_ifs
  all_goals first
    | exact bitsOk_none
    | assumption

theorem newPeerState_ok : newPeerState.Ok :=
  ⟨bitsOk_none, bitsOk_none, bitsOk_none, bitsOk_none, bitsOk_none, bitsOk_none⟩

/-! ## The functions of a peer's state -/

/-- The handler returns and leaves the bit arrays in order. -/
abbrev KeepsOk {α : Type} (m : PeerM α) : Prop := Keeps PeerState.Ok m

/-- What the handler makes is in order, too. -/
def Makes (m : PeerM Bits) : Prop := ∀ ps, ps.Ok → Returns m (fun new ps' => ps'.Ok ∧ BitsOk new) ps

theorem Makes.bind {m : PeerM Bits} {f : Bits → PeerM Unit} (hm : Makes m) (hf : ∀ new, BitsOk new → KeepsOk (f new)) :
    KeepsOk (m >>= f) := fun ps h => (hm ps h).bind fun new ps' h' => hf new h'.2 ps' h'.1

theorem emit_returns (o : Output) : KeepsOk (emit o) := .modify fun _ h => { h with }

theorem alloc_returns {bA : Option RawBitArray} (hbA : RawBitArray.AgreesOf bA) : Makes (alloc bA) := by
  refine fun ps h => .get_bind (Returns.bind (Q := fun _ => PeerState.Ok) (.modify { h with }) fun _ ps' h' =>
    .pure ⟨h', ?_⟩)
  intro ref href
  obtain ⟨b, hb, rfl⟩ := map_eq_some_iff.1 href
  exact hbA b hb

theorem newArray_returns {bits : Int} (hmem : (bits + 63) / 64 ≤ maxSliceLen) : Makes (newArray bits) := by
  obtain ⟨bA, hbA, hagrees⟩ := RawBitArray.newBitArray_spec hmem
  exact fun ps h => .ofOption_bind hbA (alloc_returns hagrees ps h)

theorem setBit_returns (hb : BitsOk bits) {index : Int} (hi : -64 < index) : KeepsOk (setBit bits index) := by
  cases bits with
  | none => exact .pure
  | some ref =>
    obtain ⟨bA, hbA, hagrees, -⟩ := (hb ref rfl).setIndex hi true
    exact .ofOption_bind hbA (.modify fun _ h => h.write hagrees)

theorem setHasProposal_returns {proposal : Proposal}
    (hmem : (proposal.blockPartsHeader.total + 63) / 64 ≤ maxSliceLen) :
    KeepsOk (setHasProposal proposal) := by
  refine .get_bind fun _ _ => .skip fun _ => .skip fun _ => .bind (.modify fun _ h => { h with }) fun _ => ?_
  exact (newArray_returns hmem).bind fun _ hparts =>
    .modify fun _ h => { h with proposalBlockParts := hparts, proposalPOL := bitsOk_none }

theorem initProposalBlockParts_returns {partsHeader : PartSetHeader}
    (hmem : (partsHeader.total + 63) / 64 ≤ maxSliceLen) :
    KeepsOk (initProposalBlockParts partsHeader) := by
  refine .get_bind fun _ _ => .skip fun _ => .bind (.modify fun _ h => { h with }) fun _ => ?_
  exact (newArray_returns hmem).bind fun _ hparts => .modify fun _ h => { h with proposalBlockParts := hparts }

variable {height : Int}

theorem setHasProposalBlockPart_returns {round index : Int} (hi : -64 < index) :
    KeepsOk (setHasProposalBlockPart height round index) :=
  .get_bind fun _ h => .skip fun _ => setBit_returns h.proposalBlockParts hi

theorem ensureCatchupCommitRound_returns {round n : Int} (hmem : (n + 63) / 64 ≤ maxSliceLen) :
    KeepsOk (ensureCatchupCommitRound height round n) := by
  refine .get_bind fun _ _ => .skip fun _ => .skip fun _ => .bind (.modify fun _ h => { h with }) fun _ => ?_
  refine .ite (fun _ => .modify fun _ h => { h with catchupCommit := h.precommits }) fun _ => ?_
  exact (newArray_returns hmem).bind fun _ hcommit => .modify fun _ h => { h with catchupCommit := hcommit }

theorem ensureArray_returns {n : Int} (hmem : (n + 63) / 64 ≤ maxSliceLen) {put : Bits → PeerState → PeerState}
    (hput : ∀ new (ps : PeerState), BitsOk new → ps.Ok → (put new ps).Ok) : KeepsOk (ensureArray bits n put) :=
  .when fun _ => (newArray_returns hmem).bind fun new hnew => .modify fun ps h => hput new ps hnew h

theorem ensureVoteBitArrays_returns {n : Int} (hmem : (n + 63) / 64 ≤ maxSliceLen) :
    KeepsOk (ensureVoteBitArrays height n) := by
  refine .get_bind fun _ _ => .ite (fun _ => ?_) fun _ => .when fun _ => ?_
  · refine .bind (ensureArray_returns hmem fun _ _ hnew h => { h with prevotes := hnew }) fun _ => ?_
    refine .bind (ensureArray_returns hmem fun _ _ hnew h => { h with precommits := hnew }) fun _ => ?_
    refine .bind (ensureArray_returns hmem fun _ _ hnew h => { h with catchupCommit := hnew }) fun _ => ?_
    exact ensureArray_returns hmem fun _ _ hnew h => { h with proposalPOL := hnew }
  · exact ensureArray_returns hmem fun _ _ hnew h => { h with lastCommit := hnew }

theorem recordVote_returns (vote : Vote) : KeepsOk (recordVote vote) := by
  refine .bind (.modify fun _ h => ?_) fun _ => .get_bind fun _ _ => .when fun _ => emit_returns _
  split_ifs
  · exact h
  · exact { h with }

theorem recordBlockPart_returns (height : Int) : KeepsOk (recordBlockPart height) := by
  refine .bind (.modify fun _ h => ?_) fun _ => .get_bind fun _ _ => .when fun _ => emit_returns _
  split_ifs
  · exact h
  · exact { h with }

theorem setHasVote_returns {round index : Int} {type_ : UInt8} (hi : -64 < index) :
    KeepsOk (setHasVote height round type_ index) :=
  .get_bind fun _ h => setBit_returns (h.getVoteBitArray height round type_) hi

theorem applyNewRoundStep_returns (height round : Int) (step : UInt8) (lastCommitRound : Int) :
    KeepsOk (applyNewRoundStep height round step lastCommitRound) := by
  refine .get_bind fun _ hprs => .skip fun _ => .bind (.modify fun _ h => { h with }) fun _ => ?_
  refine .bind (.when fun _ => .modify fun _ h => ?_) fun _ => ?_
  · exact { h with
      proposalBlockParts := bitsOk_none, proposalPOL := bitsOk_none
      prevotes := bitsOk_none, precommits := bitsOk_none }
  refine .bind (.when fun _ => .modify fun _ h => { h with precommits := hprs.catchupCommit }) fun _ => ?_
  refine .when fun _ => .modify fun _ h => { h with lastCommit := ?_, catchupCommit := bitsOk_none }
  dsimp only
  split_ifs
  · exact h.precommits
  · exact bitsOk_none

theorem applyCommitStep_returns (height : Int) (header : PartSetHeader) {parts : Option RawBitArray}
    (hparts : RawBitArray.AgreesOf parts) : KeepsOk (applyCommitStep height header parts) :=
  .get_bind fun _ _ => .skip fun _ => (alloc_returns hparts).bind fun _ hnew => .modify fun _ h =>
    { h with proposalBlockParts := hnew }

theorem applyProposalPOL_returns (height polRound : Int) {pol : Option RawBitArray}
    (hpol : RawBitArray.AgreesOf pol) : KeepsOk (applyProposalPOL height polRound pol) := by
  refine .get_bind fun _ _ => .skip fun _ => .skip fun _ => ?_
  exact (alloc_returns hpol).bind fun _ hnew => .modify fun _ h => { h with proposalPOL := hnew }

theorem updateBits_returns {ref : Ref RawBitArray} (href : ref.val.Agrees) (o : Option RawBitArray) :
    KeepsOk (updateBits ref o) := by
  cases o with
  | none => exact .pure
  | some o => exact .modify fun _ h => h.write (href.update o)

/-- An array with the words of its bits, and at least as many as another. -/
def Covers (o bA : RawBitArray) : Prop :=
  o.bits ≤ 64 * o.elems.length ∧ bA.elems.length ≤ o.elems.length ∧ (o.elems.length : Int) ≤ maxSliceLen

instance (o bA : RawBitArray) : Decidable (Covers o bA) := inferInstanceAs (Decidable (_ ∧ _ ∧ _))

theorem applyVoteSetBits_returns (h : ps.Ok) {round : Int} {type_ : UInt8} {msgVotes ourVotes : Option RawBitArray}
    (hours : RawBitArray.AgreesOf ourVotes)
    (hcovers : ourVotes.isSome = true → ∀ ref, ps.getVoteBitArray height round type_ = some ref →
      ∀ o, msgVotes = some o → Covers o ref.val) :
    Returns (applyVoteSetBits height round type_ msgVotes ourVotes) (fun _ => PeerState.Ok) ps := by
  refine .get_bind ?_
  have hbits := h.getVoteBitArray height round type_
  cases hvotes : ps.getVoteBitArray height round type_ with
  | none => exact .pure h
  | some votes =>
    have hagrees := hbits votes hvotes
    cases ourVotes with
    | none => exact updateBits_returns hagrees msgVotes ps h
    | some ourVotes =>
      obtain ⟨other, hother, hotherBits, hotherAgrees⟩ := hagrees.sub (hours ourVotes rfl)
      refine .ofOption_bind hother ?_
      cases msgVotes with
      | none => exact .ofOption_bind (a := some other) rfl (updateBits_returns hagrees _ ps h)
      | some o =>
        obtain ⟨hobits, holen, homem⟩ := hcovers rfl votes hvotes o rfl
        have hlen : other.elems.length ≤ o.elems.length := by
          have h₁ := hotherAgrees.length
          have h₂ := hagrees.length
          omega
        obtain ⟨has, hhas⟩ := hotherAgrees.or hobits hlen homem
        exact .ofOption_bind (a := some has) (by rw [RawBitArray.orOf, hhas, map_some])
          (updateBits_returns hagrees _ ps h)

/-! ## The vote sets of the node -/

/-- The vote sets of the node have a slot for each validator. -/
structure ShapedVotes (cs : ConsensusState) : Prop where
  votes : ∀ r t vs, isVoteTypeValid t = true → cs.votes.getVoteSet r t = some vs → vs.Shaped
  last : ∀ vs, cs.lastCommit = some vs → vs.Shaped

section

variable {E : Env} {N : Node} {cs cs' : ConsensusState}

theorem ShapedVotes.same (h : ShapedVotes cs) (hvotes : cs'.votes = cs.votes) (hlast : cs'.lastCommit = cs.lastCommit) :
    ShapedVotes cs' := ⟨by rw [hvotes]; exact h.votes, by rw [hlast]; exact h.last⟩

theorem newVoteSet_of_newHeightVoteSet {chainID : Bytes} {height : Int} {valSet : ValidatorSet}
    {votes : HeightVoteSet} (h : HeightVoteSet.newHeightVoteSet chainID height valSet = some votes) {r : Int}
    {t : UInt8} {vs : VoteSet} (ht : isVoteTypeValid t = true) (hvs : votes.getVoteSet r t = some vs) :
    VoteSet.newVoteSet chainID height r t valSet = some vs := by
  rcases (HeightVoteSet.opens_addRound h).new r t vs ht hvs with hold | hnew
  · simp [HeightVoteSet.getVoteSet] at hold
  · exact hnew

theorem shaped_newHeightVoteSet {chainID : Bytes} {height : Int} {valSet : ValidatorSet} {votes : HeightVoteSet}
    (h : HeightVoteSet.newHeightVoteSet chainID height valSet = some votes) {r : Int} {t : UInt8} {vs : VoteSet}
    (ht : isVoteTypeValid t = true) (hvs : votes.getVoteSet r t = some vs) : vs.Shaped :=
  VoteSet.shaped_newVoteSet (newVoteSet_of_newHeightVoteSet h ht hvs)

theorem Trans.shapedVotes (h : Trans L E cs cs') (hs : ShapedVotes cs) : ShapedVotes cs' := by
  rcases h.calls with ⟨-, -, -, hvotes⟩ | ⟨_, rfl⟩ | ⟨_, votes, lastCommit, _, _, -, -, -, rfl, fresh, kept⟩
  · cases hvotes with
    | same hvotes hlast => exact hs.same hvotes hlast
    | votes hstep _ hlast =>
      refine ⟨hstep.sets (Q := fun _ _ vs => vs.Shaped) ?_ ?_ ?_ hs.votes, hlast ▸ hs.last⟩
      · exact fun _ _ _ _ hnew => VoteSet.shaped_newVoteSet hnew
      · exact fun _ _ _ _ _ _ _ _ hvs hadd => hvs.addVote hadd
      · exact fun _ _ _ peerID blockID hvs => hvs.setPeerMaj23 peerID blockID
    | late last hadd hvotes hnew =>
      refine ⟨hvotes ▸ hs.votes, fun vs hvs => ?_⟩
      cases hnew.symm.trans hvs
      exact (hs.last _ last).addVote hadd
  · exact hs.same rfl rfl
  · refine ⟨fun r t vs ht hvs => shaped_newHeightVoteSet fresh ht hvs, fun vs hvs => ?_⟩
    have hlast : lastPrecommits cs = some (some vs) := kept.trans (congrArg some hvs)
    unfold lastPrecommits at hlast
    split_ifs at hlast
    · split at hlast
      · cases hlast
      · rename_i precommits hprecommits
        split_ifs at hlast
        cases hlast
        exact hs.votes _ _ _ rfl hprecommits
    · cases hlast

end

def Reachable (L : Platform) (cs : ConsensusState) : Prop :=
  ∃ (N : Node) (state : ChainState) (lastCommit : Option VoteSet) (pv : Option FilePV) (start : ConsensusState)
    (inputs : List (Outside × Event)), (∀ vs, lastCommit = some vs → vs.Shaped) ∧
      ConsensusState.newConsensusState state lastCommit pv = some start ∧
        cs = (NodeState.run L N ⟨start, true⟩ inputs).cs

theorem Reachable.shapedVotes {cs : ConsensusState} (h : Reachable L cs) : ShapedVotes cs := by
  obtain ⟨N, state, lastCommit, pv, start, inputs, hlast, hstart, rfl⟩ := h
  refine chain_inv (I := ShapedVotes) (fun _ _ => Trans.shapedVotes) (NodeState.run_chain (nodeInv_new hstart) inputs)
    ?_
  obtain ⟨votes, hvotes, rfl⟩ := map_eq_some_iff.1 hstart
  exact ⟨fun r t vs ht hvs => shaped_newHeightVoteSet hvotes ht hvs, hlast⟩

/-! ## What the node contributes -/

/-- The node is in a state that it can reach, its store holds the blocks up to the height before, and all fits into
memory. -/
structure Own.Sound (L : Platform) (C : StoreCodec) (O : Own) (saved : List SavedBlock) : Prop where
  reachable : Reachable L O.cs
  stored : Blockchain.Stored L.prims L.blocks C O.store saved
  height : O.cs.height ≤ O.store.height + 1
  savedMemory : ∀ s ∈ saved, s.parts.total ≤ maxSliceLen ∧ (s.commit.precommits.length : Int) ≤ maxSliceLen
  validators : (O.cs.validators.size : Int) ≤ maxSliceLen
  votes : ∀ r t, isVoteTypeValid t = true → ((VoteSet.reader (O.cs.votes.getVoteSet r t)).size : Int) ≤ maxSliceLen
  lastCommit : ((VoteSet.reader O.cs.lastCommit).size : Int) ≤ maxSliceLen
  parts : ∀ parts, O.cs.proposalBlockParts = some parts → (parts.val.parts.length : Int) ≤ maxSliceLen
  proposal : ∀ proposal, O.cs.proposal = some proposal → proposal.blockPartsHeader.total ≤ maxSliceLen

namespace Own.Sound

variable {saved : List SavedBlock} (h : O.Sound L C saved)
include h

theorem reader (r : Int) {t : UInt8} (ht : isVoteTypeValid t = true) :
    (VoteSet.reader (O.cs.votes.getVoteSet r t)).Sound :=
  VoteSet.Shaped.reader (fun vs hvs => h.reachable.shapedVotes.votes r t vs ht hvs) (h.votes r t ht)

theorem lastReader : (VoteSet.reader O.cs.lastCommit).Sound :=
  VoteSet.Shaped.reader (fun vs hvs => h.reachable.shapedVotes.last vs hvs) h.lastCommit

theorem bitArrayByBlockID (r : Int) {t : UInt8} (ht : isVoteTypeValid t = true) (blockID : BlockID) :
    RawBitArray.AgreesOf (VoteSet.bitArrayByBlockID L.amino (O.cs.votes.getVoteSet r t) blockID) :=
  VoteSet.Shaped.bitArrayByBlockID (fun vs hvs => h.reachable.shapedVotes.votes r t vs ht hvs) (h.votes r t ht) blockID

theorem loadBlockMeta {height : Int} (hpos : 0 < height) (hlt : height < O.cs.height) :
    ∃ m, Blockchain.loadBlockMeta C O.store.db height = some (some m) ∧ m.blockID.partsHeader.total ≤ maxSliceLen := by
  obtain ⟨s, hs⟩ := h.stored.blockAt_isSome height hpos (by have := h.height; omega)
  refine ⟨_, by rw [h.stored.loadBlockMeta_eq, hs, map_some], ?_⟩
  exact (h.savedMemory s (h.stored.of_blockAt hs).1).1

theorem loadBlockCommit (height : Int) :
    ∃ commit, Blockchain.loadBlockCommit C O.store.db height = some commit ∧ (Commit.reader commit).Sound := by
  rcases h.stored.loadBlockCommit_cases height with hload | ⟨s, hs, hload⟩
  · exact ⟨none, hload, Commit.sound_reader (by simp [Commit.reader, maxSliceLen])⟩
  · exact ⟨some s.commit, hload, Commit.sound_reader (h.savedMemory s (h.stored.of_blockAt hs).1).2⟩

theorem loadCommit {height : Int} (hpos : 0 < height) (hle : height ≤ O.store.height) :
    ∃ commit, Consensus.loadCommit C O height = some (some commit) := by
  unfold Consensus.loadCommit
  split_ifs with heq
  · obtain ⟨s, hs⟩ := h.stored.blockAt_isSome height hpos hle
    obtain ⟨hmem, rfl⟩ := h.stored.of_blockAt hs
    exact ⟨_, h.stored.loadSeenCommit_saved hmem⟩
  · obtain ⟨s, hs⟩ := h.stored.blockAt_isSome (height + 1) (by omega) (by omega)
    obtain ⟨hmem, hheight⟩ := h.stored.of_blockAt hs
    have hload := h.stored.loadBlockCommit_saved hmem
    rw [hheight, add_sub_cancel_right] at hload
    exact ⟨_, hload⟩

end Own.Sound

/-! ## Receive -/

def PeerMsg.Proper : PeerMsg → Prop
  | .commitStep _ _ blockParts => RawBitArray.AgreesOf blockParts
  | .proposal payload => ∃ p ∈ payload, p.blockPartsHeader.total ≤ maxSliceLen
  | .proposalPOL _ _ pol => RawBitArray.AgreesOf pol
  | .blockPart _ _ part => ∃ p ∈ part, -64 < p.index
  | .vote payload => ∃ v ∈ payload, -64 < v.validatorIndex
  | .hasVote _ _ _ index => -64 < index
  | .proposalHeartbeat heartbeat => heartbeat.isSome = true
  | _ => True

instance (msg : PeerMsg) : Decidable msg.Proper := by
  unfold PeerMsg.Proper
  split <;> infer_instance

def PeerMsg.channel : PeerMsg → Option UInt8
  | .newRoundStep _ _ _ _ => some stateChannel
  | .commitStep _ _ _ => some stateChannel
  | .proposal _ => some dataChannel
  | .proposalPOL _ _ _ => some dataChannel
  | .blockPart _ _ _ => some dataChannel
  | .vote _ => some voteChannel
  | .hasVote _ _ _ _ => some stateChannel
  | .voteSetMaj23 _ _ _ _ => some stateChannel
  | .voteSetBits _ _ _ _ _ => some voteSetBitsChannel
  | .proposalHeartbeat _ => some stateChannel
  | .unknown => none

/-- The votes that a peer claims to have cover the array that they go into. -/
def CoversVotes (L : Platform) (O : Own) (ps : PeerState) : PeerMsg → Prop
  | .voteSetBits height round type_ blockID votes =>
    O.cs.height = height → (VoteSet.bitArrayByBlockID L.amino (O.cs.votes.getVoteSet round type_) blockID).isSome =
      true →
      ∀ ref ∈ ps.getVoteBitArray height round type_, ∀ o ∈ votes, Covers o ref.val
  | _ => True

instance (L : Platform) (O : Own) (ps : PeerState) (msg : PeerMsg) : Decidable (CoversVotes L O ps msg) := by
  unfold CoversVotes
  split <;> infer_instance

theorem replyMaj23_returns (peerID : Bytes) (height round : Int) (type_ : UInt8) (blockID : BlockID) :
    KeepsOk (replyMaj23 L O peerID height round type_ blockID) :=
  .skip fun _ => .ite (fun _ => emit_returns _) fun _ => emit_returns _

theorem receiveState_returns (peerID : Bytes) {msg : PeerMsg} (hmsg : msg.channel = some stateChannel → msg.Proper) :
    KeepsOk (receiveState L O peerID msg) := by
  cases msg with
  | newRoundStep height round step lastCommitRound => exact applyNewRoundStep_returns _ _ _ _
  | commitStep height header parts => exact applyCommitStep_returns _ _ (hmsg rfl)
  | hasVote height round type_ index => exact .get_bind fun _ _ => .skip fun _ => setHasVote_returns (hmsg rfl)
  | voteSetMaj23 height round type_ blockID => exact replyMaj23_returns _ _ _ _ _
  | proposalHeartbeat heartbeat =>
    obtain ⟨hb, hhb⟩ := isSome_iff_exists.1 (hmsg rfl)
    exact .ofOption_bind hhb .pure
  | _ => exact .pure

theorem words_le {n : Int} (h : n ≤ maxSliceLen) : (n + 63) / 64 ≤ maxSliceLen := by
  unfold maxSliceLen at h ⊢
  omega

theorem receiveData_returns {msg : PeerMsg} (hmsg : msg.channel = some dataChannel → msg.Proper) :
    KeepsOk (receiveData msg) := by
  cases msg with
  | proposal proposal =>
    obtain ⟨p, hp, hmem⟩ := hmsg rfl
    exact .ofOption_bind hp (.bind (setHasProposal_returns (words_le hmem)) fun _ => emit_returns _)
  | proposalPOL height polRound pol => exact applyProposalPOL_returns _ _ (hmsg rfl)
  | blockPart height round part =>
    obtain ⟨p, hp, hi⟩ := hmsg rfl
    refine .ofOption_bind hp (.bind (setHasProposalBlockPart_returns hi) fun _ => ?_)
    exact .bind (recordBlockPart_returns height) fun _ => emit_returns _
  | _ => exact .pure

section

variable {saved : List SavedBlock} {msg : PeerMsg} {votes : VoteSetReader}

theorem receiveVote_returns (hown : O.Sound L C saved) (hmsg : msg.channel = some voteChannel → msg.Proper) :
    KeepsOk (receiveVote O msg) := by
  cases msg with
  | vote vote =>
    obtain ⟨v, hv, hi⟩ := hmsg rfl
    refine .bind (ensureVoteBitArrays_returns (words_le hown.validators)) fun _ => ?_
    refine .bind (ensureVoteBitArrays_returns (words_le hown.lastCommit)) fun _ => ?_
    refine .ofOption_bind hv (.bind (setHasVote_returns hi) fun _ => ?_)
    exact .bind (recordVote_returns v) fun _ => emit_returns _
  | _ => exact .pure

theorem receiveBits_returns (hown : O.Sound L C saved) (h : ps.Ok) (hcovers : CoversVotes L O ps msg) :
    Returns (receiveBits L O msg) (fun _ => PeerState.Ok) ps := by
  cases msg with
  | voteSetBits height round type_ blockID votes =>
    simp only [receiveBits, when]
    split_ifs with hheight htype
    · exact applyVoteSetBits_returns h (hown.bitArrayByBlockID round htype blockID)
        fun hours ref href o ho => hcovers hheight hours ref href o ho
    · exact .pure h
    · exact applyVoteSetBits_returns h RawBitArray.agreesOf_none fun hnone => absurd hnone (by simp)
  | _ => exact .pure h

/-- A message is handled on its channel; during a fast sync only states are. -/
def Handled (O : Own) (chID : UInt8) (msg : PeerMsg) : Prop :=
  msg.channel = some chID ∧ (chID = stateChannel ∨ O.fastSync = false)

instance (O : Own) (chID : UInt8) (msg : PeerMsg) : Decidable (Handled O chID msg) :=
  inferInstanceAs (Decidable (_ ∧ _))

theorem receive_returns (hown : O.Sound L C saved) (h : ps.Ok) (peerID : Bytes) {chID : UInt8}
    (hmsg : Handled O chID msg → msg.Proper ∧ CoversVotes L O ps msg) :
    Returns (receive L O peerID chID msg) (fun _ => PeerState.Ok) ps := by
  unfold receive when
  split_ifs with hch hch hsync hch hsync hch
  · subst hch
    exact receiveState_returns peerID (fun hchannel => (hmsg ⟨hchannel, .inl rfl⟩).1) ps h
  · subst hch
    exact receiveData_returns (fun hchannel => (hmsg ⟨hchannel, .inr hsync⟩).1) ps h
  · exact .pure h
  · subst hch
    exact receiveVote_returns hown (fun hchannel => (hmsg ⟨hchannel, .inr hsync⟩).1) ps h
  · exact .pure h
  · obtain ⟨rfl, hsync⟩ := hch
    refine receiveBits_returns hown h ?_
    cases msg with
    | voteSetBits => exact (hmsg ⟨rfl, .inr hsync⟩).2
    | _ => trivial
  · exact .pure h

/-! ## Gossip -/

theorem pickVoteToSend_returns (hvotes : votes.Sound) (rand : Random) : KeepsOk (pickVoteToSend votes rand) := by
  have hmem := words_le hvotes.memory
  refine .skip fun _ => .bind (.when fun _ => ensureCatchupCommitRound_returns hmem) fun _ => ?_
  refine .bind (ensureVoteBitArrays_returns hmem) fun _ => .get_bind fun prs hprs => ?_
  have hbits := hprs.getVoteBitArray votes.height votes.round votes.type_
  cases hps : prs.getVoteBitArray votes.height votes.round votes.type_ with
  | none => exact .pure
  | some psVotes =>
    obtain ⟨diff, hdiff, hagrees, hsame⟩ := hvotes.agrees.subOf (RawBitArray.agreesOf_some.2 (hbits psVotes hps))
    obtain ⟨index, hindex, hlt⟩ := hagrees.pickRandom rand
    refine .ofOption_bind hdiff (.ofOption_bind hindex ?_)
    cases index with
    | none => exact .pure
    | some index =>
      refine .bind (setHasVote_returns (by omega)) fun _ => ?_
      -- the bit that was picked is the one of a slot
      obtain ⟨c, hc, hcbits⟩ := hlt index rfl
      obtain ⟨b, hb, hbbits⟩ := hsame c hc
      have hslot : index < votes.votes.length := by
        have := hvotes.bits b hb
        omega
      exact .ofOption_bind (getElem?_eq_getElem hslot) .pure

theorem pickSendVote_returns (hvotes : votes.Sound) (k : Nat) : KeepsOk (pickSendVote O votes k) := by
  refine .bind (pickVoteToSend_returns hvotes (O.rand k)) fun vote => ?_
  cases vote with
  | none => exact .pure
  | some vote => exact .bind (.when fun _ => emit_returns _) fun _ => .pure

theorem sendIf_returns {due : Prop} [Decidable due] (hvotes : votes.Sound) (k : Nat) : KeepsOk (sendIf O due votes k) :=
  .ite (fun _ => pickSendVote_returns hvotes k) fun _ => .pure

theorem sendFirst_returns {list : List (Bool × VoteSetReader)} (hlist : ∀ p ∈ list, p.2.Sound) (k : Nat) :
    KeepsOk (sendFirst O list k) := by
  induction list generalizing k with
  | nil => exact .pure
  | cons p list ih =>
    have hrest : ∀ q ∈ list, q.2.Sound := fun q hq => hlist q (mem_cons_of_mem p hq)
    exact .bind (sendIf_returns (hlist p mem_cons_self) k) fun _ => .skip fun _ => ih hrest (k + 1)

theorem votesForHeight_sound (hown : O.Sound L C saved) (prs : PeerState) : ∀ p ∈ votesForHeight O prs, p.2.Sound := by
  intro p hp
  simp only [votesForHeight, mem_cons, not_mem_nil, or_false] at hp
  rcases hp with rfl | rfl | rfl | rfl | rfl | rfl
  · exact hown.lastReader
  all_goals exact hown.reader _ rfl

theorem gossipVotes_returns (hown : O.Sound L C saved) : KeepsOk (gossipVotes C O) := by
  refine .get_bind fun prs _ => .bind (.ite (fun _ => sendFirst_returns (votesForHeight_sound hown prs) 0) fun _ =>
    .pure) fun _ => ?_
  refine .skip fun _ => .bind (sendIf_returns hown.lastReader 6) fun _ => .skip fun _ => .when fun _ => ?_
  obtain ⟨commit, hcommit, hsound⟩ := hown.loadBlockCommit prs.height
  exact .ofOption_bind hcommit (.bind (pickSendVote_returns hsound 7) fun _ => .pure)

theorem sendPart_returns (prs : PeerState) (height round : Int) (index : Nat) (part : Option Part) :
    KeepsOk (sendPart O prs height round index part) :=
  .when fun _ => .bind (emit_returns _) fun _ => setHasProposalBlockPart_returns (by omega)

theorem gossipDataForCatchup_returns (hown : O.Sound L C saved) {prs : PeerState} (hprs : prs.Ok)
    (hpos : 0 < prs.height) (hlt : prs.height < O.cs.height) : KeepsOk (gossipDataForCatchup C O prs) := by
  have hnot : RawBitArray.AgreesOf (prs.proposalBlockParts.map fun parts => parts.val.not) := by
    intro b hb
    obtain ⟨ref, href, rfl⟩ := map_eq_some_iff.1 hb
    exact (hprs.proposalBlockParts ref href).not
  obtain ⟨index, hindex, -⟩ := hnot.pickRandom (O.rand 1)
  refine .ofOption_bind hindex ?_
  cases index with
  | none => exact .pure
  | some index =>
    obtain ⟨m, hm, -⟩ := hown.loadBlockMeta hpos hlt
    obtain ⟨part, hpart⟩ := hown.stored.loadBlockPart_isSome prs.height index
    refine .ofOption_bind hm (.skip fun _ => .ofOption_bind hpart ?_)
    cases part with
    | none => exact .pure
    | some part => exact sendPart_returns prs _ _ index _

theorem gossipRest_returns (hown : O.Sound L C saved) {prs : PeerState} (hprs : prs.Ok) :
    KeepsOk (gossipRest C O prs) := by
  refine .ite (fun hheight => ?_) fun _ => .skip fun _ => ?_
  · cases hparts : prs.proposalBlockParts with
    | none =>
      obtain ⟨m, hm, hmem⟩ := hown.loadBlockMeta hheight.1 hheight.2
      exact .ofOption_bind hm (.ofOption_bind rfl (initProposalBlockParts_returns (words_le hmem)))
    | some parts => exact gossipDataForCatchup_returns hown hprs hheight.1 hheight.2
  · cases hproposal : O.cs.proposal with
    | none => exact .pure
    | some proposal =>
      refine .when fun _ => .bind (.when fun _ => ?_) fun _ => .when fun _ => emit_returns _
      exact .bind (emit_returns _) fun _ => setHasProposal_returns (words_le (hown.proposal proposal hproposal))

theorem gossipData_returns (hown : O.Sound L C saved) : KeepsOk (gossipData C O) := by
  refine .get_bind fun prs hprs => ?_
  cases hparts : O.cs.proposalBlockParts with
  | none => exact gossipRest_returns hown hprs
  | some parts =>
    refine .ite (fun _ => gossipRest_returns hown hprs) fun _ => ?_
    obtain ⟨hagrees, hbits⟩ := PartSet.agreesOf_bitArray (hown.parts parts hparts)
    obtain ⟨diff, hdiff, hdagrees, hsame⟩ := hagrees.subOf hprs.proposalBlockParts.agreesOf
    obtain ⟨index, hindex, hlt⟩ := hdagrees.pickRandom (O.rand 0)
    refine .ofOption_bind hdiff (.ofOption_bind hindex ?_)
    cases index with
    | none => exact gossipRest_returns hown hprs
    | some index =>
      obtain ⟨c, hc, hcbits⟩ := hlt index rfl
      obtain ⟨b, hb, hbbits⟩ := hsame c hc
      have hslot : index < parts.val.parts.length := by
        have := hbits b hb
        omega
      exact .ofOption_bind (getElem?_eq_getElem hslot) (sendPart_returns prs _ _ index _)

theorem tellMaj23_returns (prs : PeerState) (round : Int) (type_ : UInt8) : KeepsOk (tellMaj23 O prs round type_) := by
  unfold tellMaj23
  cases O.cs.votes.majority round type_ with
  | none => exact .pure
  | some blockID => exact emit_returns _

theorem queryMaj23_returns (hown : O.Sound L C saved) : KeepsOk (queryMaj23 C O) := by
  refine .get_bind fun prs _ => .bind (.when fun _ => ?_) fun _ => .when fun hheight => ?_
  · refine .bind (tellMaj23_returns prs _ _) fun _ => .bind (tellMaj23_returns prs _ _) fun _ => ?_
    exact .when fun _ => tellMaj23_returns prs _ _
  · obtain ⟨commit, hcommit⟩ := hown.loadCommit hheight.2.1 hheight.2.2
    exact .ofOption_bind hcommit (.ofOption_bind rfl (emit_returns _))

theorem PeerInput.handler_returns {x : PeerInput} (hown : x.own.Sound L C saved) (h : ps.Ok)
    (hmsg : ∀ chID msg, x.event = .receive chID msg → Handled x.own chID msg → msg.Proper ∧
      CoversVotes L x.own ps msg) :
    Returns (x.handler L C) (fun _ => PeerState.Ok) ps := by
  unfold PeerInput.handler
  cases hevent : x.event with
  | addPeer => exact .pure h
  | receive chID msg => exact receive_returns hown h x.peerID (hmsg chID msg hevent)
  | gossipData => exact gossipData_returns hown ps h
  | gossipVotes => exact gossipVotes_returns hown ps h
  | queryMaj23 => exact queryMaj23_returns hown ps h

end

/-! ## Runs -/

def FairMsg (L : Platform) (O : Own) (chID : UInt8) (msg : PeerMsg) : Option PeerState → Prop
  | none => False
  | some ps => Handled O chID msg → msg.Proper ∧ CoversVotes L O ps msg

instance (L : Platform) (O : Own) (chID : UInt8) (msg : PeerMsg) (ps : Option PeerState) :
    Decidable (FairMsg L O chID msg ps) := by
  unfold FairMsg
  split <;> infer_instance

def FairEvent (L : Platform) (O : Own) (ps : Option PeerState) : PeerEvent → Prop
  | .receive chID msg => FairMsg L O chID msg ps
  | _ => True

instance (L : Platform) (O : Own) (ps : Option PeerState) (event : PeerEvent) : Decidable (FairEvent L O ps event) := by
  unfold FairEvent
  split <;> infer_instance

def PeerInput.Fair (L : Platform) (peers : Option Peers) (x : PeerInput) : Prop :=
  x.own.running = true → FairEvent L x.own (peers.bind fun peers => peers x.peerID) x.event

instance (L : Platform) (peers : Option Peers) (x : PeerInput) : Decidable (x.Fair L peers) :=
  inferInstanceAs (Decidable (_ → _))

/-- The reactor has not panicked, and the bit arrays of all peers have their words. -/
def PeersOk (peers : Option Peers) : Prop := ∃ p, peers = some p ∧ ∀ id ps, p id = some ps → ps.Ok

theorem peersOk_update {p : Peers} (hp : ∀ id ps, p id = some ps → ps.Ok) (id : Bytes) (h : ps.Ok) :
    PeersOk (some (Function.update p id (some ps))) := by
  refine ⟨_, rfl, fun id' ps' hps' => ?_⟩
  by_cases hid : id' = id
  · subst hid
    rw [Function.update_self] at hps'
    exact Option.some.inj hps' ▸ h
  · rw [Function.update_of_ne hid] at hps'
    exact hp id' ps' hps'

theorem reactorStep_ok {peers : Option Peers} {x : PeerInput} (h : PeersOk peers) (hfair : x.Fair L peers)
    (hown : ∃ saved, x.own.Sound L C saved) : PeersOk (reactorStep L C peers x) := by
  obtain ⟨p, rfl, hp⟩ := h
  obtain ⟨saved, hown⟩ := hown
  rw [reactorStep, bind_some]
  split_ifs with hrun
  · exact ⟨p, rfl, hp⟩
  have hrunning : x.own.running = true := by simpa using hrun
  cases hps : p x.peerID with
  | none =>
    cases hevent : x.event with
    | addPeer => exact peersOk_update hp x.peerID newPeerState_ok
    | receive chID msg =>
      have hno := hfair hrunning
      rw [hevent, bind_some, hps] at hno
      exact hno.elim
    | gossipData | gossipVotes | queryMaj23 => exact ⟨p, rfl, hp⟩
  | some ps =>
    have hret := PeerInput.handler_returns hown (hp x.peerID ps hps) fun chID msg hevent hhandled => by
      have hmsg := hfair hrunning
      rw [hevent, bind_some, hps] at hmsg
      exact hmsg hhandled
    obtain ⟨htrue, hok⟩ := hret.exec
    have hstep : PeersOk (if (exec (x.handler L C) ps).2 = true then
        some (Function.update p x.peerID (some (exec (x.handler L C) ps).1)) else none) := by
      rw [if_pos htrue]
      exact peersOk_update hp x.peerID hok
    cases hevent : x.event with
    | addPeer => exact peersOk_update hp x.peerID newPeerState_ok
    | receive chID msg | gossipData | gossipVotes | queryMaj23 => exact hstep

/-- Over all runs with fair messages; the node itself sees to its vote sets and its store. -/
theorem reactor_never_panics (L : Platform) (C : StoreCodec) (inputs : List PeerInput)
    (hown : ∀ x ∈ inputs, ∃ saved, x.own.Sound L C saved)
    (hfair : Along (reactorStep L C) (PeerInput.Fair L) (some fun _ => none) inputs) :
    ∀ pre, pre <+: inputs → (pre.foldl (reactorStep L C) (some fun _ => none)).isSome = true := by
  have hstart : PeersOk (some fun _ => none) := ⟨_, rfl, fun _ _ h => nomatch h⟩
  intro pre hpre
  obtain ⟨p, hp, -⟩ := always_of_along (fun s x hs hx => reactorStep_ok hs hx.1 hx.2) hstart
    (hfair.and_forall hown) pre hpre
  rw [hp]
  rfl

namespace Fork

def own : Own where
  cs := startState
  store := .empty
  running := true
  fastSync := false
  sent _ := true
  rand _ := ⟨0, fun _ => 0⟩

theorem own_sound : own.Sound .plain .plain [] where
  reachable := ⟨node 0, state, none, _, startState, [], (fun _ h => nomatch h), start_eq, rfl⟩
  stored := stored_empty
  height := by decide +kernel
  savedMemory _ h := nomatch h
  validators := by decide +kernel
  votes r t ht := by
    obtain ⟨votes, hvotes, hstart⟩ := map_eq_some_iff.1 start_eq
    have heq : own.cs.votes = votes := (congrArg ConsensusState.votes hstart).symm
    rw [heq]
    cases hvs : votes.getVoteSet r t with
    | none => decide +kernel
    | some vs =>
      have hnew := newVoteSet_of_newHeightVoteSet hvotes ht hvs
      unfold VoteSet.newVoteSet at hnew
      split_ifs at hnew
      cases hnew
      show (state.validators.size : Int) ≤ maxSliceLen
      decide +kernel
  lastCommit := by decide +kernel
  parts _ h := nomatch h
  proposal _ h := nomatch h

def peer (event : PeerEvent) : PeerInput := ⟨own, [5], event⟩

def hello : List PeerEvent := [
  .addPeer,
  .receive stateChannel (.newRoundStep 1 1 3 (-1)),
  .receive dataChannel (.proposal (some {
    height := 1, round := 1, timestamp := 0, blockPartsHeader := (parts 0 1000).header, polRound :=
      0, polBlockID := idA,
    signature := none }))]

def peerVote : Vote where
  validatorAddress := address 0
  validatorIndex := 0
  height := 1
  round := 1
  timestamp := 0
  type_ := voteTypePrevote
  blockID := idA
  signature := none

def meets (events : List PeerEvent) : Option Peers :=
  (events.map peer).foldl (reactorStep .plain .plain) (some fun _ => none)

/-- The peer reports the prevotes of the earlier round and votes, and is sent what it lacks. -/
def exchange : List PeerEvent := hello ++ [
  .receive dataChannel (.proposalPOL 1 0 (some ⟨4, [9]⟩)), .receive voteChannel (.vote (some peerVote)),
  .receive stateChannel (.hasVote 1 1 voteTypePrevote 3), .gossipData, .gossipVotes, .queryMaj23]

end Fork

open Fork

/-- A peer that reports a proposal and votes, and the routines that gossip to it. -/
theorem reactor_survives : (∃ saved, own.Sound .plain .plain saved) ∧
      Along (reactorStep .plain .plain) (PeerInput.Fair .plain) (some fun _ => none) (exchange.map peer) ∧
      (meets exchange).isSome = true := by
  have hown : ∃ saved, own.Sound .plain .plain saved := ⟨[], own_sound⟩
  have hfair : Along (reactorStep .plain .plain) (PeerInput.Fair .plain) (some fun _ => none) (exchange.map peer) := by
    decide +kernel
  refine ⟨hown, hfair, ?_⟩
  exact reactor_never_panics .plain .plain (exchange.map peer) (List.forall_mem_map.2 fun _ _ => hown) hfair _
    prefix_rfl

theorem reactor_panics : (∃ saved, own.Sound .plain .plain saved) ∧ meets [.receive stateChannel .unknown] = none ∧
      meets (hello ++ [.receive dataChannel (.blockPart 1 1 none)]) = none ∧
      meets (hello ++ [.receive voteChannel (.vote none)]) = none ∧
      meets (hello ++ [.receive voteChannel (.vote (some peerVote)),
        .receive stateChannel (.hasVote 1 1 voteTypePrevote (-64))]) = none ∧
      (meets (hello ++ [.receive dataChannel (.proposalPOL 1 0 (some ⟨4, []⟩))])).isSome = true ∧
      meets (hello ++ [.receive dataChannel (.proposalPOL 1 0 (some ⟨4, []⟩)), .gossipVotes]) = none := by
  refine ⟨⟨[], own_sound⟩, ?_, ?_, ?_, ?_, by decide +kernel, ?_⟩ <;> exact isNone_iff_eq_none.1 (by decide +kernel)

end Demars.Consensus
