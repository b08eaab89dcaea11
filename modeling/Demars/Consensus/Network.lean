import Demars.Consensus.Lock
import Demars.Lib.Agreement

/-!
# Agreement between nodes

The correct nodes of a chain, one event at one node at a time; the validators that no correct node stands for may
send anything. `Network.history` is the order in which the correct nodes have signed their votes.
-/

namespace Demars.Consensus

open Handler Locking List Option
open Machine (maxInt64)

/-- The correct nodes with their keys and the validators of each height: the rest has less than a third of the power,
and the double of the whole is an `int64`. -/
structure Setting (ι : Type) where
  platform : Platform
  node : ι → Node
  keyOf : ι → PubKey
  chainID : Bytes
  vals : Int → ValidatorSet
  byzantine : Int → Nat → Bool
  bounded : ∀ h, (vals h).Bounded
  fits : ∀ h, (vals h).sumPower * 2 ≤ maxInt64
  correct : ∀ h j, j < (vals h).size → byzantine h j = false →
    ∃ i val, (vals h).validators[j]? = some val ∧ val.pubKey = some (keyOf i)
  third : ∀ h, 3 * (vals h).powerOf (byzantine h) < (vals h).sumPower

structure Network (ι : Type) where
  nodes : ι → NodeState
  history : List (ι × SignedVote)

/-- A node, what it reads from elsewhere, and the event it reacts to. -/
abbrev Input (ι : Type) := ι × Outside × Event

namespace Network

variable {ι : Type} [DecidableEq ι]

def step (S : Setting ι) (net : Network ι) (x : Input ι) : Network ι :=
  let n := (net.nodes x.1).step S.platform (S.node x.1) x.2
  { nodes := Function.update net.nodes x.1 n
    history := net.history ++ (n.cs.signed.drop (net.nodes x.1).cs.signed.length).map (x.1, ·) }

def run (S : Setting ι) (net : Network ι) (inputs : List (Input ι)) : Network ι := inputs.foldl (step S) net

/-- A condition on the state before each event of a run. -/
def Along (S : Setting ι) (Q : Network ι → Input ι → Prop) : Network ι → List (Input ι) → Prop
  | _, [] => True
  | net, x :: inputs => Q net x ∧ Along S Q (net.step S x) inputs

omit [DecidableEq ι] in
/-- A signature of a correct node's key is one that the node has made. -/
def Unforged (S : Setting ι) (net : Network ι) (vote : Vote) : Prop :=
  ∀ i, (S.keyOf i).verifyBytes S.platform.prims (vote.signBytes S.platform.amino S.chainID) vote.signature = true →
    ∃ a ∈ net.history, a.1 = i ∧
      a.2.vote.signBytes S.platform.amino S.chainID = vote.signBytes S.platform.amino S.chainID

instance [Fintype ι] (S : Setting ι) (net : Network ι) (vote : Vote) : Decidable (Unforged S net vote) := by
  unfold Unforged
  infer_instance

instance decidableAlong (S : Setting ι) (Q : Network ι → Input ι → Prop) [∀ net x, Decidable (Q net x)] :
    ∀ net inputs, Decidable (Along S Q net inputs)
  | _, [] => .isTrue trivial
  | net, x :: inputs =>
    have := decidableAlong S Q (net.step S x) inputs
    inferInstanceAs (Decidable (Q net x ∧ Along S Q (net.step S x) inputs))

end Network

/-! ## Seats and votes -/

section

variable {ι : Type} (S : Setting ι)

/-- The seats of a height, in the sense of `Demars.Lib.Agreement`. -/
def Setting.committee (height : Int) : Committee Nat ι where
  base := Finset.range (S.vals height).size
  weight := (S.vals height).power
  owns j i := ∃ val, (S.vals height).validators[j]? = some val ∧ val.pubKey = some (S.keyOf i)
  faulty := (Finset.range (S.vals height).size).filter fun j => S.byzantine height j = true
  weight_nonneg j _ := ValidatorSet.power_nonneg (S.bounded height) j
  third := by
    have h := S.third height
    rw [Finset.inter_eq_right.2 (Finset.filter_subset _ _)]
    exact h
  correct j hj hnot := by
    have hsize := Finset.mem_range.1 hj
    have hbyz : S.byzantine height j = false := by simpa [hsize] using hnot
    exact S.correct height j hsize hbyz

/-- The history as votes of the voters. -/
def casts (history : List (ι × SignedVote)) : List (ι × Cast BlockID) := history.map fun a => (a.1, castOf a.2)

/-- Votes that are among those delivered, and not forged. -/
def Setting.Genuine (delivered : List Vote) (history : List (ι × SignedVote)) (vote : Vote) : Prop :=
  vote ∈ delivered ∧ ∀ i,
    (S.keyOf i).verifyBytes S.platform.prims (vote.signBytes S.platform.amino S.chainID) vote.signature = true →
      ∃ a ∈ history, a.1 = i ∧ a.2.vote.signBytes S.platform.amino S.chainID = vote.signBytes S.platform.amino S.chainID

/-- The votes of a node are those of the height, all admitted. -/
structure Setting.VotesOk (Φ : Vote → Prop) (h : Int) (votes : HeightVoteSet) : Prop where
  chainID : votes.chainID = S.chainID
  height : votes.height = h
  valSet : votes.valSet = S.vals h
  inv : votes.Inv S.platform.prims S.platform.amino
  holds : votes.Holds Φ

variable {S} {Φ Ψ : Vote → Prop} {height : Int} {votes : HeightVoteSet} {delivered : List Vote}
  {history history' : List (ι × SignedVote)}

theorem Setting.VotesOk.mono (h : S.VotesOk Φ height votes) (hΦ : ∀ vote, Φ vote → Ψ vote) :
    S.VotesOk Ψ height votes where
  chainID := h.chainID
  height := h.height
  valSet := h.valSet
  inv := h.inv
  holds r t vs ht hget := (h.holds r t vs ht hget).mono hΦ

theorem Setting.Genuine.mono {vote : Vote} (h : S.Genuine delivered history vote) (hsub : history ⊆ history') :
    S.Genuine delivered history' vote :=
  ⟨h.1, fun i hi => (h.2 i hi).imp fun _ ha => ⟨hsub ha.1, ha.2⟩⟩

theorem eq_of_signBytes {A : Amino} {chainID : Bytes} {v w : Vote} (h : v.signBytes A chainID = w.signBytes A chainID) :
    v.height = w.height ∧ v.round = w.round ∧ v.type_ = w.type_ ∧ v.blockID = w.blockID := by
  have hc := CanonicalJSON.vote.inj (A.marshalJSON_injective h)
  simp only [Vote.canonical, CanonicalJSONVote.mk.injEq] at hc
  exact ⟨hc.2.2.1, hc.2.2.2.1, hc.2.2.2.2.2, hc.2.1⟩

theorem Setting.VotesOk.sound (h : S.VotesOk Φ height votes) : votes.Sound S.platform.prims S.platform.amino Φ :=
  ⟨h.valSet ▸ S.bounded height, h.valSet ▸ S.fits height, h.inv, h.holds⟩

/-- A majority that a node has found is backed by the votes of correct nodes. -/
theorem Setting.VotesOk.backed (hkeys : OneBlockID S.platform.amino delivered)
    (h : S.VotesOk (S.Genuine delivered history) height votes) {round : Int} {type_ : UInt8}
    (ht : isVoteTypeValid type_ = true) {blockID : BlockID} (hm : votes.majority round type_ = some blockID) :
    Backed (S.committee height) (casts history) height (phaseOf type_) round blockID := by
  obtain ⟨vs, hget, htwo⟩ := h.sound.twoThirds (fun v w hv hw => hkeys v hv.1 w hw.1) ht hm
  have hok := h.inv round type_ vs ht hget
  have hholds := h.holds round type_ vs ht hget
  have hvals : vs.valSet = S.vals height := hok.valSet.trans h.valSet
  rw [hvals] at htwo
  refine ⟨(Finset.range (S.vals height).size).filter fun j => HeightVoteSet.votedFor S.platform.amino vs blockID j =
    true, ⟨Finset.filter_subset _ _, htwo⟩, fun j hj i ⟨val, hval, hkey⟩ => ?_⟩
  obtain ⟨v, hslot, hv⟩ := (any_eq_true _ _).1 (Finset.mem_filter.1 hj).2
  have hblock : v.blockID = blockID := of_decide_eq_true hv
  obtain ⟨hcounts, -, -⟩ := hok.inv.blockCounts _ j v hslot
  obtain ⟨val', key', hval', hkey', -, hverify⟩ := hcounts.signed
  rw [hvals, hval] at hval'
  cases hval'
  rw [hkey] at hkey'
  cases hkey'
  have hbytes := ((Vote.verify_eq_none _ _).1 hverify).2
  rw [hok.chainID, h.chainID] at hbytes
  obtain ⟨⟨i', e⟩, he, rfl, hsame⟩ := (hholds _ j v hslot).2 i hbytes
  obtain ⟨h₁, h₂, h₃, h₄⟩ := eq_of_signBytes hsame
  refine ⟨castOf e, List.mem_map_of_mem (f := fun a : ι × SignedVote => (a.1, castOf a.2)) he, ?_, ?_, ?_, ?_⟩
  · exact h₁.trans (hcounts.height.trans (hok.height.trans h.height))
  · exact congrArg phaseOf (h₃.trans (hcounts.type_.trans hok.type_))
  · exact h₂.trans (hcounts.round.trans hok.round)
  · exact h₄.trans hblock

/-! ## What one node adds -/

variable (S) in
def Setting.env (partsOf : Bytes → PartSetHeader) (Φ : Vote → Prop) : Env where
  vote := Φ
  proposal _ _ := True
  parts _ _ := True
  block header block :=
    Block.hash S.platform.prims S.platform.blocks (some block) = [] ∨
      header = partsOf (Block.hash S.platform.prims S.platform.blocks (some block))
  applied state _ _ state' :=
    state.chainID = S.chainID → state'.chainID = S.chainID ∧ state'.validators = S.vals (state'.lastBlockHeight + 1)

variable (S) in
/-- What a signed vote rests on. -/
structure Setting.SignedOk (partsOf : Bytes → PartSetHeader) (Φ : Vote → Prop) (e : SignedVote) : Prop where
  votes : S.VotesOk Φ e.vote.height e.votes
  parts : e.vote.type_ = voteTypePrevote → e.vote.blockID.hash ≠ [] →
    e.vote.blockID.partsHeader = partsOf e.vote.blockID.hash

variable (S) in
/-- What a call of `finalizeCommit` rests on. -/
structure Setting.FinalOk (Φ : Vote → Prop) (f : Finalized) : Prop where
  votes : S.VotesOk Φ f.height f.votes
  block : f.blockID.hash ≠ []
  quorum : ∃ round, f.votes.majority round voteTypePrecommit = some f.blockID

variable (S) in
/-- The invariant of a node while it handles an event. -/
structure Setting.LocalInv (partsOf : Bytes → PartSetHeader) (Φ : Vote → Prop) (old : List SignedVote)
    (cs : ConsensusState) : Prop where
  node : NodeInv S.platform (S.env partsOf Φ) cs
  chainID : cs.state.chainID = S.chainID
  votes : S.VotesOk Φ cs.height cs.votes
  signed : ∃ l, cs.signed = old ++ l ∧ ∀ e ∈ l, S.SignedOk partsOf Φ e
  finalized : ∀ f ∈ cs.finalized, S.FinalOk Φ f

section

variable {L : Platform} {E : Env} {cs cs' : ConsensusState} {partsOf : Bytes → PartSetHeader} {old : List SignedVote}

/-- A node prevotes a block with the parts that the block was decoded from. -/
theorem PrevoteFor.parts {Φ : Vote → Prop} {blockID : BlockID} (hp : Pointers (S.env partsOf Φ) cs)
    (hstep : cs.step.ord < RoundStep.prevote.ord) (h : PrevoteFor S.platform cs blockID) (hne : blockID.hash ≠ []) :
    blockID.partsHeader = partsOf blockID.hash := by
  have hwhole : ∀ (block : Ref Block) parts, Whole (S.env partsOf Φ) block parts →
      blockID = ⟨ConsensusState.blockHash S.platform block, ConsensusState.partsHeader parts⟩ →
      blockID.partsHeader = partsOf blockID.hash := by
    rintro block parts ⟨ps, rfl, -, hblock⟩ rfl
    exact hblock.resolve_left hne
  unfold PrevoteFor at h
  cases hl : cs.lockedBlock with
  | some locked =>
    rw [hl] at h
    exact hwhole locked _ (hp.locked locked hl) h
  | none =>
    rw [hl] at h
    rcases h with rfl | ⟨block, hb, hid⟩
    · exact absurd rfl hne
    · have hearly : cs.step.ord < RoundStep.precommit.ord := hstep.trans (by decide)
      exact hwhole block _ (hp.proposed hearly block hb) hid.1

namespace Setting.LocalInv

variable {Φ : Vote → Prop}

theorem sign (h : S.LocalInv partsOf Φ old cs) (hnode : NodeInv S.platform (S.env partsOf Φ) cs')
    (hheight : cs'.height = cs.height) (hstate : cs'.state = cs.state) (hvotes : cs'.votes = cs.votes)
    (hfinal : cs'.finalized = cs.finalized) {l : List SignedVote} (hsigned : cs'.signed = cs.signed ++ l)
    (hl : ∀ e ∈ l, S.SignedOk partsOf Φ e) : S.LocalInv partsOf Φ old cs' where
  node := hnode
  chainID := hstate ▸ h.chainID
  votes := by
    rw [hheight, hvotes]
    exact h.votes
  signed := by
    obtain ⟨l', hl', hall⟩ := h.signed
    refine ⟨l' ++ l, by rw [hsigned, hl', append_assoc], fun e he => ?_⟩
    rcases mem_append.1 he with he | he
    · exact hall e he
    · exact hl e he
  finalized := hfinal ▸ h.finalized

theorem same (h : S.LocalInv partsOf Φ old cs) (hnode : NodeInv S.platform (S.env partsOf Φ) cs')
    (hheight : cs'.height = cs.height) (hstate : cs'.state = cs.state) (hvotes : cs'.votes = cs.votes)
    (hfinal : cs'.finalized = cs.finalized) (hsigned : cs'.signed = cs.signed) : S.LocalInv partsOf Φ old cs' :=
  h.sign hnode hheight hstate hvotes hfinal (l := []) (by simpa using hsigned) fun _ he => nomatch he

theorem trans (h : S.LocalInv partsOf Φ old cs) (ht : Trans S.platform (S.env partsOf Φ) cs cs') :
    S.LocalInv partsOf Φ old cs' := by
  have hnode := ht.nodeInv h.node
  cases ht with
  | idle hi => cases hi <;> exact h.same hnode rfl rfl rfl rfl rfl
  | newRound =>
    refine h.same hnode ?_ ?_ ?_ ?_ ?_
    all_goals
      unfold ConsensusState.startRound
      split_ifs <;> rfl
  | enter | unlock | addPart => exact h.same hnode rfl rfl rfl rfl rfl
  | votes hv =>
    have hext := hv.extends
    have hvals := h.votes.valSet
    exact ⟨hnode, h.chainID, ⟨hext.chainID.trans h.votes.chainID, hext.height.trans h.votes.height,
      hext.valSet.trans hvals, hv.inv (hvals ▸ S.bounded _) (hvals ▸ S.fits _) h.votes.inv, hv.holds h.votes.holds⟩,
      h.signed, h.finalized⟩
  | prevote later choice hs =>
    obtain ⟨l, hl, hall⟩ := hs.signed_eq
    refine h.sign hnode hs.frame.height hs.frame.state hs.frame.votes hs.frame.finalized hl fun e he => ?_
    obtain ⟨hv, hh, -, hb⟩ := hall e he
    refine ⟨?_, fun _ hne => ?_⟩
    · rw [hv, hh]
      exact h.votes
    · rw [hb] at hne ⊢
      exact choice.parts h.node.pointers later hne
  | precommit _ hp =>
    obtain ⟨l, hl, hall⟩ := hp.signed_eq
    refine h.sign hnode hp.frame.height hp.frame.state hp.frame.votes hp.frame.finalized hl fun e he => ?_
    obtain ⟨hv, hh, ht⟩ := hall e he
    refine ⟨?_, fun htype => ?_⟩
    · rw [hv, hh]
      exact h.votes
    · rw [ht] at htype
      cases htype
  | commit _ ha =>
    refine h.same hnode ha.frame.height ha.frame.state ha.frame.votes ha.frame.finalized ?_
    cases ha with
    | none | locked => rfl
    | refetch _ hf => rcases hf with rfl | ⟨_, _, rfl⟩ <;> rfl
  | finalize quorum block =>
    refine ⟨hnode, h.chainID, h.votes, h.signed, fun f hf => ?_⟩
    rcases mem_append.1 hf with hf | hf
    · exact h.finalized f hf
    · cases mem_singleton.1 hf
      exact ⟨h.votes, block, cs.commitRound, quorum⟩
  | nextHeight later applied fresh =>
    obtain ⟨hchain, hvals⟩ := applied h.chainID
    obtain ⟨h₁, h₂, h₃, h₄, h₅⟩ := HeightVoteSet.newHeightVoteSet_spec fresh
    exact ⟨hnode, hchain, ⟨h₁.trans hchain, h₂, h₃.trans hvals, h₄, h₅ Φ⟩, h.signed, h.finalized⟩
  | propose _ _ hp => rcases hp with rfl | ⟨_, _, rfl⟩ <;> exact h.same hnode rfl rfl rfl rfl rfl
  | @completePart parts _ res block =>
    have hframe := frame_completePart parts.addr res.1 block cs
    refine h.same hnode hframe.height hframe.state hframe.votes hframe.finalized ?_
    unfold ConsensusState.setProposalBlock
    split <;> rfl

end Setting.LocalInv

end

/-! ## What a run keeps -/

theorem Setting.LocalInv.mono {Φ Ψ : Vote → Prop} {partsOf : Bytes → PartSetHeader} {old : List SignedVote}
    {cs : ConsensusState} (h : S.LocalInv partsOf Φ old cs) (hΦ : ∀ vote, Φ vote → Ψ vote) :
    S.LocalInv partsOf Ψ cs.signed cs where
  node := ⟨h.node.timely, h.node.pointers.of_block fun _ _ hb => hb, h.node.voter⟩
  chainID := h.chainID
  votes := h.votes.mono hΦ
  signed := ⟨[], by simp, fun _ he => nomatch he⟩
  finalized f hf := ⟨(h.finalized f hf).votes.mono hΦ, (h.finalized f hf).block, (h.finalized f hf).quorum⟩

variable (S) in
/-- The application gives the validators of the next height. -/
def Setting.Applies (O : Outside) : Prop :=
  ∀ state blockID block state', O.applyBlock state blockID block = some (some state') → state.chainID = S.chainID →
    state'.chainID = S.chainID ∧ state'.validators = S.vals (state'.lastBlockHeight + 1)

namespace Network

variable {net : Network ι} {partsOf : Bytes → PartSetHeader}

variable (S) in
/-- All nodes have just been started. -/
structure Initial (net : Network ι) : Prop where
  history : net.history = []
  nodes : ∀ i, ∃ state lastCommit pv cs, ConsensusState.newConsensusState state lastCommit pv = some cs ∧
    state.chainID = S.chainID ∧ state.validators = S.vals (state.lastBlockHeight + 1) ∧ net.nodes i = ⟨cs, true⟩

variable (S) in
def Authentic (net : Network ι) (x : Input ι) : Prop := ∀ vote ∈ x.2.2.votes, net.Unforged S vote

variable (S) in
def OneHeader (partsOf : Bytes → PartSetHeader) (net : Network ι) (x : Input ι) : Prop :=
  ∀ header block, decodes S.platform (net.nodes x.1).cs x.2.2 = some (header, block) →
    Block.hash S.platform.prims S.platform.blocks (some block) = [] ∨
      header = partsOf (Block.hash S.platform.prims S.platform.blocks (some block))

instance [Fintype ι] [DecidableEq ι] (x : Input ι) : Decidable (Authentic S net x) := by
  unfold Authentic
  infer_instance

instance (x : Input ι) : Decidable (OneHeader S partsOf net x) :=
  decidable_of_iff (∀ p ∈ decodes S.platform (net.nodes x.1).cs x.2.2,
    Block.hash S.platform.prims S.platform.blocks (some p.2) = [] ∨
      p.1 = partsOf (Block.hash S.platform.prims S.platform.blocks (some p.2)))
    ⟨fun h header block hd => h (header, block) hd, fun h p hp => h p.1 p.2 hp⟩

variable (S) in
/-- What each node rests on, and what each vote rests on when it is signed. -/
structure Inv [DecidableEq ι] (delivered : List Vote) (partsOf : Bytes → PartSetHeader) (net : Network ι) : Prop where
  nodes : ∀ i, S.LocalInv partsOf (S.Genuine delivered net.history) (net.nodes i).cs.signed (net.nodes i).cs
  signed : ∀ i, (net.nodes i).cs.signed = (net.history.filter fun a => a.1 = i).map Prod.snd
  history : ∀ pre a post, net.history = pre ++ a :: post → S.SignedOk partsOf (S.Genuine delivered pre) a.2

variable [DecidableEq ι]

theorem Initial.inv (h : Initial S net) : Inv S delivered partsOf net := by
  have hnew : ∀ i, S.LocalInv partsOf (S.Genuine delivered net.history) (net.nodes i).cs.signed (net.nodes i).cs ∧
      (net.nodes i).cs.signed = [] := by
    intro i
    obtain ⟨state, lastCommit, pv, cs, hcs, hchain, hvals, hnode⟩ := h.nodes i
    have hinv : NodeInv S.platform (S.env partsOf (S.Genuine delivered net.history)) cs := nodeInv_new hcs
    obtain ⟨votes, hvotes, rfl⟩ := map_eq_some_iff.1 hcs
    obtain ⟨h₁, h₂, h₃, h₄, h₅⟩ := HeightVoteSet.newHeightVoteSet_spec hvotes
    rw [hnode]
    exact ⟨⟨hinv, hchain, ⟨h₁.trans hchain, h₂, h₃.trans hvals, h₄, h₅ _⟩, ⟨[], rfl, fun _ he => nomatch he⟩,
      fun _ hf => nomatch hf⟩, rfl⟩
  refine ⟨fun i => (hnew i).1, fun i => ?_, fun pre a post hsplit => ?_⟩
  · rw [(hnew i).2, h.history]
    rfl
  · rw [h.history] at hsplit
    exact absurd hsplit (by simp)

theorem Inv.node_step (h : Inv S delivered partsOf net) {x : Input ι} (happ : S.Applies x.2.1)
    (hauth : Authentic S net x) (hdel : ∀ vote ∈ x.2.2.votes, vote ∈ delivered) (hparts : OneHeader S partsOf net x) :
    S.LocalInv partsOf (S.Genuine delivered net.history) (net.nodes x.1).cs.signed
      ((net.nodes x.1).step S.platform (S.node x.1) x.2).cs := by
  have hlocal := h.nodes x.1
  refine chain_inv (I := S.LocalInv partsOf (S.Genuine delivered net.history) (net.nodes x.1).cs.signed)
    (fun _ _ ht hi => hi.trans ht) (NodeState.step_chain hlocal.node.timely ?_ ⟨fun vote hv => ?_, fun _ _ => trivial,
      fun _ _ => trivial, hparts⟩) hlocal
  · exact happ
  · exact ⟨hdel vote hv, hauth vote hv⟩

theorem Inv.step (h : Inv S delivered partsOf net) {x : Input ι} (happ : S.Applies x.2.1)
    (hauth : Authentic S net x) (hdel : ∀ vote ∈ x.2.2.votes, vote ∈ delivered) (hparts : OneHeader S partsOf net x) :
    Inv S delivered partsOf (net.step S x) := by
  have hnode := h.node_step happ hauth hdel hparts
  obtain ⟨l, hl, hall⟩ := hnode.signed
  have hnew : (net.step S x).history = net.history ++ l.map (x.1, ·) := by
    simp only [Network.step, hl, drop_left]
  have hsub : net.history ⊆ (net.step S x).history := by
    exact subset_append_left _ _
  refine ⟨fun i => ?_, fun i => ?_, fun pre a post hsplit => ?_⟩
  · by_cases hi : i = x.1
    · subst hi
      simp only [Network.step, Function.update_self]
      exact hnode.mono fun _ hg => hg.mono hsub
    · simp only [Network.step, Function.update_of_ne hi]
      exact (h.nodes i).mono fun _ hg => hg.mono hsub
  · rw [hnew, filter_append, map_append, ← h.signed i]
    by_cases hi : i = x.1
    · subst hi
      have hself : (l.map (x.1, ·)).filter (fun a => decide (a.1 = x.1)) = l.map (x.1, ·) :=
        filter_eq_self.2 fun a ha => by
          obtain ⟨e, _, rfl⟩ := List.mem_map.1 ha
          simp
      rw [hself]
      simp [Network.step, hl]
    · have hnone : (l.map (x.1, ·)).filter (fun a => decide (a.1 = i)) = [] :=
        filter_eq_nil_iff.2 fun a ha => by
          obtain ⟨e, _, rfl⟩ := List.mem_map.1 ha
          simpa using Ne.symm hi
      rw [hnone]
      simp [Network.step, Function.update_of_ne hi]
  · rw [hnew] at hsplit
    rcases append_eq_append_iff.1 hsplit with ⟨mid, rfl, hmid⟩ | ⟨mid, hmid, hrest⟩
    · have hmem : a ∈ l.map (x.1, ·) := by
        rw [hmid]
        simp
      obtain ⟨e, he, rfl⟩ := List.mem_map.1 hmem
      have hok := hall e he
      exact ⟨hok.votes.mono fun _ hg => hg.mono (subset_append_left _ _), hok.parts⟩
    · cases mid with
      | nil =>
        have hmem : a ∈ l.map (x.1, ·) := by
          rw [nil_append] at hrest
          rw [← hrest]
          exact mem_cons_self
        obtain ⟨e, he, rfl⟩ := List.mem_map.1 hmem
        have hok := hall e he
        rw [append_nil] at hmid
        exact hmid ▸ hok
      | cons b mid =>
        obtain ⟨rfl, -⟩ := List.cons.inj hrest
        exact h.history pre a mid hmid

theorem Inv.run (inputs : List (Input ι)) : ∀ {net : Network ι}, Inv S delivered partsOf net →
    (∀ x ∈ inputs, S.Applies x.2.1) → Along S (Authentic S) net inputs →
    (∀ vote ∈ inputs.flatMap fun x => x.2.2.votes, vote ∈ delivered) →
    Along S (OneHeader S partsOf) net inputs → Inv S delivered partsOf (net.run S inputs) := by
  induction inputs with
  | nil => exact fun h _ _ _ _ => h
  | cons x inputs ih =>
    intro net h happ hauth hdel hparts
    have hhead : ∀ vote ∈ x.2.2.votes, vote ∈ delivered := fun vote hv => hdel vote (by simp [hv])
    obtain ⟨happ₁, happ₂⟩ := forall_mem_cons.1 happ
    refine ih (h.step happ₁ hauth.1 hhead hparts.1) happ₂ hauth.2 (fun vote hv => hdel vote ?_) hparts.2
    exact mem_append_right _ hv

/-- A property of each voter's votes in their order is one of the history. -/
theorem pairwise_of_voters {R : SignedVote → SignedVote → Prop} {history : List (ι × SignedVote)}
    (h : ∀ i, ((history.filter fun a => a.1 = i).map Prod.snd).Pairwise R) :
    history.Pairwise fun a b => a.1 = b.1 → R a.2 b.2 := by
  induction history with
  | nil => exact .nil
  | cons a history ih =>
    refine pairwise_cons.2 ⟨fun b hb hab => ?_, ih fun i => ?_⟩
    · have ha := h a.1
      rw [filter_cons_of_pos (by simp), map_cons, pairwise_cons] at ha
      exact ha.1 b.2 (List.mem_map_of_mem (mem_filter.2 ⟨hb, by simp [hab]⟩))
    · exact (h i).sublist (((sublist_cons_self a history).filter _).map _)

theorem Inv.locking (h : Inv S delivered partsOf net) (hkeys : OneBlockID S.platform.amino delivered) (height : Int) :
    Locking.History (S.committee height) BlockID.hash BlockID.empty height (casts net.history) where
  ordered := pairwise_map.2 <| pairwise_of_voters (R := fun e f => (castOf e).Before (castOf f)) fun i =>
    h.signed i ▸ pairwise_map.1 (h.nodes i).node.voter.ordered
  justified a ha := by
    obtain ⟨⟨i, e⟩, he, rfl⟩ := List.mem_map.1 ha
    have hmem : e ∈ (net.nodes i).cs.signed := by
      rw [h.signed i]
      exact List.mem_map.2 ⟨(i, e), mem_filter.2 ⟨he, by simp⟩, rfl⟩
    exact (h.nodes i).node.voter.justified _ (List.mem_map_of_mem hmem)
  respects := pairwise_map.2 <|
    pairwise_of_voters (R := fun e f => Voter.Respects BlockID.hash BlockID.empty (castOf e) (castOf f)) fun i =>
      h.signed i ▸ pairwise_map.1 (h.nodes i).node.voter.respects
  backed pre a post hsplit hheight r x hpolka := by
    obtain ⟨pre', rest, hhist, rfl, hrest⟩ := map_eq_append_iff.1 hsplit
    obtain ⟨⟨i, e⟩, post', rfl, rfl, -⟩ := map_eq_cons_iff.1 hrest
    have hok := (h.history pre' (i, e) post' hhist).votes
    have heq : e.vote.height = height := hheight
    rw [heq] at hok
    exact hok.backed hkeys (by decide) hpolka

variable {f : Finalized}

section

variable (h : Inv S delivered partsOf net) (hkeys : OneBlockID S.platform.amino delivered)
include h hkeys

theorem Inv.final_backed {i : ι} (hf : f ∈ (net.nodes i).cs.finalized) :
    f.blockID.hash ≠ [] ∧ ∃ round, Backed (S.committee f.height) (casts net.history) f.height .precommit round
      f.blockID := by
  have hok := (h.nodes i).finalized f hf
  obtain ⟨round, hmaj⟩ := hok.quorum
  exact ⟨hok.block, round, hok.votes.backed hkeys (by decide) hmaj⟩

theorem Inv.final_prevoted {i : ι} (hf : f ∈ (net.nodes i).cs.finalized) :
    ∃ a ∈ net.history, a.2.vote.type_ = voteTypePrevote ∧ a.2.vote.height = f.height ∧
      a.2.vote.blockID = f.blockID := by
  obtain ⟨hne, round, hback⟩ := h.final_backed hkeys hf
  obtain ⟨k, e, he, hheight, hphase, -, hval⟩ := (h.locking hkeys f.height).exists_prevote hne hback
  obtain ⟨⟨k', e'⟩, he', heq⟩ := List.mem_map.1 he
  obtain ⟨rfl, rfl⟩ := Prod.mk.inj heq
  refine ⟨(k', e'), he', ?_, hheight, hval⟩
  by_contra htype
  simp [castOf, phaseOf, htype] at hphase

theorem Inv.final_parts {i : ι} (hf : f ∈ (net.nodes i).cs.finalized) :
    f.blockID.partsHeader = partsOf f.blockID.hash := by
  obtain ⟨a, ha, htype, -, hval⟩ := h.final_prevoted hkeys hf
  obtain ⟨pre, post, hsplit⟩ := append_of_mem ha
  rw [← hval]
  refine (h.history pre _ post hsplit).parts htype ?_
  rw [hval]
  exact (h.final_backed hkeys hf).1

end

end Network

/-- No two calls of `finalizeCommit` at one height are with different block IDs. -/
def Network.Agrees (net : Network ι) : Prop :=
  ∀ i j, ∀ f ∈ (net.nodes i).cs.finalized, ∀ g ∈ (net.nodes j).cs.finalized, f.height = g.height → f.blockID = g.blockID

instance [Fintype ι] (net : Network ι) : Decidable net.Agrees := by
  unfold Network.Agrees
  infer_instance

/-- Blocks that are finalized at one height have the same hash, and so the same parts. -/
theorem Network.Inv.agrees [DecidableEq ι] {S : Setting ι} {net : Network ι} {partsOf : Bytes → PartSetHeader}
    (h : net.Inv S delivered partsOf) (hkeys : OneBlockID S.platform.amino delivered) : net.Agrees := by
  intro i j f hf g hg hheight
  obtain ⟨hnf, r, hbf⟩ := h.final_backed hkeys hf
  obtain ⟨hng, r', hbg⟩ := h.final_backed hkeys hg
  rw [← hheight] at hbg
  have hhash : f.blockID.hash = g.blockID.hash := (h.locking hkeys f.height).agree hnf hng hbf hbg
  have hpart : f.blockID.partsHeader = g.blockID.partsHeader := by
    rw [h.final_parts hkeys hf, h.final_parts hkeys hg, hhash]
  cases hfb : f.blockID
  simp_all

/-- No two correct nodes finalize different block IDs at a height, where votes with one `BlockID.Key` have one block
ID and blocks with one hash come from part sets with one header. -/
theorem agreement [DecidableEq ι] (S : Setting ι) {net : Network ι} (hinit : net.Initial S) (inputs : List (Input ι))
    (happ : ∀ x ∈ inputs, S.Applies x.2.1) (hauth : Network.Along S (Network.Authentic S) net inputs)
    (hkeys : OneBlockID S.platform.amino (inputs.flatMap fun x => x.2.2.votes)) {partsOf : Bytes → PartSetHeader}
    (hparts : Network.Along S (Network.OneHeader S partsOf) net inputs) : (net.run S inputs).Agrees := by
  have hinv : (net.run S inputs).Inv S (inputs.flatMap fun x => x.2.2.votes) partsOf :=
    Network.Inv.run inputs hinit.inv happ hauth (fun _ hv => hv) hparts
  exact hinv.agrees hkeys

end

/-! ## Runs of three nodes -/

namespace Fork

def setting : Setting (Fin 3) where
  platform := .plain
  node i := node i
  keyOf i := .ed25519 (key i)
  chainID := [7]
  vals _ := vals
  byzantine _ j := j == 3
  bounded _ := ⟨by decide, by decide⟩
  fits _ := by decide
  correct _ j hj hb := by
    have hsize : j < 4 := hj
    have hne : j ≠ 3 := by simpa using hb
    have hlt : j < 3 := by omega
    refine ⟨⟨j, hlt⟩, validator j, ?_, rfl⟩
    interval_cases j <;> rfl
  third _ := by decide

def net : Network (Fin 3) := ⟨fun _ => ⟨startState, true⟩, []⟩

def inputs (events : List (Fin 3 × Event)) : List (Input (Fin 3)) := events.map fun x => (x.1, outside, x.2)

theorem net_initial : net.Initial setting :=
  ⟨rfl, fun _ => ⟨state, none, some ⟨0, 0, 0, none, none⟩, startState, start_eq, rfl, rfl, rfl⟩⟩

theorem applies_inputs (events : List (Fin 3 × Event)) : ∀ x ∈ inputs events, setting.Applies x.2.1 := by
  intro x hx
  obtain ⟨y, _, rfl⟩ := List.mem_map.1 hx
  intro state blockID block state' happ hchain
  cases happ
  exact ⟨hchain, rfl⟩

/-- Nodes 0 and 1 finalize the block that all have prevoted. -/
def together : List (Fin 3 × Event) :=
  at_ 0 (timeout 0 .newHeight :: propose 0 (parts 0 1000)) ++
  at_ 1 (timeout 0 .newHeight :: propose 0 (parts 0 1000)) ++
  at_ 2 (timeout 0 .newHeight :: propose 0 (parts 0 1000)) ++
  at_ 0 [prevote 0 idA 0, prevote 0 idA 1, prevote 0 idA 2] ++
  at_ 1 [prevote 0 idA 0, prevote 0 idA 1, prevote 0 idA 3] ++
  at_ 0 [precommit 0 idA 0, precommit 0 idA 1, precommit 0 idA 3] ++
  at_ 1 [precommit 0 idA 0, precommit 0 idA 1, precommit 0 idA 3]

theorem run_together : Network.Along setting (Network.Authentic setting) net (inputs together) ∧
    OneBlockID setting.platform.amino ((inputs together).flatMap fun x => x.2.2.votes) ∧
    Network.Along setting (Network.OneHeader setting fun _ => idA.partsHeader) net (inputs together) ∧
    ∀ i : Fin 3, i < 2 →
      ((net.run setting (inputs together)).nodes i).cs.finalized.map (fun f => (f.height, f.blockID)) =
      [(1, idA)] := by
  decide +kernel

/-- The block with its parts in another size; the hash is the same. -/
def idHalves : BlockID := blockID 0 100

/-- Node 1 has the block in halves when it locks on the whole one, and prevotes the halves in round 1. -/
def byParts : List (Fin 3 × Event) :=
  at_ 0 (timeout 0 .newHeight :: propose 0 (parts 0 1000)) ++
  at_ 1 (timeout 0 .newHeight :: propose 0 (parts 0 100)) ++
  at_ 2 (timeout 0 .newHeight :: propose 0 (parts 0 1000)) ++
  at_ 0 [prevote 0 idA 0, prevote 0 idA 2, prevote 0 idA 3] ++
  at_ 1 [prevote 0 idA 0, prevote 0 idA 2, prevote 0 idA 3] ++
  at_ 2 [prevote 0 idA 2, prevote 0 idHalves 1, prevote 0 .empty 3, timeout 0 .prevoteWait] ++
  -- node 0 finalizes the whole block
  at_ 0 [precommit 0 idA 0, precommit 0 idA 1, precommit 0 idA 3] ++
  at_ 1 [precommit 0 idA 1, precommit 0 .empty 2, precommit 0 .empty 3, timeout 0 .precommitWait] ++
  at_ 2 [precommit 0 idA 1, precommit 0 .empty 2, precommit 0 .empty 3, timeout 0 .precommitWait] ++
  at_ 1 [timeout 1 .propose] ++ at_ 2 (propose 1 (parts 0 100)) ++
  at_ 1 [prevote 1 idHalves 1, prevote 1 idHalves 2, prevote 1 idHalves 3] ++
  at_ 2 [prevote 1 idHalves 1, prevote 1 idHalves 2, prevote 1 idHalves 3] ++
  at_ 1 [precommit 1 idHalves 1, precommit 1 idHalves 2, precommit 1 idHalves 3]

end Fork

open Fork

/-- Two nodes finalize the same block. -/
theorem agreement_together : net.Initial setting ∧
      (∀ i : Fin 3, i < 2 → ((net.run setting (inputs together)).nodes i).cs.finalized.map
        (fun f => (f.height, f.blockID)) = [(1, idA)]) ∧
      (net.run setting (inputs together)).Agrees := by
  obtain ⟨hauth, hkeys, hparts, hfinal⟩ := run_together
  exact ⟨net_initial, hfinal, agreement setting net_initial (inputs together)
    (applies_inputs _) hauth hkeys hparts⟩

theorem fork_by_key :
    net.Initial setting ∧ (∀ x ∈ inputs byKey, setting.Applies x.2.1) ∧
      Network.Along setting (Network.Authentic setting) net (inputs byKey) ∧
      Network.Along setting (Network.OneHeader setting fun hash =>
        if hash = idA.hash then idA.partsHeader else idB.partsHeader) net (inputs byKey) ∧
      ¬ (net.run setting (inputs byKey)).Agrees :=
  ⟨net_initial, applies_inputs _, by decide +kernel⟩

theorem fork_by_parts : net.Initial setting ∧ (∀ x ∈ inputs byParts, setting.Applies x.2.1) ∧
      Network.Along setting (Network.Authentic setting) net (inputs byParts) ∧
      OneBlockID setting.platform.amino ((inputs byParts).flatMap fun x => x.2.2.votes) ∧
      ¬ (net.run setting (inputs byParts)).Agrees :=
  ⟨net_initial, applies_inputs _, by decide +kernel⟩

end Demars.Consensus
