import Demars.Consensus.Lock
import Demars.Lib.Runs

/-!
# Who has signed the proposal

`defaultSetProposal` takes any proposal for the round that has the right form: the lines that would check its
signature are commented out.
-/

namespace Demars.Consensus

open Handler Runs
open ConsensusState (startRound newProposalParts)

/-- The check that is commented out. -/
def signedByProposer (L : Platform) (cs : ConsensusState) (proposal : Proposal) : Bool :=
  cs.validators.getProposer.any fun proposer => proposer.pubKey.any fun key =>
    key.verifyBytes L.prims (proposal.signBytes L.amino cs.state.chainID) proposal.signature

def ProposalSigned (L : Platform) (cs : ConsensusState) : Prop :=
  ∀ proposal, cs.proposal = some proposal → signedByProposer L cs proposal = true

/-- The checks of `defaultSetProposal`. -/
def Accepts (cs : ConsensusState) (proposal : Proposal) : Prop :=
  cs.proposal = none ∧ (proposal.height = cs.height ∧ proposal.round = cs.round) ∧ cs.step.ord < RoundStep.commit.ord ∧
    (proposal.polRound = -1 ∨ 0 ≤ proposal.polRound ∧ proposal.polRound < proposal.round)

instance (cs : ConsensusState) (proposal : Proposal) : Decidable (Accepts cs proposal) := by
  unfold Accepts
  infer_instance

def AcceptsSigned (L : Platform) (n : NodeState) (input : Outside × Event) : Prop :=
  n.running = true → ∀ proposal ∈ input.2.proposals, Accepts n.cs proposal → signedByProposer L n.cs proposal = true

instance (L : Platform) (n : NodeState) (input : Outside × Event) : Decidable (AcceptsSigned L n input) := by
  unfold AcceptsSigned
  infer_instance

variable {L : Platform} {N : Node} {O : Outside} {cs cs' : ConsensusState}

/-! ## What keeps a proposal -/

/-- The fields that the signature is checked with. -/
structure SameProposal (cs cs' : ConsensusState) : Prop where
  proposal : cs'.proposal = cs.proposal
  validators : cs'.validators = cs.validators
  state : cs'.state = cs.state

theorem ProposalSigned.of_same (h : ProposalSigned L cs) (hs : SameProposal cs cs') : ProposalSigned L cs' := by
  intro proposal hproposal
  rw [hs.proposal] at hproposal
  rw [signedByProposer, hs.validators, hs.state]
  exact h proposal hproposal

theorem ProposalSigned.of_none (h : cs'.proposal = none) : ProposalSigned L cs' := fun proposal hproposal => by
  rw [h] at hproposal
  cases hproposal

theorem Signed.sameProposal {type_ : UInt8} {blockID : BlockID} (h : Signed type_ blockID cs cs') :
    SameProposal cs cs' := by
  obtain ⟨_, _, _, rfl, _⟩ := h
  exact ⟨rfl, rfl, rfl⟩

theorem Precommits.sameProposal (h : Precommits L cs cs') : SameProposal cs cs' := by
  cases h with
  | nil hs => exact hs.sameProposal
  | release _ _ hun hs =>
    obtain ⟨h₁, h₂, h₃⟩ := hs.sameProposal
    rcases hun with rfl | rfl | ⟨_, _, rfl⟩ <;> exact ⟨h₁, h₂, h₃⟩
  | relock _ _ hs | lock _ _ hs => exact ⟨hs.sameProposal.1, hs.sameProposal.2, hs.sameProposal.3⟩

theorem Adopts.sameProposal (h : Adopts cs cs') : SameProposal cs cs' := by
  cases h with
  | none | locked => exact ⟨rfl, rfl, rfl⟩
  | refetch _ hf => rcases hf with rfl | ⟨_, _, rfl⟩ <;> exact ⟨rfl, rfl, rfl⟩

/-- The proposers of round 0 are those of the height. -/
theorem ProposalSigned.startRound {round : Int} {validators : ValidatorSet} (h : ProposalSigned L cs)
    (hr : 0 ≤ cs.round) (hturn : roundValidators cs round = some validators) :
    ProposalSigned L (startRound round validators cs) := by
  unfold ConsensusState.startRound
  split_ifs with hne
  · exact .of_none rfl
  · have hnot : ¬ cs.round < round := by omega
    rw [roundValidators, if_neg hnot] at hturn
    exact h.of_same ⟨rfl, (Option.some.inj hturn).symm, rfl⟩

def signedProposals (L : Platform) : Env :=
  { Env.any with proposal := fun cs proposal => Accepts cs proposal → signedByProposer L cs proposal = true }

theorem Trans.proposalSigned (ht : Trans L (signedProposals L) cs cs') (hr : 0 ≤ cs.round) (h : ProposalSigned L cs) :
    ProposalSigned L cs' := by
  cases ht with
  | idle hi => cases hi <;> exact h.of_same ⟨rfl, rfl, rfl⟩
  | newRound _ turn => exact h.startRound hr turn
  | enter | votes | unlock | finalize | addPart => exact h.of_same ⟨rfl, rfl, rfl⟩
  | prevote _ _ hs =>
    obtain ⟨h₁, h₂, h₃⟩ := hs.sameProposal
    exact h.of_same ⟨h₁, h₂, h₃⟩
  | precommit _ hp =>
    obtain ⟨h₁, h₂, h₃⟩ := hp.sameProposal
    exact h.of_same ⟨h₁, h₂, h₃⟩
  | commit _ ha =>
    obtain ⟨h₁, h₂, h₃⟩ := ha.sameProposal
    exact h.of_same ⟨h₁, h₂, h₃⟩
  | nextHeight => exact .of_none rfl
  | @propose proposal _ none early hp due pol known =>
    have hnew : ProposalSigned L { cs with proposal := some proposal } := fun p heq => by
      cases heq
      exact known ⟨none, due, early, pol⟩
    rcases hp with rfl | ⟨_, _, rfl⟩
    · exact hnew
    · exact hnew.of_same ⟨rfl, rfl, rfl⟩
  | completePart =>
    unfold ConsensusState.setProposalBlock
    split <;> exact h.of_same ⟨rfl, rfl, rfl⟩

/-! ## Runs -/

/-- The state after a proposal was accepted; a negative total of parts panics on the way. -/
def withProposal (proposal : Proposal) (cs : ConsensusState) : ConsensusState :=
  match PartSet.newPartSetFromHeader proposal.blockPartsHeader with
  | none => { cs with proposal := some proposal }
  | some parts => newProposalParts parts { cs with proposal := some proposal }

theorem setProposal_spec {proposal : Proposal} (h : Accepts cs proposal) :
    (exec (setProposal proposal) cs).1 = withProposal proposal cs := by
  obtain ⟨hnone, hdue, hearly, hpol⟩ := h
  have hwp : wp (setProposal proposal) (fun _ s => s = withProposal proposal cs)
    (fun s => s = withProposal proposal cs) cs := by
    unfold setProposal withProposal
    simp only [wp_bind, wp_get]
    rw [if_neg (by simp [hnone]), if_neg (by omega), if_neg (by omega), if_neg (by omega)]
    simp only [wp_bind, wp_modify]
    rw [wp_ofOption]
    refine ⟨fun hparts => ?_, fun parts hparts => ?_⟩
    · rw [hparts]
    · rw [hparts]
      rfl
  obtain ⟨hok, hpanic⟩ := exec_of_wp hwp
  cases hb : (exec (setProposal proposal) cs).2 with
  | true => exact hok hb
  | false => exact hpanic hb

theorem NodeState.step_proposal {n : NodeState} {proposal : Proposal} {peerID : Bytes} (hrun : n.running = true)
    (h : Accepts n.cs proposal) :
    (n.step L N (O, .msg (.proposal (some proposal)) peerID)).cs = withProposal proposal n.cs := by
  rw [← setProposal_spec h, NodeState.step, if_pos hrun]
  show (exec (if n.cs.proposal.isSome = true then pure () else setProposal proposal) n.cs).1 = _
  rw [if_neg (by simp [h.1])]

theorem NodeState.step_proposalSigned {n : NodeState} (hn : NodeInv L Env.any n.cs) (h : ProposalSigned L n.cs)
    (input : Outside × Event) : ProposalSigned L (n.step L N input).cs ↔ AcceptsSigned L n input := by
  obtain ⟨O, event⟩ := input
  constructor
  · intro hsigned hrun proposal hmem hacc
    match event, hmem with
    | .msg (.proposal (some p)) peerID, hmem =>
      rw [List.mem_singleton.1 hmem] at hacc ⊢
      rw [NodeState.step_proposal hrun hacc, withProposal] at hsigned
      cases hparts : PartSet.newPartSetFromHeader p.blockPartsHeader with
      | none | some parts =>
        rw [hparts] at hsigned
        exact hsigned p rfl
  · intro hacc
    cases hrun : n.running with
    | false =>
      unfold NodeState.step
      rw [if_neg (by simp [hrun])]
      exact h
    | true =>
      have hadmits : (signedProposals L).Admits L n.cs event :=
        ⟨fun _ _ => trivial, fun p hp => hacc hrun p hp, fun _ _ => trivial, fun _ _ _ => trivial⟩
      have hchain : Relation.ReflTransGen (Trans L (signedProposals L)) n.cs (n.step L N (O, event)).cs :=
        NodeState.step_chain hn.timely (fun _ _ _ _ _ => trivial) hadmits
      exact (chain_inv (I := fun s => 0 ≤ s.round ∧ ProposalSigned L s)
        (fun s s' ht hs => ⟨ht.round_nonneg hs.1, ht.proposalSigned hs.1 hs.2⟩) hchain ⟨hn.timely.1, h⟩).2

/-- In a run the proposal of a node always has a signature of the proposer exactly where each one that it accepts has
it. -/
theorem proposals_signed_iff (L : Platform) (N : Node) {state : ChainState} {lastCommit : Option VoteSet}
    {pv : Option FilePV} {cs : ConsensusState} (h : ConsensusState.newConsensusState state lastCommit pv = some cs)
    (inputs : List (Outside × Event)) :
    (∀ pre, pre <+: inputs → ProposalSigned L (NodeState.run L N ⟨cs, true⟩ pre).cs) ↔
      Along (NodeState.step L N) (AcceptsSigned L) ⟨cs, true⟩ inputs := by
  refine always_iff_along (I := fun n : NodeState => NodeInv L Env.any n.cs) (P := fun n => ProposalSigned L n.cs)
    (fun n x hn _ => ?_)
    (fun n x hn hs => NodeState.step_proposalSigned hn hs x) (nodeInv_new h) ?_ inputs
  · exact NodeState.step_inv hn (fun _ _ _ _ _ => trivial) (Env.any_admits x.2)
  · obtain ⟨votes, _, rfl⟩ := Option.map_eq_some_iff.1 h
    exact .of_none rfl

/-! ## A proposal of somebody else -/

namespace Fork

def proposalOf (n : Nat) (parts : PartSet) : Proposal :=
  let proposal : Proposal := ⟨1, 0, 0, parts.header, -1, .empty, none⟩
  { proposal with signature := some (.ed25519 (key n ++ proposal.signBytes .plain [7])) }

def proposals (ns : List Nat) : List (Outside × Event) :=
  (timeout 0 .newHeight :: ns.map fun n => .msg (.proposal (some (proposalOf n (parts n 1000)))) []).map (outside, ·)

end Fork

open Fork

/-- The proposer of round 0 is validator 3. -/
theorem proposals_signed_three :
    ConsensusState.newConsensusState state none (some ⟨0, 0, 0, none, none⟩) = some startState ∧
      (NodeState.run .plain (node 0) ⟨startState, true⟩ (proposals [3])).cs.proposal =
        some (proposalOf 3 (parts 3 1000)) ∧
      ProposalSigned .plain (NodeState.run .plain (node 0) ⟨startState, true⟩ (proposals [3])).cs :=
  ⟨start_eq, by decide +kernel, (proposals_signed_iff .plain (node 0) start_eq (proposals [3])).2
    (by decide +kernel) (proposals [3]) (List.prefix_refl _)⟩

/-- The proposal of another validator is accepted, and that of the proposer then ignored. -/
theorem foreign_proposal_accepted :
    (NodeState.run .plain (node 0) ⟨startState, true⟩ (proposals [2, 3])).cs.proposal =
        some (proposalOf 2 (parts 2 1000)) ∧
      signedByProposer .plain (NodeState.run .plain (node 0) ⟨startState, true⟩ (proposals [2, 3])).cs
        (proposalOf 2 (parts 2 1000)) = false ∧
      signedByProposer .plain (NodeState.run .plain (node 0) ⟨startState, true⟩ (proposals [2, 3])).cs
        (proposalOf 3 (parts 3 1000)) = true := by
  decide +kernel

end Demars.Consensus
