import Demars.Consensus.Lock
import Demars.Types.Rotation

/-!
# Rounds

A node tracks one round more than the one it is in (`Paced`). `enterNewRound` turns the validators by as many
rounds as it skips, and nodes come to a round on different ways.
-/

namespace Demars

open List Option

namespace Consensus

open ConsensusState (startRound)

/-! ## The votes of the rounds -/

/-- The tracked round is at most one ahead. -/
structure Paced (cs : ConsensusState) : Prop where
  tracked : cs.votes.Tracked
  nonneg : 0 ≤ cs.round
  ahead : cs.votes.round ≤ cs.round + 1
  start : cs.step = .newHeight → cs.votes.round ≤ cs.round

theorem paced_of_fresh {cs : ConsensusState} {chainID : Bytes} {height : Int} {valSet : ValidatorSet}
    (h : HeightVoteSet.newHeightVoteSet chainID height valSet = some cs.votes) (hround : cs.round = 0) : Paced cs := by
  obtain ⟨htracked, hzero⟩ := HeightVoteSet.tracked_new h
  exact ⟨htracked, hround.ge, by omega, fun _ => by omega⟩

theorem Trans.paced {L : Platform} {E : Env} {cs cs' : ConsensusState} (ht : Trans L E cs cs') (h : Paced cs) :
    Paced cs' := by
  have hnonneg := ht.round_nonneg h.nonneg
  obtain ⟨htracked, hround, hahead, hstart⟩ := h
  have hkeep : cs'.height = cs.height → cs'.votes = cs.votes → Paced cs' := fun hheight hvotes => by
    -- a step that is the first of a height was so before, or the round is a later one
    have hfirst : cs'.step = .newHeight → cs.step.ord ≤ cs'.step.ord → cs.step = .newHeight := by
      cases cs.step <;> cases cs'.step <;> simp [RoundStep.ord]
    have hclock := ht.clock
    refine ⟨hvotes ▸ htracked, hnonneg, ?_, fun hs => ?_⟩ <;> rw [hvotes]
    · omega
    · rcases hclock with hlt | ⟨-, hlt | ⟨heq, hord⟩⟩
      · omega
      · omega
      · exact (hstart (hfirst hs hord)).trans_eq heq.symm
  rcases ht.calls with ⟨hheight, -, -, hvotes⟩ | ⟨_, rfl⟩ | ⟨_, votes, _, _, _, -, -, -, rfl, fresh, -⟩
  · cases hvotes with
    | same hvotes _ | late _ _ hvotes _ => exact hkeep hheight hvotes
    | votes hstep hclock _ =>
      obtain ⟨htracked', hnew⟩ := htracked.votesStep hstep fun round hR => hR.1 ▸ hahead
      refine ⟨htracked', hnonneg, ?_, fun hs => ?_⟩ <;> rw [hclock.1]
      · omega
      · have hs' := hclock.2.symm.trans hs
        rcases hnew with hsame | ⟨-, hne⟩
        · exact hsame.trans_le (hstart hs')
        · exact absurd hs' hne
  · exact hkeep rfl rfl
  · exact paced_of_fresh fresh rfl

/-- **The votes of a height.** In every state that the handlers pass through, the vote sets of all rounds up to the
tracked one are there, and each further one was opened by a peer, which has opened at most two; neither `SetRound` nor
`AddVote` panics there. -/
theorem votes_tracked (L : Platform) (N : Node) {state : ChainState} {lastCommit : Option VoteSet} {pv : Option FilePV}
    {start : ConsensusState} (h : ConsensusState.newConsensusState state lastCommit pv = some start) :
    (∀ inputs, Relation.ReflTransGen (Trans L .any) start (NodeState.run L N ⟨start, true⟩ inputs).cs) ∧
    ∀ cs, Relation.ReflTransGen (Trans L .any) start cs → cs.votes.Tracked ∧
      (∀ round validators, ¬ (round < cs.round ∨ (cs.round = round ∧ cs.step ≠ .newHeight)) →
        ∃ votes, (startRound round validators cs).votes.setRound (round + 1) = some votes) ∧
      ∀ (vote : Vote) (peerID : Bytes), isVoteTypeValid vote.type_ = true →
        ∃ res, cs.votes.openRound vote.round peerID = some res ∧
          ∀ hvs ∈ res, ∃ voteSet, hvs.getVoteSetOrPanic vote.round vote.type_ = some (some voteSet) := by
  refine ⟨NodeState.run_chain (n := ⟨start, true⟩) (nodeInv_new h), fun cs hchain => ?_⟩
  have hpaced : Paced cs := by
    refine Handler.chain_inv (I := Paced) (fun _ _ => Trans.paced) hchain ?_
    obtain ⟨votes, hvotes, rfl⟩ := map_eq_some_iff.1 h
    exact paced_of_fresh hvotes rfl
  refine ⟨hpaced.tracked, fun round validators hguard => ?_, fun vote peerID htype => ?_⟩
  · have hle : cs.votes.round ≤ round := by
      have := hpaced.ahead
      have := hpaced.start
      grind
    have hvotes : (startRound round validators cs).votes = cs.votes := by
      unfold startRound
      split_ifs <;> rfl
    obtain ⟨votes, hset, -⟩ := hpaced.tracked.setRound (show _ ≤ round + 1 by omega) (.inr (by omega))
    exact ⟨votes, by rw [hvotes, hset]⟩
  · obtain ⟨res, hres, hall⟩ := hpaced.tracked.openRound vote.round peerID
    refine ⟨res, hres, fun hvs hmem => ?_⟩
    obtain ⟨rvs, hrvs⟩ := isSome_iff_exists.1 (AList.lookup_isSome.2 (hall hvs hmem).2.2)
    exact ⟨rvs.get vote.type_, by rw [HeightVoteSet.getVoteSetOrPanic_eq htype, HeightVoteSet.getVoteSet,
      hrvs, map_some]⟩

namespace Fork

/-- A precommit that is received from a peer. -/
def fromPeer (round : Int) (n : Nat) : Event :=
  match precommit round idA n with
  | .msg msg _ => .msg msg [5]
  | event => event

/-- Nil precommits take the node to round 1, and a peer has votes of rounds 4, 6 and 8. -/
def ahead : List Event :=
  timeout 0 .newHeight :: [0, 1, 2, 3].map (precommit 0 .empty) ++
    [timeout 0 .precommitWait, fromPeer 4 1, fromPeer 6 2, fromPeer 8 3, fromPeer 4 3]

def aheadState : ConsensusState := (NodeState.run .plain (node 0) ⟨startState, true⟩ (ahead.map (outside, ·))).cs

end Fork

open Fork in
/-- In round 1 the node tracks round 2 and two rounds that the peer has opened. -/
theorem votes_tracked_ahead :
    ConsensusState.newConsensusState state none (some ⟨0, 0, 0, none, none⟩) = some startState ∧
    aheadState.round = 1 ∧ aheadState.votes.round = 2 ∧ aheadState.votes.catchupRounds [5] = [4, 6] ∧
    (aheadState.votes.getVoteSet 4 voteTypePrecommit).map (·.votes.map Option.isSome) =
      some [false, true, false, true] ∧
    aheadState.votes.Tracked ∧ (∃ votes, (startRound 7 vals aheadState).votes.setRound 8 = some votes) ∧
    ∃ res, aheadState.votes.openRound 4 [5] = some res := by
  obtain ⟨hreach, htracked⟩ := votes_tracked .plain (node 0) start_eq
  obtain ⟨hvotes, hset, hopen⟩ := htracked aheadState (hreach _)
  obtain ⟨hround, htrack, hrounds, hcounted⟩ : aheadState.round = 1 ∧ aheadState.votes.round = 2 ∧
      aheadState.votes.catchupRounds [5] = [4, 6] ∧
      (aheadState.votes.getVoteSet 4 voteTypePrecommit).map (·.votes.map Option.isSome) =
        some [false, true, false, true] := by
    decide +kernel
  obtain ⟨res, hres, -⟩ := hopen (Vote.signedBy [] [] { emptyPrecommit with round := 4 }) [5] rfl
  exact ⟨start_eq, hround, htrack, hrounds, hcounted, hvotes, hset 7 vals (by rw [hround]; decide), res, hres⟩

/-! ## The proposer of a round -/

def roundsValidators (cs : ConsensusState) : List Int → Option ValidatorSet
  | [] => some cs.validators
  | round :: rounds =>
    (roundValidators cs round).bind fun validators => roundsValidators (startRound round validators cs) rounds

def EntersInStep (valSet : ValidatorSet) (start round next : Int) : Prop :=
  round < next ∧ valSet.NoOverflowSplit (round - start).toNat (next - round).toNat ∧
    valSet.InStep (round - start).toNat (next - round).toNat

instance (valSet : ValidatorSet) (start round next : Int) : Decidable (EntersInStep valSet start round next) :=
  inferInstanceAs (Decidable (_ ∧ _))

def RoundsInStep (valSet : ValidatorSet) (start : Int) (rounds : List Int) : Prop :=
  (∀ round ∈ rounds, start < round) ∧ rounds.IsChain (EntersInStep valSet start)

theorem startRound_validators (round : Int) (validators : ValidatorSet) (cs : ConsensusState) :
    (startRound round validators cs).validators = validators := by
  unfold startRound
  split_ifs <;> rfl

variable {valSet : ValidatorSet} {start : Int}

theorem EntersInStep.turns (hnodup : (valSet.validators.map Validator.address).Nodup)
    (hpos : ∀ v ∈ valSet.validators, 0 < v.votingPower) {round next : Int} (hround : start < round)
    (h : EntersInStep valSet start round next) : ∃ result, valSet.incrementAccum (next - start) = some result ∧
      ((valSet.incrementAccum (round - start)).bind fun mid => mid.incrementAccum (next - round)) = some result := by
  obtain ⟨hlt, hfits, hstep⟩ := h
  obtain ⟨result, hone, htwo⟩ := (ValidatorSet.incrementAccum_split hnodup hpos (by omega) (by omega) hfits).2 hstep
  refine ⟨result, ?_, ?_⟩
  · rw [← hone]
    congr 1
    omega
  · rwa [Int.toNat_of_nonneg (by omega), Int.toNat_of_nonneg (by omega)] at htwo

theorem roundsValidators_continue (hnodup : (valSet.validators.map Validator.address).Nodup)
    (hpos : ∀ v ∈ valSet.validators, 0 < v.votingPower) (rounds : List Int) :
    ∀ {cs : ConsensusState}, start < cs.round → valSet.incrementAccum (cs.round - start) = some cs.validators →
      (cs.round :: rounds).IsChain (EntersInStep valSet start) → ∀ {last : Int},
      (cs.round :: rounds).getLast? = some last →
      roundsValidators cs rounds = valSet.incrementAccum (last - start) := by
  induction rounds with
  | nil =>
    intro cs _ hturned _ last hlast
    cases hlast
    exact hturned.symm
  | cons next rounds ih =>
    intro cs hstart hturned hchain last hlast
    rw [isChain_cons_cons] at hchain
    obtain ⟨henters, hrest⟩ := hchain
    obtain ⟨result, hone, htwo⟩ := henters.turns hnodup hpos hstart
    rw [hturned, bind_some] at htwo
    have hnext : roundValidators cs next = some result := by
      rw [roundValidators, if_pos henters.1, htwo]
    have hlt := henters.1
    rw [roundsValidators, hnext]
    apply ih
    · rw [ConsensusState.startRound_round]
      omega
    · rw [ConsensusState.startRound_round, startRound_validators, hone]
    · rwa [ConsensusState.startRound_round]
    · rwa [ConsensusState.startRound_round]

theorem roundsValidators_eq {cs : ConsensusState} (hnodup : (cs.validators.validators.map Validator.address).Nodup)
    (hpos : ∀ v ∈ cs.validators.validators, 0 < v.votingPower) {rounds : List Int} {last : Int}
    (h : RoundsInStep cs.validators cs.round rounds) (hlast : rounds.getLast? = some last) :
    roundsValidators cs rounds = cs.validators.incrementAccum (last - cs.round) := by
  cases rounds with
  | nil => cases hlast
  | cons round rounds =>
    have hround := h.1 round mem_cons_self
    have hturn : roundValidators cs round = cs.validators.incrementAccum (round - cs.round) := by
      rw [roundValidators, if_pos hround]
    rw [roundsValidators, hturn]
    cases hmid : cs.validators.incrementAccum (round - cs.round) with
    | some mid =>
      apply roundsValidators_continue hnodup hpos
      · rwa [ConsensusState.startRound_round]
      · rw [ConsensusState.startRound_round, startRound_validators, hmid]
      · rw [ConsensusState.startRound_round]
        exact h.2
      · rwa [ConsensusState.startRound_round]
    | none =>
      -- only a single round can be entered in vain
      cases rounds with
      | nil =>
        cases hlast
        exact hmid.symm
      | cons next rounds =>
        obtain ⟨result, -, htwo⟩ := ((isChain_cons_cons.1 h.2).1).turns hnodup hpos hround
        rw [hmid] at htwo
        cases htwo

/-- **Agreement on the proposer.** Turning the validators by `a` and then by `b` rounds is turning them by `a + b`
exactly if the turns are in step; nodes that come to a round through rounds in step have the same proposer there. -/
theorem rounds_agree_iff (valSet : ValidatorSet) (hnodup : (valSet.validators.map Validator.address).Nodup)
    (hpos : ∀ v ∈ valSet.validators, 0 < v.votingPower) : (∀ a b : Nat, 0 < a → 0 < b → valSet.NoOverflowSplit a b →
      ((∃ result, valSet.incrementAccum (a + b : Nat) = some result ∧
        ((valSet.incrementAccum a).bind fun mid => mid.incrementAccum b) = some result) ↔ valSet.InStep a b)) ∧
    ∀ (cs : ConsensusState) (rounds rounds' : List Int), cs.validators = valSet → RoundsInStep valSet cs.round rounds →
      RoundsInStep valSet cs.round rounds' → rounds.getLast? = rounds'.getLast? →
      roundsValidators cs rounds = roundsValidators cs rounds' := by
  constructor
  · intro a b ha hb hfits
    exact ValidatorSet.incrementAccum_split hnodup hpos ha hb hfits
  · rintro cs rounds rounds' rfl h h' hlast
    cases hr : rounds.getLast? with
    | none =>
      rw [hr] at hlast
      rw [getLast?_eq_none_iff.1 hr, getLast?_eq_none_iff.1 hlast.symm]
    | some last =>
      rw [roundsValidators_eq hnodup hpos h hr, roundsValidators_eq hnodup hpos h' (hlast ▸ hr)]

namespace Fork

def pair (first second : Int) : Option ValidatorSet :=
  ValidatorSet.newValidatorSet [⟨address 0, some (.ed25519 (key 0)), first, 0⟩,
    ⟨address 1, some (.ed25519 (key 1)), second, 0⟩]

def twoThree : ValidatorSet := (pair 2 3).get (by decide +kernel)

def oneThree : ValidatorSet := (pair 1 3).get (by decide +kernel)

def startWith (valSet : ValidatorSet) : Option ConsensusState :=
  ConsensusState.newConsensusState { state with validators := valSet } none none

def twoThreeStart : ConsensusState := (startWith twoThree).get (by decide +kernel)

def oneThreeStart : ConsensusState := (startWith oneThree).get (by decide +kernel)

end Fork

open Fork in
/-- With powers 2 and 3 the way through round 1 to round 3 gives the same proposer. -/
theorem rounds_agree_twoThree :
    (∃ result, twoThree.incrementAccum (1 + 2 : Nat) = some result ∧
      ((twoThree.incrementAccum (1 : Nat)).bind fun mid => mid.incrementAccum (2 : Nat)) = some result) ∧
    roundsValidators twoThreeStart [1, 3] = roundsValidators twoThreeStart [3] :=
  have h := rounds_agree_iff twoThree (by decide +kernel) (by decide +kernel)
  ⟨(h.1 1 2 (by decide) (by decide) (by decide +kernel)).2 (by decide +kernel),
    h.2 twoThreeStart [1, 3] [3] (by decide +kernel) ⟨by decide +kernel, by decide +kernel⟩
      ⟨by decide +kernel, by decide +kernel⟩ rfl⟩

open Fork in
/-- With powers 1 and 3 nodes in round 2 have different proposers: the second validator after round 1, the first one
straight from round 0. -/
theorem rounds_disagree :
    pair 1 3 = some oneThree ∧ oneThree.NoOverflowSplit 1 1 ∧
    startWith oneThree = some oneThreeStart ∧
    ∃ validators validators', roundsValidators oneThreeStart [1, 2] = some validators ∧
      roundsValidators oneThreeStart [2] = some validators' ∧
      oneThree.incrementAccum (1 + 1 : Nat) = some validators' ∧
      ((oneThree.incrementAccum (1 : Nat)).bind fun mid => mid.incrementAccum (1 : Nat)) = some validators ∧
      validators.validators = validators'.validators ∧
      validators.getProposer.map Validator.address = some (address 1) ∧
      validators'.getProposer.map Validator.address = some (address 0) :=
  ⟨(some_get _).symm, by decide +kernel, (some_get _).symm,
    ((oneThree.incrementAccum 1).bind fun mid => mid.incrementAccum 1).get (by decide +kernel),
    (oneThree.incrementAccum 2).get (by decide +kernel), by decide +kernel, by decide +kernel, by decide +kernel,
    by decide +kernel, by decide +kernel, by decide +kernel, by decide +kernel⟩

end Consensus

end Demars
