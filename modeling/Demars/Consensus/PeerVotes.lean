import Demars.Consensus.Gossip

/-!
# The votes that a peer is known to have

`PeerState` of `consensus/reactor.go` keeps a bit for each vote that the peer has, and only votes without it are
sent.
-/

namespace Demars.Consensus

open Handler

/-- The vote is recorded as one that the peer has. -/
def PeerState.knows (ps : PeerState) (height round : Int) (type_ : UInt8) (index : Int) : Bool :=
  (ps.getVoteBitArray height round type_).any fun ref => ref.val.getIndex index == some true

/-- The bits of the precommits are lost when the peer goes on to the next height. -/
theorem precommits_kept_iff (ps : PeerState) (round : Int) (step : UInt8) :
    ∃ ps', exec (applyNewRoundStep (ps.height + 1) round step ps.round) ps = (ps', true) ∧
      ((∀ index, ps.knows ps.height ps.round voteTypePrecommit index = true →
          ps'.knows ps.height ps.round voteTypePrecommit index = true) ↔
        ∀ index, ps.knows ps.height ps.round voteTypePrecommit index = false) := by
  have hcmp : ¬ compareHRS (ps.height + 1) round step ps.height ps.round ps.step ≤ 0 := by
    rw [compareHRS, if_neg (by omega), if_pos (by omega)]
    decide
  have hne : ps.height ≠ ps.height + 1 := by omega
  rw [applyNewRoundStep, exec_get_bind, if_neg hcmp]
  simp only [when, hne, ne_eq]
  refine ⟨_, rfl, ?_⟩
  -- `LastCommit` was taken from the precommits when these were already reset
  simp [PeerState.knows, PeerState.getVoteBitArray]

namespace Fork

def peerPrecommit : Vote := { peerVote with round := 0, type_ := voteTypePrecommit }

/-- The peer sends its precommit. -/
def told : List PeerEvent :=
  [.addPeer, .receive stateChannel (.newRoundStep 1 0 6 (-1)), .receive voteChannel (.vote (some peerPrecommit))]

/-- The vote that is picked for the peer from a commit with its precommit. -/
def picked (ps : PeerState) : Option (Option Vote) :=
  match pickVoteToSend ⟨1, 0, voteTypePrecommit, 4, true, some ⟨4, [1]⟩, [some peerPrecommit, none, none, none]⟩
    (own.rand 0) ps with
  | .ok vote _ => vote
  | .error _ _ => none

end Fork

open Fork

/-- The peer goes on to the next height, and gets its own precommit. -/
theorem precommit_sent_again :
    ((meets told).bind (· [5])).map (fun ps => ps.knows 1 0 voteTypePrecommit 0) = some true ∧
      ((meets (told ++ [.receive stateChannel (.newRoundStep 2 0 1 0)])).bind (· [5])).map
        (fun ps => (ps.knows 1 0 voteTypePrecommit 0, picked ps)) = some (false, some (some peerPrecommit)) := by
  decide +kernel

end Demars.Consensus
