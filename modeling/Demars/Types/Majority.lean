import Demars.Lib.Fold
import Demars.Types.Commit
import Demars.Types.Tally

/-!
# Majorities and the commits made of them

A vote set only grows. `Backed` is the invariant of its majority, in every range of powers that add up to an
`int64`. Votes are told apart by `BlockID.Key`, a hash followed by an encoding with nothing in between
(`key_eq_iff`).
-/

namespace Demars

open Machine List Option

/-! ## Growing vote sets -/

namespace VoteSet

variable {P : Primitives} {A : Amino} {voteSet voteSet' : VoteSet}
  {vote? conflicting : Option Vote} {added : Bool} {err : Option VoteError} {chainID : Bytes} {height round : Int}
    {type_ : UInt8}
  {valSet : ValidatorSet} {entry : BlockVotes} {i : Nat} {vote : Vote}

theorem addVote_blocks (h : voteSet.addVote P A vote? = some (voteSet', added, err)) :
    SameBlocks voteSet voteSet' ∨ ∃ vote i recorded conflicting entry, vote? = some vote ∧ SameBlocks voteSet recorded ∧
      recorded.trackedVotes (vote.blockID.key A) conflicting = some entry ∧
      voteSet' = recorded.countVote i vote (vote.blockID.key A) (voteSet.valSet.power i) entry := by
  rcases addVote_cases h with ⟨rfl, -⟩ | ⟨vote, i, conflicting, hv, -, -, hres, -⟩
  · exact .inl ⟨rfl, rfl, rfl, rfl, rfl, rfl, rfl, rfl⟩
  obtain ⟨recorded, hrec, ⟨-, rfl, -⟩ | ⟨entry, ht, rfl, -⟩⟩ := addVerifiedVote_cases hres
  · exact .inl (recordVote_sameBlocks hrec)
  · exact .inr ⟨vote, i, recorded, _, entry, hv, recordVote_sameBlocks hrec, ht, rfl⟩

theorem addVote_extends (h : voteSet.addVote P A vote? = some (voteSet', added, err)) : Extends voteSet voteSet' := by
  rcases addVote_blocks h with hsame | ⟨vote, i, recorded, conflicting, entry, -, hsame, -, rfl⟩
  · exact hsame.extends
  · exact hsame.extends.trans (countVote_extends _ _ _ _ _)

def Holds (Φ : Vote → Prop) (voteSet : VoteSet) : Prop := ∀ key i vote, voteSet.blockSlot key i = some vote → Φ vote

variable {Φ : Vote → Prop}

theorem Holds.mono {Ψ : Vote → Prop} (h : Holds Φ voteSet) (hΦ : ∀ vote, Φ vote → Ψ vote) : Holds Ψ voteSet :=
  fun key i vote hs => hΦ vote (h key i vote hs)

theorem holds_newVoteSet (h : newVoteSet chainID height round type_ valSet = some voteSet) : Holds Φ voteSet := by
  unfold newVoteSet at h
  split_ifs at h
  cases h
  intro key i vote hs
  cases hs

theorem mem_addVerifiedVote {j : Nat} {vote' : Vote} {power : Int}
    (h : (entry.addVerifiedVote i vote power).getByIndex j = some vote') :
    vote' = vote ∨ entry.getByIndex j = some vote' := by
  unfold BlockVotes.addVerifiedVote at h
  cases hi : entry.getByIndex i with
  | some _ => rw [hi] at h; exact .inr h
  | none =>
    rw [hi] at h
    simp only [BlockVotes.getByIndex, getElem?_set] at h
    split_ifs at h
    · exact .inl (by simpa using h.symm)
    · simp at h
    · exact .inr h

theorem blockSlot_countVote (i : Nat) (vote : Vote) (key : Bytes) (power : Int) (entry : BlockVotes) (key' : Bytes)
    (j : Nat) : (voteSet.countVote i vote key power entry).blockSlot key' j =
      if key' = key then (entry.addVerifiedVote i vote power).getByIndex j else voteSet.blockSlot key' j := by
  let counted := entry.addVerifiedVote i vote power
  have hins : blockSlot { voteSet with votesByBlock := voteSet.votesByBlock.insert key counted } key' j =
    if key' = key then counted.getByIndex j else voteSet.blockSlot key' j := blockSlot_insert key counted key' j
  rw [← hins]
  dsimp only [countVote]
  split_ifs <;> rfl

theorem Holds.sameBlocks (h : Holds Φ voteSet) (hsame : SameBlocks voteSet voteSet') : Holds Φ voteSet' := by
  unfold Holds
  rw [hsame.blockSlot]
  exact h

theorem Holds.addVote (h : Holds Φ voteSet) (hΦ : Φ vote)
    (hadd : voteSet.addVote P A (some vote) = some (voteSet', added, err)) : Holds Φ voteSet' := by
  rcases addVote_blocks hadd with hsame | ⟨vote', i, recorded, conflicting, entry, hv, hsame, ht, rfl⟩
  · exact h.sameBlocks hsame
  · cases Option.some.inj hv
    have hrec := h.sameBlocks hsame
    intro key j w hs
    rw [blockSlot_countVote] at hs
    split_ifs at hs
    · rcases mem_addVerifiedVote hs with rfl | hs
      · exact hΦ
      · exact hrec _ j w (by rw [← getByIndex_tracked ht]; exact hs)
    · exact hrec key j w hs

theorem blockSlot_setPeerMaj23 (A : Amino) (voteSet : VoteSet) (peerID : Bytes) (blockID : BlockID) :
    (voteSet.setPeerMaj23 A peerID blockID).1.blockSlot = voteSet.blockSlot := by
  funext key i
  obtain heq | ⟨-, heq | ⟨entry, heq, hentry⟩⟩ := setPeerMaj23_cases A voteSet peerID blockID <;> rw [heq]
  · rfl
  · refine (blockSlot_insert _ entry key i).trans ?_
    split_ifs with hk
    · rw [hk, getByIndex_marked hentry]
    · rfl

theorem Holds.setPeerMaj23 (h : Holds Φ voteSet) (peerID : Bytes) (blockID : BlockID) :
    Holds Φ (voteSet.setPeerMaj23 A peerID blockID).1 := by
  unfold Holds
  rw [blockSlot_setPeerMaj23]
  exact h

/-! ## The invariant of a majority -/

/-- The slots of the validators whose votes the majority's entry counts hold those votes. -/
def MajoritySlots (A : Amino) (voteSet : VoteSet) : Prop :=
  ∀ blockID, voteSet.maj23 = some blockID → ∀ i vote,
    voteSet.blockSlot (blockID.key A) i = some vote → voteSet.slot i = some vote

/-- The majority is backed by the votes in the slots. -/
structure Backed (P : Primitives) (A : Amino) (voteSet : VoteSet) : Prop extends VotesInv P A voteSet where
  reached : MajorityReached A voteSet
  slots : MajoritySlots A voteSet
  quorum_pos : voteSet.maj23 ≠ none → 0 < voteSet.quorum

theorem newVoteSet_backed (h : newVoteSet chainID height round type_ valSet = some voteSet) : Backed P A voteSet := by
  have hinv : Inv P A voteSet := newVoteSet_inv h
  have hmaj := (newVoteSet_eq h).2
  refine ⟨hinv.toVotesInv, hinv.maj23_some, fun blockID hsome => ?_, fun hne => absurd hmaj hne⟩
  rw [hmaj] at hsome
  cases hsome

/-- A vote of the majority goes into its slot, and no other takes its place. -/
theorem recordVote_slots (hs : MajoritySlots A voteSet) {power : Int} {recorded : VoteSet}
    (hi : i < voteSet.votes.length) (hnone : voteSet.blockSlot (vote.blockID.key A) i = none)
    (hrec : voteSet.recordVote A i vote (vote.blockID.key A) power = some (recorded, conflicting)) :
    MajoritySlots A recorded ∧
      ∀ blockID, voteSet.maj23 = some blockID → blockID.key A = vote.blockID.key A → recorded.slot i = some vote := by
  -- where the slot changes, it was empty or the vote is for the majority: the majority had no vote of the validator
  have hwritten : ∀ (bits : Option BitArray) (sum : Int),
      (∀ blockID, voteSet.maj23 = some blockID → voteSet.blockSlot (blockID.key A) i = none) →
      MajoritySlots A { voteSet with votes := voteSet.votes.set i (some vote), votesBitArray := bits, sum := sum } := by
    intro bits sum hfree blockID hmaj j v hj
    rw [slot, slot_set hi]
    split_ifs with hji
    · rw [hji] at hj
      have hj' : voteSet.blockSlot (blockID.key A) i = some v := hj
      rw [hfree blockID hmaj] at hj'
      cases hj'
    · exact hs blockID hmaj j v hj
  obtain ⟨hslot, -, ⟨sum, rfl, hwhy⟩ | ⟨rfl, -, hother⟩⟩ := recordVote_cases hrec
  · refine ⟨hwritten _ sum fun blockID hmaj => ?_, fun _ _ _ => by rw [slot, slot_set hi, if_pos rfl]⟩
    rcases hwhy with hempty | ⟨maj23, hmaj23, hk⟩
    · by_contra hne
      obtain ⟨v, hv⟩ := ne_none_iff_exists'.1 hne
      rw [hslot, hs blockID hmaj i v hv] at hempty
      cases hempty
    · cases hmaj.symm.trans hmaj23
      rw [hk]
      exact hnone
  · exact ⟨hs, fun blockID hmaj hk => absurd hk (hother blockID hmaj)⟩

theorem countVote_slots (h : VotesInv P A voteSet) (hs : MajoritySlots A voteSet) (hb : voteSet.valSet.Bounded)
    (hc : Counts P A voteSet i vote) (hp : present voteSet.votes i = true)
    (ht : voteSet.trackedVotes (vote.blockID.key A) conflicting = some entry)
    (hnone : voteSet.blockSlot (vote.blockID.key A) i = none)
    (hown : ∀ blockID, voteSet.maj23 = some blockID → blockID.key A = vote.blockID.key A → voteSet.slot i = some vote) :
    MajoritySlots A (voteSet.countVote i vote (vote.blockID.key A) (voteSet.valSet.power i) entry) := by
  obtain ⟨he, -, hget⟩ := counted_spec hb hc hp ht hnone h
  intro blockID hmaj j v hj
  rw [blockSlot_countVote] at hj
  dsimp only [countVote] at hmaj ⊢
  split_ifs at hmaj ⊢ with hcross
  · cases Option.some.inj hmaj
    rw [if_pos rfl] at hj
    have hlen : (entry.addVerifiedVote i vote (voteSet.valSet.power i)).votes.length = voteSet.votes.length := by
      rw [he.tallied.length, h.tallied.length]
    rw [slot, slot_copyVotes hlen]
    rw [BlockVotes.getByIndex] at hj
    rw [hj]
    rfl
  · split_ifs at hj with hk
    · rw [hget] at hj
      split_ifs at hj with hji
      · rw [hji, ← hj]
        exact hown blockID hmaj hk
      · exact hs blockID hmaj j v (by rw [hk]; exact hj)
    · exact hs blockID hmaj j v hj

/-- The sum of an entry starts at zero, so only a positive quorum is ever crossed. -/
theorem countVote_quorum_pos (h : VotesInv P A voteSet) (hq : voteSet.maj23 ≠ none → 0 < voteSet.quorum)
    (hb : voteSet.valSet.Bounded) {key : Bytes} {power : Int} (ht : voteSet.trackedVotes key conflicting = some entry) :
    (voteSet.countVote i vote key power entry).maj23 ≠ none →
    0 < (voteSet.countVote i vote key power entry).quorum := by
  rw [(countVote_extends i vote key power entry).quorum_eq]
  obtain ⟨htal, -⟩ := trackedVotes_spec h ht
  have hsum : 0 ≤ entry.sum := by
    rw [htal.sum_eq]
    exact ValidatorSet.powerOf_nonneg hb _
  dsimp only [countVote]
  split_ifs with hcross
  · omega
  · exact hq

theorem Backed.addVote (h : Backed P A voteSet) (hb : voteSet.valSet.Bounded)
    (hadd : voteSet.addVote P A vote? = some (voteSet', added, err)) : Backed P A voteSet' := by
  rcases addVote_cases hadd with ⟨rfl, -⟩ | ⟨vote, i, conflicting, -, hc, hget, hres, -⟩
  · exact h
  have hi : i < voteSet.votes.length := by rw [h.tallied.length]; exact hc.lt_size
  have hnone := (getVote_eq_none hget).2
  obtain ⟨recorded, conflicting', hrec, hvotes, hsame, hp⟩ := recordVote_spec h.toVotesInv hb hc hget
  obtain ⟨hslots, hown⟩ := recordVote_slots h.slots hi hnone hrec
  have hreached := h.reached.of_sameBlocks hsame
  have hpos : recorded.maj23 ≠ none → 0 < recorded.quorum := by
    rw [hsame.maj23, hsame.extends.quorum_eq]
    exact h.quorum_pos
  obtain ⟨_, hrec', hres⟩ := addVerifiedVote_cases hres
  cases hrec.symm.trans hrec'
  obtain ⟨-, rfl, -⟩ | ⟨entry, ht, rfl, -⟩ := hres
  · exact ⟨hvotes, hreached, hslots, hpos⟩
  · have hc' : Counts P A recorded i vote := hsame.counts hc
    have hb' : recorded.valSet.Bounded := by rw [hsame.valSet]; exact hb
    have hnone' : recorded.blockSlot (vote.blockID.key A) i = none := by rw [hsame.blockSlot, hnone]
    rw [← hsame.maj23] at hown
    rw [← hsame.valSet]
    exact ⟨countVote_votesInv hvotes (counted_spec hb' hc' hp ht hnone' hvotes).1,
      countVote_reached hb' hc' hp ht hnone' hvotes hreached, countVote_slots hvotes hslots hb' hc' hp ht hnone' hown,
      countVote_quorum_pos hvotes hpos hb' ht⟩

theorem slot_setPeerMaj23 (A : Amino) (voteSet : VoteSet) (peerID : Bytes) (blockID : BlockID) :
    (voteSet.setPeerMaj23 A peerID blockID).1.slot = voteSet.slot ∧ (voteSet.setPeerMaj23 A peerID blockID).1.maj23 =
      voteSet.maj23 := by
  obtain heq | ⟨-, heq | ⟨entry, heq, -⟩⟩ := setPeerMaj23_cases A voteSet peerID blockID <;> rw [heq] <;>
    exact ⟨rfl, rfl⟩

theorem Backed.setPeerMaj23 (h : Backed P A voteSet) (peerID : Bytes) (blockID : BlockID) :
    Backed P A (voteSet.setPeerMaj23 A peerID blockID).1 := by
  obtain ⟨hslot, hmaj⟩ := slot_setPeerMaj23 A voteSet peerID blockID
  refine ⟨h.toVotesInv.setPeerMaj23 peerID blockID, setPeerMaj23_reached h.reached peerID blockID, ?_, ?_⟩
  · rw [MajoritySlots, hslot, hmaj, blockSlot_setPeerMaj23]
    exact h.slots
  · rw [hmaj, (setPeerMaj23_extends peerID blockID).quorum_eq]
    exact h.quorum_pos

def delivered (calls : List Call) : List Vote := calls.filterMap fun c => match c with
  | .addVote vote => vote
  | .setPeerMaj23 _ _ => none

/-- After some calls the majority is backed, and only delivered votes are counted. -/
structure After (P : Primitives) (A : Amino) (fresh : VoteSet) (calls : List Call) (voteSet : VoteSet) : Prop where
  backed : Backed P A voteSet
  holds : voteSet.Holds (· ∈ delivered calls)
  extend : Extends fresh voteSet

theorem run_after {fresh : VoteSet}
    {calls : List Call} (hb : valSet.Bounded) (hnew : newVoteSet chainID height round type_ valSet = some fresh)
    (hrun : run P A fresh calls = some voteSet) : After P A fresh calls voteSet := by
  refine Fold.induct (p := After P A fresh calls) (fun c hc s s' hs hcall => ?_)
    ⟨newVoteSet_backed hnew, holds_newVoteSet hnew, Extends.refl fresh⟩ hrun
  have hbs : s.valSet.Bounded := by rw [hs.extend.valSet, (newVoteSet_eq hnew).1]; exact hb
  cases c with
  | addVote vote? =>
    obtain ⟨⟨s₁, added, err⟩, hadd, rfl⟩ := map_eq_some_iff.1 hcall
    refine ⟨hs.backed.addVote hbs hadd, ?_, hs.extend.trans (addVote_extends hadd)⟩
    cases vote? with
    | none =>
      cases hadd
      exact hs.holds
    | some vote => exact hs.holds.addVote (mem_filterMap.2 ⟨_, hc, rfl⟩) hadd
  | setPeerMaj23 peerID blockID =>
    cases Option.some.inj hcall
    exact ⟨hs.backed.setPeerMaj23 peerID blockID, hs.holds.setPeerMaj23 peerID blockID,
      hs.extend.trans (setPeerMaj23_extends peerID blockID)⟩

/-! ## Commits -/

/-- `VoteSet.MakeCommit`, which panics without a majority of precommits. -/
def makeCommit (voteSet : VoteSet) : Option Commit :=
  if voteSet.type_ ≠ voteTypePrecommit then none
  else voteSet.maj23.map fun maj23 => { blockID := maj23, precommits := voteSet.votes }

def KeysApart (A : Amino) (calls : List Call) : Prop :=
  ∀ v ∈ delivered calls, ∀ w ∈ delivered calls, v.blockID.key A = w.blockID.key A → v.blockID = w.blockID

instance (A : Amino) (calls : List Call) : Decidable (KeysApart A calls) :=
  inferInstanceAs (Decidable (∀ v ∈ delivered calls, ∀ w ∈ delivered calls, _))

section

variable {fresh : VoteSet} {calls : List Call} {blockID : BlockID}

theorem After.blockID_eq (h : After P A fresh calls voteSet) (hk : KeysApart A calls) {key : Bytes} {i j : Nat}
    {v w : Vote} (hv : voteSet.blockSlot key i = some v) (hw : voteSet.blockSlot key j = some w) :
    v.blockID = w.blockID := by
  apply hk v (h.holds key i v hv) w (h.holds key j w hw)
  rw [(h.backed.blockCounts key i v hv).2.1, (h.backed.blockCounts key j w hw).2.1]

theorem After.quorum_le (h : After P A fresh calls voteSet) (hb : voteSet.valSet.Bounded) (hk : KeysApart A calls)
    (hmaj : voteSet.maj23 = some blockID) :
    voteSet.quorum ≤ voteSet.valSet.powerOf (ValidatorSet.votesFor blockID voteSet.votes) := by
  obtain ⟨⟨entry, hl, hq⟩, j, w, hw, rfl⟩ := h.backed.reached blockID hmaj
  rw [(h.backed.blocks _ entry hl).sum_eq] at hq
  refine hq.trans (ValidatorSet.powerOf_mono hb fun i _ hi => ?_)
  obtain ⟨v, hv⟩ := isSome_iff_exists.1 hi
  have hblock : voteSet.blockSlot (w.blockID.key A) i = some v := by
    rw [blockSlot, hl]
    exact hv
  have hslot := h.backed.slots _ hmaj i v hblock
  exact ValidatorSet.votesFor_eq_true.2 ⟨v, join_eq_some_iff.1 hslot, h.blockID_eq hk hblock hw⟩

theorem twoThirds_lt_quorum (hb : voteSet.valSet.Bounded) : voteSet.valSet.twoThirds < voteSet.quorum := by
  have hnonneg := hb.sumPower_nonneg
  have hle := hb.sum_le
  unfold maxInt64 at hle
  rw [quorum]
  rcases le_or_gt (voteSet.valSet.sumPower * 2) maxInt64 with hfit | hbig
  · rw [hb.twoThirds_eq hfit, wrap64_eq (by unfold minInt64; omega) (by unfold maxInt64; omega)]
    omega
  · rw [hb.twoThirds_neg hbig, wrap64_eq (by unfold minInt64; omega) (by unfold maxInt64; omega)]
    omega

/-- A positive quorum is two thirds of a total whose double fits, or one, at the largest total. -/
theorem fit_of_quorum_pos (hb : voteSet.valSet.Bounded) (hlt : voteSet.valSet.sumPower < maxInt64)
    (hq : 0 < voteSet.quorum) : voteSet.valSet.sumPower * 2 ≤ maxInt64 := by
  by_contra hbig
  rw [not_le] at hbig
  have hbig' := hbig
  unfold maxInt64 at hlt hbig'
  rw [quorum, hb.twoThirds_neg hbig, wrap64_eq (by unfold minInt64; omega) (by unfold maxInt64; omega)] at hq
  omega

end

theorem CountsFor.wellSigned (h : CountsFor P A chainID height round voteTypePrecommit valSet i vote) :
    ValidatorSet.WellSigned P A valSet chainID height round i vote := by
  obtain ⟨val, key, hval, hkey, -, hverify⟩ := h.signed
  exact ⟨h.height, h.round, h.type_, val, key, hval, hkey, ((Vote.verify_eq_none P A).1 hverify).2⟩

/-- Where the block ids have keys of their own, `VerifyCommit` accepts the commit made of a majority. -/
theorem verifyCommit_makeCommit (P : Primitives) (A : Amino) (valSet : ValidatorSet) (hb : valSet.Bounded)
    (chainID : Bytes) (height round : Int) (fresh : VoteSet)
    (hnew : newVoteSet chainID height round voteTypePrecommit valSet = some fresh) (calls : List Call)
    (hkeys : KeysApart A calls) (voteSet : VoteSet) (hrun : run P A fresh calls = some voteSet) (blockID : BlockID)
    (hmaj : voteSet.maj23 = some blockID) : ∃ commit, voteSet.makeCommit = some commit ∧
      ValidatorSet.verifyCommit P A valSet chainID blockID height commit = some (.ok ()) := by
  have hafter := run_after hb hnew hrun
  have hext := hafter.extend
  unfold newVoteSet at hnew
  split_ifs at hnew
  cases hnew
  have hval : voteSet.valSet = valSet := hext.valSet
  have htype : voteSet.type_ = voteTypePrecommit := hext.type_
  refine ⟨⟨blockID, voteSet.votes⟩, by simp [makeCommit, htype, hmaj], ?_⟩
  have hws : ∀ (i : Nat) vote, voteSet.votes[i]? = some (some vote) →
      ValidatorSet.WellSigned P A valSet chainID height round i vote := by
    intro i vote hi
    have hcounts := hafter.backed.counts i vote (by rw [slot, hi]; rfl)
    rw [Counts, hext.chainID, hext.height, hext.round, hext.type_, hext.valSet] at hcounts
    exact hcounts.wellSigned
  have hpower : valSet.twoThirds < valSet.powerOf (ValidatorSet.votesFor blockID voteSet.votes) := by
    rw [← hval] at hb ⊢
    exact (twoThirds_lt_quorum hb).trans_le (hafter.quorum_le hb hkeys hmaj)
  -- the majority has a vote, from which the commit takes its height and round
  obtain ⟨-, j, w, hw, -⟩ := hafter.backed.reached blockID hmaj
  have hslot := hafter.backed.slots blockID hmaj j w hw
  have hheight : Commit.height ⟨blockID, voteSet.votes⟩ = height ∧ Commit.round ⟨blockID, voteSet.votes⟩ = round :=
    ValidatorSet.height_round_of_wellSigned (join_eq_some_iff.1 hslot) hws
  refine (ValidatorSet.verifyCommit_eq_ok hb).2 ⟨?_, hheight.1.symm, fun i vote hi => ?_, hpower⟩
  · rw [← hval]
    exact hafter.backed.tallied.length.symm
  · rw [hheight.2]
    exact hws i vote hi

/-! A commit is made in spite of a validator that votes twice, and is refused where the powers do not add up to an
`int64`. -/

theorem verifyCommit_makeCommit_equivocation :
    (trio 1).Bounded ∧ KeysApart .plain equivocation ∧ ∃ fresh voteSet commit,
      newVoteSet [] 1 0 voteTypePrecommit (trio 1) = some fresh ∧
      run .transparent .plain fresh equivocation = some voteSet ∧ voteSet.maj23 = some (trioID 7) ∧
      voteSet.makeCommit = some commit ∧
      ValidatorSet.verifyCommit .transparent .plain (trio 1) [] (trioID 7) 1 commit = some (.ok ()) := by
  have hb : (trio 1).Bounded := ⟨by decide, by decide⟩
  have hkeys : KeysApart .plain equivocation := by decide +kernel
  have heval : ((newVoteSet [] 1 0 voteTypePrecommit (trio 1)).bind fun fresh =>
      (run .transparent .plain fresh equivocation).map (·.maj23)) = some (some (trioID 7)) := by
    decide +kernel
  obtain ⟨fresh, hnew, hmap⟩ := bind_eq_some_iff.1 heval
  obtain ⟨voteSet, hrun, hmaj⟩ := map_eq_some_iff.1 hmap
  obtain ⟨commit, hmake, hok⟩ :=
    verifyCommit_makeCommit .transparent .plain (trio 1) hb [] 1 0 fresh hnew equivocation hkeys voteSet hrun _ hmaj
  exact ⟨hb, hkeys, fresh, voteSet, commit, hnew, hrun, hmaj, hmake, hok⟩

def unanimous : List Call := adding (ballots [(0, 7), (1, 7), (2, 7)])

/-- With powers of `2 ^ 62` three votes add up to a negative number, and their commit is refused. -/
theorem overflowing_commit_refused :
    KeysApart .plain unanimous ∧
      ((newVoteSet [] 1 0 voteTypePrecommit (trio (2 ^ 62))).bind fun fresh =>
        (run .transparent .plain fresh unanimous).bind fun voteSet =>
          voteSet.makeCommit.map fun commit => (voteSet.maj23,
            ValidatorSet.verifyCommit .transparent .plain (trio (2 ^ 62)) [] (trioID 7) 1 commit)) =
        some (some (trioID 7), some (.error (.insufficientVotingPower (-2 ^ 62) 1))) := by
  decide +kernel

end VoteSet

/-! ## Keys of block ids -/

/-- The hash of `b` takes in the front of the encoded parts header of `a`. -/
def BlockID.Shifts (A : Amino) (a b : BlockID) : Prop :=
  ∃ s, s ≠ [] ∧ b.hash = a.hash ++ s ∧ A.partSetHeaderBytes a.partsHeader = s ++ A.partSetHeaderBytes b.partsHeader

namespace BlockID

variable {A : Amino} {a b : BlockID}

theorem Shifts.key_eq (h : a.Shifts A b) : a.key A = b.key A := by
  obtain ⟨s, -, hhash, hparts⟩ := h
  rw [key, key, hhash, hparts, append_assoc]

theorem not_shifts_self (A : Amino) (a : BlockID) : ¬ a.Shifts A a := by
  rintro ⟨s, hs, hhash, -⟩
  apply hs
  simpa using hhash

theorem key_eq_iff (hA : Function.Injective A.partSetHeaderBytes) :
    a.key A = b.key A ↔ a = b ∨ a.Shifts A b ∨ b.Shifts A a := by
  constructor
  · have hsplit : ∀ {a b : BlockID} {s : Bytes}, b.hash = a.hash ++ s →
        A.partSetHeaderBytes a.partsHeader = s ++ A.partSetHeaderBytes b.partsHeader → a = b ∨ a.Shifts A b := by
      intro a b s hhash hparts
      by_cases hs : s = []
      · subst hs
        rw [append_nil] at hhash
        obtain ⟨bhash, bparts⟩ := b
        cases hhash
        cases hA hparts
        exact .inl rfl
      · exact .inr ⟨s, hs, hhash, hparts⟩
    intro h
    rcases append_eq_append_iff.1 h with ⟨s, hhash, hparts⟩ | ⟨s, hhash, hparts⟩
    · rcases hsplit hhash hparts with heq | hshift
      · exact .inl heq
      · exact .inr (.inl hshift)
    · rcases hsplit hhash hparts with heq | hshift
      · exact .inl heq.symm
      · exact .inr (.inr hshift)
  · rintro (rfl | h | h)
    · rfl
    · exact h.key_eq
    · exact h.key_eq.symm

end BlockID

namespace VoteSet

open Finset Quorum

/-- An entry is for one block ID, and a majority has its votes. -/
structure Separated (P : Primitives) (A : Amino) (calls : List Call) (voteSet : VoteSet) : Prop where
  entry : ∀ key i j v w, voteSet.blockSlot key i = some v → voteSet.blockSlot key j = some w → v.blockID = w.blockID
  majority : ∀ blockID, voteSet.maj23 = some blockID →
    ∃ voters, IsQuorum voteSet.valSet.power (range voteSet.valSet.size) voters ∧
      ∀ i ∈ voters, ∃ vote ∈ delivered calls, Counts P A voteSet i vote ∧ vote.blockID = blockID

/-- **Votes for different blocks are tallied apart**: two block ids have keys of their own if and only if neither
shifts into the other, and where no two delivered votes are for such ids, and the total power is less than the largest
`int64`, every vote set is separated. -/
theorem tallied_apart (P : Primitives) (A : Amino) (hA : Function.Injective A.partSetHeaderBytes) :
    (∀ a b : BlockID, (a.key A = b.key A → a = b) ↔ ¬ a.Shifts A b ∧ ¬ b.Shifts A a) ∧
      ∀ (valSet : ValidatorSet) (chainID : Bytes) (height round : Int) (type_ : UInt8) (fresh voteSet : VoteSet)
        (calls : List Call), valSet.Bounded → valSet.sumPower < maxInt64 →
        newVoteSet chainID height round type_ valSet = some fresh →
        (∀ v ∈ delivered calls, ∀ w ∈ delivered calls, ¬ v.blockID.Shifts A w.blockID) →
        run P A fresh calls = some voteSet → Separated P A calls voteSet := by
  constructor
  · intro a b
    constructor
    · intro h
      refine ⟨fun hab => ?_, fun hba => ?_⟩
      · cases h hab.key_eq
        exact BlockID.not_shifts_self A a hab
      · cases h hba.key_eq.symm
        exact BlockID.not_shifts_self A a hba
    · rintro ⟨hab, hba⟩ hkey
      rcases (BlockID.key_eq_iff hA).1 hkey with heq | h | h
      · exact heq
      · exact absurd h hab
      · exact absurd h hba
  · intro valSet chainID height round type_ fresh voteSet calls hb hlt hnew hshift hrun
    have hafter := run_after hb hnew hrun
    have hval : voteSet.valSet = valSet := hafter.extend.valSet.trans (newVoteSet_eq hnew).1
    rw [← hval] at hb hlt
    have hkeys : KeysApart A calls := by
      intro v hv w hw hkey
      rcases (BlockID.key_eq_iff hA).1 hkey with heq | h | h
      · exact heq
      · exact absurd h (hshift v hv w hw)
      · exact absurd h (hshift w hw v hv)
    refine ⟨fun key i j v w hv hw => hafter.blockID_eq hkeys hv hw, fun blockID hmaj => ?_⟩
    have hfit := fit_of_quorum_pos hb hlt (hafter.backed.quorum_pos (by rw [hmaj]; exact some_ne_none _))
    obtain ⟨⟨entry, hl, hq⟩, j, w, hw, rfl⟩ := hafter.backed.reached blockID hmaj
    rw [(hafter.backed.blocks _ entry hl).sum_eq] at hq
    refine ⟨_, ValidatorSet.isQuorum_of_powerOf ((quorum_le_iff hb hfit _).1 hq), fun i hi => ?_⟩
    obtain ⟨v, hv⟩ := isSome_iff_exists.1 (Finset.mem_filter.1 hi).2
    have hblock : voteSet.blockSlot (w.blockID.key A) i = some v := by
      rw [blockSlot, hl]
      exact hv
    exact ⟨v, hafter.holds _ i v hblock, (hafter.backed.blockCounts _ i v hblock).1, hafter.blockID_eq hkeys hblock hw⟩

end VoteSet

/-! ## Tagged fields -/

/-- A signed number as `binary.PutVarint` writes it. -/
def zigzag : Int → Nat
  | .ofNat n => 2 * n
  | .negSucc n => 2 * n + 1

theorem zigzag_injective : Function.Injective zigzag := by
  intro a b h
  cases a <;> cases b <;> simp only [zigzag] at h
  · congr 1; omega
  · omega
  · omega
  · congr 1; omega

/-- A field of bytes with its number and kind in front, left out where it is empty. -/
def taggedBytes (bz : Bytes) : Bytes := if bz = [] then [] else 18 :: Code.byteSlice.enc bz

theorem taggedBytes_injective : Function.Injective taggedBytes := by
  intro a b h
  unfold taggedBytes at h
  split_ifs at h with ha hb hb
  · rw [ha, hb]
  · exact Code.byteSlice.enc_injective (List.cons.inj h).2

/-- As go-amino writes it: fields with number and kind, zero values left out. -/
def taggedPartSetHeader (header : PartSetHeader) : Bytes :=
  (if header.total = 0 then [] else 8 :: Code.uvarint.enc (zigzag header.total)) ++ taggedBytes header.hash

/-- A field of number 1 differs in its first byte from one of number 2, and from nothing. -/
theorem taggedBytes_ne_cons (bz rest : Bytes) : taggedBytes bz ≠ 8 :: rest := by
  unfold taggedBytes
  split_ifs
  · simp
  · intro h
    exact absurd (List.cons.inj h).1 (by decide)

theorem taggedPartSetHeader_injective : Function.Injective taggedPartSetHeader := by
  rintro ⟨t, h⟩ ⟨t', h'⟩ heq
  unfold taggedPartSetHeader at heq
  dsimp only at heq
  split_ifs at heq with ht ht' ht'
  · rw [ht, ht', taggedBytes_injective heq]
  · exact absurd heq (taggedBytes_ne_cons h _)
  · exact absurd heq.symm (taggedBytes_ne_cons h' _)
  · rw [cons_append, cons_append] at heq
    have hdec := congrArg Code.uvarint.dec (List.cons.inj heq).2
    rw [Code.uvarint.dec_enc, Code.uvarint.dec_enc, Option.some.injEq, Prod.mk.injEq] at hdec
    rw [zigzag_injective hdec.1, taggedBytes_injective hdec.2]

/-- `Amino.plain` with the part set headers of go-amino. -/
def Amino.tagged : Amino :=
  { Amino.plain with partSetHeaderBytes := taggedPartSetHeader, partSetHeaderBytes_empty := rfl }

namespace VoteSet

theorem tallied_apart_tagged : Function.Injective Amino.tagged.partSetHeaderBytes ∧ (trio 1).Bounded ∧ ∃ fresh voteSet,
      newVoteSet [] 1 0 voteTypePrecommit (trio 1) = some fresh ∧
      run .transparent .tagged fresh unanimous = some voteSet ∧ voteSet.maj23 = some (trioID 7) ∧
      Separated .transparent .tagged unanimous voteSet := by
  have hb : (trio 1).Bounded := ⟨by decide, by decide⟩
  have heval : ((newVoteSet [] 1 0 voteTypePrecommit (trio 1)).bind fun fresh =>
      (run .transparent .tagged fresh unanimous).map (·.maj23)) = some (some (trioID 7)) := by
    decide +kernel
  obtain ⟨fresh, hnew, hmap⟩ := bind_eq_some_iff.1 heval
  obtain ⟨voteSet, hrun, hmaj⟩ := map_eq_some_iff.1 hmap
  have hsame : ∀ v ∈ delivered unanimous, ∀ w ∈ delivered unanimous, v.blockID = w.blockID := by decide +kernel
  refine ⟨taggedPartSetHeader_injective, hb, fresh, voteSet, hnew, hrun, hmaj, ?_⟩
  refine (tallied_apart .transparent .tagged taggedPartSetHeader_injective).2 (trio 1) [] 1 0 voteTypePrecommit fresh
    voteSet unanimous hb (by decide) hnew (fun v hv w hw => ?_) hrun
  rw [hsame v hv w hw]
  exact BlockID.not_shifts_self _ _

def shifted : BlockID × BlockID := (trioID 7, ⟨[7, 8, 2, 18, 1, 8], PartSetHeader.empty⟩)

def shiftedVotes : List Call :=
  adding [trioVote 0 shifted.1, trioVote 1 shifted.1, trioVote 2 shifted.2]

/-- Two block ids with one key: the majority of three is the id that only the last voted for. -/
theorem shifted_majority : shifted.1.key .tagged = shifted.2.key .tagged ∧ shifted.1 ≠ shifted.2 ∧
      (delivered shiftedVotes).filter (fun vote => vote.blockID = shifted.2) = [trioVote 2 shifted.2] ∧
      ∃ fresh voteSet, newVoteSet [] 1 0 voteTypePrecommit (trio 1) = some fresh ∧
        run .transparent .tagged fresh shiftedVotes = some voteSet ∧ voteSet.maj23 = some shifted.2 ∧
        ¬ Separated .transparent .tagged shiftedVotes voteSet := by
  refine ⟨by decide +kernel, by decide, by decide +kernel, ?_⟩
  have heval : ((newVoteSet [] 1 0 voteTypePrecommit (trio 1)).bind fun fresh =>
      (run .transparent .tagged fresh shiftedVotes).map fun voteSet =>
        (voteSet.maj23, voteSet.blockSlot (shifted.1.key .tagged) 0, voteSet.blockSlot (shifted.1.key .tagged) 2)) =
      some (some shifted.2, some (trioVote 0 shifted.1), some (trioVote 2 shifted.2)) := by
    decide +kernel
  obtain ⟨fresh, hnew, hmap⟩ := bind_eq_some_iff.1 heval
  obtain ⟨voteSet, hrun, hfields⟩ := map_eq_some_iff.1 hmap
  simp only [Prod.mk.injEq] at hfields
  obtain ⟨hmaj, h0, h2⟩ := hfields
  refine ⟨fresh, voteSet, hnew, hrun, hmaj, fun hsep => ?_⟩
  exact absurd (hsep.entry _ 0 2 _ _ h0 h2) (by decide)

end VoteSet

end Demars
