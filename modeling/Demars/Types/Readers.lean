import Demars.Types.Majority
import Demars.Types.PartSet

/-!
# What gossip reads of votes and parts

`VoteSetReader` is the interface of `types/vote_set.go` through which a vote set and a commit are read alike, with
the bit arrays of both and of a part set. The shape of a vote set keeps these reads in bounds.
-/

namespace Demars

open List Option

/-! ## Bit arrays of lists -/

def bitsOf (flags : List Bool) : Option BitArray :=
  flags.zipIdx.foldl (fun bA p => BitArray.set bA p.2 p.1) (BitArray.newBitArray flags.length)

structure Sized (n : Nat) (bits : Option BitArray) : Prop where
  nil : n = 0 → bits = none
  wf : ∀ bA, bits = some bA → bA.Wf ∧ bA.bits = n

theorem sized_newBitArray (n : Nat) : Sized n (BitArray.newBitArray n) where
  nil h := by rw [h, BitArray.newBitArray_zero]
  wf _ h := BitArray.wf_newBitArray h

variable {bits : Option BitArray}

theorem Sized.set {n : Nat} (h : Sized n bits) (i : Nat) (v : Bool) : Sized n (BitArray.set bits i v) where
  nil hn := by rw [h.nil hn]; rfl
  wf bA hbA := by
    obtain ⟨bA', hbA', rfl⟩ := map_eq_some_iff.1 hbA
    obtain ⟨hwf, hbits⟩ := h.wf bA' hbA'
    exact ⟨BitArray.wf_setIndex hwf i v, by rw [BitArray.bits_setIndex, hbits]⟩

theorem sized_bitsOf (flags : List Bool) : Sized flags.length (bitsOf flags) := by
  unfold bitsOf
  generalize flags.zipIdx = entries
  have hnew := sized_newBitArray flags.length
  revert hnew
  generalize BitArray.newBitArray flags.length = start
  intro hstart
  induction entries generalizing start with
  | nil => exact hstart
  | cons p entries ih => exact ih _ (hstart.set p.2 p.1)

theorem Sized.raw_bits {n : Nat} (h : Sized n bits) {b : RawBitArray} (hb : bits.map BitArray.raw = some b) :
    b.bits = n := by
  obtain ⟨bA, hbA, rfl⟩ := map_eq_some_iff.1 hb
  rw [BitArray.raw, (h.wf bA hbA).2]

theorem Sized.agreesOf {n : Nat} (h : Sized n bits) (hmem : (n : Int) ≤ maxSliceLen) :
    RawBitArray.AgreesOf (bits.map BitArray.raw) := by
  intro b hb
  obtain ⟨bA, hbA, rfl⟩ := map_eq_some_iff.1 hb
  obtain ⟨hwf, hbits⟩ := h.wf bA hbA
  have hpos : n ≠ 0 := fun hn => by
    rw [h.nil hn] at hbA
    cases hbA
  exact hwf.agrees (by omega) (by omega)

/-! ## The shape of a vote set -/

namespace VoteSet

/-- As many slots and bits as there are validators. -/
structure Shaped (voteSet : VoteSet) : Prop where
  votes : voteSet.votes.length = voteSet.valSet.size
  bits : Sized voteSet.valSet.size voteSet.votesBitArray
  blocks : ∀ key entry, voteSet.votesByBlock.lookup key = some entry →
    entry.votes.length = voteSet.valSet.size ∧ Sized voteSet.valSet.size entry.bitArray

variable {P : Primitives} {A : Amino} {voteSet voteSet' : VoteSet}

theorem shaped_newVoteSet {chainID : Bytes} {height round : Int} {type_ : UInt8} {valSet : ValidatorSet}
    (h : newVoteSet chainID height round type_ valSet = some voteSet) : voteSet.Shaped := by
  unfold newVoteSet at h
  split_ifs at h
  cases h
  refine ⟨length_replicate, sized_newBitArray _, fun key entry hentry => ?_⟩
  simp at hentry

theorem shaped_newBlockVotes (peerMaj23 : Bool) (n : Nat) :
    (BlockVotes.newBlockVotes peerMaj23 n).votes.length = n ∧ Sized n (BlockVotes.newBlockVotes peerMaj23 n).bitArray :=
  ⟨length_replicate, sized_newBitArray n⟩

variable {entry : BlockVotes}

section

variable (h : voteSet.Shaped)
include h

theorem Shaped.insert (key : Bytes) (hlen : entry.votes.length = voteSet.valSet.size)
    (hbits : Sized voteSet.valSet.size entry.bitArray) :
    ({ voteSet with votesByBlock := voteSet.votesByBlock.insert key entry } : VoteSet).Shaped :=
  ⟨h.votes, h.bits, forall_lookup_insert ⟨hlen, hbits⟩ h.blocks⟩

theorem Shaped.recordVote {i : Nat} {vote : Vote} {key : Bytes} {power : Int} {conflicting : Option Vote}
    (hrec : voteSet.recordVote A i vote key power = some (voteSet', conflicting)) : voteSet'.Shaped := by
  obtain ⟨-, -, ⟨sum, rfl, -⟩ | ⟨rfl, -⟩⟩ := recordVote_cases hrec
  · exact ⟨by rw [length_set]; exact h.votes, h.bits.set i true, h.blocks⟩
  · exact h

theorem Shaped.trackedVotes {key : Bytes} {conflicting : Option Vote}
    (ht : voteSet.trackedVotes key conflicting = some entry) :
    entry.votes.length = voteSet.valSet.size ∧ Sized voteSet.valSet.size entry.bitArray := by
  rcases trackedVotes_cases ht with hl | ⟨-, -, rfl⟩
  · exact h.blocks key entry hl
  · exact shaped_newBlockVotes false _

theorem Shaped.countVote {i : Nat} {vote : Vote} {key : Bytes} {power : Int}
    (hlen : entry.votes.length = voteSet.valSet.size) (hbits : Sized voteSet.valSet.size entry.bitArray) :
    (voteSet.countVote i vote key power entry).Shaped := by
  have hcounted : (entry.addVerifiedVote i vote power).votes.length = voteSet.valSet.size ∧
      Sized voteSet.valSet.size (entry.addVerifiedVote i vote power).bitArray := by
    unfold BlockVotes.addVerifiedVote
    split
    · exact ⟨hlen, hbits⟩
    · exact ⟨by rw [length_set, hlen], hbits.set i true⟩
  have htracked := h.insert key hcounted.1 hcounted.2
  unfold VoteSet.countVote
  dsimp only
  split_ifs
  · refine ⟨?_, h.bits, htracked.blocks⟩
    rw [copyVotes, length_zipWith, hcounted.1, h.votes, Nat.min_self]
  · exact htracked

theorem Shaped.addVote {vote : Option Vote} {added : Bool} {err : Option VoteError}
    (hadd : voteSet.addVote P A vote = some (voteSet', added, err)) : voteSet'.Shaped := by
  rcases addVote_cases hadd with ⟨rfl, -⟩ | ⟨vote, i, conflicting, -, -, -, hres, -⟩
  · exact h
  obtain ⟨recorded, hrec, ⟨-, rfl, -⟩ | ⟨entry, ht, rfl, -⟩⟩ := addVerifiedVote_cases hres
  · exact h.recordVote hrec
  · obtain ⟨hlen, hbits⟩ := (h.recordVote hrec).trackedVotes ht
    exact (h.recordVote hrec).countVote hlen hbits

theorem Shaped.setPeerMaj23 (peerID : Bytes) (blockID : BlockID) :
    (voteSet.setPeerMaj23 A peerID blockID).1.Shaped := by
  obtain heq | ⟨-, heq | ⟨entry, heq, hentry⟩⟩ := setPeerMaj23_cases A voteSet peerID blockID <;> rw [heq]
  · exact h
  · exact ⟨h.votes, h.bits, h.blocks⟩
  · refine ⟨h.votes, h.bits, forall_lookup_insert ?_ h.blocks⟩
    rcases hentry with ⟨old, hl, rfl⟩ | ⟨-, rfl⟩
    · exact h.blocks _ old hl
    · exact shaped_newBlockVotes true _

end

end VoteSet

/-! ## Readers -/

/-- `types.VoteSetReader`, with the slots that `GetByIndex` reads. -/
structure VoteSetReader where
  height : Int
  round : Int
  type_ : UInt8
  size : Nat
  isCommit : Bool
  bitArray : Option RawBitArray
  votes : List (Option Vote)

def VoteSet.reader : Option VoteSet → VoteSetReader
  | none => ⟨0, -1, 0, 0, false, none, []⟩
  | some voteSet => ⟨voteSet.height, voteSet.round, voteSet.type_, voteSet.valSet.size, voteSet.isCommit,
      voteSet.votesBitArray.map BitArray.raw, voteSet.votes⟩

/-- `VoteSet.BitArrayByBlockID` of a set that may be `nil`. -/
def VoteSet.bitArrayByBlockID (A : Amino) (voteSet : Option VoteSet) (blockID : BlockID) : Option RawBitArray :=
  voteSet.bind fun voteSet => (voteSet.votesByBlock.lookup (blockID.key A)).bind fun entry =>
    entry.bitArray.map BitArray.raw

def Commit.bitArray (commit : Commit) : Option BitArray := bitsOf (commit.precommits.map Option.isSome)

/-- A commit that may be `nil`; of that only the size is read. -/
def Commit.reader : Option Commit → VoteSetReader
  | none => ⟨0, 0, voteTypePrecommit, 0, false, none, []⟩
  | some commit => ⟨commit.height, commit.round, voteTypePrecommit, commit.precommits.length,
      decide (commit.precommits.length ≠ 0), commit.bitArray.map BitArray.raw, commit.precommits⟩

def PartSet.bitArray (ps : PartSet) : Option BitArray := bitsOf (ps.parts.map Option.isSome)

structure VoteSetReader.Sound (votes : VoteSetReader) : Prop where
  agrees : RawBitArray.AgreesOf votes.bitArray
  bits : ∀ bA, votes.bitArray = some bA → bA.bits = votes.votes.length
  memory : (votes.size : Int) ≤ maxSliceLen

theorem VoteSet.Shaped.reader {voteSet : Option VoteSet} (h : ∀ vs, voteSet = some vs → vs.Shaped)
    (hmem : ((VoteSet.reader voteSet).size : Int) ≤ maxSliceLen) : (VoteSet.reader voteSet).Sound := by
  cases voteSet with
  | none => exact ⟨RawBitArray.agreesOf_none, (fun _ hb => nomatch hb), hmem⟩
  | some vs =>
    have hs := h vs rfl
    refine ⟨hs.bits.agreesOf hmem, fun bA hbA => ?_, hmem⟩
    rw [hs.bits.raw_bits hbA]
    exact congrArg Nat.cast hs.votes.symm

theorem VoteSet.Shaped.bitArrayByBlockID {A : Amino} {voteSet : Option VoteSet}
    (h : ∀ vs, voteSet = some vs → vs.Shaped) (hmem : ((VoteSet.reader voteSet).size : Int) ≤ maxSliceLen)
    (blockID : BlockID) :
    RawBitArray.AgreesOf (VoteSet.bitArrayByBlockID A voteSet blockID) := by
  intro b hb
  obtain ⟨vs, rfl, hvs⟩ := bind_eq_some_iff.1 hb
  obtain ⟨entry, hentry, hbits⟩ := bind_eq_some_iff.1 hvs
  exact ((h vs rfl).blocks _ entry hentry).2.agreesOf hmem b hbits

theorem Commit.sound_reader {commit : Option Commit} (hmem : ((Commit.reader commit).size : Int) ≤ maxSliceLen) :
    (Commit.reader commit).Sound := by
  cases commit with
  | none => exact ⟨RawBitArray.agreesOf_none, (fun _ hb => nomatch hb), hmem⟩
  | some commit =>
    have hs := sized_bitsOf (commit.precommits.map Option.isSome)
    rw [length_map] at hs
    exact ⟨hs.agreesOf hmem, fun bA hbA => hs.raw_bits hbA, hmem⟩

theorem PartSet.agreesOf_bitArray {ps : PartSet} (hmem : (ps.parts.length : Int) ≤ maxSliceLen) :
    RawBitArray.AgreesOf (ps.bitArray.map BitArray.raw) ∧ ∀ bA, ps.bitArray.map BitArray.raw = some bA →
    bA.bits = ps.parts.length := by
  have hs := sized_bitsOf (ps.parts.map Option.isSome)
  rw [length_map] at hs
  exact ⟨hs.agreesOf hmem, fun bA hbA => hs.raw_bits hbA⟩

end Demars
