import Demars.Types.VoteSet

/-!
# The tally of a vote set

Three structures of a `VoteSet` say the same thing: slots with votes, a bit array and a sum. `Tallied` is their
agreement, for the set as a whole and for each entry of `votesByBlock`, and `VoteSet.Inv` the invariant of a set.
-/

namespace Demars

open Machine List Option

/-- A slot holds a vote. -/
def present (votes : List (Option Vote)) (i : Nat) : Bool := ((votes[i]?).join).isSome

theorem present_set {votes : List (Option Vote)} {i : Nat} (hi : i < votes.length) (v : Vote) (j : Nat) :
    present (votes.set i (some v)) j = if j = i then true else present votes j := by
  by_cases hji : j = i
  · subst hji
    simp [present, hi]
  · simp [present, getElem?_set_ne (Ne.symm hji), hji]

theorem present_replicate (n i : Nat) : present (List.replicate n none) i = false := by
  unfold present
  rw [getElem?_replicate]
  split_ifs <;> rfl

/-- Bits and sum are those of the votes. -/
structure Tallied (valSet : ValidatorSet) (bits : Option BitArray) (votes : List (Option Vote)) (sum : Int) : Prop where
  length : votes.length = valSet.size
  nil : bits = none → valSet.size = 0
  wf : ∀ bA, bits = some bA → bA.Wf ∧ bA.bits = valSet.size
  bit : ∀ i, BitArray.get bits i = present votes i
  sum_eq : sum = valSet.powerOf (present votes)

namespace Tallied

variable {valSet : ValidatorSet} {bits : Option BitArray} {votes : List (Option Vote)} {sum : Int} {i : Nat}

theorem empty (valSet : ValidatorSet) :
    Tallied valSet (BitArray.newBitArray valSet.size) (List.replicate valSet.size none) 0 where
  length := length_replicate
  nil := fun h => by
    by_contra h0
    exact BitArray.newBitArray_ne_none h0 h
  wf := fun _ h => BitArray.wf_newBitArray h
  bit := fun i => by
    rw [present_replicate]
    cases h : BitArray.newBitArray valSet.size with
    | none => rfl
    | some bA => exact BitArray.getIndex_newBitArray h i
  sum_eq := by
    rw [← ValidatorSet.powerOf_false valSet]
    exact ValidatorSet.powerOf_congr fun i _ => (present_replicate _ i).symm

section

variable (h : Tallied valSet bits votes sum)
include h

theorem bit_set (hi : i < valSet.size) (v : Vote) :
    (BitArray.set bits i true = none → valSet.size = 0) ∧ (∀ bA, BitArray.set bits i true = some bA → bA.Wf ∧
      bA.bits = valSet.size) ∧
      ∀ j, BitArray.get (BitArray.set bits i true) j = present (votes.set i (some v)) j := by
  cases hbits : bits with
  | none => exact absurd (h.nil hbits) (by omega)
  | some bA =>
    obtain ⟨hwf, hn⟩ := h.wf bA hbits
    have hbit := h.bit
    rw [hbits] at hbit
    refine ⟨fun h => absurd h (by simp [BitArray.set]), ?_, fun j => ?_⟩
    · intro bA' h'
      cases Option.some.inj h'
      exact ⟨BitArray.wf_setIndex hwf i true, by rw [BitArray.bits_setIndex, hn]⟩
    · have hget := BitArray.getIndex_setIndex hwf (show i < bA.bits by omega) true j
      rw [present_set (by rw [h.length]; exact hi), ← hbit j]
      simpa [BitArray.get, BitArray.set] using hget

theorem insert (hb : valSet.Bounded) (hi : i < valSet.size) (hnone : present votes i = false) (v : Vote) :
    Tallied valSet (BitArray.set bits i true) (votes.set i (some v)) (wrap64 (sum + valSet.power i)) := by
  obtain ⟨hnil, hwf, hbit⟩ := h.bit_set hi v
  have hsum : valSet.powerOf (present (votes.set i (some v))) = valSet.powerOf (present votes) + valSet.power i :=
    ValidatorSet.powerOf_insert hi hnone fun j _ => present_set (by rw [h.length]; exact hi) v j
  refine ⟨by rw [length_set, h.length], hnil, hwf, hbit, ?_⟩
  have hnonneg := ValidatorSet.powerOf_nonneg hb (present (votes.set i (some v)))
  have hle := (ValidatorSet.powerOf_le_sumPower hb (present (votes.set i (some v)))).trans hb.sum_le
  rw [hsum] at hnonneg hle
  rw [hsum, h.sum_eq, wrap64_eq (by unfold minInt64; omega) hle]

theorem replace (hi : i < valSet.size) (hsome : present votes i = true) (v : Vote) :
    Tallied valSet (BitArray.set bits i true) (votes.set i (some v)) sum := by
  obtain ⟨hnil, hwf, hbit⟩ := h.bit_set hi v
  refine ⟨by rw [length_set, h.length], hnil, hwf, hbit, ?_⟩
  rw [h.sum_eq]
  refine ValidatorSet.powerOf_congr fun j _ => ?_
  rw [present_set (by rw [h.length]; exact hi)]
  split_ifs with hji
  · rw [hji, hsome]
  · rfl

theorem of_present_eq {votes' : List (Option Vote)} (hlen : votes'.length = votes.length)
    (heq : ∀ i, present votes' i = present votes i) : Tallied valSet bits votes' sum := by
  refine ⟨by rw [hlen, h.length], h.nil, h.wf, fun i => by rw [heq, h.bit], ?_⟩
  rw [h.sum_eq]
  exact ValidatorSet.powerOf_congr fun i _ => (heq i).symm

theorem sum_le (hb : valSet.Bounded) {bits' : Option BitArray}
    {votes' : List (Option Vote)} {sum' : Int} (h' : Tallied valSet bits' votes' sum')
    (hle : ∀ i, present votes i = true → present votes' i = true) : sum ≤ sum' := by
  rw [h.sum_eq, h'.sum_eq]
  exact ValidatorSet.powerOf_mono hb fun i _ => hle i

end

end Tallied

namespace VoteSet

/-! ## The invariant -/

section

variable (P : Primitives) (A : Amino)

/-- A verified vote of validator `i` for this vote set. -/
structure CountsFor (chainID : Bytes) (height round : Int) (type_ : UInt8) (valSet : ValidatorSet) (i : Nat)
    (vote : Vote) : Prop where
  index : vote.validatorIndex = i
  height : vote.height = height
  round : vote.round = round
  type_ : vote.type_ = type_
  signed : ∃ val key, valSet.validators[i]? = some val ∧ val.pubKey = some key ∧
    vote.validatorAddress = val.address ∧ vote.verify P A chainID key = none

abbrev Counts (voteSet : VoteSet) (i : Nat) (vote : Vote) : Prop :=
  CountsFor P A voteSet.chainID voteSet.height voteSet.round voteSet.type_ voteSet.valSet i vote

theorem CountsFor.lt_size {P : Primitives} {A : Amino} {chainID : Bytes} {height round : Int} {type_ : UInt8}
    {valSet : ValidatorSet} {i : Nat} {vote : Vote} (h : CountsFor P A chainID height round type_ valSet i vote) :
    i < valSet.size := by
  obtain ⟨val, key, hval, -⟩ := h.signed
  exact (List.getElem?_eq_some_iff.1 hval).1

/-- All votes are tallied, in the set and in each entry. -/
structure VotesInv (voteSet : VoteSet) : Prop where
  tallied : Tallied voteSet.valSet voteSet.votesBitArray voteSet.votes voteSet.sum
  counts : ∀ i vote, voteSet.slot i = some vote → Counts P A voteSet i vote
  blocks : ∀ key entry, voteSet.votesByBlock.lookup key = some entry →
    Tallied voteSet.valSet entry.bitArray entry.votes entry.sum
  blockCounts : ∀ key i vote, voteSet.blockSlot key i = some vote →
    Counts P A voteSet i vote ∧ vote.blockID.key A = key ∧ present voteSet.votes i = true

/-- Moreover `maj23` is set once an entry has the quorum. -/
structure Inv (voteSet : VoteSet) : Prop extends VotesInv P A voteSet where
  maj23_some : ∀ blockID, voteSet.maj23 = some blockID →
    (∃ entry, voteSet.votesByBlock.lookup (blockID.key A) = some entry ∧ voteSet.quorum ≤ entry.sum) ∧
      ∃ i vote, voteSet.blockSlot (blockID.key A) i = some vote ∧ vote.blockID = blockID
  maj23_none : voteSet.maj23 = none →
    ∀ key entry, voteSet.votesByBlock.lookup key = some entry → entry.sum < voteSet.quorum

end

variable {P : Primitives} {A : Amino} {voteSet : VoteSet}

theorem present_eq_isSome (i : Nat) : present voteSet.votes i = (voteSet.slot i).isSome := rfl

variable {i : Nat}

theorem slot_set (hi : i < voteSet.votes.length) (v : Vote) (j : Nat) :
    (((voteSet.votes.set i (some v))[j]?).join) = if j = i then some v else voteSet.slot j := by
  by_cases hji : j = i
  · subst hji
    simp [hi]
  · simp [slot, getElem?_set_ne (Ne.symm hji), hji]

theorem blockSlot_insert (key : Bytes) (entry : BlockVotes) (key' : Bytes) (i : Nat) :
    blockSlot { voteSet with votesByBlock := voteSet.votesByBlock.insert key entry } key' i =
      if key' = key then entry.getByIndex i else voteSet.blockSlot key' i := by
  unfold blockSlot
  by_cases hk : key' = key
  · subst hk
    simp
  · simp [hk]

theorem newVoteSet_eq {chainID : Bytes} {height round : Int} {type_ : UInt8} {valSet : ValidatorSet}
    (h : newVoteSet chainID height round type_ valSet = some voteSet) :
    voteSet.valSet = valSet ∧ voteSet.maj23 = none := by
  unfold newVoteSet at h
  split_ifs at h
  cases h
  exact ⟨rfl, rfl⟩

theorem newVoteSet_inv {chainID : Bytes} {height round : Int} {type_ : UInt8} {valSet : ValidatorSet}
    (h : newVoteSet chainID height round type_ valSet = some voteSet) : Inv P A voteSet := by
  unfold newVoteSet at h
  split_ifs at h
  cases h
  refine ⟨⟨Tallied.empty valSet, ?_, ?_, ?_⟩, ?_, ?_⟩
  · intro i vote h
    have := present_replicate valSet.size i
    simp only [slot] at h
    simp [present, h] at this
  · intro key entry h
    simp at h
  · intro key i vote h
    simp [blockSlot] at h
  · intro blockID h
    simp at h
  · intro _ key entry h
    simp at h

/-- What an entry keeps. -/
structure EntryInv (P : Primitives) (A : Amino) (voteSet : VoteSet) (key : Bytes) (entry : BlockVotes) : Prop where
  tallied : Tallied voteSet.valSet entry.bitArray entry.votes entry.sum
  counts : ∀ i vote, entry.getByIndex i = some vote →
    Counts P A voteSet i vote ∧ vote.blockID.key A = key ∧ present voteSet.votes i = true

variable {key : Bytes} {voteSet' : VoteSet} {added : Bool} {err : Option VoteError} {power : Int} {entry : BlockVotes}

theorem forall_lookup_insert {m : AList fun _ : Bytes => BlockVotes} {φ : Bytes → BlockVotes → Prop}
    (hentry : φ key entry) (h : ∀ k e, m.lookup k = some e → φ k e) (k : Bytes) (e : BlockVotes)
    (hl : (m.insert key entry).lookup k = some e) : φ k e := by
  by_cases hk : k = key
  · subst hk
    rw [AList.lookup_insert] at hl
    cases hl
    exact hentry
  · rw [AList.lookup_insert_ne hk] at hl
    exact h k e hl

theorem VotesInv.insertBlock (h : VotesInv P A voteSet) (he : EntryInv P A voteSet key entry) :
    VotesInv P A { voteSet with votesByBlock := voteSet.votesByBlock.insert key entry } := by
  refine ⟨h.tallied, h.counts, forall_lookup_insert he.tallied h.blocks, fun key' i vote hs => ?_⟩
  rw [blockSlot_insert] at hs
  split_ifs at hs with hk
  · subst hk
    exact he.counts i vote hs
  · exact h.blockCounts key' i vote hs

def MajorityReached (A : Amino) (voteSet : VoteSet) : Prop :=
  ∀ blockID, voteSet.maj23 = some blockID →
    (∃ entry, voteSet.votesByBlock.lookup (blockID.key A) = some entry ∧ voteSet.quorum ≤ entry.sum) ∧
      ∃ i vote, voteSet.blockSlot (blockID.key A) i = some vote ∧ vote.blockID = blockID

theorem MajorityReached.insertBlock (h : MajorityReached A voteSet)
    (hsome : ∀ blockID, voteSet.maj23 = some blockID → blockID.key A = key →
      voteSet.quorum ≤ entry.sum ∧ ∀ i vote, voteSet.blockSlot key i = some vote → entry.getByIndex i = some vote) :
    MajorityReached A { voteSet with votesByBlock := voteSet.votesByBlock.insert key entry } := by
  intro blockID hmaj
  obtain ⟨⟨entry', hl, hq⟩, i, vote, hs, hv⟩ := h blockID hmaj
  by_cases hk : blockID.key A = key
  · obtain ⟨hq', hkeep⟩ := hsome blockID hmaj hk
    refine ⟨⟨entry, by rw [hk]; exact AList.lookup_insert _, hq'⟩, i, vote, ?_, hv⟩
    rw [blockSlot_insert, if_pos hk]
    exact hkeep i vote (by rw [← hk]; exact hs)
  · refine ⟨⟨entry', by simpa [AList.lookup_insert_ne hk] using hl, hq⟩, i, vote, ?_, hv⟩
    rw [blockSlot_insert, if_neg hk]
    exact hs

theorem Inv.insertBlock (h : Inv P A voteSet) (he : EntryInv P A voteSet key entry)
    (hsome : MajorityReached A { voteSet with votesByBlock := voteSet.votesByBlock.insert key entry })
    (hnone : voteSet.maj23 = none → entry.sum < voteSet.quorum) :
    Inv P A { voteSet with votesByBlock := voteSet.votesByBlock.insert key entry } :=
  ⟨h.toVotesInv.insertBlock he, hsome, fun hmaj => forall_lookup_insert (hnone hmaj) (h.maj23_none hmaj)⟩

/-! ## What one call can do -/

/-- The error accuses nobody. -/
def VoteError.Harmless (err : Option VoteError) : Prop :=
  ∀ pubKey voteA voteB, err ≠ some (.conflictingVotes pubKey voteA voteB)

variable {vote? : Option Vote}

/-- `AddVote` ends with an error that accuses nobody, panics on a missing signature or key, or goes on with a verified
vote that was not known. -/
theorem addVote_result {res : Option (VoteSet × Bool × Option VoteError)} (h : voteSet.addVote P A vote? = res) :
    (∃ e, VoteError.Harmless e ∧ res = some (voteSet, false, e)) ∨
      (res = none ∧ ((∃ i key existing, voteSet.getVote A i key = some existing ∧ existing.signature = none) ∨
        ∃ val ∈ voteSet.valSet.validators, val.pubKey = none)) ∨
      ∃ vote i val, vote? = some vote ∧ Counts P A voteSet i vote ∧ voteSet.getVote A i (vote.blockID.key A) = none ∧
        voteSet.valSet.validators[i]? = some val ∧
        res = (voteSet.addVerifiedVote A i vote (vote.blockID.key A) (voteSet.valSet.power i)).bind fun r =>
          if r.2 = (false, none) then none else some (r.1, r.2.1, r.2.2.map (.conflictingVotes val.pubKey · vote)) := by
  cases vote? with
  | none => exact .inl ⟨_, by simp [VoteError.Harmless], h.symm⟩
  | some vote =>
    simp only [addVote] at h
    split_ifs at h with hidx haddr hstep
    iterate 3 exact .inl ⟨_, by simp [VoteError.Harmless], h.symm⟩
    simp only [not_or, not_ne_iff] at hstep
    cases hval : voteSet.valSet.getByIndex vote.validatorIndex with
    | none =>
      rw [hval] at h
      exact .inl ⟨_, by simp [VoteError.Harmless], h.symm⟩
    | some val =>
      simp only [hval] at h
      split_ifs at h with hown
      · exact .inl ⟨_, by simp [VoteError.Harmless], h.symm⟩
      obtain ⟨h0, hval'⟩ := ValidatorSet.getByIndex_eq_some.1 hval
      cases hget : voteSet.getVote A vote.validatorIndex.toNat (vote.blockID.key A) with
      | some existing =>
        simp only [hget] at h
        cases hsig : existing.signature with
        | none => exact .inr (.inl ⟨by rw [← h, hsig]; rfl, .inl ⟨_, _, existing, hget, hsig⟩⟩)
        | some signature =>
          rw [hsig, Option.map_some] at h
          split_ifs at h <;> exact .inl ⟨_, by simp [VoteError.Harmless], h.symm⟩
      | none =>
        simp only [hget] at h
        cases hkey : val.pubKey with
        | none => exact .inr (.inl ⟨by rw [← h, hkey]; rfl, .inr ⟨val, mem_of_getElem? hval', hkey⟩⟩)
        | some key =>
          simp only [hkey, bind_some] at h
          cases hverify : vote.verify P A voteSet.chainID key with
          | some err =>
            rw [hverify] at h
            refine .inl ⟨_, ?_, h.symm⟩
            unfold Vote.verify at hverify
            split_ifs at hverify <;> cases hverify <;> simp [VoteError.Harmless]
          | none =>
            have hcounts : Counts P A voteSet vote.validatorIndex.toNat vote :=
              ⟨by omega, hstep.1, hstep.2.1, hstep.2.2, val, key, hval', hkey, not_ne_iff.1 hown, hverify⟩
            refine .inr (.inr ⟨vote, _, val, rfl, hcounts, hget, hval', ?_⟩)
            simp only [hverify, ← ValidatorSet.power_eq hval'] at h
            rw [← h, hkey]
            rcases voteSet.addVerifiedVote A _ vote _ _ with - | ⟨voteSet', - | -, - | conflicting⟩ <;> rfl

/-- `AddVote` leaves the set as it is, or adds a verified vote that was not known; an error accuses the validator of
that vote and of the one that it conflicts with. -/
theorem addVote_cases (h : voteSet.addVote P A vote? = some (voteSet', added, err)) :
    (voteSet' = voteSet ∧ added = false ∧ VoteError.Harmless err) ∨ ∃ vote i conflicting, vote? = some vote ∧
    Counts P A voteSet i vote ∧
        voteSet.getVote A i (vote.blockID.key A) = none ∧
        voteSet.addVerifiedVote A i vote (vote.blockID.key A) (voteSet.valSet.power i) =
          some (voteSet', added, conflicting) ∧
        ∃ val, voteSet.valSet.validators[i]? = some val ∧
          err = conflicting.map (.conflictingVotes val.pubKey · vote) := by
  rcases addVote_result h with ⟨e, he, hres⟩ | ⟨hres, -⟩ | ⟨vote, i, val, hv, hc, hget, hval, hres⟩
  · cases hres
    exact .inl ⟨rfl, rfl, he⟩
  · cases hres
  · obtain ⟨⟨_, _, conflicting⟩, hadd, hres⟩ := bind_eq_some_iff.1 hres.symm
    split_ifs at hres
    cases hres
    exact .inr ⟨vote, i, conflicting, hv, hc, hget, hadd, val, hval, rfl⟩

theorem getVote_eq_none (h : voteSet.getVote A i key = none) :
    (∀ existing, voteSet.slot i = some existing → existing.blockID.key A ≠ key) ∧ voteSet.blockSlot key i = none := by
  unfold getVote at h
  cases hs : voteSet.slot i with
  | none => exact ⟨fun _ h => absurd h (by simp), by simpa [hs] using h⟩
  | some existing =>
    simp only [hs] at h
    split_ifs at h with hk
    exact ⟨fun e he => by cases Option.some.inj he; exact hk, h⟩

variable {vote : Vote} {conflicting : Option Vote}

theorem addVerifiedVote_cases (h : voteSet.addVerifiedVote A i vote key power = some (voteSet', added, conflicting)) :
    ∃ recorded, voteSet.recordVote A i vote key power = some (recorded, conflicting) ∧
      ((recorded.trackedVotes key conflicting = none ∧ voteSet' = recorded ∧ added = false) ∨
        ∃ entry, recorded.trackedVotes key conflicting = some entry ∧
          voteSet' = recorded.countVote i vote key power entry ∧ added = true) := by
  unfold addVerifiedVote at h
  split at h
  · cases h
  next recorded conflicting' hrec =>
    split at h
    next ht =>
      cases h
      exact ⟨_, hrec, .inl ⟨ht, rfl, rfl⟩⟩
    next entry ht =>
      cases h
      exact ⟨_, hrec, .inr ⟨entry, ht, rfl, rfl⟩⟩

/-- What `recordVote` keeps: everything but the slots, the bits and the sum. -/
structure SameBlocks (voteSet voteSet' : VoteSet) : Prop where
  chainID : voteSet'.chainID = voteSet.chainID
  height : voteSet'.height = voteSet.height
  round : voteSet'.round = voteSet.round
  type_ : voteSet'.type_ = voteSet.type_
  valSet : voteSet'.valSet = voteSet.valSet
  maj23 : voteSet'.maj23 = voteSet.maj23
  votesByBlock : voteSet'.votesByBlock = voteSet.votesByBlock
  peerMaj23s : voteSet'.peerMaj23s = voteSet.peerMaj23s

theorem VotesInv.setSlot (h : VotesInv P A voteSet) (hc : Counts P A voteSet i vote)
    {bits : Option BitArray} {sum : Int} (ht : Tallied voteSet.valSet bits (voteSet.votes.set i (some vote)) sum) :
    VotesInv P A { voteSet with votes := voteSet.votes.set i (some vote), votesBitArray := bits, sum := sum } := by
  have hi : i < voteSet.votes.length := by rw [h.tallied.length]; exact hc.lt_size
  refine ⟨ht, fun j v hs => ?_, h.blocks, fun key j v hs => ?_⟩
  · rw [slot, slot_set hi] at hs
    split_ifs at hs with hji
    · cases Option.some.inj hs
      rw [hji]
      exact hc
    · exact h.counts j v hs
  · obtain ⟨hcj, hkey, hp⟩ := h.blockCounts key j v hs
    refine ⟨hcj, hkey, ?_⟩
    rw [present_set hi]
    split_ifs
    · rfl
    · exact hp

/-- A vote goes into an empty slot, or replaces another one if it is for the majority. -/
theorem recordVote_cases {recorded : VoteSet}
    (h : voteSet.recordVote A i vote key power = some (recorded, conflicting)) :
    conflicting = voteSet.slot i ∧ (∀ existing, conflicting = some existing → existing.blockID ≠ vote.blockID) ∧
      ((∃ sum, recorded = { voteSet with
          votes := voteSet.votes.set i (some vote), votesBitArray := BitArray.set voteSet.votesBitArray i true,
            sum := sum } ∧
          (conflicting = none ∨ ∃ blockID, voteSet.maj23 = some blockID ∧ blockID.key A = key)) ∨
        recorded = voteSet ∧ conflicting ≠ none ∧ ∀ blockID, voteSet.maj23 = some blockID → blockID.key A ≠ key) := by
  unfold recordVote at h
  split at h
  next existing hs =>
    split_ifs at h with hne hmaj <;> cases h
    · refine ⟨hs.symm, by rintro _ ⟨⟩; exact hne, .inl ⟨_, rfl, .inr ?_⟩⟩
      simpa [Option.any_eq_true] using hmaj
    · refine ⟨hs.symm, by rintro _ ⟨⟩; exact hne, .inr ⟨rfl, by simp, fun blockID hb hk => hmaj ?_⟩⟩
      simp [hb, hk]
  next hs =>
    cases h
    exact ⟨hs.symm, nofun, .inl ⟨_, rfl, .inl rfl⟩⟩

theorem recordVote_sameBlocks {recorded : VoteSet}
    (h : voteSet.recordVote A i vote key power = some (recorded, conflicting)) : SameBlocks voteSet recorded := by
  obtain ⟨-, -, ⟨sum, rfl, -⟩ | ⟨rfl, -⟩⟩ := recordVote_cases h <;> exact ⟨rfl, rfl, rfl, rfl, rfl, rfl, rfl, rfl⟩

/-- `recordVote` does not panic on a new vote, and keeps the invariant of the votes. -/
theorem recordVote_spec (h : VotesInv P A voteSet) (hb : voteSet.valSet.Bounded)
    (hc : Counts P A voteSet i vote) (hget : voteSet.getVote A i (vote.blockID.key A) = none) : ∃ recorded conflicting,
      voteSet.recordVote A i vote (vote.blockID.key A) (voteSet.valSet.power i) = some (recorded, conflicting) ∧
        VotesInv P A recorded ∧ SameBlocks voteSet recorded ∧ present recorded.votes i = true := by
  have hi : i < voteSet.votes.length := by rw [h.tallied.length]; exact hc.lt_size
  have hpres : present (voteSet.votes.set i (some vote)) i = true := by rw [present_set hi, if_pos rfl]
  unfold recordVote
  cases hs : voteSet.slot i with
  | none =>
    refine ⟨_, _, rfl, ?_, ⟨rfl, rfl, rfl, rfl, rfl, rfl, rfl, rfl⟩, hpres⟩
    exact h.setSlot hc (h.tallied.insert hb hc.lt_size (by rw [present_eq_isSome, hs]; rfl) vote)
  | some existing =>
    have hne : existing.blockID ≠ vote.blockID := fun heq => (getVote_eq_none hget).1 existing hs (by rw [heq])
    have hold : present voteSet.votes i = true := by rw [present_eq_isSome, hs]; rfl
    simp only [if_neg hne]
    split_ifs
    · refine ⟨_, _, rfl, ?_, ⟨rfl, rfl, rfl, rfl, rfl, rfl, rfl, rfl⟩, hpres⟩
      exact h.setSlot hc (h.tallied.replace hc.lt_size hold vote)
    · exact ⟨_, _, rfl, h, ⟨rfl, rfl, rfl, rfl, rfl, rfl, rfl, rfl⟩, hold⟩

theorem SameBlocks.counts (hsame : SameBlocks voteSet voteSet') (hc : Counts P A voteSet i vote) :
    Counts P A voteSet' i vote := by
  rw [Counts, hsame.chainID, hsame.height, hsame.round, hsame.type_, hsame.valSet]
  exact hc

theorem SameBlocks.blockSlot (hsame : SameBlocks voteSet voteSet') : voteSet'.blockSlot = voteSet.blockSlot := by
  funext key i
  rw [VoteSet.blockSlot, hsame.votesByBlock, VoteSet.blockSlot]

theorem MajorityReached.of_sameBlocks (h : MajorityReached A voteSet)
    (hsame : SameBlocks voteSet voteSet') : MajorityReached A voteSet' := by
  intro blockID hmaj
  rw [hsame.maj23] at hmaj
  obtain ⟨hentry, i, vote, hs, hv⟩ := h blockID hmaj
  rw [hsame.votesByBlock, quorum, hsame.valSet]
  exact ⟨hentry, i, vote, by rw [hsame.blockSlot]; exact hs, hv⟩

/-! ## Counting in an entry -/

theorem getByIndex_addVerifiedVote (hi : i < entry.votes.length)
    (hnone : entry.getByIndex i = none) (vote : Vote) (power : Int) (j : Nat) :
    (entry.addVerifiedVote i vote power).getByIndex j = if j = i then some vote else entry.getByIndex j := by
  rw [BlockVotes.addVerifiedVote, hnone]
  by_cases hji : j = i
  · subst hji
    simp [BlockVotes.getByIndex, hi]
  · simp [BlockVotes.getByIndex, getElem?_set_ne (Ne.symm hji), hji]

theorem getByIndex_newBlockVotes (peer : Bool) (n i : Nat) : (BlockVotes.newBlockVotes peer n).getByIndex i = none := by
  have := present_replicate n i
  simpa [present, BlockVotes.newBlockVotes, BlockVotes.getByIndex] using this

theorem trackedVotes_cases (ht : voteSet.trackedVotes key conflicting = some entry) :
    voteSet.votesByBlock.lookup key = some entry ∨
      voteSet.votesByBlock.lookup key = none ∧ conflicting = none ∧
      entry = BlockVotes.newBlockVotes false voteSet.valSet.size := by
  unfold trackedVotes at ht
  split at ht
  next entry' hl =>
    split_ifs at ht
    cases ht
    exact .inl hl
  next hl =>
    split_ifs at ht with hconf
    cases ht
    exact .inr ⟨hl, by simpa using hconf, rfl⟩

theorem getByIndex_tracked (ht : voteSet.trackedVotes key conflicting = some entry) (j : Nat) :
    entry.getByIndex j = voteSet.blockSlot key j := by
  rcases trackedVotes_cases ht with hl | ⟨hl, -, rfl⟩
  · simp [blockSlot, hl]
  · rw [getByIndex_newBlockVotes, blockSlot, hl]
    rfl

theorem trackedVotes_spec (h : VotesInv P A voteSet) (ht : voteSet.trackedVotes key conflicting = some entry) :
    Tallied voteSet.valSet entry.bitArray entry.votes entry.sum ∧
      (voteSet.votesByBlock.lookup key = some entry ∨ (voteSet.votesByBlock.lookup key = none ∧ entry.sum = 0)) := by
  rcases trackedVotes_cases ht with hl | ⟨hl, -, rfl⟩
  · exact ⟨h.blocks key entry hl, .inl hl⟩
  · exact ⟨Tallied.empty voteSet.valSet, .inr ⟨hl, rfl⟩⟩

theorem slot_copyVotes {blockVotes votes : List (Option Vote)} (hlen : blockVotes.length = votes.length) (j : Nat) :
    ((copyVotes blockVotes votes)[j]?).join = ((blockVotes[j]?).join).or ((votes[j]?).join) := by
  unfold copyVotes
  by_cases hj : j < votes.length
  · simp [hj, hlen]
  · simp [show votes.length ≤ j by omega, show blockVotes.length ≤ j by omega]

theorem VotesInv.copyVotes (h : VotesInv P A voteSet) (he : EntryInv P A voteSet key entry) (maj23 : Option BlockID) :
    VotesInv P A { voteSet with votes := VoteSet.copyVotes entry.votes voteSet.votes, maj23 := maj23 } := by
  have hlen : entry.votes.length = voteSet.votes.length := by rw [he.tallied.length, h.tallied.length]
  have hpres : ∀ j, present (VoteSet.copyVotes entry.votes voteSet.votes) j = present voteSet.votes j := by
    intro j
    unfold present
    rw [slot_copyVotes hlen]
    cases hj : entry.getByIndex j with
    | none =>
      rw [BlockVotes.getByIndex] at hj
      rw [hj, none_or]
    | some v =>
      have hp := (he.counts j v hj).2.2
      unfold present at hp
      rw [BlockVotes.getByIndex] at hj
      rw [hj, hp]
      rfl
  refine ⟨h.tallied.of_present_eq ?_ hpres, ?_, h.blocks, ?_⟩
  · rw [VoteSet.copyVotes, length_zipWith, hlen, Nat.min_self]
  · intro j v hs
    rw [slot, slot_copyVotes hlen] at hs
    rcases or_eq_some_iff.1 hs with hj | ⟨-, hj⟩
    · exact (he.counts j v hj).1
    · exact h.counts j v hj
  · intro key' j v hs
    obtain ⟨hc, hk, hp⟩ := h.blockCounts key' j v hs
    exact ⟨hc, hk, by rw [hpres]; exact hp⟩

theorem countVote_votesInv (h : VotesInv P A voteSet)
    (he : EntryInv P A voteSet key (entry.addVerifiedVote i vote power)) :
    VotesInv P A (voteSet.countVote i vote key power entry) := by
  dsimp only [countVote]
  split_ifs
  · exact (h.insertBlock he).copyVotes ⟨he.tallied, he.counts⟩ _
  · exact h.insertBlock he

section

variable (hb : voteSet.valSet.Bounded) {i : Nat} {vote : Vote} (hc : Counts P A voteSet i vote)
  (hp : present voteSet.votes i = true) {conflicting : Option Vote} {entry : BlockVotes}
  (ht : voteSet.trackedVotes (vote.blockID.key A) conflicting = some entry)
  (hnone : voteSet.blockSlot (vote.blockID.key A) i = none)
include hb hc hp ht hnone

theorem counted_spec (h : VotesInv P A voteSet) :
    EntryInv P A voteSet (vote.blockID.key A) (entry.addVerifiedVote i vote (voteSet.valSet.power i)) ∧
      entry.sum ≤ (entry.addVerifiedVote i vote (voteSet.valSet.power i)).sum ∧
      (∀ j, (entry.addVerifiedVote i vote (voteSet.valSet.power i)).getByIndex j =
        if j = i then some vote else voteSet.blockSlot (vote.blockID.key A) j) := by
  obtain ⟨htal, -⟩ := trackedVotes_spec h ht
  have hslot := getByIndex_tracked ht
  have hfree : entry.getByIndex i = none := by rw [hslot, hnone]
  have hi : i < entry.votes.length := by rw [htal.length]; exact hc.lt_size
  have hget : ∀ j, (entry.addVerifiedVote i vote (voteSet.valSet.power i)).getByIndex j =
      if j = i then some vote else voteSet.blockSlot (vote.blockID.key A) j := fun j => by
    rw [getByIndex_addVerifiedVote hi hfree, hslot]
  have habsent : present entry.votes i = false := by
    have : present entry.votes i = (entry.getByIndex i).isSome := rfl
    rw [this, hfree]
    rfl
  have hnew : Tallied voteSet.valSet (entry.addVerifiedVote i vote (voteSet.valSet.power i)).bitArray
      (entry.addVerifiedVote i vote (voteSet.valSet.power i)).votes
      (entry.addVerifiedVote i vote (voteSet.valSet.power i)).sum := by
    rw [BlockVotes.addVerifiedVote, hfree]
    exact htal.insert hb hc.lt_size habsent vote
  refine ⟨⟨hnew, fun j v hj => ?_⟩, htal.sum_le hb hnew fun j hj => ?_, hget⟩
  · rw [hget] at hj
    split_ifs at hj with hji
    · cases Option.some.inj hj
      rw [hji]
      exact ⟨hc, rfl, hp⟩
    · exact h.blockCounts _ j v hj
  · have hpres : ∀ e : BlockVotes, present e.votes j = (e.getByIndex j).isSome := fun _ => rfl
    rw [hpres, hget]
    rw [hpres, hslot] at hj
    split_ifs
    · rfl
    · exact hj

/-- Counting keeps a majority, and finds a first one where an entry reaches the quorum. -/
theorem countVote_reached (h : VotesInv P A voteSet) (hr : MajorityReached A voteSet) :
    MajorityReached A (voteSet.countVote i vote (vote.blockID.key A) (voteSet.valSet.power i) entry) := by
  obtain ⟨-, hentry⟩ := trackedVotes_spec h ht
  obtain ⟨-, hmono, hget⟩ := counted_spec hb hc hp ht hnone h
  dsimp only [countVote]
  split_ifs with hcross
  · intro blockID heq
    cases Option.some.inj heq
    refine ⟨⟨_, AList.lookup_insert _, hcross.2.1⟩, i, vote, ?_, rfl⟩
    show blockSlot { voteSet with votesByBlock := voteSet.votesByBlock.insert _ _ } _ i = some vote
    rw [blockSlot_insert, if_pos rfl, hget, if_pos rfl]
  · refine hr.insertBlock fun blockID hmaj hk => ⟨?_, fun j v hj => ?_⟩
    · obtain ⟨⟨entry', hl, hq⟩, -⟩ := hr blockID hmaj
      rw [hk] at hl
      rcases hentry with hl' | ⟨hl', -⟩
      · rw [hl] at hl'
        cases Option.some.inj hl'
        exact hq.trans hmono
      · rw [hl] at hl'
        exact absurd hl' (by simp)
    · rw [hget]
      split_ifs with hji
      · rw [hji, hnone] at hj
        exact absurd hj (by simp)
      · exact hj

theorem countVote_inv (h : Inv P A voteSet) (hq : 0 < voteSet.quorum) :
    Inv P A (voteSet.countVote i vote (vote.blockID.key A) (voteSet.valSet.power i) entry) := by
  obtain ⟨-, hentry⟩ := trackedVotes_spec h.toVotesInv ht
  obtain ⟨he, -, -⟩ := counted_spec hb hc hp ht hnone h.toVotesInv
  have hvotes := countVote_votesInv h.toVotesInv he
  have hreached := countVote_reached hb hc hp ht hnone h.toVotesInv h.maj23_some
  dsimp only [countVote] at hvotes hreached ⊢
  split_ifs at hvotes hreached ⊢ with hcross
  · exact ⟨hvotes, hreached, fun heq => absurd heq (by simp)⟩
  · refine h.insertBlock he hreached fun hmaj => ?_
    -- no entry had the quorum, and this one does not cross it
    have hlt : entry.sum < voteSet.quorum := by
      rcases hentry with hl | ⟨-, hzero⟩
      · exact h.maj23_none hmaj _ entry hl
      · rw [hzero]
        exact hq
    by_contra hge
    exact hcross ⟨hlt, by omega, hmaj⟩

end

/-- A set with the height, round, type and validators of the first, and its majority. -/
structure Extends (voteSet voteSet' : VoteSet) : Prop where
  chainID : voteSet'.chainID = voteSet.chainID
  height : voteSet'.height = voteSet.height
  round : voteSet'.round = voteSet.round
  type_ : voteSet'.type_ = voteSet.type_
  valSet : voteSet'.valSet = voteSet.valSet
  maj23 : ∀ blockID, voteSet.maj23 = some blockID → voteSet'.maj23 = some blockID

theorem Extends.refl (voteSet : VoteSet) : Extends voteSet voteSet := ⟨rfl, rfl, rfl, rfl, rfl, fun _ h => h⟩

theorem Extends.trans {voteSet₁ voteSet₂ voteSet₃ : VoteSet} (h₁ : Extends voteSet₁ voteSet₂)
    (h₂ : Extends voteSet₂ voteSet₃) : Extends voteSet₁ voteSet₃ :=
  ⟨h₂.chainID.trans h₁.chainID, h₂.height.trans h₁.height, h₂.round.trans h₁.round, h₂.type_.trans h₁.type_,
    h₂.valSet.trans h₁.valSet, fun blockID h => h₂.maj23 blockID (h₁.maj23 blockID h)⟩

theorem SameBlocks.extends (h : SameBlocks voteSet voteSet') : Extends voteSet voteSet' :=
  ⟨h.chainID, h.height, h.round, h.type_, h.valSet, fun _ hm => by rw [h.maj23, hm]⟩

theorem countVote_extends (i : Nat) (vote : Vote) (key : Bytes) (power : Int) (entry : BlockVotes) :
    Extends voteSet (voteSet.countVote i vote key power entry) := by
  dsimp only [countVote]
  split_ifs with hcross
  · exact ⟨rfl, rfl, rfl, rfl, rfl, fun blockID h => by rw [hcross.2.2] at h; exact absurd h (by simp)⟩
  · exact ⟨rfl, rfl, rfl, rfl, rfl, fun _ h => h⟩

theorem Extends.quorum_eq (h : Extends voteSet voteSet') : voteSet'.quorum = voteSet.quorum := by
  rw [quorum, quorum, h.valSet]

/-- `addVerifiedVote` of a new vote: no panic, the invariant kept, and nothing added only on a conflict. -/
theorem addVerifiedVote_spec (h : Inv P A voteSet) (hb : voteSet.valSet.Bounded) (hq : 0 < voteSet.quorum)
    (hc : Counts P A voteSet i vote) (hget : voteSet.getVote A i (vote.blockID.key A) = none) :
    ∃ voteSet' added conflicting, voteSet.addVerifiedVote A i vote (vote.blockID.key A) (voteSet.valSet.power i) =
        some (voteSet', added, conflicting) ∧ Inv P A voteSet' ∧ Extends voteSet voteSet' ∧
        (conflicting = none → added = true) := by
  obtain ⟨recorded, conflicting, hrec, hvotes, hsame, hp⟩ := recordVote_spec h.toVotesInv hb hc hget
  have hinv : Inv P A recorded := by
    refine ⟨hvotes, MajorityReached.of_sameBlocks h.maj23_some hsame, ?_⟩
    rw [hsame.maj23, hsame.votesByBlock, quorum, hsame.valSet]
    exact h.maj23_none
  have hnone : recorded.blockSlot (vote.blockID.key A) i = none := by
    rw [hsame.blockSlot]
    exact (getVote_eq_none hget).2
  simp only [addVerifiedVote, hrec]
  cases ht : recorded.trackedVotes (vote.blockID.key A) conflicting with
  | none =>
    refine ⟨recorded, false, conflicting, rfl, hinv, hsame.extends, fun hconf => ?_⟩
    rw [trackedVotes, hconf] at ht
    split at ht <;> simp at ht
  | some entry =>
    refine ⟨_, true, conflicting, rfl, ?_, hsame.extends.trans (countVote_extends _ _ _ _ _), fun _ => rfl⟩
    rw [← hsame.valSet]
    refine countVote_inv (by rw [hsame.valSet]; exact hb) (hsame.counts hc) hp ht hnone hinv ?_
    rw [hsame.extends.quorum_eq]
    exact hq

/-! ## Histories of calls -/

theorem addVote_inv (h : Inv P A voteSet) (hb : voteSet.valSet.Bounded) (hq : 0 < voteSet.quorum)
    (hadd : voteSet.addVote P A vote? = some (voteSet', added, err)) : Inv P A voteSet' ∧ Extends voteSet voteSet' := by
  rcases addVote_cases hadd with ⟨rfl, -⟩ | ⟨vote, i, conflicting, -, hc, hget, hres, -⟩
  · exact ⟨h, Extends.refl voteSet'⟩
  · obtain ⟨voteSet₂, added₂, conflicting₂, hres₂, hinv, hext, -⟩ := addVerifiedVote_spec h hb hq hc hget
    rw [hres] at hres₂
    cases Option.some.inj hres₂
    exact ⟨hinv, hext⟩

theorem getVote_counts (h : Inv P A voteSet) {existing : Vote}
    (hget : voteSet.getVote A i key = some existing) : Counts P A voteSet i existing := by
  unfold getVote at hget
  cases hs : voteSet.slot i with
  | none =>
    simp only [hs] at hget
    exact (h.blockCounts key i existing hget).1
  | some vote =>
    simp only [hs] at hget
    split_ifs at hget
    · cases Option.some.inj hget
      exact h.counts i existing hs
    · exact (h.blockCounts key i existing hget).1

/-- `AddVote` does not panic when every validator has a key. -/
theorem addVote_ne_none (h : Inv P A voteSet) (hb : voteSet.valSet.Bounded) (hq : 0 < voteSet.quorum)
    (hkeys : ∀ val ∈ voteSet.valSet.validators, val.pubKey ≠ none) (vote? : Option Vote) :
    voteSet.addVote P A vote? ≠ none := by
  intro hnone
  rcases addVote_result hnone with ⟨e, -, hres⟩ | ⟨-, ⟨i, key, existing, hget, hsig⟩ | ⟨val, hval, hkey⟩⟩ |
    ⟨vote, i, val, -, hc, hget, -, hres⟩
  · cases hres
  · obtain ⟨-, _, -, -, -, hverify⟩ := (getVote_counts h hget).signed
    exact Vote.signature_ne_none P A hverify hsig
  · exact hkeys val hval hkey
  · obtain ⟨voteSet', added, conflicting, hadd, -, -, hadded⟩ := addVerifiedVote_spec h hb hq hc hget
    rw [hadd, bind_some] at hres
    split_ifs at hres with hno
    cases hno
    cases hadded rfl

/-- `SetPeerMaj23` writes down a new claim and at most marks or opens an entry. -/
theorem setPeerMaj23_cases (A : Amino) (voteSet : VoteSet) (peerID : Bytes) (blockID : BlockID) :
    (voteSet.setPeerMaj23 A peerID blockID).1 = voteSet ∨ voteSet.peerMaj23s.lookup peerID = none ∧
      ((voteSet.setPeerMaj23 A peerID blockID).1 =
        { voteSet with peerMaj23s := voteSet.peerMaj23s.insert peerID blockID } ∨
      ∃ entry, (voteSet.setPeerMaj23 A peerID blockID).1 = { voteSet with
          peerMaj23s := voteSet.peerMaj23s.insert peerID blockID
          votesByBlock := voteSet.votesByBlock.insert (blockID.key A) entry } ∧
        ((∃ old, voteSet.votesByBlock.lookup (blockID.key A) = some old ∧ entry = { old with peerMaj23 := true }) ∨
          voteSet.votesByBlock.lookup (blockID.key A) = none ∧
            entry = BlockVotes.newBlockVotes true voteSet.valSet.size)) := by
  unfold setPeerMaj23
  cases hp : voteSet.peerMaj23s.lookup peerID with
  | some existing => exact .inl rfl
  | none =>
    refine .inr ⟨rfl, ?_⟩
    cases hl : voteSet.votesByBlock.lookup (blockID.key A) with
    | some entry =>
      dsimp only
      split_ifs
      · exact .inl rfl
      · exact .inr ⟨_, rfl, .inl ⟨entry, rfl, rfl⟩⟩
    | none => exact .inr ⟨_, rfl, .inr ⟨rfl, rfl⟩⟩

theorem getByIndex_marked (h : (∃ old, voteSet.votesByBlock.lookup key = some old ∧
    entry = { old with peerMaj23 := true }) ∨
      voteSet.votesByBlock.lookup key = none ∧ entry = BlockVotes.newBlockVotes true voteSet.valSet.size) (i : Nat) :
    entry.getByIndex i = voteSet.blockSlot key i := by
  rcases h with ⟨old, hl, rfl⟩ | ⟨hl, rfl⟩
  · simp [blockSlot, hl, BlockVotes.getByIndex]
  · rw [getByIndex_newBlockVotes, blockSlot, hl]
    rfl

theorem setPeerMaj23_extends (peerID : Bytes) (blockID : BlockID) :
    Extends voteSet (voteSet.setPeerMaj23 A peerID blockID).1 := by
  obtain heq | ⟨-, heq | ⟨entry, heq, -⟩⟩ := setPeerMaj23_cases A voteSet peerID blockID <;> rw [heq] <;>
    exact ⟨rfl, rfl, rfl, rfl, rfl, fun _ h => h⟩

theorem VotesInv.setPeerMaj23 (h : VotesInv P A voteSet) (peerID : Bytes) (blockID : BlockID) :
    VotesInv P A (voteSet.setPeerMaj23 A peerID blockID).1 := by
  obtain heq | ⟨-, heq | ⟨entry, heq, hentry⟩⟩ := setPeerMaj23_cases A voteSet peerID blockID <;> rw [heq]
  · exact h
  · exact ⟨h.tallied, h.counts, h.blocks, h.blockCounts⟩
  · have htold : VotesInv P A { voteSet with peerMaj23s := voteSet.peerMaj23s.insert peerID blockID } :=
      ⟨h.tallied, h.counts, h.blocks, h.blockCounts⟩
    refine htold.insertBlock
      ⟨?_, fun i vote hi => h.blockCounts _ i vote (by rw [← getByIndex_marked hentry]; exact hi)⟩
    rcases hentry with ⟨old, hl, rfl⟩ | ⟨-, rfl⟩
    · exact h.blocks _ old hl
    · exact Tallied.empty voteSet.valSet

theorem setPeerMaj23_reached (hr : MajorityReached A voteSet) (peerID : Bytes) (blockID : BlockID) :
    MajorityReached A (voteSet.setPeerMaj23 A peerID blockID).1 := by
  obtain heq | ⟨-, heq | ⟨entry, heq, hentry⟩⟩ := setPeerMaj23_cases A voteSet peerID blockID <;> rw [heq]
  · exact hr
  · exact hr
  · have hr' : MajorityReached A { voteSet with peerMaj23s := voteSet.peerMaj23s.insert peerID blockID } := hr
    refine hr'.insertBlock fun b hmaj hk => ⟨?_, fun i vote hi => (getByIndex_marked hentry i).trans hi⟩
    obtain ⟨⟨entry', hl, hq⟩, -⟩ := hr b hmaj
    rw [hk] at hl
    rcases hentry with ⟨old, hold, rfl⟩ | ⟨hold, -⟩ <;> cases hl.symm.trans hold
    exact hq

theorem setPeerMaj23_inv (h : Inv P A voteSet) (hq : 0 < voteSet.quorum) (peerID : Bytes) (blockID : BlockID) :
    Inv P A (voteSet.setPeerMaj23 A peerID blockID).1 := by
  refine ⟨h.toVotesInv.setPeerMaj23 peerID blockID, setPeerMaj23_reached h.maj23_some peerID blockID, ?_⟩
  obtain heq | ⟨-, heq | ⟨entry, heq, hentry⟩⟩ := setPeerMaj23_cases A voteSet peerID blockID <;> rw [heq]
  · exact h.maj23_none
  · exact h.maj23_none
  · refine fun hmaj => forall_lookup_insert ?_ (h.maj23_none hmaj)
    rcases hentry with ⟨old, hl, rfl⟩ | ⟨-, rfl⟩
    · exact h.maj23_none hmaj _ old hl
    · exact hq

inductive Call
  | addVote (vote : Option Vote)
  | setPeerMaj23 (peerID : Bytes) (blockID : BlockID)

/-- The set after a call; `none` after a panic. -/
def call (P : Primitives) (A : Amino) (voteSet : VoteSet) : Call → Option VoteSet
  | .addVote vote => (voteSet.addVote P A vote).map (·.1)
  | .setPeerMaj23 peerID blockID => some (voteSet.setPeerMaj23 A peerID blockID).1

def run (P : Primitives) (A : Amino) (voteSet : VoteSet) (calls : List Call) : Option VoteSet :=
  calls.foldlM (call P A) voteSet

theorem call_inv (h : Inv P A voteSet) (hb : voteSet.valSet.Bounded) (hq : 0 < voteSet.quorum)
    (hkeys : ∀ val ∈ voteSet.valSet.validators, val.pubKey ≠ none) (c : Call) :
    ∃ voteSet', call P A voteSet c = some voteSet' ∧ Inv P A voteSet' ∧ Extends voteSet voteSet' := by
  cases c with
  | addVote vote =>
    obtain ⟨⟨voteSet', added, err⟩, hadd⟩ := ne_none_iff_exists'.1 (addVote_ne_none h hb hq hkeys vote)
    exact ⟨voteSet', by simp [call, hadd], addVote_inv h hb hq hadd⟩
  | setPeerMaj23 peerID blockID =>
    exact ⟨_, rfl, setPeerMaj23_inv h hq peerID blockID, setPeerMaj23_extends peerID blockID⟩

theorem run_inv (h : Inv P A voteSet) (hb : voteSet.valSet.Bounded) (hq : 0 < voteSet.quorum)
    (hkeys : ∀ val ∈ voteSet.valSet.validators, val.pubKey ≠ none) (calls : List Call) :
    ∃ voteSet', run P A voteSet calls = some voteSet' ∧ Inv P A voteSet' ∧ Extends voteSet voteSet' := by
  induction calls generalizing voteSet with
  | nil => exact ⟨voteSet, rfl, h, Extends.refl voteSet⟩
  | cons c calls ih =>
    obtain ⟨voteSet₁, hcall, hinv, hext⟩ := call_inv h hb hq hkeys c
    obtain ⟨voteSet₂, hrun, hinv₂, hext₂⟩ :=
      ih hinv (by rw [hext.valSet]; exact hb) (by rw [hext.quorum_eq]; exact hq) (by rw [hext.valSet]; exact hkeys)
    exact ⟨voteSet₂, by simp [run, hcall, ← hrun], hinv₂, hext.trans hext₂⟩

/-! ## The tally -/

/-- What the fields of a vote set say about each other. -/
structure TallyOk (voteSet : VoteSet) : Prop where
  bits : ∀ i < voteSet.valSet.size, BitArray.get voteSet.votesBitArray i = present voteSet.votes i
  sum : voteSet.sum =
    voteSet.valSet.powerOf fun i => BitArray.get voteSet.votesBitArray i && present voteSet.votes i
  blocks : ∀ key entry, voteSet.votesByBlock.lookup key = some entry →
    entry.sum = voteSet.valSet.powerOf (present entry.votes)
  maj23 : voteSet.maj23 ≠ none ↔
    ∃ key entry, voteSet.votesByBlock.lookup key = some entry ∧ 2 * voteSet.valSet.sumPower < 3 * entry.sum

/-- Where the double of the total fits, an entry has the quorum exactly with more than two thirds. -/
theorem quorum_le_iff (hb : voteSet.valSet.Bounded) (hfit : voteSet.valSet.sumPower * 2 ≤ maxInt64) (sum : Int) :
    voteSet.quorum ≤ sum ↔ 2 * voteSet.valSet.sumPower < 3 * sum := by
  have hnonneg := hb.sumPower_nonneg
  rw [quorum, hb.twoThirds_eq hfit, wrap64_eq (by unfold minInt64; omega) (by unfold maxInt64 at hfit ⊢; omega)]
  omega

theorem quorum_pos (hb : voteSet.valSet.Bounded) (hfit : voteSet.valSet.sumPower * 2 ≤ maxInt64) :
    0 < voteSet.quorum := by
  by_contra h
  have hle := (quorum_le_iff hb hfit 0).1 (by omega)
  have := hb.sumPower_nonneg
  omega

theorem Inv.tallyOk (h : Inv P A voteSet) (hb : voteSet.valSet.Bounded)
    (hfit : voteSet.valSet.sumPower * 2 ≤ maxInt64) :
    TallyOk voteSet := by
  refine ⟨fun i _ => h.tallied.bit i, ?_, fun key entry hl => (h.blocks key entry hl).sum_eq, ?_⟩
  · rw [h.tallied.sum_eq]
    refine ValidatorSet.powerOf_congr fun i _ => ?_
    rw [h.tallied.bit i, Bool.and_self]
  · constructor
    · intro hmaj
      obtain ⟨blockID, hblk⟩ := ne_none_iff_exists'.1 hmaj
      obtain ⟨⟨entry, hl, hq⟩, -⟩ := h.maj23_some blockID hblk
      exact ⟨_, entry, hl, (quorum_le_iff hb hfit _).1 hq⟩
    · rintro ⟨key, entry, hl, hgt⟩ hmaj
      have hlt := h.maj23_none hmaj key entry hl
      have := (quorum_le_iff hb hfit entry.sum).2 hgt
      omega

/-- **The tally of a vote set**: when the double of the total power is an `int64`, no history of calls panics, its end
is tallied, and a majority once found stays. -/
theorem tallyOk_of_run (P : Primitives) (A : Amino) (valSet : ValidatorSet) (hb : valSet.Bounded)
    (hkeys : ∀ val ∈ valSet.validators, val.pubKey ≠ none) (hfit : valSet.sumPower * 2 ≤ maxInt64)
    (chainID : Bytes) (height round : Int) (type_ : UInt8) (fresh : VoteSet)
    (hnew : newVoteSet chainID height round type_ valSet = some fresh) (calls later : List Call) :
    ∃ voteSet voteSet', run P A fresh calls = some voteSet ∧ TallyOk voteSet ∧
      run P A fresh (calls ++ later) = some voteSet' ∧ TallyOk voteSet' ∧
      ∀ blockID, voteSet.maj23 = some blockID → voteSet'.maj23 = some blockID := by
  obtain ⟨rfl, -⟩ := newVoteSet_eq hnew
  have hq := quorum_pos hb hfit
  obtain ⟨voteSet, hrun, hinv, hext⟩ := run_inv (newVoteSet_inv (P := P) (A := A) hnew) hb hq hkeys calls
  rw [← hext.valSet] at hb hfit hkeys
  rw [← hext.quorum_eq] at hq
  obtain ⟨voteSet', hrun', hinv', hext'⟩ := run_inv hinv hb hq hkeys later
  refine ⟨voteSet, voteSet', hrun, hinv.tallyOk hb hfit, ?_, hinv'.tallyOk ?_ ?_, hext'.maj23⟩
  · rw [run, foldlM_append]
    exact bind_eq_some_iff.2 ⟨voteSet, hrun, hrun'⟩
  · rw [hext'.valSet]
    exact hb
  · rw [hext'.valSet]
    exact hfit

/-! ### Three validators of one power -/

def trio (power : Int) : ValidatorSet := .keyed [(1, power), (2, power), (3, power)]

def trioVote (index : Nat) (blockID : BlockID) : Vote := Vote.signedBy [index.toUInt8 + 1] [] {
  validatorAddress := (PubKey.ed25519 [index.toUInt8 + 1]).address .transparent
  validatorIndex := index
  height := 1
  round := 0
  timestamp := 0
  type_ := voteTypePrecommit
  blockID := blockID
  signature := none }

def trioID (hash : UInt8) : BlockID := ⟨[hash], ⟨1, [8]⟩⟩

/-- Precommits of the validators with these indices for the blocks with these hashes. -/
def ballots (votes : List (Nat × UInt8)) : List Vote := votes.map fun (index, hash) => trioVote index (trioID hash)

def adding (votes : List Vote) : List Call := votes.map fun vote => .addVote (some vote)

/-- The first validator votes for another block before the one that a peer claims. -/
def equivocation : List Call := .setPeerMaj23 [9] (trioID 7) :: adding (ballots [(0, 6), (0, 7), (1, 7), (2, 7)])

/-- A vote that is counted twice over, a majority, and another vote for the other block after it. -/
theorem tallyOk_of_run_equivocation : ∃ fresh voteSet voteSet',
    newVoteSet [] 1 0 voteTypePrecommit (trio 1) = some fresh ∧
    run .transparent .plain fresh equivocation = some voteSet ∧ TallyOk voteSet ∧ voteSet.maj23 = some (trioID 7) ∧
    run .transparent .plain fresh (equivocation ++ adding (ballots [(1, 6)])) = some voteSet' ∧ TallyOk voteSet' ∧
    voteSet'.maj23 = some (trioID 7) := by
  have heval : ((newVoteSet [] 1 0 voteTypePrecommit (trio 1)).bind fun fresh =>
      (run .transparent .plain fresh equivocation).map (·.maj23)) = some (some (trioID 7)) := by
    decide +kernel
  obtain ⟨fresh, hnew, hmap⟩ := bind_eq_some_iff.1 heval
  obtain ⟨_, hrun, hmaj⟩ := map_eq_some_iff.1 hmap
  obtain ⟨voteSet, voteSet', hrun', hok, hlater, hok', hkeep⟩ := tallyOk_of_run .transparent .plain (trio 1)
    ⟨by decide, by decide⟩ (by decide) (by decide) [] 1 0 voteTypePrecommit fresh hnew equivocation
    (adding (ballots [(1, 6)]))
  cases hrun.symm.trans hrun'
  exact ⟨fresh, _, voteSet', hnew, hrun, hok, hmaj, hlater, hok', hkeep _ hmaj⟩

/-! One validator with `2 ^ 62` of power: its vote is all the power there is, and no majority is found. -/

def soloSet : ValidatorSet := .keyed [(1, 2 ^ 62)]

def soloVote : Vote := Vote.signedBy [1] [] {
  validatorAddress := (PubKey.ed25519 [1]).address .transparent
  validatorIndex := 0
  height := 1
  round := 0
  timestamp := 0
  type_ := voteTypePrevote
  blockID := trioID 7
  signature := none }

theorem soloSet_bounded : soloSet.Bounded := ⟨by decide, by decide⟩

/-- The only validator has voted, and `maj23` is not set. -/
theorem solo_majority_missed : soloSet.Bounded ∧ (∀ val ∈ soloSet.validators, val.pubKey ≠ none) ∧
      ∃ fresh voteSet, newVoteSet [] 1 0 voteTypePrevote soloSet = some fresh ∧
        run .transparent .plain fresh [.addVote (some soloVote)] = some voteSet ∧ ¬ TallyOk voteSet := by
  refine ⟨soloSet_bounded, by decide, ?_⟩
  have heval : ((newVoteSet [] 1 0 voteTypePrevote soloSet).bind fun fresh =>
      (run .transparent .plain fresh [.addVote (some soloVote)]).map fun voteSet =>
        (voteSet.maj23, (voteSet.votesByBlock.lookup (soloVote.blockID.key .plain)).map (·.sum), voteSet.valSet)) =
      some (none, some (2 ^ 62), soloSet) := by
    decide +kernel
  obtain ⟨fresh, hnew, hmap⟩ := bind_eq_some_iff.1 heval
  obtain ⟨voteSet, hrun, hfields⟩ := map_eq_some_iff.1 hmap
  simp only [Prod.mk.injEq] at hfields
  obtain ⟨hmaj, hlookup, hval⟩ := hfields
  obtain ⟨entry, hentry, hsum⟩ := map_eq_some_iff.1 hlookup
  refine ⟨fresh, voteSet, hnew, hrun, fun hok => hok.maj23.2 ⟨_, entry, hentry, ?_⟩ hmaj⟩
  rw [hsum, hval]
  decide

end VoteSet

end Demars
