import Demars.Types.Majority

/-!
# Conflicting votes

What a vote set keeps of validators that vote twice, whatever their powers are. A vote for the majority takes the
place of an earlier one before it is asked whether its entry takes it; where the entry does not, the set has
changed although nothing was added.
-/

namespace Demars

open Machine List Option

/-! ## Evidence -/

inductive EvidenceError
  | step
  | address
  | index
  | sameBlockID
  | pubKey
  | signatureA
  | signatureB

structure DuplicateVoteEvidence where
  pubKey : Option PubKey
  voteA : Vote
  voteB : Vote

def DuplicateVoteEvidence.verify (P : Primitives) (A : Amino) (dve : DuplicateVoteEvidence) (chainID : Bytes)
    (pubKey : PubKey) :
    Except EvidenceError Unit :=
  if dve.voteA.height ≠ dve.voteB.height ∨ dve.voteA.round ≠ dve.voteB.round ∨ dve.voteA.type_ ≠ dve.voteB.type_ then
    .error .step
  else if dve.voteA.validatorAddress ≠ dve.voteB.validatorAddress then .error .address
  else if dve.voteA.validatorIndex ≠ dve.voteB.validatorIndex then .error .index
  else if dve.voteA.blockID = dve.voteB.blockID then .error .sameBlockID
  else if pubKey.address P ≠ dve.voteA.validatorAddress then .error .pubKey
  else if pubKey.verifyBytes P (dve.voteA.signBytes A chainID) dve.voteA.signature = false then .error .signatureA
  else if pubKey.verifyBytes P (dve.voteB.signBytes A chainID) dve.voteB.signature = false then .error .signatureB
  else .ok ()

namespace VoteSet

variable {P : Primitives} {A : Amino} {voteSet voteSet' : VoteSet} {n i : Nat} {vote : Vote} {chainID : Bytes}
  {valSet : ValidatorSet}

theorem CountsFor.verify {height round : Int} {type_ : UInt8} {val : Validator} {a b : Vote}
    (ha : CountsFor P A chainID height round type_ valSet i a)
    (hb : CountsFor P A chainID height round type_ valSet i b) (hne : a.blockID ≠ b.blockID)
    (hval : valSet.validators[i]? = some val) :
    ∃ key, val.pubKey = some key ∧ DuplicateVoteEvidence.verify P A ⟨val.pubKey, a, b⟩ chainID key = .ok () := by
  obtain ⟨_, key, hval₁, hkey, haddr₁, hv₁⟩ := ha.signed
  obtain ⟨_, _, hval₂, hkey₂, haddr₂, hv₂⟩ := hb.signed
  cases hval.symm.trans hval₁
  cases hval.symm.trans hval₂
  cases hkey.symm.trans hkey₂
  rw [Vote.verify_eq_none] at hv₁ hv₂
  refine ⟨key, hkey, ?_⟩
  simp [DuplicateVoteEvidence.verify, ha.height, hb.height, ha.round, hb.round, ha.type_, hb.type_, haddr₁, haddr₂,
    ha.index, hb.index, hne, hv₁.1.trans haddr₁, hv₁.2, hv₂.2]

/-! ## Where votes lie -/

/-- Entries hold votes for their key, and are `n` fewer than allowed. -/
structure Filed (P : Primitives) (A : Amino) (n : Nat) (voteSet : VoteSet) : Prop where
  length : voteSet.votes.length = voteSet.valSet.size
  counts : ∀ i vote, voteSet.slot i = some vote → Counts P A voteSet i vote
  entries : ∀ key entry, voteSet.votesByBlock.lookup key = some entry → entry.votes.length = voteSet.valSet.size ∧
    ∀ i vote, entry.getByIndex i = some vote → Counts P A voteSet i vote ∧ vote.blockID.key A = key
  few : voteSet.votesByBlock.keys.length + n ≤ voteSet.votes.countP Option.isSome + voteSet.peerMaj23s.keys.length

section

variable {chainID : Bytes} {height round : Int} {type_ : UInt8} {valSet : ValidatorSet} {fresh : VoteSet}

theorem slot_newVoteSet (hnew : newVoteSet chainID height round type_ valSet = some fresh) (i : Nat) :
    fresh.slot i = none := by
  unfold newVoteSet at hnew
  split_ifs at hnew
  cases hnew
  simpa [present, slot] using present_replicate valSet.size i

theorem Extends.counts_iff (hnew : newVoteSet chainID height round type_ valSet = some fresh)
    (hext : Extends fresh voteSet) :
    Counts P A voteSet i vote ↔ CountsFor P A chainID height round type_ valSet i vote := by
  unfold newVoteSet at hnew
  split_ifs at hnew
  cases hnew
  rw [Counts, hext.chainID, hext.height, hext.round, hext.type_, hext.valSet]

theorem filed_newVoteSet (h : newVoteSet chainID height round type_ valSet = some voteSet) : Filed P A 0 voteSet := by
  have hinv : Inv P A voteSet := newVoteSet_inv h
  unfold newVoteSet at h
  split_ifs at h
  cases h
  exact ⟨length_replicate, hinv.counts, nofun, by simp⟩

end

theorem Filed.mono {m : Nat} (h : Filed P A n voteSet) (hm : m ≤ n) : Filed P A m voteSet :=
  ⟨h.length, h.counts, h.entries, by have := h.few; omega⟩

/-- A vote in an empty slot pays for an entry. -/
theorem Filed.setSlot (h : Filed P A n voteSet) (hc : Counts P A voteSet i vote) (bits : Option BitArray) (sum : Int) :
    Filed P A (if voteSet.slot i = none then n + 1 else n)
      { voteSet with votes := voteSet.votes.set i (some vote), votesBitArray := bits, sum := sum } := by
  have hi : i < voteSet.votes.length := by rw [h.length]; exact hc.lt_size
  refine ⟨by simpa using h.length, fun j v hj => ?_, h.entries, ?_⟩
  · rw [slot, slot_set hi] at hj
    split_ifs at hj with hji
    · cases hj
      rw [hji]
      exact hc
    · exact h.counts j v hj
  · have hfew := h.few
    have hslot : voteSet.slot i = voteSet.votes[i] := by simp [slot, hi]
    rw [hslot]
    simp only [List.countP_set hi, isSome_some]
    cases hold : voteSet.votes[i] with
    | none =>
      simp only [isSome_none, Bool.false_eq_true, if_false, if_true]
      omega
    | some existing =>
      simp only [isSome_some, reduceCtorEq, if_false]
      omega

theorem length_keys_insert {α : Type*} {β : α → Type*} [DecidableEq α] (m : AList β) (k : α) (v : β k) :
    (m.insert k v).keys.length = m.keys.length + if k ∈ m then 0 else 1 := by
  rw [AList.keys_insert, length_cons]
  split_ifs with hk
  · rw [length_erase_of_mem (AList.mem_keys.1 hk)]
    have := length_pos_of_mem (AList.mem_keys.1 hk)
    omega
  · rw [erase_of_not_mem fun h => hk (AList.mem_keys.2 h)]

variable {key : Bytes} {entry : BlockVotes}

theorem Filed.insert (h : Filed P A n voteSet) (hlen : entry.votes.length = voteSet.valSet.size)
    (hcounts : ∀ i vote, entry.getByIndex i = some vote → Counts P A voteSet i vote ∧ vote.blockID.key A = key)
    (hn : voteSet.votesByBlock.lookup key = none → 1 ≤ n) :
    Filed P A 0 { voteSet with votesByBlock := voteSet.votesByBlock.insert key entry } := by
  refine ⟨h.length, h.counts, forall_lookup_insert ⟨hlen, hcounts⟩ h.entries, ?_⟩
  have hfew := h.few
  dsimp only
  rw [length_keys_insert]
  split_ifs with hk
  · omega
  · have := hn (AList.lookup_eq_none.2 hk)
    omega

theorem Filed.copy (h : Filed P A 0 voteSet) (hl : voteSet.votesByBlock.lookup key = some entry)
    (maj23 : Option BlockID) :
    Filed P A 0 { voteSet with maj23 := maj23, votes := copyVotes entry.votes voteSet.votes } := by
  obtain ⟨hlen, hcounts⟩ := h.entries key entry hl
  rw [← h.length] at hlen
  refine ⟨?_, fun j v hj => ?_, h.entries, h.few.trans ?_⟩
  · rw [copyVotes, length_zipWith, hlen, Nat.min_self, h.length]
  · rw [slot, slot_copyVotes hlen] at hj
    rcases or_eq_some_iff.1 hj with hj | ⟨-, hj⟩
    · exact (hcounts j v hj).1
    · exact h.counts j v hj
  · generalize entry.votes = new at hlen
    generalize voteSet.votes = old at hlen
    induction new generalizing old with
    | nil => cases old <;> simp_all
    | cons a new ih =>
      cases old with
      | nil => cases hlen
      | cons b old =>
        have := ih old (by simpa using hlen)
        cases a <;> cases b <;> simp [copyVotes] at this ⊢ <;> omega

theorem Filed.blockSlot (h : Filed P A n voteSet) (hs : voteSet.blockSlot key i = some vote) :
    Counts P A voteSet i vote ∧ vote.blockID.key A = key := by
  obtain ⟨entry, hl, hi⟩ := bind_eq_some_iff.1 hs
  exact (h.entries key entry hl).2 i vote hi

variable {conflicting : Option Vote}

theorem Filed.length_tracked (h : Filed P A n voteSet)
    (ht : voteSet.trackedVotes key conflicting = some entry) : entry.votes.length = voteSet.valSet.size := by
  rcases trackedVotes_cases ht with hl | ⟨-, -, rfl⟩
  · exact (h.entries key entry hl).1
  · exact length_replicate

section

variable (h : Filed P A n voteSet) (hc : Counts P A voteSet i vote)
  (hnone : voteSet.blockSlot (vote.blockID.key A) i = none)
  {conflicting : Option Vote} {entry : BlockVotes} (ht : voteSet.trackedVotes (vote.blockID.key A) conflicting =
    some entry)
include h hc hnone ht

omit hc in
theorem Filed.length_counted (power : Int) :
    (entry.addVerifiedVote i vote power).votes.length = voteSet.valSet.size := by
  rw [BlockVotes.addVerifiedVote, getByIndex_tracked ht, hnone, length_set, h.length_tracked ht]

theorem Filed.getByIndex_counted (power : Int) (j : Nat) : (entry.addVerifiedVote i vote power).getByIndex j =
    if j = i then some vote else voteSet.blockSlot (vote.blockID.key A) j := by
  rw [getByIndex_addVerifiedVote (by rw [h.length_tracked ht]; exact hc.lt_size) (by rw [getByIndex_tracked ht, hnone]),
    getByIndex_tracked ht]

theorem Filed.countVote (hn : conflicting = none → 1 ≤ n) (power : Int) :
    Filed P A 0 (voteSet.countVote i vote (vote.blockID.key A) power entry) := by
  have hfiled := h.insert (h.length_counted hnone ht power) (fun j v hj => by
    rw [h.getByIndex_counted hc hnone ht] at hj
    split_ifs at hj with hji
    · cases hj
      rw [hji]
      exact ⟨hc, rfl⟩
    · exact h.blockSlot hj) fun hl => ?_
  · dsimp only [VoteSet.countVote]
    split_ifs
    · exact hfiled.copy (AList.lookup_insert _) _
    · exact hfiled
  · rcases trackedVotes_cases ht with hl' | ⟨-, hconf, -⟩
    · cases hl.symm.trans hl'
    · exact hn hconf

theorem Filed.slot_countVote (power : Int) (j : Nat) :
    (voteSet.countVote i vote (vote.blockID.key A) power entry).slot j = voteSet.slot j ∨
      (voteSet.countVote i vote (vote.blockID.key A) power entry).slot j =
        (if j = i then some vote else voteSet.blockSlot (vote.blockID.key A) j).or (voteSet.slot j) := by
  have hlen := (h.length_counted hnone ht power).trans h.length.symm
  rw [← h.getByIndex_counted hc hnone ht power]
  dsimp only [VoteSet.countVote]
  split_ifs
  · exact .inr (slot_copyVotes hlen j)
  · exact .inl rfl

end

theorem Filed.recordVote (h : Filed P A 0 voteSet) (hc : Counts P A voteSet i vote) {power : Int} {recorded : VoteSet}
    (hrec : voteSet.recordVote A i vote key power = some (recorded, conflicting)) :
    Filed P A (if conflicting = none then 1 else 0) recorded := by
  obtain ⟨hconf, -, ⟨sum, rfl, -⟩ | ⟨rfl, hne, -⟩⟩ := recordVote_cases hrec
  · rw [hconf]
    exact h.setSlot hc _ sum
  · rw [if_neg hne]
    exact h

theorem Filed.addVote (h : Filed P A 0 voteSet) {vote? : Option Vote} {added : Bool} {err : Option VoteError}
    (hadd : voteSet.addVote P A vote? = some (voteSet', added, err)) : Filed P A 0 voteSet' := by
  rcases addVote_cases hadd with ⟨rfl, -⟩ | ⟨vote, i, conflicting, -, hc, hget, hres, -⟩
  · exact h
  obtain ⟨recorded, hrec, hres⟩ := addVerifiedVote_cases hres
  have hsame := recordVote_sameBlocks hrec
  have hrecorded := h.recordVote hc hrec
  obtain ⟨-, rfl, -⟩ | ⟨entry, ht, rfl, -⟩ := hres
  · exact hrecorded.mono (Nat.zero_le _)
  · refine hrecorded.countVote (hsame.counts hc) ?_ ht (fun hnone => by rw [if_pos hnone]) _
    rw [hsame.blockSlot]
    exact (getVote_eq_none hget).2

theorem Filed.setPeerMaj23 (h : Filed P A 0 voteSet) (peerID : Bytes) (blockID : BlockID) :
    Filed P A 0 (voteSet.setPeerMaj23 A peerID blockID).1 := by
  obtain heq | ⟨hpeer, hcases⟩ := setPeerMaj23_cases A voteSet peerID blockID
  · rw [heq]
    exact h
  -- a new claim pays for an entry
  have htold : Filed P A 1 { voteSet with peerMaj23s := voteSet.peerMaj23s.insert peerID blockID } := by
    refine ⟨h.length, h.counts, h.entries, ?_⟩
    have := h.few
    dsimp only
    rw [length_keys_insert, if_neg (AList.lookup_eq_none.1 hpeer)]
    omega
  obtain heq | ⟨entry, heq, hentry⟩ := hcases <;> rw [heq]
  · exact htold.mono (Nat.zero_le _)
  · refine htold.insert ?_ (fun i vote hi => h.blockSlot (by rw [← getByIndex_marked hentry]; exact hi)) fun _ => le_rfl
    rcases hentry with ⟨old, hl, rfl⟩ | ⟨-, rfl⟩
    · exact (h.entries _ old hl).1
    · exact length_replicate

theorem Filed.call (h : Filed P A 0 voteSet) {c : Call} (hcall : call P A voteSet c = some voteSet') :
    Filed P A 0 voteSet' := by
  cases c with
  | addVote vote? =>
    obtain ⟨⟨_, added, err⟩, hadd, rfl⟩ := map_eq_some_iff.1 hcall
    exact h.addVote hadd
  | setPeerMaj23 peerID blockID =>
    cases hcall
    exact h.setPeerMaj23 peerID blockID

theorem filed_run {height round : Int} {type_ : UInt8} {fresh : VoteSet}
    (hnew : newVoteSet chainID height round type_ valSet = some fresh) {calls : List Call}
    (hrun : run P A fresh calls = some voteSet) :
    Filed P A 0 voteSet ∧ Extends fresh voteSet := by
  refine Fold.induct (p := fun s => Filed P A 0 s ∧ Extends fresh s) (fun c _ s s' hs hcall => ⟨hs.1.call hcall, ?_⟩)
    ⟨filed_newVoteSet hnew, Extends.refl fresh⟩ hrun
  cases c with
  | addVote vote? =>
    obtain ⟨⟨_, added, err⟩, hadd, rfl⟩ := map_eq_some_iff.1 hcall
    exact hs.2.trans (addVote_extends hadd)
  | setPeerMaj23 peerID blockID =>
    cases hcall
    exact hs.2.trans (setPeerMaj23_extends peerID blockID)

/-- **Only equivocators are accused**: whatever calls a vote set has had, an error about conflicting votes names a key
of the set and two votes signed with it for the height, round and type of the set and for different blocks; `Verify`
accepts them as evidence. -/
theorem conflict_is_evidence (P : Primitives) (A : Amino) (chainID : Bytes) (height round : Int) (type_ : UInt8)
    (valSet : ValidatorSet) (fresh : VoteSet) (hnew : newVoteSet chainID height round type_ valSet = some fresh)
    (calls : List Call) (voteSet : VoteSet) (hrun : run P A fresh calls = some voteSet) (vote? : Option Vote)
    (voteSet' : VoteSet) (added : Bool) (pubKey : Option PubKey) (voteA voteB : Vote)
    (hadd : voteSet.addVote P A vote? = some (voteSet', added, some (.conflictingVotes pubKey voteA voteB))) :
    ∃ i val key, valSet.validators[i]? = some val ∧ val.pubKey = some key ∧ pubKey = some key ∧ vote? = some voteB ∧
      CountsFor P A chainID height round type_ valSet i voteA ∧
      CountsFor P A chainID height round type_ valSet i voteB ∧
      voteA.blockID ≠ voteB.blockID ∧ DuplicateVoteEvidence.verify P A ⟨pubKey, voteA, voteB⟩ chainID key = .ok () := by
  obtain ⟨hfiled, hext⟩ := filed_run hnew hrun
  rcases addVote_cases hadd with ⟨-, -, hno⟩ | ⟨vote, i, conflicting, rfl, hc, -, hres, val, hval, herr⟩
  · exact absurd rfl (hno pubKey voteA voteB)
  obtain ⟨existing, rfl, herr⟩ := map_eq_some_iff.1 herr.symm
  cases herr
  obtain ⟨recorded, hrec, -⟩ := addVerifiedVote_cases hres
  obtain ⟨hslot, hne, -⟩ := recordVote_cases hrec
  have ha := hfiled.counts i voteA hslot.symm
  rw [hext.counts_iff hnew] at ha hc
  rw [hext.valSet, (newVoteSet_eq hnew).1] at hval
  obtain ⟨key, hkey, hverify⟩ := ha.verify hc (hne voteA rfl) hval
  exact ⟨i, val, key, hval, hkey, hkey, rfl, ha, hc, hne voteA rfl, hverify⟩

theorem conflict_is_evidence_twice :
    ∃ fresh voteSet voteSet' key, newVoteSet [] 1 0 voteTypePrecommit (trio 1) = some fresh ∧
      run .transparent .plain fresh (equivocation.take 2) = some voteSet ∧
      voteSet.addVote .transparent .plain (some (trioVote 0 (trioID 7))) = some (voteSet', true,
        some (.conflictingVotes (some (.ed25519 [1])) (trioVote 0 (trioID 6)) (trioVote 0 (trioID 7)))) ∧
      DuplicateVoteEvidence.verify .transparent .plain
        ⟨some (.ed25519 [1]), trioVote 0 (trioID 6), trioVote 0 (trioID 7)⟩ [] key = .ok () := by
  have heval : ((newVoteSet [] 1 0 voteTypePrecommit (trio 1)).bind fun fresh =>
      (run .transparent .plain fresh (equivocation.take 2)).bind fun voteSet =>
        (voteSet.addVote .transparent .plain (some (trioVote 0 (trioID 7)))).map (·.2)) = some (true,
          some (.conflictingVotes (some (.ed25519 [1])) (trioVote 0 (trioID 6)) (trioVote 0 (trioID 7)))) := by
    decide +kernel
  obtain ⟨fresh, hnew, heval⟩ := bind_eq_some_iff.1 heval
  obtain ⟨voteSet, hrun, heval⟩ := bind_eq_some_iff.1 heval
  obtain ⟨⟨voteSet', result⟩, hadd, rfl⟩ := map_eq_some_iff.1 heval
  obtain ⟨-, -, key, -, -, -, -, -, -, -, hverify⟩ :=
    conflict_is_evidence .transparent .plain [] 1 0 voteTypePrecommit (trio 1) fresh hnew _ voteSet hrun _ voteSet'
      true _ _ _ hadd
  exact ⟨fresh, voteSet, voteSet', key, hnew, hrun, hadd, hverify⟩

/-! ## The storage rule -/

def Stored (A : Amino) (voteSet : VoteSet) : Prop :=
  ∀ i vote, voteSet.slot i = some vote → voteSet.blockSlot (vote.blockID.key A) i = some vote

/-- Every vote is in its entry, and a call that adds nothing changes nothing. -/
def KeepsRule (P : Primitives) (A : Amino) (voteSet : VoteSet) : Call → Prop
  | .addVote vote => ∀ voteSet' added err, voteSet.addVote P A vote = some (voteSet', added, err) →
    Stored A voteSet' ∧ (added = false → voteSet' = voteSet)
  | .setPeerMaj23 peerID blockID => Stored A (voteSet.setPeerMaj23 A peerID blockID).1

/-- A vote, verified and not known, for a majority that no peer has claimed, of a validator whose vote for another
block is in the set. -/
def Misfiles (P : Primitives) (A : Amino) (voteSet : VoteSet) (c : Call) : Prop :=
  ∃ vote i existing blockID, c = .addVote (some vote) ∧ vote.validatorAddress ≠ [] ∧ Counts P A voteSet i vote ∧
    voteSet.getVote A i (vote.blockID.key A) = none ∧ voteSet.slot i = some existing ∧
    voteSet.maj23 = some blockID ∧ blockID.key A = vote.blockID.key A ∧
    ∀ entry, voteSet.votesByBlock.lookup (vote.blockID.key A) = some entry → entry.peerMaj23 = false

theorem CountsFor.validator {height round : Int} {type_ : UInt8}
    (hc : CountsFor P A chainID height round type_ valSet i vote) :
    ∃ val key, valSet.getByIndex vote.validatorIndex = some val ∧
      val.pubKey = some key ∧ vote.validatorAddress = val.address ∧ vote.verify P A chainID key = none ∧
      valSet.power i = val.votingPower ∧ ¬ vote.validatorIndex < 0 ∧ vote.validatorIndex.toNat = i := by
  obtain ⟨val, key, hval, hkey, hown, hverify⟩ := hc.signed
  have hindex := hc.index
  refine ⟨val, key, ValidatorSet.getByIndex_eq_some.2 ⟨by omega, ?_⟩, hkey, hown, hverify,
    ValidatorSet.power_eq hval, by omega, by omega⟩
  rw [hindex]
  exact hval

theorem addVote_of_counts (hc : Counts P A voteSet i vote) (haddr : vote.validatorAddress ≠ [])
    (hget : voteSet.getVote A i (vote.blockID.key A) = none) {added : Bool}
    (hres : voteSet.addVerifiedVote A i vote (vote.blockID.key A) (voteSet.valSet.power i) =
      some (voteSet', added, conflicting))
    (hadded : conflicting = none → added = true) :
    ∃ err, voteSet.addVote P A (some vote) = some (voteSet', added, err) := by
  obtain ⟨val, key, hby, hkey, hown, hverify, hpower, hpos, hnat⟩ := hc.validator
  rw [hpower] at hres
  cases conflicting with
  | none =>
    cases hadded rfl
    simp [VoteSet.addVote, hpos, haddr, hc.height, hc.round, hc.type_, hby, ← hown, hnat, hget, hkey, hverify, hres]
  | some existing => simp [VoteSet.addVote, hpos, haddr, hc.height, hc.round, hc.type_, hby, ← hown, hnat, hget, hkey,
      hverify, hres]

theorem Stored.countVote {recorded : VoteSet} (hfiled : Filed P A n recorded) (hc : Counts P A recorded i vote)
    (hnone : recorded.blockSlot (vote.blockID.key A) i = none)
    (ht : recorded.trackedVotes (vote.blockID.key A) conflicting = some entry)
    (hold : ∀ j v, recorded.slot j = some v → (j = i ∧ v = vote) ∨ recorded.blockSlot (v.blockID.key A) j = some v)
    (power : Int) :
    Stored A (recorded.countVote i vote (vote.blockID.key A) power entry) := by
  have hblock : ∀ key j, (recorded.countVote i vote (vote.blockID.key A) power entry).blockSlot key j =
      if key = vote.blockID.key A then (if j = i then some vote else recorded.blockSlot key j)
      else recorded.blockSlot key j := by
    intro key j
    rw [blockSlot_countVote, hfiled.getByIndex_counted hc hnone ht]
    split_ifs with hk <;> simp [hk]
  intro j v hj
  have hslot : recorded.slot j = some v ∨ (if j = i then some vote else recorded.blockSlot (vote.blockID.key A) j) =
    some v := by
    rcases hfiled.slot_countVote hc hnone ht power j with hs | hs
    · exact .inl (hs.symm.trans hj)
    · exact (or_eq_some_iff.1 (hs.symm.trans hj)).symm.imp And.right id
  rw [hblock]
  by_cases hji : j = i
  · subst hji
    rcases hslot with hslot | hslot
    · rcases hold j v hslot with ⟨-, rfl⟩ | hv
      · simp
      · have hk : v.blockID.key A ≠ vote.blockID.key A := fun hk => by
          rw [hk, hnone] at hv
          cases hv
        rw [if_neg hk, hv]
    · simp_all
  · rw [if_neg hji] at hslot
    rw [if_neg hji, ite_self]
    rcases hslot with hslot | hslot
    · exact (hold j v hslot).resolve_left fun hv => hji hv.1
    · rw [(hfiled.blockSlot hslot).2, hslot]

theorem trackedVotes_eq_none : voteSet.trackedVotes key conflicting = none ↔
    conflicting ≠ none ∧ ∀ entry, voteSet.votesByBlock.lookup key = some entry → entry.peerMaj23 = false := by
  unfold trackedVotes
  split
  next entry hl => simp [hl, isSome_iff_ne_none]
  next hl => simp [hl]

theorem keepsRule_iff (hfiled : Filed P A 0 voteSet) (h : Stored A voteSet) (c : Call) :
    KeepsRule P A voteSet c ↔ ¬ Misfiles P A voteSet c := by
  constructor
  · rintro hrule ⟨vote, i, existing, blockID, rfl, haddr, hc, hget, hslot, hmaj, hk, hpeer⟩
    have hne : existing.blockID.key A ≠ vote.blockID.key A := (getVote_eq_none hget).1 existing hslot
    have hne' : existing.blockID ≠ vote.blockID := fun heq => hne (by rw [heq])
    -- the slot is written, the entry does not take the vote
    obtain ⟨recorded, hrecorded⟩ : ∃ recorded, recorded = { voteSet with
      votes := voteSet.votes.set i (some vote), votesBitArray := BitArray.set voteSet.votesBitArray i true } := ⟨_, rfl⟩
    have hrec : voteSet.recordVote A i vote (vote.blockID.key A) (voteSet.valSet.power i) =
      some (recorded, some existing) := by
      simp [VoteSet.recordVote, hslot, hne', hmaj, hk, hrecorded]
    have ht : recorded.trackedVotes (vote.blockID.key A) (some existing) = none :=
      trackedVotes_eq_none.2 ⟨some_ne_none existing, by rw [hrecorded]; exact hpeer⟩
    have hres : voteSet.addVerifiedVote A i vote (vote.blockID.key A) (voteSet.valSet.power i) =
      some (recorded, false, some existing) := by
      simp only [addVerifiedVote, hrec, ht]
    obtain ⟨err, hadd⟩ := addVote_of_counts hc haddr hget hres fun hn => by cases hn
    have hsame := congrArg (fun s : VoteSet => s.slot i) ((hrule _ _ _ hadd).2 rfl)
    have hi : i < voteSet.votes.length := by rw [hfiled.length]; exact hc.lt_size
    rw [hrecorded] at hsame
    simp only [hslot] at hsame
    rw [slot, slot_set hi, if_pos rfl] at hsame
    cases hsame
    exact hne rfl
  · intro hm
    cases c with
    | setPeerMaj23 peerID blockID =>
      rw [KeepsRule, Stored, (slot_setPeerMaj23 A voteSet peerID blockID).1, blockSlot_setPeerMaj23]
      exact h
    | addVote vote? =>
      intro voteSet' added err hadd
      by_cases haddr : ∃ vote, vote? = some vote ∧ vote.validatorAddress = []
      · obtain ⟨vote, rfl, haddr⟩ := haddr
        simp only [VoteSet.addVote] at hadd
        split_ifs at hadd <;> cases hadd <;> exact ⟨h, fun _ => rfl⟩
      rcases addVote_cases hadd with ⟨rfl, -⟩ | ⟨vote, i, conflicting, rfl, hc, hget, hres, -⟩
      · exact ⟨h, fun _ => rfl⟩
      obtain ⟨recorded, hrec, hres⟩ := addVerifiedVote_cases hres
      have hsame := recordVote_sameBlocks hrec
      have hnone := (getVote_eq_none hget).2
      rw [← hsame.blockSlot] at hnone
      obtain ⟨hslot, -, hwrite⟩ := recordVote_cases hrec
      rcases hres with ⟨ht, rfl, rfl⟩ | ⟨entry, ht, rfl, rfl⟩
      · obtain ⟨hconf, hpeer⟩ := trackedVotes_eq_none.1 ht
        rcases hwrite with ⟨sum, hrecorded, hconf' | ⟨blockID, hmaj, hk⟩⟩ | ⟨rfl, -⟩
        · exact absurd hconf' hconf
        · obtain ⟨existing, hex⟩ := ne_none_iff_exists'.1 hconf
          rw [hsame.votesByBlock] at hpeer
          exact absurd ⟨vote, i, existing, blockID, rfl, fun hnil => haddr ⟨vote, rfl, hnil⟩, hc, hget,
            hslot.symm.trans hex, hmaj, hk, hpeer⟩ hm
        · exact ⟨h, fun _ => rfl⟩
      · refine ⟨Stored.countVote (hfiled.recordVote hc hrec) (hsame.counts hc) hnone ht (fun j v hj => ?_) _,
          fun hf => by cases hf⟩
        rcases hwrite with ⟨sum, rfl, -⟩ | ⟨rfl, -⟩
        · have hi : i < voteSet.votes.length := by rw [hfiled.length]; exact hc.lt_size
          rw [slot, slot_set hi] at hj
          split_ifs at hj with hji
          · cases hj
            exact .inl ⟨hji, rfl⟩
          · exact .inr (h j v hj)
        · exact .inr (h j v hj)

/-- **The storage rule**: after each call on a new vote set every vote is in the entry of its block, and the calls that
add nothing change nothing, exactly when no call brings a conflicting vote for a majority that no peer has claimed. -/
theorem stored_iff (P : Primitives) (A : Amino) (chainID : Bytes) (height round : Int) (type_ : UInt8)
    (valSet : ValidatorSet) (fresh : VoteSet) (hnew : newVoteSet chainID height round type_ valSet = some fresh)
    (calls : List Call) :
    Fold.Along (call P A) (KeepsRule P A) fresh calls ↔
    Fold.Along (call P A) (fun s c => ¬ Misfiles P A s c) fresh calls := by
  refine Fold.along_iff (I := fun s => Filed P A 0 s ∧ Stored A s) (fun s c s' hs hrule hcall => ⟨hs.1.call hcall, ?_⟩)
    (fun s c hs => keepsRule_iff hs.1 hs.2 c) ⟨filed_newVoteSet hnew, fun i vote hi => ?_⟩ calls
  · cases c with
    | addVote vote? =>
      obtain ⟨⟨_, added, err⟩, hadd, rfl⟩ := map_eq_some_iff.1 hcall
      exact (hrule _ added err hadd).1
    | setPeerMaj23 peerID blockID =>
      cases hcall
      exact hrule
  · rw [slot_newVoteSet hnew] at hi
    cases hi

/-- The second of two validators is a majority, and the first then votes for its block too. -/
def turncoat : List Call := adding (ballots [(0, 6), (1, 7), (0, 7)])

def lopsided (less more : Int) : ValidatorSet := .keyed [(1, less), (2, more)]

def majorityClaimed (A : Amino) (voteSet : VoteSet) : Bool :=
  voteSet.maj23.all fun blockID => (voteSet.votesByBlock.lookup (blockID.key A)).any BlockVotes.peerMaj23

theorem not_misfiles (h : majorityClaimed A voteSet = true) (c : Call) : ¬ Misfiles P A voteSet c := by
  rintro ⟨vote, i, existing, blockID, -, -, -, -, -, hmaj, hk, hpeer⟩
  rw [majorityClaimed, hmaj, all_some, any_eq_true_iff_get] at h
  obtain ⟨hentry, hclaimed⟩ := h
  rw [hpeer _ (hk ▸ (some_get hentry).symm)] at hclaimed
  cases hclaimed

/-- The same votes, after a peer has claimed the majority. -/
theorem stored_iff_claimed : ∃ fresh voteSet, newVoteSet [] 1 0 voteTypePrecommit (lopsided 1 4) = some fresh ∧
    run .transparent .plain fresh (.setPeerMaj23 [9] (trioID 7) :: turncoat) = some voteSet ∧
    voteSet.maj23 = some (trioID 7) ∧ voteSet.slot 0 = some (trioVote 0 (trioID 7)) ∧
    Fold.Along (call .transparent .plain) (KeepsRule .transparent .plain) fresh
      (.setPeerMaj23 [9] (trioID 7) :: turncoat) := by
  have heval : ((newVoteSet [] 1 0 voteTypePrecommit (lopsided 1 4)).bind fun fresh =>
      (run .transparent .plain fresh (.setPeerMaj23 [9] (trioID 7) :: turncoat)).map fun voteSet =>
        (voteSet.maj23, voteSet.slot 0, decide (Fold.Along (call .transparent .plain)
          (fun s _ => majorityClaimed .plain s = true) fresh (.setPeerMaj23 [9] (trioID 7) :: turncoat)))) =
      some (some (trioID 7), some (trioVote 0 (trioID 7)), true) := by
    decide +kernel
  obtain ⟨fresh, hnew, hmap⟩ := bind_eq_some_iff.1 heval
  obtain ⟨voteSet, hrun, hfields⟩ := map_eq_some_iff.1 hmap
  simp only [Prod.mk.injEq] at hfields
  obtain ⟨hmaj, hslot, halong⟩ := hfields
  refine ⟨fresh, voteSet, hnew, hrun, hmaj, hslot, ?_⟩
  exact (stored_iff .transparent .plain [] 1 0 voteTypePrecommit (lopsided 1 4) fresh hnew _).2
    ((of_decide_eq_true halong).imp fun _ c h => not_misfiles h c)

/-- The last vote takes the slot of the first, and is neither added nor in the entry of its block. -/
theorem turncoat_misfiled : ((newVoteSet [] 1 0 voteTypePrecommit (lopsided 1 4)).bind fun fresh =>
    (run .transparent .plain fresh (turncoat.take 2)).bind fun voteSet =>
      (voteSet.addVote .transparent .plain (some (trioVote 0 (trioID 7)))).map fun (voteSet', added, _) =>
        (added, voteSet.slot 0, voteSet'.slot 0, voteSet'.blockSlot ((trioID 7).key .plain) 0)) =
    some (false, some (trioVote 0 (trioID 6)), some (trioVote 0 (trioID 7)), none) := by
  decide +kernel

/-! ## Two majorities -/

theorem Backed.overlap (h : Backed P A voteSet) (hb : voteSet.valSet.Bounded)
    (hfit : voteSet.valSet.sumPower * 2 ≤ maxInt64) {key₁ key₂ : Bytes} {entry₁ entry₂ : BlockVotes}
    (hl₁ : voteSet.votesByBlock.lookup key₁ = some entry₁) (hl₂ : voteSet.votesByBlock.lookup key₂ = some entry₂)
    (hq₁ : voteSet.quorum ≤ entry₁.sum) (hq₂ : voteSet.quorum ≤ entry₂.sum) :
    voteSet.valSet.sumPower < 3 * voteSet.valSet.powerOf
      (fun i => present entry₁.votes i && present entry₂.votes i) := by
  rw [quorum_le_iff hb hfit, (h.blocks key₁ entry₁ hl₁).sum_eq] at hq₁
  rw [quorum_le_iff hb hfit, (h.blocks key₂ entry₂ hl₂).sum_eq] at hq₂
  have hinter := (ValidatorSet.isQuorum_of_powerOf hq₁).weight_inter (fun i _ => ValidatorSet.power_nonneg hb i)
    (ValidatorSet.isQuorum_of_powerOf hq₂)
  rw [← Finset.filter_and] at hinter
  simpa [ValidatorSet.powerOf, ValidatorSet.sumPower] using hinter

/-- **Quorums intersect, and entries are few**: where the double of the total power is an `int64`, two entries with a
quorum have more than a third of the power in common, each validator of which has signed for two blocks; there are
never more entries than validators with a vote and peers with a claim. -/
theorem quorums_overlap (P : Primitives) (A : Amino) (chainID : Bytes) (height round : Int) (type_ : UInt8)
    (valSet : ValidatorSet) (fresh : VoteSet) (hnew : newVoteSet chainID height round type_ valSet = some fresh)
    (calls : List Call) (voteSet : VoteSet) (hrun : run P A fresh calls = some voteSet) :
    (valSet.Bounded → valSet.sumPower * 2 ≤ maxInt64 → ∀ key₁ key₂ entry₁ entry₂, key₁ ≠ key₂ →
      voteSet.votesByBlock.lookup key₁ = some entry₁ → voteSet.votesByBlock.lookup key₂ = some entry₂ →
      voteSet.quorum ≤ entry₁.sum → voteSet.quorum ≤ entry₂.sum →
      valSet.sumPower < 3 * valSet.powerOf (fun i => present entry₁.votes i && present entry₂.votes i) ∧
      ∀ i, present entry₁.votes i = true → present entry₂.votes i = true → ∃ v w, entry₁.getByIndex i = some v ∧
        entry₂.getByIndex i = some w ∧ CountsFor P A chainID height round type_ valSet i v ∧
        CountsFor P A chainID height round type_ valSet i w ∧ v.blockID ≠ w.blockID) ∧
    voteSet.votesByBlock.keys.length ≤ voteSet.votes.countP Option.isSome + voteSet.peerMaj23s.keys.length := by
  obtain ⟨hfiled, hext⟩ := filed_run hnew hrun
  refine ⟨fun hb hfit key₁ key₂ entry₁ entry₂ hkey hl₁ hl₂ hq₁ hq₂ => ?_, hfiled.few⟩
  have hbacked := (run_after hb hnew hrun).backed
  have hval : voteSet.valSet = valSet := hext.valSet.trans (newVoteSet_eq hnew).1
  constructor
  · rw [← hval] at hb hfit ⊢
    exact hbacked.overlap hb hfit hl₁ hl₂ hq₁ hq₂
  · intro i h₁ h₂
    obtain ⟨v, hv⟩ := isSome_iff_exists.1 h₁
    obtain ⟨w, hw⟩ := isSome_iff_exists.1 h₂
    obtain ⟨hcv, hkv⟩ := (hfiled.entries key₁ entry₁ hl₁).2 i v hv
    obtain ⟨hcw, hkw⟩ := (hfiled.entries key₂ entry₂ hl₂).2 i w hw
    rw [hext.counts_iff hnew] at hcv hcw
    exact ⟨v, w, hv, hw, hcv, hcw, fun heq => hkey (by rw [← hkv, ← hkw, heq])⟩

/-- All three validators vote for two blocks that peers have claimed. -/
def twofold : List Call :=
  [6, 7].map (fun hash => .setPeerMaj23 [hash] (trioID hash)) ++
    adding (ballots [(0, 6), (1, 6), (2, 6), (0, 7), (1, 7), (2, 7)])

theorem quorums_overlap_twofold :
    ∃ (fresh voteSet : VoteSet) (entry₁ entry₂ : BlockVotes), newVoteSet [] 1 0 voteTypePrecommit (trio 1) =
      some fresh ∧
    run .transparent .plain fresh twofold = some voteSet ∧ voteSet.quorum ≤ entry₁.sum ∧ voteSet.quorum ≤ entry₂.sum ∧
    (trio 1).sumPower < 3 * (trio 1).powerOf (fun i => present entry₁.votes i && present entry₂.votes i) ∧
    voteSet.votesByBlock.keys.length ≤ voteSet.votes.countP Option.isSome + voteSet.peerMaj23s.keys.length := by
  have heval : ((newVoteSet [] 1 0 voteTypePrecommit (trio 1)).bind fun fresh =>
      (run .transparent .plain fresh twofold).bind fun voteSet =>
        (voteSet.votesByBlock.lookup ((trioID 6).key .plain)).bind fun entry₁ =>
          (voteSet.votesByBlock.lookup ((trioID 7).key .plain)).map fun entry₂ =>
            decide (voteSet.quorum ≤ entry₁.sum ∧ voteSet.quorum ≤ entry₂.sum)) = some true := by decide +kernel
  obtain ⟨fresh, hnew, heval⟩ := bind_eq_some_iff.1 heval
  obtain ⟨voteSet, hrun, heval⟩ := bind_eq_some_iff.1 heval
  obtain ⟨entry₁, hl₁, heval⟩ := bind_eq_some_iff.1 heval
  obtain ⟨entry₂, hl₂, hq⟩ := map_eq_some_iff.1 heval
  obtain ⟨hq₁, hq₂⟩ := of_decide_eq_true hq
  obtain ⟨hover, hfew⟩ := quorums_overlap .transparent .plain [] 1 0 voteTypePrecommit (trio 1) fresh hnew twofold
    voteSet hrun
  exact ⟨fresh, voteSet, entry₁, entry₂, hnew, hrun, hq₁, hq₂,
    (hover ⟨by decide, by decide⟩ (by decide) _ _ entry₁ entry₂ (by decide) hl₁ hl₂ hq₁ hq₂).1, hfew⟩

/-- With powers of `2 ^ 61` the quorum is negative, and single votes for two blocks reach it. -/
theorem quorums_apart : ((newVoteSet [] 1 0 voteTypePrecommit (trio (2 ^ 61))).bind fun fresh =>
    (run .transparent .plain fresh (adding (ballots [(0, 6), (1, 7)]))).bind fun voteSet =>
      (voteSet.votesByBlock.lookup ((trioID 6).key .plain)).bind fun entry₁ =>
        (voteSet.votesByBlock.lookup ((trioID 7).key .plain)).map fun entry₂ =>
          (decide (voteSet.quorum ≤ entry₁.sum ∧ voteSet.quorum ≤ entry₂.sum), entry₁.votes.map Option.isSome,
            entry₂.votes.map Option.isSome)) =
    some (true, [true, false, false], [false, true, false]) := by
  decide +kernel

end VoteSet

end Demars
