import Demars.Types.Majority

/-!
# The votes of one height

`consensus/types/height_vote_set.go`: the prevotes and precommits of every round that is tracked, which are those
up to the current one and two for each peer. `VotesStep` lists the calls that change them.
-/

namespace Demars

open Option

structure RoundVoteSet where
  prevotes : VoteSet
  precommits : VoteSet
deriving DecidableEq

structure HeightVoteSet where
  chainID : Bytes
  height : Int
  valSet : ValidatorSet
  round : Int
  roundVoteSets : AList (fun _ : Int => RoundVoteSet)
  peerCatchupRounds : AList (fun _ : Bytes => List Int)
deriving DecidableEq

inductive AddVoteError
  | vote (err : VoteError)
  | unwantedRound
  | heightMismatch

namespace RoundVoteSet

/-- The set for one of the two valid vote types. -/
def get (rvs : RoundVoteSet) (type_ : UInt8) : VoteSet :=
  if type_ = voteTypePrevote then rvs.prevotes else rvs.precommits

def put (rvs : RoundVoteSet) (type_ : UInt8) (voteSet : VoteSet) : RoundVoteSet :=
  if type_ = voteTypePrevote then { rvs with prevotes := voteSet } else { rvs with precommits := voteSet }

end RoundVoteSet

namespace HeightVoteSet

variable (P : Primitives) (A : Amino)

section

variable (hvs : HeightVoteSet) (round : Int)

def getVoteSet (type_ : UInt8) : Option VoteSet :=
  (hvs.roundVoteSets.lookup round).map (·.get type_)

/-- `getVoteSet` with its panic, for a type that is neither of the two. -/
def getVoteSetOrPanic (type_ : UInt8) : Option (Option VoteSet) :=
  match hvs.roundVoteSets.lookup round with
  | none => some none
  | some rvs =>
    if type_ = voteTypePrevote then some (some rvs.prevotes)
    else if type_ = voteTypePrecommit then some (some rvs.precommits) else none

def prevotes : Option VoteSet := hvs.getVoteSet round voteTypePrevote

def precommits : Option VoteSet := hvs.getVoteSet round voteTypePrecommit

/-- `VoteSet.TwoThirdsMajority` of a set that may be `nil`. -/
def majority (type_ : UInt8) : Option BlockID :=
  (hvs.getVoteSet round type_).bind VoteSet.twoThirdsMajority

def addRound : Option HeightVoteSet :=
  match hvs.roundVoteSets.lookup round with
  | some _ => none
  | none =>
    (VoteSet.newVoteSet hvs.chainID hvs.height round voteTypePrevote hvs.valSet).bind fun prevotes =>
    (VoteSet.newVoteSet hvs.chainID hvs.height round voteTypePrecommit hvs.valSet).map fun precommits =>
      { hvs with roundVoteSets := hvs.roundVoteSets.insert round ⟨prevotes, precommits⟩ }

end

def newHeightVoteSet (chainID : Bytes) (height : Int) (valSet : ValidatorSet) : Option HeightVoteSet :=
  addRound { chainID, height, valSet, round := 0, roundVoteSets := ∅, peerCatchupRounds := ∅ } 0

def addRounds (hvs : HeightVoteSet) (round : Int) : Nat → Option HeightVoteSet
  | 0 => some hvs
  | n + 1 =>
    match hvs.roundVoteSets.lookup round with
    | some _ => addRounds hvs (round + 1) n
    | none => (hvs.addRound round).bind fun hvs => addRounds hvs (round + 1) n

section

variable (hvs : HeightVoteSet)

def setRound (round : Int) : Option HeightVoteSet :=
  if hvs.round ≠ 0 ∧ round < hvs.round + 1 then none
  else (addRounds hvs (hvs.round + 1) (round - hvs.round).toNat).map fun hvs => { hvs with round }

def putVoteSet (round : Int) (type_ : UInt8) (voteSet : VoteSet) : HeightVoteSet :=
  match hvs.roundVoteSets.lookup round with
  | none => hvs
  | some rvs => { hvs with roundVoteSets := hvs.roundVoteSets.insert round (rvs.put type_ voteSet) }

/-- The part of `AddVote` that opens a round; `some none` if the peer has opened two. -/
def openRound (round : Int) (peerID : Bytes) : Option (Option HeightVoteSet) :=
  match hvs.roundVoteSets.lookup round with
  | some _ => some (some hvs)
  | none =>
    let rndz := (hvs.peerCatchupRounds.lookup peerID).getD []
    if rndz.length < 2 then
      (hvs.addRound round).map fun hvs =>
        some { hvs with peerCatchupRounds := hvs.peerCatchupRounds.insert peerID (rndz ++ [round]) }
    else some none

def addVote (vote : Vote) (peerID : Bytes) :
    Option (HeightVoteSet × Bool × Option AddVoteError) :=
  if isVoteTypeValid vote.type_ = false then some (hvs, false, none)
  else (hvs.openRound vote.round peerID).bind fun
    | none => some (hvs, false, some .unwantedRound)
    | some hvs => (hvs.getVoteSet vote.round vote.type_).bind fun voteSet =>
      (voteSet.addVote P A (some vote)).map fun res =>
        (hvs.putVoteSet vote.round vote.type_ res.1, res.2.1, res.2.2.map .vote)

/-- `HeightVoteSet.POLInfo`: the last round with a majority of prevotes. -/
def polInfo : Int × BlockID :=
  ((List.range (hvs.round + 1).toNat).reverse.findSome? fun r =>
    (hvs.majority r voteTypePrevote).map fun blockID => ((r : Int), blockID)).getD (-1, BlockID.empty)

/-- `HeightVoteSet.SetPeerMaj23`, without its error. -/
def setPeerMaj23 (round : Int) (type_ : UInt8) (peerID : Bytes) (blockID : BlockID) :
    HeightVoteSet :=
  if isVoteTypeValid type_ = false then hvs
  else match hvs.getVoteSet round type_ with
    | none => hvs
    | some voteSet => hvs.putVoteSet round type_ (voteSet.setPeerMaj23 A peerID blockID).1

end

/-! ## Opening rounds -/

variable {P A} {hvs hvs' : HeightVoteSet} {t : UInt8} {round : Int} {Φ : Vote → Prop} {R : Int → Prop}

theorem isVoteTypeValid_iff : isVoteTypeValid t = true ↔ t = voteTypePrevote ∨ t = voteTypePrecommit := by
  simp [isVoteTypeValid]

theorem getVoteSetOrPanic_eq (ht : isVoteTypeValid t = true) :
    hvs.getVoteSetOrPanic round t = some (hvs.getVoteSet round t) := by
  unfold getVoteSetOrPanic getVoteSet
  cases hvs.roundVoteSets.lookup round with
  | none => rfl
  | some rvs => rcases isVoteTypeValid_iff.1 ht with rfl | rfl <;> rfl

/-- The second is the first with fresh sets for some rounds. -/
structure Opens (hvs hvs' : HeightVoteSet) : Prop where
  chainID : hvs'.chainID = hvs.chainID
  height : hvs'.height = hvs.height
  valSet : hvs'.valSet = hvs.valSet
  old : ∀ r t vs, hvs.getVoteSet r t = some vs → hvs'.getVoteSet r t = some vs
  new : ∀ r t vs, isVoteTypeValid t = true → hvs'.getVoteSet r t = some vs →
    hvs.getVoteSet r t = some vs ∨ VoteSet.newVoteSet hvs.chainID hvs.height r t hvs.valSet = some vs

theorem Opens.refl (hvs : HeightVoteSet) : Opens hvs hvs := ⟨rfl, rfl, rfl, fun _ _ _ h => h, fun _ _ _ _ h => .inl h⟩

theorem Opens.trans {hvs₁ hvs₂ hvs₃ : HeightVoteSet} (h₁ : Opens hvs₁ hvs₂) (h₂ : Opens hvs₂ hvs₃) :
    Opens hvs₁ hvs₃ where
  chainID := h₂.chainID.trans h₁.chainID
  height := h₂.height.trans h₁.height
  valSet := h₂.valSet.trans h₁.valSet
  old r t vs h := h₂.old r t vs (h₁.old r t vs h)
  new r t vs ht h := by
    rcases h₂.new r t vs ht h with h | h
    · exact h₁.new r t vs ht h
    · rw [h₁.chainID, h₁.height, h₁.valSet] at h
      exact .inr h

theorem addRound_eq_some_iff : hvs.addRound round = some hvs' ↔ round ∉ hvs.roundVoteSets ∧ ∃ prevotes precommits,
    VoteSet.newVoteSet hvs.chainID hvs.height round voteTypePrevote hvs.valSet = some prevotes ∧
    VoteSet.newVoteSet hvs.chainID hvs.height round voteTypePrecommit hvs.valSet = some precommits ∧
    hvs' = { hvs with roundVoteSets := hvs.roundVoteSets.insert round ⟨prevotes, precommits⟩ } := by
  rw [← AList.lookup_eq_none, addRound]
  cases hvs.roundVoteSets.lookup round with
  | some rvs => simp
  | none => simp [bind_eq_some_iff, @eq_comm _ hvs']

theorem opens_addRound (h : hvs.addRound round = some hvs') : Opens hvs hvs' := by
  obtain ⟨hnew, prevotes, precommits, hpre, hcom, rfl⟩ := addRound_eq_some_iff.1 h
  rw [← AList.lookup_eq_none] at hnew
  refine ⟨rfl, rfl, rfl, fun r t vs hr => ?_, fun r t vs ht hr => ?_⟩
  · have hne : r ≠ round := fun he => by subst he; simp [getVoteSet, hnew] at hr
    simpa [getVoteSet, AList.lookup_insert_ne hne] using hr
  · by_cases he : r = round
    · subst he
      simp only [getVoteSet, AList.lookup_insert, map_some, Option.some.injEq] at hr
      subst hr
      rcases isVoteTypeValid_iff.1 ht with rfl | rfl
      · exact .inr hpre
      · exact .inr hcom
    · exact .inl (by simpa [getVoteSet, AList.lookup_insert_ne he] using hr)

theorem opens_addRounds :
    ∀ {n : Nat} {hvs hvs' : HeightVoteSet} {round : Int}, addRounds hvs round n = some hvs' → Opens hvs hvs'
  | 0, hvs, hvs', _, h => by
    cases h
    exact Opens.refl hvs
  | n + 1, hvs, hvs', round, h => by
    unfold addRounds at h
    cases hl : hvs.roundVoteSets.lookup round with
    | some rvs =>
      rw [hl] at h
      exact opens_addRounds h
    | none =>
      rw [hl] at h
      obtain ⟨hvs₁, h₁, h⟩ := bind_eq_some_iff.1 h
      exact (opens_addRound h₁).trans (opens_addRounds h)

theorem opens_setRound (h : hvs.setRound round = some hvs') : Opens hvs hvs' := by
  unfold setRound at h
  split_ifs at h
  obtain ⟨hvs₁, h₁, rfl⟩ := map_eq_some_iff.1 h
  obtain ⟨h1, h2, h3, h4, h5⟩ := opens_addRounds h₁
  exact ⟨h1, h2, h3, h4, h5⟩

/-- The rounds that a peer has opened. -/
def catchupRounds (hvs : HeightVoteSet) (peerID : Bytes) : List Int := (hvs.peerCatchupRounds.lookup peerID).getD []

theorem openRound_eq (hvs : HeightVoteSet) (round : Int) (peerID : Bytes) : hvs.openRound round peerID =
    if round ∈ hvs.roundVoteSets then some (some hvs)
    else if (hvs.catchupRounds peerID).length < 2 then (hvs.addRound round).map fun hvs₁ => some { hvs₁ with
      peerCatchupRounds := hvs₁.peerCatchupRounds.insert peerID (hvs.catchupRounds peerID ++ [round]) }
    else some none := by
  unfold openRound
  cases hl : hvs.roundVoteSets.lookup round with
  | some rvs => rw [if_pos (AList.lookup_isSome.1 (by rw [hl]; rfl))]
  | none => rw [if_neg (AList.lookup_eq_none.1 hl), catchupRounds]

theorem opens_openRound {peerID : Bytes} (h : hvs.openRound round peerID = some (some hvs')) : Opens hvs hvs' := by
  rw [openRound_eq] at h
  split_ifs at h
  · cases h
    exact Opens.refl hvs
  · obtain ⟨hvs₁, h₁, he⟩ := map_eq_some_iff.1 h
    cases he
    obtain ⟨h1, h2, h3, h4, h5⟩ := opens_addRound h₁
    exact ⟨h1, h2, h3, h4, h5⟩
  · cases h

theorem getVoteSet_putVoteSet {type_ : UInt8} {old : VoteSet} (h : hvs.getVoteSet round type_ = some old)
    (htype : isVoteTypeValid type_ = true) (new : VoteSet) (r : Int) (ht : isVoteTypeValid t = true) :
    (hvs.putVoteSet round type_ new).getVoteSet r t = if r = round ∧ t = type_ then some new
      else hvs.getVoteSet r t := by
  obtain ⟨rvs, hl, -⟩ := map_eq_some_iff.1 h
  unfold putVoteSet
  rw [hl]
  by_cases hr : r = round
  · subst hr
    simp only [getVoteSet, AList.lookup_insert, hl]
    rcases isVoteTypeValid_iff.1 htype with rfl | rfl <;> rcases isVoteTypeValid_iff.1 ht with rfl | rfl <;> rfl
  · simp [getVoteSet, hr]

/-! ## Steps -/

variable (P A) in
/-- The calls that change the votes of a height. -/
inductive VotesStep (Φ : Vote → Prop) (R : Int → Prop) (hvs : HeightVoteSet) : HeightVoteSet → Prop
  | setRound {hvs' : HeightVoteSet} {round : Int} (hR : R round) (h : hvs.setRound round = some hvs') :
      VotesStep Φ R hvs hvs'
  | addVote {hvs' : HeightVoteSet} {vote : Vote} {peerID : Bytes} {added : Bool} {err : Option AddVoteError}
      (hΦ : Φ vote) (h : hvs.addVote P A vote peerID = some (hvs', added, err)) : VotesStep Φ R hvs hvs'
  | setPeerMaj23 (round : Int) (type_ : UInt8) (peerID : Bytes) (blockID : BlockID) :
      VotesStep Φ R hvs (hvs.setPeerMaj23 A round type_ peerID blockID)

/-- What a call may have done before it changes a vote set. -/
inductive Opening (R : Int → Prop) (hvs hvs' : HeightVoteSet) : Prop
  | none (h : hvs' = hvs)
  | setRound {round : Int} (hR : R round) (h : hvs.setRound round = some hvs')
  | openRound {round : Int} {peerID : Bytes} (h : hvs.openRound round peerID = some (some hvs'))

theorem Opening.opens (h : Opening R hvs hvs') : Opens hvs hvs' := by
  cases h with
  | none h => exact h ▸ Opens.refl hvs
  | setRound _ h => exact opens_setRound h
  | openRound h => exact opens_openRound h

/-- A step opens rounds and then changes at most one vote set, by a call of its own. -/
theorem VotesStep.cases (h : VotesStep P A Φ R hvs hvs') :
    ∃ hvs₁, Opening R hvs hvs₁ ∧ (hvs' = hvs₁ ∨ ∃ round type_ old new, isVoteTypeValid type_ = true ∧
      hvs₁.getVoteSet round type_ = some old ∧ hvs' = hvs₁.putVoteSet round type_ new ∧
      ((∃ vote added err, Φ vote ∧ old.addVote P A (some vote) = some (new, added, err)) ∨
        ∃ peerID blockID, new = (old.setPeerMaj23 A peerID blockID).1)) := by
  cases h with
  | setRound hR h => exact ⟨hvs', .setRound hR h, .inl rfl⟩
  | @addVote _ vote peerID added err hΦ h =>
    unfold HeightVoteSet.addVote at h
    split_ifs at h with hvalid
    · cases h
      exact ⟨hvs, .none rfl, .inl rfl⟩
    · obtain ⟨res, hopen, h⟩ := bind_eq_some_iff.1 h
      cases res with
      | none =>
        cases h
        exact ⟨hvs, .none rfl, .inl rfl⟩
      | some hvs₁ =>
        obtain ⟨old, hold, h⟩ := bind_eq_some_iff.1 h
        obtain ⟨⟨new, added', err'⟩, hadd, he⟩ := map_eq_some_iff.1 h
        cases he
        exact ⟨hvs₁, .openRound hopen, .inr ⟨vote.round, vote.type_, old, new, by simpa using hvalid, hold, rfl,
          .inl ⟨vote, added', err', hΦ, hadd⟩⟩⟩
  | setPeerMaj23 round type_ peerID blockID =>
    refine ⟨hvs, .none rfl, ?_⟩
    unfold HeightVoteSet.setPeerMaj23
    split_ifs with hvalid
    · exact .inl rfl
    · cases hget : hvs.getVoteSet round type_ with
      | none => exact .inl rfl
      | some old => exact .inr ⟨round, type_, old, _, by simpa using hvalid, hget, rfl, .inr ⟨peerID, blockID, rfl⟩⟩

/-- A property of all vote sets that fresh sets have and the calls keep is kept by a step. -/
theorem VotesStep.sets {Q : Int → UInt8 → VoteSet → Prop} (h : VotesStep P A Φ R hvs hvs')
    (hfresh : ∀ r t vs, isVoteTypeValid t = true → VoteSet.newVoteSet hvs.chainID hvs.height r t hvs.valSet =
      some vs → Q r t vs)
    (hadd : ∀ r t vs vs' vote added err, Φ vote → Q r t vs → vs.addVote P A (some vote) = some (vs', added, err) →
      Q r t vs')
    (hpeer : ∀ r t vs peerID blockID, Q r t vs → Q r t (vs.setPeerMaj23 A peerID blockID).1)
    (hQ : ∀ r t vs, isVoteTypeValid t = true → hvs.getVoteSet r t = some vs → Q r t vs) :
    ∀ r t vs, isVoteTypeValid t = true → hvs'.getVoteSet r t = some vs → Q r t vs := by
  obtain ⟨hvs₁, hopen, hcase⟩ := h.cases
  replace hopen := hopen.opens
  have h₁ : ∀ r t vs, isVoteTypeValid t = true → hvs₁.getVoteSet r t = some vs → Q r t vs := fun r t vs ht hget =>
    (hopen.new r t vs ht hget).elim (hQ r t vs ht) (hfresh r t vs ht)
  rcases hcase with rfl | ⟨round, type_, old, new, htype, hold, rfl, hcall⟩
  · exact h₁
  · intro r t vs ht hget
    rw [getVoteSet_putVoteSet hold htype new r ht] at hget
    split_ifs at hget with heq
    · obtain ⟨rfl, rfl⟩ := heq
      cases hget
      rcases hcall with ⟨vote, added, err, hΦ, hcall⟩ | ⟨peerID, blockID, rfl⟩
      · exact hadd _ _ _ _ _ _ _ hΦ (h₁ _ _ _ ht hold) hcall
      · exact hpeer _ _ _ _ _ (h₁ _ _ _ ht hold)
    · exact h₁ r t vs ht hget

/-- The second has the majorities of the first. -/
structure Extends (hvs hvs' : HeightVoteSet) : Prop where
  chainID : hvs'.chainID = hvs.chainID
  height : hvs'.height = hvs.height
  valSet : hvs'.valSet = hvs.valSet
  majority : ∀ r t blockID, isVoteTypeValid t = true → hvs.majority r t = some blockID →
    hvs'.majority r t = some blockID

theorem VotesStep.extends (h : VotesStep P A Φ R hvs hvs') : Extends hvs hvs' := by
  obtain ⟨hvs₁, hopen, hcase⟩ := h.cases
  replace hopen := hopen.opens
  have h₁ : Extends hvs hvs₁ := ⟨hopen.chainID, hopen.height, hopen.valSet, fun r t blockID _ hm => by
    obtain ⟨vs, hget, hmaj⟩ := bind_eq_some_iff.1 hm
    exact bind_eq_some_iff.2 ⟨vs, hopen.old r t vs hget, hmaj⟩⟩
  rcases hcase with rfl | ⟨round, type_, old, new, htype, hold, rfl, hcall⟩
  · exact h₁
  · have hext : VoteSet.Extends old new := by
      rcases hcall with ⟨vote, added, err, -, hadd⟩ | ⟨peerID, blockID, rfl⟩
      · exact VoteSet.addVote_extends hadd
      · exact VoteSet.setPeerMaj23_extends peerID blockID
    obtain ⟨rvs, hl, -⟩ := map_eq_some_iff.1 hold
    refine ⟨?_, ?_, ?_, fun r t blockID ht hm => ?_⟩
    · rw [← h₁.chainID, putVoteSet, hl]
    · rw [← h₁.height, putVoteSet, hl]
    · rw [← h₁.valSet, putVoteSet, hl]
    · obtain ⟨vs, hget, hmaj⟩ := bind_eq_some_iff.1 (h₁.majority r t blockID ht hm)
      rw [HeightVoteSet.majority, getVoteSet_putVoteSet hold htype new r ht]
      split_ifs with heq
      · obtain ⟨rfl, rfl⟩ := heq
        cases Option.some.inj (hget.symm.trans hold)
        exact hext.maj23 blockID hmaj
      · rw [hget]
        exact hmaj

def Holds (Φ : Vote → Prop) (hvs : HeightVoteSet) : Prop :=
  ∀ r t vs, isVoteTypeValid t = true → hvs.getVoteSet r t = some vs → vs.Holds Φ

theorem VotesStep.holds (h : VotesStep P A Φ R hvs hvs') (hΦ : hvs.Holds Φ) : hvs'.Holds Φ :=
  h.sets (fun _ _ _ _ hnew => VoteSet.holds_newVoteSet hnew) (fun _ _ _ _ _ _ _ hv hs hadd => hs.addVote hv hadd)
    (fun _ _ _ peerID blockID hs => hs.setPeerMaj23 peerID blockID) hΦ

/-! ## The invariant -/

/-- A vote set of the height, in order. -/
structure SetOk (P : Primitives) (A : Amino) (hvs : HeightVoteSet) (round : Int) (type_ : UInt8) (vs : VoteSet) :
    Prop where
  inv : vs.Inv P A
  chainID : vs.chainID = hvs.chainID
  height : vs.height = hvs.height
  round : vs.round = round
  type_ : vs.type_ = type_
  valSet : vs.valSet = hvs.valSet

def Inv (P : Primitives) (A : Amino) (hvs : HeightVoteSet) : Prop :=
  ∀ r t vs, isVoteTypeValid t = true → hvs.getVoteSet r t = some vs → SetOk P A hvs r t vs

theorem setOk_newVoteSet {r : Int} {vs : VoteSet}
    (h : VoteSet.newVoteSet hvs.chainID hvs.height r t hvs.valSet = some vs) : SetOk P A hvs r t vs := by
  have hinv : vs.Inv P A := VoteSet.newVoteSet_inv h
  unfold VoteSet.newVoteSet at h
  split_ifs at h
  cases h
  exact ⟨hinv, rfl, rfl, rfl, rfl, rfl⟩

theorem SetOk.extends {r : Int} {vs vs' : VoteSet} (h : SetOk P A hvs r t vs) (hinv : vs'.Inv P A)
    (hext : VoteSet.Extends vs vs') : SetOk P A hvs r t vs' where
  inv := hinv
  chainID := hext.chainID.trans h.chainID
  height := hext.height.trans h.height
  round := hext.round.trans h.round
  type_ := hext.type_.trans h.type_
  valSet := hext.valSet.trans h.valSet

theorem VotesStep.inv (h : VotesStep P A Φ R hvs hvs') (hb : hvs.valSet.Bounded)
    (hfit : hvs.valSet.sumPower * 2 ≤ Machine.maxInt64) (hi : hvs.Inv P A) : hvs'.Inv P A := by
  have hsets := h.sets (Q := SetOk P A hvs) (fun _ _ _ _ => setOk_newVoteSet) ?_ ?_ hi
  · intro r t vs ht hget
    have hok := hsets r t vs ht hget
    have hext := h.extends
    exact ⟨hok.inv, hok.chainID.trans hext.chainID.symm, hok.height.trans hext.height.symm, hok.round, hok.type_,
      hok.valSet.trans hext.valSet.symm⟩
  · intro r t vs vs' vote added err _ hok hadd
    have hb' : vs.valSet.Bounded := hok.valSet ▸ hb
    have hfit' : vs.valSet.sumPower * 2 ≤ Machine.maxInt64 := hok.valSet ▸ hfit
    obtain ⟨hinv, hext⟩ := VoteSet.addVote_inv hok.inv hb' (VoteSet.quorum_pos hb' hfit') hadd
    exact hok.extends hinv hext
  · intro r t vs peerID blockID hok
    have hb' : vs.valSet.Bounded := hok.valSet ▸ hb
    have hfit' : vs.valSet.sumPower * 2 ≤ Machine.maxInt64 := hok.valSet ▸ hfit
    exact hok.extends (VoteSet.setPeerMaj23_inv hok.inv (VoteSet.quorum_pos hb' hfit') peerID blockID)
      (VoteSet.setPeerMaj23_extends peerID blockID)

theorem newHeightVoteSet_spec {chainID : Bytes} {height : Int} {valSet : ValidatorSet}
    (h : newHeightVoteSet chainID height valSet = some hvs) :
    hvs.chainID = chainID ∧ hvs.height = height ∧ hvs.valSet = valSet ∧ hvs.Inv P A ∧ ∀ Φ, hvs.Holds Φ := by
  have hopen := opens_addRound h
  have hnew : ∀ r t vs, isVoteTypeValid t = true → hvs.getVoteSet r t = some vs →
      VoteSet.newVoteSet chainID height r t valSet = some vs := fun r t vs ht hget =>
    (hopen.new r t vs ht hget).resolve_left fun hn => by simp [getVoteSet] at hn
  refine ⟨hopen.chainID, hopen.height, hopen.valSet, fun r t vs ht hget => setOk_newVoteSet ?_,
    fun Φ r t vs ht hget => VoteSet.holds_newVoteSet (hnew r t vs ht hget)⟩
  rw [hopen.chainID, hopen.height, hopen.valSet]
  exact hnew r t vs ht hget

/-! ## Counting the votes

The majority that a set records is a block ID with the key of the quorum: other votes of the quorum may be for other
block IDs with that key. -/

/-- The validators with a vote in the set for this very block ID. -/
def votedFor (A : Amino) (vs : VoteSet) (blockID : BlockID) (j : Nat) : Bool :=
  (vs.blockSlot (blockID.key A) j).any fun vote => vote.blockID = blockID

/-- Validators with more than two thirds of the power have voted for the block ID. -/
def TwoThirds (A : Amino) (hvs : HeightVoteSet) (round : Int) (type_ : UInt8) (blockID : BlockID) : Prop :=
  ∃ vs ∈ hvs.getVoteSet round type_, 2 * vs.valSet.sumPower < 3 * vs.valSet.powerOf (votedFor A vs blockID)

instance (A : Amino) (hvs : HeightVoteSet) (round : Int) (type_ : UInt8) (blockID : BlockID) :
    Decidable (TwoThirds A hvs round type_ blockID) := by
  unfold TwoThirds
  infer_instance

variable {r : Int} {blockID : BlockID}

/-- A majority is for a block ID that somebody has voted for. -/
theorem TwoThirds.exists_vote (h : TwoThirds A hvs r t blockID)
    (hpos : ∀ vs ∈ hvs.getVoteSet r t, 0 ≤ vs.valSet.sumPower) : ∃ vs ∈ hvs.getVoteSet r t,
      ∃ x ∈ vs.votesByBlock.entries, ∃ vote, some vote ∈ x.2.votes ∧ vote.blockID = blockID := by
  obtain ⟨vs, hget, hlt⟩ := h
  refine ⟨vs, hget, ?_⟩
  by_contra hno
  have hnone : vs.valSet.powerOf (votedFor A vs blockID) = 0 := by
    refine Finset.sum_eq_zero fun j hj => absurd (Finset.mem_filter.1 hj).2 fun hvoted => hno ?_
    obtain ⟨vote, hslot, heq⟩ := (any_eq_true _ _).1 hvoted
    obtain ⟨entry, hl, hentry⟩ := bind_eq_some_iff.1 hslot
    exact ⟨⟨_, entry⟩, AList.mem_lookup_iff.1 hl, vote, List.mem_of_getElem? (join_eq_some_iff.1 hentry),
      of_decide_eq_true heq⟩
  have hnonneg := hpos vs hget
  omega

/-- What makes the recorded majorities right, but for the keys. -/
structure Sound (P : Primitives) (A : Amino) (Φ : Vote → Prop) (hvs : HeightVoteSet) : Prop where
  bounded : hvs.valSet.Bounded
  fits : hvs.valSet.sumPower * 2 ≤ Machine.maxInt64
  inv : hvs.Inv P A
  holds : hvs.Holds Φ

theorem Sound.step (h : Sound P A Φ hvs) (hstep : VotesStep P A Φ R hvs hvs') : Sound P A Φ hvs' := by
  have hvals := hstep.extends.valSet
  exact ⟨hvals ▸ h.bounded, hvals ▸ h.fits, hstep.inv h.bounded h.fits h.inv, hstep.holds h.holds⟩

/-- Where a key stands for one block ID, the majority that is recorded is one of the votes. -/
theorem Sound.twoThirds (h : Sound P A Φ hvs)
    (hkeys : ∀ v w, Φ v → Φ w → v.blockID.key A = w.blockID.key A → v.blockID = w.blockID)
    (ht : isVoteTypeValid t = true) (hm : hvs.majority r t = some blockID) : TwoThirds A hvs r t blockID := by
  obtain ⟨vs, hget, hmaj⟩ := bind_eq_some_iff.1 hm
  have hok := h.inv r t vs ht hget
  have hholds := h.holds r t vs ht hget
  obtain ⟨⟨entry, hl, hq⟩, j₀, v₀, hslot₀, hv₀⟩ := hok.inv.maj23_some blockID hmaj
  rw [VoteSet.quorum_le_iff (hok.valSet ▸ h.bounded) (hok.valSet ▸ h.fits), (hok.inv.blocks _ entry hl).sum_eq] at hq
  have hvoted : votedFor A vs blockID = present entry.votes := by
    funext j
    have hslot : vs.blockSlot (blockID.key A) j = (entry.votes[j]?).join := by
      simp [VoteSet.blockSlot, hl, BlockVotes.getByIndex]
    rw [votedFor, present, ← hslot]
    cases hv : vs.blockSlot (blockID.key A) j with
    | none => rfl
    | some v =>
      have hvkey := (hok.inv.blockCounts _ j v hv).2.1
      have hblock : v.blockID = blockID :=
        (hkeys v v₀ (hholds _ j v hv) (hholds _ j₀ v₀ hslot₀) (hv₀ ▸ hvkey)).trans hv₀
      simp [hblock]
  exact ⟨vs, hget, hvoted ▸ hq⟩

/-! ## The rounds that are tracked -/

/-- All rounds up to the current one are there, and every other was opened by a peer, which can open two. -/
structure Tracked (hvs : HeightVoteSet) : Prop where
  height : hvs.height ≠ 0
  nonneg : 0 ≤ hvs.round
  upTo : ∀ r, 0 ≤ r → r ≤ hvs.round → r ∈ hvs.roundVoteSets
  further : ∀ r ∈ hvs.roundVoteSets, 0 ≤ r ∧ r ≤ hvs.round ∨ ∃ peerID, r ∈ hvs.catchupRounds peerID
  two : ∀ peerID, (hvs.catchupRounds peerID).length ≤ 2

theorem exists_addRound (hheight : hvs.height ≠ 0) (hnew : round ∉ hvs.roundVoteSets) :
    ∃ rvs, hvs.addRound round = some { hvs with roundVoteSets := hvs.roundVoteSets.insert round rvs } := by
  have hfresh : ∀ t, ∃ vs, VoteSet.newVoteSet hvs.chainID hvs.height round t hvs.valSet = some vs := fun t =>
    ⟨_, if_neg hheight⟩
  obtain ⟨prevotes, hpre⟩ := hfresh voteTypePrevote
  obtain ⟨precommits, hcom⟩ := hfresh voteTypePrecommit
  exact ⟨⟨prevotes, precommits⟩, addRound_eq_some_iff.2 ⟨hnew, prevotes, precommits, hpre, hcom, rfl⟩⟩

theorem exists_addRounds (hheight : hvs.height ≠ 0) (n : Nat) (round : Int) :
    ∃ sets, addRounds hvs round n = some { hvs with roundVoteSets := sets } ∧
      ∀ r, r ∈ sets ↔ r ∈ hvs.roundVoteSets ∨ round ≤ r ∧ r < round + n := by
  induction n generalizing hvs round with
  | zero => exact ⟨hvs.roundVoteSets, rfl, fun r => by simp⟩
  | succ n ih =>
    unfold addRounds
    cases hl : hvs.roundVoteSets.lookup round with
    | some rvs =>
      have hmem : round ∈ hvs.roundVoteSets := AList.lookup_isSome.1 (by rw [hl]; rfl)
      obtain ⟨sets, hsets, hiff⟩ := ih hheight (round + 1)
      refine ⟨sets, hsets, fun r => ?_⟩
      by_cases hr : r = round
      · subst hr
        simp [hiff, hmem]
      · grind
    | none =>
      obtain ⟨rvs, hadd⟩ := exists_addRound hheight (AList.lookup_eq_none.1 hl)
      obtain ⟨sets, hsets, hiff⟩ := @ih { hvs with roundVoteSets := hvs.roundVoteSets.insert round rvs }
        hheight (round + 1)
      refine ⟨sets, by simp only [hadd, bind_some, hsets], fun r => ?_⟩
      rw [hiff, AList.mem_insert]
      grind

namespace Tracked

variable (h : hvs.Tracked)
include h

theorem setRound (hle : hvs.round ≤ round) (hlt : hvs.round = 0 ∨ hvs.round < round) :
    ∃ hvs', hvs.setRound round = some hvs' ∧ hvs'.Tracked ∧ hvs'.round = round := by
  obtain ⟨sets, hsets, hiff⟩ := exists_addRounds h.height (round - hvs.round).toNat (hvs.round + 1)
  refine ⟨{ hvs with roundVoteSets := sets, round }, ?_, ⟨h.height, h.nonneg.trans hle, fun r h0 hr => ?_,
    fun r hr => ?_, h.two⟩, rfl⟩
  · rw [HeightVoteSet.setRound, if_neg (by omega), hsets]
    rfl
  · rw [hiff]
    exact (le_or_gt r hvs.round).imp (h.upTo r h0) fun hgt => by dsimp only at hr; omega
  · rcases (hiff r).1 hr with hold | hnew
    · exact (h.further r hold).imp_left fun hin => ⟨hin.1, hin.2.trans hle⟩
    · exact .inl ⟨by have := h.nonneg; omega, by dsimp only; omega⟩

theorem openRound (round : Int) (peerID : Bytes) : ∃ res, hvs.openRound round peerID = some res ∧
    ∀ hvs' ∈ res, hvs'.Tracked ∧ hvs'.round = hvs.round ∧ round ∈ hvs'.roundVoteSets := by
  rw [openRound_eq]
  split_ifs with hmem hlen
  · exact ⟨_, rfl, by rintro _ ⟨⟩; exact ⟨h, rfl, hmem⟩⟩
  · obtain ⟨rvs, hadd⟩ := exists_addRound h.height hmem
    rw [hadd]
    refine ⟨_, rfl, ?_⟩
    rintro _ ⟨⟩
    obtain ⟨rndz, hrndz⟩ : ∃ rndz, hvs.catchupRounds peerID ++ [round] = rndz := ⟨_, rfl⟩
    have hlists : ∀ other, ((hvs.peerCatchupRounds.insert peerID rndz).lookup other).getD [] =
        if other = peerID then rndz else hvs.catchupRounds other := by
      intro other
      split_ifs with he
      · rw [he, AList.lookup_insert, getD_some]
      · rw [AList.lookup_insert_ne he, catchupRounds]
    rw [hrndz]
    refine ⟨⟨h.height, h.nonneg, fun r h0 hr => (AList.mem_insert _).2 (.inr (h.upTo r h0 hr)), fun r hr => ?_,
      fun other => ?_⟩, rfl, (AList.mem_insert _).2 (.inl rfl)⟩
    · simp only [catchupRounds, hlists]
      rcases (AList.mem_insert _).1 hr with rfl | hr
      · exact .inr ⟨peerID, by simp [← hrndz]⟩
      · refine (h.further r hr).imp_right fun ⟨other, hmem⟩ => ⟨other, ?_⟩
        split_ifs with he
        · exact hrndz ▸ List.mem_append_left _ (he ▸ hmem)
        · exact hmem
    · simp only [catchupRounds, hlists]
      split_ifs
      · rw [← hrndz, List.length_append, List.length_singleton]
        omega
      · exact h.two other
  · exact ⟨_, rfl, nofun⟩

theorem putVoteSet (type_ : UInt8) (vs : VoteSet) : (hvs.putVoteSet round type_ vs).Tracked := by
  unfold HeightVoteSet.putVoteSet
  cases hl : hvs.roundVoteSets.lookup round with
  | none => exact h
  | some rvs =>
    have hmem : round ∈ hvs.roundVoteSets := AList.lookup_isSome.1 (by rw [hl]; rfl)
    refine ⟨h.height, h.nonneg, fun r h0 hr => (AList.mem_insert _).2 (.inr (h.upTo r h0 hr)), fun r hr => ?_, h.two⟩
    rcases (AList.mem_insert _).1 hr with rfl | hr
    · exact h.further r hmem
    · exact h.further r hr

theorem votesStep (hstep : VotesStep P A Φ R hvs hvs') (hR : ∀ round, R round → hvs.round ≤ round) :
    hvs'.Tracked ∧ (hvs'.round = hvs.round ∨ R hvs'.round) := by
  obtain ⟨hvs₁, hopen, hcase⟩ := hstep.cases
  have h₁ : hvs₁.Tracked ∧ (hvs₁.round = hvs.round ∨ R hvs₁.round) := by
    cases hopen with
    | none he => exact he.symm ▸ ⟨h, .inl rfl⟩
    | @setRound round hr hset =>
      have hlt : hvs.round = 0 ∨ hvs.round < round := by
        by_contra hno
        rw [HeightVoteSet.setRound, if_pos (by omega)] at hset
        cases hset
      obtain ⟨hvs₂, hset', htracked, hround⟩ := h.setRound (hR round hr) hlt
      cases Option.some.inj (hset.symm.trans hset')
      exact ⟨htracked, .inr (hround ▸ hr)⟩
    | @openRound round peerID hopen =>
      obtain ⟨res, hres, hall⟩ := h.openRound round peerID
      obtain ⟨htracked, hround, -⟩ := hall hvs₁ (Option.some.inj (hres.symm.trans hopen) ▸ rfl)
      exact ⟨htracked, .inl hround⟩
  rcases hcase with rfl | ⟨round, type_, old, new, -, -, rfl, -⟩
  · exact h₁
  · refine ⟨h₁.1.putVoteSet type_ new, ?_⟩
    unfold HeightVoteSet.putVoteSet
    split <;> exact h₁.2

end Tracked

theorem tracked_new {chainID : Bytes} {height : Int} {valSet : ValidatorSet}
    (h : newHeightVoteSet chainID height valSet = some hvs) : hvs.Tracked ∧ hvs.round = 0 := by
  obtain ⟨-, prevotes, precommits, hpre, -, rfl⟩ := addRound_eq_some_iff.1 h
  have hheight : height ≠ 0 := fun he => by simp [VoteSet.newVoteSet, he] at hpre
  refine ⟨⟨hheight, le_rfl, fun r h0 hr => ?_, fun r hr => ?_, fun peerID => by simp [catchupRounds]⟩, rfl⟩
  · exact (AList.mem_insert _).2 (.inl (by dsimp only at hr; omega))
  · rcases (AList.mem_insert _).1 hr with rfl | hr
    · exact .inl ⟨le_rfl, le_rfl⟩
    · simp at hr

end HeightVoteSet

end Demars
