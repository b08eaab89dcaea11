import Demars.Types.ValidatorSet
import Demars.Common.BitArray

/-!
# Vote sets

`types/vote_set.go`. `addVote` is cut where the source reads on: the checks, `recordVote` (the first half of
`addVerifiedVote`, about `votes`), `trackedVotes` (which entry of `votesByBlock` the vote goes to, if any) and
`countVote` (the tally of that entry and the first majority). A panic of the source is `none`.
-/

namespace Demars

open Machine

structure BlockVotes where
  peerMaj23 : Bool
  bitArray : Option BitArray
  votes : List (Option Vote)
  sum : Int
deriving DecidableEq

structure VoteSet where
  chainID : Bytes
  height : Int
  round : Int
  type_ : UInt8
  valSet : ValidatorSet
  votesBitArray : Option BitArray
  votes : List (Option Vote)
  sum : Int
  maj23 : Option BlockID
  votesByBlock : AList (fun _ : Bytes => BlockVotes)
  peerMaj23s : AList (fun _ : Bytes => BlockID)
deriving DecidableEq

namespace BlockVotes

def newBlockVotes (peerMaj23 : Bool) (numValidators : Nat) : BlockVotes where
  peerMaj23 := peerMaj23
  bitArray := BitArray.newBitArray numValidators
  votes := List.replicate numValidators none
  sum := 0

def getByIndex (vs : BlockVotes) (index : Nat) : Option Vote := (vs.votes[index]?).join

def addVerifiedVote (vs : BlockVotes) (index : Nat) (vote : Vote) (votingPower : Int) : BlockVotes :=
  match vs.getByIndex index with
  | some _ => vs
  | none => { vs with
      bitArray := BitArray.set vs.bitArray index true
      votes := vs.votes.set index (some vote)
      sum := wrap64 (vs.sum + votingPower) }

end BlockVotes

namespace VoteSet

variable (P : Primitives) (A : Amino)

/-- `NewVoteSet`, which panics at height zero. -/
def newVoteSet (chainID : Bytes) (height round : Int) (type_ : UInt8) (valSet : ValidatorSet) : Option VoteSet :=
  if height = 0 then none
  else some {
    chainID, height, round, type_, valSet
    votesBitArray := BitArray.newBitArray valSet.size
    votes := List.replicate valSet.size none
    sum := 0
    maj23 := none
    votesByBlock := ∅
    peerMaj23s := ∅ }

section

variable (voteSet : VoteSet)

def slot (index : Nat) : Option Vote := (voteSet.votes[index]?).join

def blockSlot (blockKey : Bytes) (index : Nat) : Option Vote :=
  (voteSet.votesByBlock.lookup blockKey).bind (·.getByIndex index)

def getVote (index : Nat) (blockKey : Bytes) : Option Vote :=
  match voteSet.slot index with
  | some existing => if existing.blockID.key A = blockKey then some existing else voteSet.blockSlot blockKey index
  | none => voteSet.blockSlot blockKey index

/-- The first half of `addVerifiedVote`: keep the vote, and return the one it conflicts with. -/
def recordVote (index : Nat) (vote : Vote) (blockKey : Bytes) (votingPower : Int) :
    Option (VoteSet × Option Vote) :=
  match voteSet.slot index with
  | some existing =>
    if existing.blockID = vote.blockID then none
    else if voteSet.maj23.any (fun maj23 => decide (maj23.key A = blockKey)) then
      some ({ voteSet with
        votes := voteSet.votes.set index (some vote)
        votesBitArray := BitArray.set voteSet.votesBitArray index true }, some existing)
    else some (voteSet, some existing)
  | none => some ({ voteSet with
      votes := voteSet.votes.set index (some vote)
      votesBitArray := BitArray.set voteSet.votesBitArray index true
      sum := wrap64 (voteSet.sum + votingPower) }, none)

/-- The entry that counts the vote: none for a conflicting one whose block no peer claims. -/
def trackedVotes (blockKey : Bytes) (conflicting : Option Vote) : Option BlockVotes :=
  match voteSet.votesByBlock.lookup blockKey with
  | some votesByBlock => if conflicting.isSome && !votesByBlock.peerMaj23 then none else some votesByBlock
  | none => if conflicting.isSome then none else some (BlockVotes.newBlockVotes false voteSet.valSet.size)

def quorum : Int := wrap64 (voteSet.valSet.twoThirds + 1)

end

/-- The loop that copies the votes of a block over to `votes`. -/
def copyVotes (blockVotes votes : List (Option Vote)) : List (Option Vote) :=
  List.zipWith (fun new old => new.or old) blockVotes votes

section

variable (voteSet : VoteSet)

/-- The second half of `addVerifiedVote`: count the vote, and set `maj23` when it crosses the quorum first. -/
def countVote (index : Nat) (vote : Vote) (blockKey : Bytes) (votingPower : Int)
    (votesByBlock : BlockVotes) : VoteSet :=
  let counted := votesByBlock.addVerifiedVote index vote votingPower
  let tracked := { voteSet with votesByBlock := voteSet.votesByBlock.insert blockKey counted }
  if votesByBlock.sum < voteSet.quorum ∧ voteSet.quorum ≤ counted.sum ∧ voteSet.maj23 = none then
    { tracked with maj23 := some vote.blockID, votes := copyVotes counted.votes voteSet.votes }
  else tracked

def addVerifiedVote (index : Nat) (vote : Vote) (blockKey : Bytes) (votingPower : Int) :
    Option (VoteSet × Bool × Option Vote) :=
  match voteSet.recordVote A index vote blockKey votingPower with
  | none => none
  | some (recorded, conflicting) =>
    match recorded.trackedVotes blockKey conflicting with
    | none => some (recorded, false, conflicting)
    | some votesByBlock => some (recorded.countVote index vote blockKey votingPower votesByBlock, true, conflicting)

def addVote (vote : Option Vote) : Option (VoteSet × Bool × Option VoteError) :=
  match vote with
  | none => some (voteSet, false, some .nil)
  | some vote =>
    if vote.validatorIndex < 0 then some (voteSet, false, some .invalidValidatorIndex)
    else if vote.validatorAddress = [] then some (voteSet, false, some .invalidValidatorAddress)
    else if vote.height ≠ voteSet.height ∨ vote.round ≠ voteSet.round ∨ vote.type_ ≠ voteSet.type_ then
      some (voteSet, false, some .unexpectedStep)
    else match voteSet.valSet.getByIndex vote.validatorIndex with
      | none => some (voteSet, false, some .invalidValidatorIndex)
      | some val =>
        if vote.validatorAddress ≠ val.address then some (voteSet, false, some .invalidValidatorAddress)
        else match voteSet.getVote A vote.validatorIndex.toNat (vote.blockID.key A) with
          | some existing =>
            -- the method is called on the signature that was verified when the vote came in
            existing.signature.map fun signature =>
              if signature.equals vote.signature then (voteSet, false, none)
              else (voteSet, false, some .nonDeterministicSignature)
          | none => val.pubKey.bind fun pubKey =>
            match vote.verify P A voteSet.chainID pubKey with
            | some err => some (voteSet, false, some err)
            | none =>
              match voteSet.addVerifiedVote A vote.validatorIndex.toNat vote (vote.blockID.key A) val.votingPower with
              | none => none
              | some (voteSet, added, some conflicting) =>
                some (voteSet, added, some (.conflictingVotes val.pubKey conflicting vote))
              | some (voteSet, added, none) => if added then some (voteSet, true, none) else none

/-- `VoteSet.SetPeerMaj23`; the flag says whether it returned an error. -/
def setPeerMaj23 (peerID : Bytes) (blockID : BlockID) : VoteSet × Bool :=
  match voteSet.peerMaj23s.lookup peerID with
  | some existing => (voteSet, !decide (existing = blockID))
  | none =>
    let told := { voteSet with peerMaj23s := voteSet.peerMaj23s.insert peerID blockID }
    match voteSet.votesByBlock.lookup (blockID.key A) with
    | some votesByBlock =>
      if votesByBlock.peerMaj23 then (told, false)
      else ({ told with
        votesByBlock := voteSet.votesByBlock.insert (blockID.key A) { votesByBlock with peerMaj23 := true } }, false)
    | none => ({ told with
        votesByBlock := voteSet.votesByBlock.insert (blockID.key A)
          (BlockVotes.newBlockVotes true voteSet.valSet.size) }, false)

def hasTwoThirdsMajority : Bool := voteSet.maj23.isSome

def isCommit : Bool := decide (voteSet.type_ = voteTypePrecommit) && voteSet.maj23.isSome

def hasTwoThirdsAny : Bool := decide (voteSet.sum > voteSet.valSet.twoThirds)

def hasAll : Bool := decide (voteSet.sum = voteSet.valSet.totalVotingPower)

/-- `VoteSet.TwoThirdsMajority`; `none` is the answer that there is none. -/
def twoThirdsMajority : Option BlockID := voteSet.maj23

end

end VoteSet

end Demars
