import Demars.Types.Vote

/-!
# The signer with a key file

`privval/priv_validator.go`. `SignVote` and `SignProposal` do the same to the two kinds of messages, so they are
one definition, `plan`, on `Message`, which `signVote` and `signProposal` carry out. The private key is the
parameter `sign` (`none` for its error), the clock that `checkVotesOnlyDifferByTimestamp` reads the argument `now`.
A panic is `none`.
-/

namespace Demars

/-- `FilePV`: the fields that signing reads and writes. -/
structure FilePV where
  lastHeight : Int
  lastRound : Int
  lastStep : Int
  lastSignature : Option Signature
  lastSignBytes : Option Bytes

inductive SignError
  | heightRegression
  | roundRegression
  | stepRegression
  | noLastSignature
  | conflictingData
  | keyError

inductive Message
  | vote (vote : Vote)
  | proposal (proposal : Proposal)

def stepPropose : Int := 1

def stepPrevote : Int := 2

def stepPrecommit : Int := 3

/-- `voteToStep`, which panics on an unknown type. -/
def voteToStep (vote : Vote) : Option Int :=
  if vote.type_ = voteTypePrevote then some stepPrevote
  else if vote.type_ = voteTypePrecommit then some stepPrecommit
  else none

namespace CanonicalJSON

def eraseTime : CanonicalJSON → CanonicalJSON
  | .vote v => .vote { v with timestamp := 0 }
  | .proposal p => .proposal { p with timestamp := 0 }
  | .heartbeat h => .heartbeat h

end CanonicalJSON

section

variable (A : Amino) (now : Int)

def checkVotesOnlyDifferByTimestamp (lastSignBytes newSignBytes : Bytes) : Option (Int × Bool) :=
  (A.unmarshalVote lastSignBytes).bind fun lastVote =>
  (A.unmarshalVote newSignBytes).bind fun newVote =>
  (parseTime lastVote.timestamp).map fun lastTime =>
    (lastTime, decide (A.marshalJSON (.vote { newVote with timestamp := canonicalTime now }) =
      A.marshalJSON (.vote { lastVote with timestamp := canonicalTime now })))

def checkProposalsOnlyDifferByTimestamp (lastSignBytes newSignBytes : Bytes) : Option (Int × Bool) :=
  (A.unmarshalProposal lastSignBytes).bind fun lastProposal =>
  (A.unmarshalProposal newSignBytes).bind fun newProposal =>
  (parseTime lastProposal.timestamp).map fun lastTime =>
    (lastTime, decide (A.marshalJSON (.proposal { newProposal with timestamp := canonicalTime now }) =
      A.marshalJSON (.proposal { lastProposal with timestamp := canonicalTime now })))

end

namespace Message

variable (A : Amino) (now : Int) (chainID : Bytes)

def height : Message → Int
  | .vote v => v.height
  | .proposal p => p.height

def round : Message → Int
  | .vote v => v.round
  | .proposal p => p.round

/-- The step of the message, `none` for the panic of `voteToStep`. -/
def step : Message → Option Int
  | .vote v => voteToStep v
  | .proposal _ => some stepPropose

def canonical : Message → CanonicalJSON
  | .vote v => .vote (v.canonical chainID)
  | .proposal p => .proposal (p.canonical chainID)

def signBytes (msg : Message) : Bytes := A.marshalJSON (msg.canonical chainID)

def setTimestamp (timestamp : Int) : Message → Message
  | .vote v => .vote { v with timestamp }
  | .proposal p => .proposal { p with timestamp }

def setSignature (signature : Option Signature) : Message → Message
  | .vote v => .vote { v with signature }
  | .proposal p => .proposal { p with signature }

def checkOnlyDifferByTimestamp (lastSignBytes : Bytes) (msg : Message) : Option (Int × Bool) :=
  match msg with
  | .vote _ => checkVotesOnlyDifferByTimestamp A now lastSignBytes (msg.signBytes A chainID)
  | .proposal _ => checkProposalsOnlyDifferByTimestamp A now lastSignBytes (msg.signBytes A chainID)

end Message

namespace FilePV

def checkHRS (pv : FilePV) (height round step : Int) : Option (Except SignError Bool) :=
  if pv.lastHeight > height then some (.error .heightRegression)
  else if pv.lastHeight = height then
    if pv.lastRound > round then some (.error .roundRegression)
    else if pv.lastRound = round then
      if pv.lastStep > step then some (.error .stepRegression)
      else if pv.lastStep = step then
        match pv.lastSignBytes with
        | some _ => if pv.lastSignature = none then none else some (.ok true)
        | none => some (.error .noLastSignature)
      else some (.ok false)
    else some (.ok false)
  else some (.ok false)

/-- What a call of `signVote` or `signProposal` is going to do. -/
inductive Plan
  | fail (err : SignError)
  /-- hand out the last signature again -/
  | reuse (msg : Message)
  /-- save the record, then hand out the new signature -/
  | save (pv : FilePV) (msg : Message)

section

variable (A : Amino) (sign : Bytes → Option Signature) (now : Int) (pv : FilePV) (chainID : Bytes)

/-- The part of `signVote` and `signProposal` that hands out the last signature again. -/
def reuseLast (lastSignBytes : Bytes) (msg : Message) : Option Plan :=
  if msg.signBytes A chainID = lastSignBytes then some (.reuse (msg.setSignature pv.lastSignature))
  else (msg.checkOnlyDifferByTimestamp A now chainID lastSignBytes).map fun
    | (timestamp, true) => .reuse ((msg.setTimestamp timestamp).setSignature pv.lastSignature)
    | (_, false) => .fail .conflictingData

/-- `signVote` and `signProposal` up to what `saveSigned` writes. -/
def plan (msg : Message) : Option Plan :=
  msg.step.bind fun step =>
  (pv.checkHRS msg.height msg.round step).bind fun
    | .error err => some (.fail err)
    | .ok true => pv.lastSignBytes.bind fun lastSignBytes => reuseLast A now pv chainID lastSignBytes msg
    | .ok false => match sign (msg.signBytes A chainID) with
      | none => some (.fail .keyError)
      | some sig => some (.save
          { lastHeight := msg.height
            lastRound := msg.round
            lastStep := step
            lastSignature := some sig
            lastSignBytes := some (msg.signBytes A chainID) }
          (msg.setSignature (some sig)))

def signMessage (msg : Message) : Option (FilePV × Except SignError Message) :=
  (plan A sign now pv chainID msg).map fun
    | .fail err => (pv, .error err)
    | .reuse msg => (pv, .ok msg)
    | .save pv' msg => (pv', .ok msg)

def signVote (vote : Vote) : Option (FilePV × Except SignError Message) :=
  signMessage A sign now pv chainID (.vote vote)

def signProposal (proposal : Proposal) : Option (FilePV × Except SignError Message) :=
  signMessage A sign now pv chainID (.proposal proposal)

end

end FilePV

end Demars
