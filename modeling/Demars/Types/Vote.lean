import Demars.Crypto.Keys
import Demars.Lib.Codec

/-!
# Block ids, votes and proposals

`types/block.go` (`BlockID`), `types/part_set.go` (`PartSetHeader`), `types/vote.go`, `types/proposal.go` and
`types/canonical_json.go`. Strings are byte strings, and a `time.Time` is its count of nanoseconds, of which the
canonical JSON keeps the milliseconds. The encodings of go-amino are the parameter `Amino`.
-/

namespace Demars

structure PartSetHeader where
  total : Int
  hash : Bytes
deriving DecidableEq

structure BlockID where
  hash : Bytes
  partsHeader : PartSetHeader
deriving DecidableEq

namespace PartSetHeader

def empty : PartSetHeader := ⟨0, []⟩

def isZero (psh : PartSetHeader) : Bool := psh.total == 0

end PartSetHeader

namespace BlockID

def empty : BlockID := ⟨[], PartSetHeader.empty⟩

def isZero (blockID : BlockID) : Bool := blockID.hash.isEmpty && blockID.partsHeader.isZero

end BlockID

/-! ## Canonical values -/

/-- `CanonicalJSONVote`; the `@type` field is the constructor of `CanonicalJSON`. -/
structure CanonicalJSONVote where
  chainID : Bytes
  blockID : BlockID
  height : Int
  round : Int
  timestamp : Int
  voteType : UInt8

structure CanonicalJSONProposal where
  chainID : Bytes
  blockPartsHeader : PartSetHeader
  height : Int
  polBlockID : BlockID
  polRound : Int
  round : Int
  timestamp : Int

structure CanonicalJSONHeartbeat where
  chainID : Bytes
  height : Int
  round : Int
  sequence : Int
  validatorAddress : Bytes
  validatorIndex : Int

inductive CanonicalJSON
  | vote (v : CanonicalJSONVote)
  | proposal (p : CanonicalJSONProposal)
  | heartbeat (h : CanonicalJSONHeartbeat)

structure Amino where
  /-- `cdc.MarshalBinaryBare` of a part set header; zero fields are left out -/
  partSetHeaderBytes : PartSetHeader → Bytes
  partSetHeaderBytes_empty : partSetHeaderBytes PartSetHeader.empty = []
  /-- `cdc.MarshalJSON` of a canonical value -/
  marshalJSON : CanonicalJSON → Bytes
  marshalJSON_injective : Function.Injective marshalJSON
  /-- `cdc.UnmarshalJSON` into a `CanonicalJSONVote`, `none` where it fails -/
  unmarshalVote : Bytes → Option CanonicalJSONVote
  unmarshalVote_marshalJSON : ∀ v, unmarshalVote (marshalJSON (.vote v)) = some v
  /-- `cdc.UnmarshalJSON` into a `CanonicalJSONProposal` -/
  unmarshalProposal : Bytes → Option CanonicalJSONProposal
  unmarshalProposal_marshalJSON : ∀ p, unmarshalProposal (marshalJSON (.proposal p)) = some p

/-- `CanonicalTime`: `TimeFormat` keeps the milliseconds. -/
def canonicalTime (t : Int) : Int := t / 1000000

/-- `time.Parse(TimeFormat, ..)`: the layout reads years of four digits only. -/
def parseTime (ms : Int) : Option Int :=
  if -62167219200000 ≤ ms ∧ ms < 253402300800000 then some (ms * 1000000) else none

def BlockID.key (A : Amino) (blockID : BlockID) : Bytes := blockID.hash ++ A.partSetHeaderBytes blockID.partsHeader

/-! ## Votes -/

structure Vote where
  validatorAddress : Bytes
  validatorIndex : Int
  height : Int
  round : Int
  timestamp : Int
  type_ : UInt8
  blockID : BlockID
  signature : Option Signature
deriving DecidableEq

def voteTypePrevote : UInt8 := 1

def voteTypePrecommit : UInt8 := 2

def isVoteTypeValid (type_ : UInt8) : Bool := type_ == voteTypePrevote || type_ == voteTypePrecommit

/-- The errors about votes, without the messages wrapped around them. -/
inductive VoteError
  | nil
  | unexpectedStep
  | invalidValidatorIndex
  | invalidValidatorAddress
  | invalidSignature
  | nonDeterministicSignature
  | conflictingVotes (pubKey : Option PubKey) (voteA voteB : Vote)
deriving DecidableEq

namespace Vote

variable (P : Primitives) (A : Amino)

def canonical (chainID : Bytes) (vote : Vote) : CanonicalJSONVote where
  chainID := chainID
  blockID := vote.blockID
  height := vote.height
  round := vote.round
  timestamp := canonicalTime vote.timestamp
  voteType := vote.type_

def signBytes (chainID : Bytes) (vote : Vote) : Bytes := A.marshalJSON (.vote (vote.canonical chainID))

def verify (chainID : Bytes) (pubKey : PubKey) (vote : Vote) : Option VoteError :=
  if pubKey.address P ≠ vote.validatorAddress then some .invalidValidatorAddress
  else if pubKey.verifyBytes P (vote.signBytes A chainID) vote.signature = false then some .invalidSignature
  else none

theorem verify_eq_none {chainID : Bytes} {pubKey : PubKey} {vote : Vote} : vote.verify P A chainID pubKey = none ↔
      pubKey.address P = vote.validatorAddress ∧ pubKey.verifyBytes P (vote.signBytes A chainID) vote.signature =
        true := by
  unfold verify
  split_ifs with h1 h2 <;> simp_all

theorem signature_ne_none {chainID : Bytes} {pubKey : PubKey} {vote : Vote}
    (h : vote.verify P A chainID pubKey = none) : vote.signature ≠ none := by
  intro hn
  have hv := ((verify_eq_none P A).1 h).2
  rw [hn, PubKey.verifyBytes_none] at hv
  exact absurd hv (by decide)

end Vote

/-! ## Proposals -/

structure Proposal where
  height : Int
  round : Int
  timestamp : Int
  blockPartsHeader : PartSetHeader
  polRound : Int
  polBlockID : BlockID
  signature : Option Signature
deriving DecidableEq

namespace Proposal

def canonical (chainID : Bytes) (proposal : Proposal) : CanonicalJSONProposal where
  chainID := chainID
  blockPartsHeader := proposal.blockPartsHeader
  height := proposal.height
  polBlockID := proposal.polBlockID
  polRound := proposal.polRound
  round := proposal.round
  timestamp := canonicalTime proposal.timestamp

def signBytes (A : Amino) (chainID : Bytes) (proposal : Proposal) : Bytes :=
  A.marshalJSON (.proposal (proposal.canonical chainID))

end Proposal

/-! ## A plain encoding -/

namespace Plain

open Code

def bytes : Code Bytes := list byte

def partSetHeader : Code PartSetHeader :=
  (int.prod bytes).map (fun p => ⟨p.1, p.2⟩) (fun h => (h.total, h.hash)) fun _ => rfl

def blockID : Code BlockID :=
  (bytes.prod partSetHeader).map (fun p => ⟨p.1, p.2⟩) (fun b => (b.hash, b.partsHeader)) fun _ => rfl

def canonicalVote : Code CanonicalJSONVote :=
  (bytes.prod (blockID.prod (int.prod (int.prod (int.prod byte))))).map
    (fun p => ⟨p.1, p.2.1, p.2.2.1, p.2.2.2.1, p.2.2.2.2.1, p.2.2.2.2.2⟩)
    (fun v => (v.chainID, v.blockID, v.height, v.round, v.timestamp, v.voteType)) fun _ => rfl

def canonicalProposal : Code CanonicalJSONProposal :=
  (bytes.prod (partSetHeader.prod (int.prod (blockID.prod (int.prod (int.prod int)))))).map
    (fun p => ⟨p.1, p.2.1, p.2.2.1, p.2.2.2.1, p.2.2.2.2.1, p.2.2.2.2.2.1, p.2.2.2.2.2.2⟩)
    (fun q => (q.chainID, q.blockPartsHeader, q.height, q.polBlockID, q.polRound, q.round, q.timestamp)) fun _ => rfl

def canonicalHeartbeat : Code CanonicalJSONHeartbeat :=
  (bytes.prod (int.prod (int.prod (int.prod (bytes.prod int))))).map
    (fun p => ⟨p.1, p.2.1, p.2.2.1, p.2.2.2.1, p.2.2.2.2.1, p.2.2.2.2.2⟩)
    (fun h => (h.chainID, h.height, h.round, h.sequence, h.validatorAddress, h.validatorIndex)) fun _ => rfl

end Plain

/-- Encodings that can be evaluated: a byte for the kind of value, then its fields. -/
def Amino.plain : Amino where
  partSetHeaderBytes h := if h = PartSetHeader.empty then [] else Plain.partSetHeader.enc h
  partSetHeaderBytes_empty := by simp
  marshalJSON v := match v with
    | .vote v => 0 :: Plain.canonicalVote.enc v
    | .proposal p => 1 :: Plain.canonicalProposal.enc p
    | .heartbeat h => 2 :: Plain.canonicalHeartbeat.enc h
  marshalJSON_injective := by
    intro a b h
    cases a <;> cases b <;> simp at h
    · rw [Plain.canonicalVote.enc_injective h]
    · rw [Plain.canonicalProposal.enc_injective h]
    · rw [Plain.canonicalHeartbeat.enc_injective h]
  unmarshalVote bz := Plain.canonicalVote.decode bz.tail
  unmarshalVote_marshalJSON v := Plain.canonicalVote.decode_enc v
  unmarshalProposal bz := Plain.canonicalProposal.decode bz.tail
  unmarshalProposal_marshalJSON p := Plain.canonicalProposal.decode_enc p

/-- A vote signed with an ed25519 key, under `Primitives.transparent` and `Amino.plain`. -/
def Vote.signedBy (key chainID : Bytes) (vote : Vote) : Vote :=
  { vote with signature := some (.ed25519 (key ++ vote.signBytes .plain chainID)) }

end Demars
