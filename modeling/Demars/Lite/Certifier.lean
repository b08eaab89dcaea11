import Demars.Lib.Runs
import Demars.State.Validation
import Demars.Types.CommitAny

/-!
# Certifiers of the light client

`lite/commit.go`, `lite/static_certifier.go` and `lite/dynamic_certifier.go`. A `StaticCertifier` checks commits
against one validator set. A `DynamicCertifier` follows a change of the set where the old validators signed the
block; a call that returns an error or panics leaves it as it was.
-/

namespace Demars.Lite

open Runs List Option

structure SignedHeader where
  header : Option Header
  commit : Option Demars.Commit
deriving DecidableEq

structure FullCommit where
  signed : SignedHeader
  validators : Option ValidatorSet
deriving DecidableEq

inductive LiteError
  /-- `Commit missing header` -/
  | missingHeader
  /-- `Header belongs to another chain '%s' not '%s'` -/
  | otherChain (got chainID : Bytes)
  /-- `Commit missing signatures` -/
  | missingSignatures
  /-- `ErrHeightMismatch` -/
  | heightMismatch (commit header : Int)
  /-- `Commits sign block %X header is block %X` -/
  | otherBlock (commit header : Bytes)
  | commit (err : CommitBasicError)
  /-- `ErrValidatorsChanged` -/
  | validatorsChanged
  | verifyCommit (err : CommitError)
  /-- `ErrPastTime` -/
  | pastTime
  /-- `ErrTooMuchChange` -/
  | tooMuchChange
deriving DecidableEq

/-- `DynamicCertifier` with its `StaticCertifier`, whose hash is that of its set. -/
structure DynamicCertifier where
  chainID : Bytes
  validators : ValidatorSet
  lastHeight : Int
deriving DecidableEq

inductive Call
  | certify (check : SignedHeader)
  | update (fc : FullCommit)

def SignedHeader.height (c : SignedHeader) : Int := (c.header.map Header.height).getD 0

section

variable (P : Primitives) (A : Amino) (B : BlockCodec)

def SignedHeader.validateBasic (c : SignedHeader) (chainID : Bytes) : Except LiteError (Header × Demars.Commit) :=
  match c.header with
  | none => .error .missingHeader
  | some header =>
    if header.chainID ≠ chainID then .error (.otherChain header.chainID chainID)
    else match c.commit with
      | none => .error .missingSignatures
      | some commit =>
        if commit.height ≠ header.height then .error (.heightMismatch commit.height header.height)
        else if header.hash P B ≠ commit.blockID.hash then .error (.otherBlock commit.blockID.hash (header.hash P B))
        else match commit.validateBasic with
          | .error err => .error (.commit err)
          | .ok _ => .ok (header, commit)

/-- `StaticCertifier.Certify`; `none` is a panic. -/
def staticCertify (chainID : Bytes) (vSet : ValidatorSet) (commit : SignedHeader) : Option (Except LiteError Unit) :=
  match commit.validateBasic P B chainID with
  | .error err => some (.error err)
  | .ok (header, c) =>
    if vSet.hash P B ≠ header.validatorsHash then some (.error .validatorsChanged)
    else (vSet.verifyCommit P A chainID c.blockID header.height c).map fun res =>
      match res with
      | .error err => .error (.verifyCommit err)
      | .ok _ => .ok ()

namespace DynamicCertifier

def certify (dc : DynamicCertifier) (check : SignedHeader) : Option (Except LiteError DynamicCertifier) :=
  (staticCertify P A B dc.chainID dc.validators check).map fun res =>
    match res with
    | .error err => .error err
    | .ok _ => .ok { dc with lastHeight := check.height }

/-- `Update`; a `nil` set of validators panics. -/
def update (dc : DynamicCertifier) (fc : FullCommit) : Option (Except LiteError DynamicCertifier) :=
  if fc.signed.height ≤ dc.lastHeight then some (.error .pastTime)
  else match fc.signed.validateBasic P B dc.chainID with
    | .error err => some (.error err)
    | .ok (_, commit) =>
      fc.validators.bind fun validators =>
        (dc.validators.verifyCommitAny P A validators dc.chainID commit.blockID fc.signed.height commit).map fun res =>
          match res with
          | .error _ => .error .tooMuchChange
          | .ok _ => .ok { dc with validators := validators, lastHeight := fc.signed.height }

def call (dc : DynamicCertifier) : Call → Option (Except LiteError DynamicCertifier)
  | .certify check => dc.certify P A B check
  | .update fc => dc.update P A B fc

def step (dc : DynamicCertifier) (c : Call) : DynamicCertifier :=
  match dc.call P A B c with
  | some (.ok dc') => dc'
  | _ => dc

end DynamicCertifier

end

variable {P : Primitives} {A : Amino} {B : BlockCodec} {dc dc' : DynamicCertifier} {fc : FullCommit}

/-! ## What is accepted -/

theorem validateBasic_eq_ok {c : SignedHeader} {chainID : Bytes} {header : Header} {commit : Demars.Commit}
    (h : c.validateBasic P B chainID = .ok (header, commit)) :
    c.header = some header ∧ c.commit = some commit ∧ header.chainID = chainID ∧ commit.height = header.height ∧
      commit.blockID.hash = header.hash P B := by
  unfold SignedHeader.validateBasic at h
  split at h
  · cases h
  next header' hheader =>
    split_ifs at h with hchain
    split at h
    · cases h
    next commit' hcommit =>
      split_ifs at h with hheight hhash
      split at h
      · cases h
      · cases h
        rw [not_not] at hchain hheight hhash
        exact ⟨hheader, hcommit, hchain, hheight, hhash.symm⟩

/-- What `Update` has checked when it takes over a set. -/
structure Accepted (P : Primitives) (A : Amino) (B : BlockCodec) (dc : DynamicCertifier) (fc : FullCommit)
    (validators : ValidatorSet) (header : Header) (commit : Demars.Commit) : Prop where
  later : dc.lastHeight < header.height
  hasHeader : fc.signed.header = some header
  hasCommit : fc.signed.commit = some commit
  hasValidators : fc.validators = some validators
  hash : commit.blockID.hash = header.hash P B
  verified : dc.validators.verifyCommitAny P A validators dc.chainID commit.blockID header.height commit = some (.ok ())

theorem update_eq_ok (h : dc.update P A B fc = some (.ok dc')) :
    ∃ validators header commit, Accepted P A B dc fc validators header commit ∧
      dc' = { dc with validators := validators, lastHeight := header.height } := by
  unfold DynamicCertifier.update at h
  split_ifs at h with hpast
  · cases h
  split at h
  · cases h
  next header commit hbasic =>
    obtain ⟨validators, hvalidators, h⟩ := bind_eq_some_iff.1 h
    obtain ⟨res, hverify, h⟩ := map_eq_some_iff.1 h
    obtain ⟨hheader, hcommit, -, -, hhash⟩ := validateBasic_eq_ok hbasic
    have hheight : fc.signed.height = header.height := by rw [SignedHeader.height, hheader]; rfl
    rw [hheight] at hpast hverify h
    cases res with
    | error err => cases h
    | ok _ =>
      cases h
      exact ⟨validators, header, commit, ⟨by omega, hheader, hcommit, hvalidators, hhash, hverify⟩, rfl⟩

theorem certify_eq_ok {check : SignedHeader} (h : dc.certify P A B check = some (.ok dc')) :
    dc' = { dc with lastHeight := check.height } := by
  obtain ⟨res, -, h⟩ := map_eq_some_iff.1 h
  cases res with
  | error err => cases h
  | ok _ =>
    cases h
    rfl

/-! ## Authenticated sets -/

def FullCommit.Consistent (P : Primitives) (B : BlockCodec) (fc : FullCommit) : Prop :=
  ∀ header validators, fc.signed.header = some header → fc.validators = some validators →
    validators.hash P B = header.validatorsHash ∧ validators.Fits

theorem step_certify (check : SignedHeader) : (dc.step P A B (.certify check)).validators = dc.validators ∧
    (dc.step P A B (.certify check)).chainID = dc.chainID := by
  unfold DynamicCertifier.step
  split
  next dc' h =>
    rw [certify_eq_ok h]
    exact ⟨rfl, rfl⟩
  next => exact ⟨rfl, rfl⟩

theorem step_update (P : Primitives) (A : Amino) (B : BlockCodec) (dc : DynamicCertifier) (fc : FullCommit) :
    dc.step P A B (.update fc) = dc ∨ ∃ validators header commit, Accepted P A B dc fc validators header commit ∧
      dc.step P A B (.update fc) = { dc with validators := validators, lastHeight := header.height } := by
  unfold DynamicCertifier.step
  split
  next dc' h =>
    obtain ⟨validators, header, commit, haccepted, rfl⟩ := update_eq_ok h
    exact .inr ⟨validators, header, commit, haccepted, rfl⟩
  next => exact .inl rfl

theorem step_fits {c : Call} (hfits : dc.validators.Fits) (hc : ∀ fc, c = .update fc → fc.Consistent P B) :
    (dc.step P A B c).validators.Fits := by
  cases c with
  | certify check =>
    rw [(step_certify check).1]
    exact hfits
  | update fc =>
    rcases step_update P A B dc fc with h | ⟨validators, header, commit, haccepted, h⟩
    · rw [h]
      exact hfits
    · rw [h]
      exact (hc fc rfl header validators haccepted.hasHeader haccepted.hasValidators).2

/-- `Update` never looks at the hash of the new set: where the caller has compared it with the header, each new set
is the one that the old validators signed for. -/
theorem updates_endorsed (P : Primitives) (A : Amino) (B : BlockCodec) (dc : DynamicCertifier) (calls : List Call)
    (hfits : dc.validators.Fits) (hconsistent : ∀ fc, Call.update fc ∈ calls → fc.Consistent P B) :
    ∀ done fc before after, done ++ [.update fc] <+: calls → before = done.foldl (DynamicCertifier.step P A B) dc →
      before.update P A B fc = some (.ok after) → ∃ header commit, fc.signed.header = some header ∧
      fc.signed.commit = some commit ∧
        fc.validators = some after.validators ∧ after.validators.hash P B = header.validatorsHash ∧
        commit.blockID.hash = header.hash P B ∧
        ValidatorSet.Endorsed P A before.validators before.chainID commit.blockID header.height commit := by
  intro done fc before after hpre hbefore hupdate
  obtain ⟨validators, header, commit, haccepted, rfl⟩ := update_eq_ok hupdate
  have hmem : Call.update fc ∈ calls := hpre.subset (mem_append_right _ mem_cons_self)
  -- the sets trusted on the way all fit
  have hall : ∀ done, done <+: calls → (done.foldl (DynamicCertifier.step P A B) dc).validators.Fits := by
    have halong : Along (DynamicCertifier.step P A B) (fun _ c => ∀ fc, c = Call.update fc → fc.Consistent P B)
      dc calls := by
      refine Along.of_forall fun c hc _ fc heq => ?_
      subst heq
      exact hconsistent fc hc
    exact always_of_along (I := fun dc => dc.validators.Fits) (fun dc c hfits hc => step_fits hfits hc) hfits halong
  have hold : before.validators.Fits := hbefore ▸ hall done ((prefix_append done _).trans hpre)
  refine ⟨header, commit, haccepted.hasHeader, haccepted.hasCommit, haccepted.hasValidators, ?_, haccepted.hash, ?_⟩
  · exact (hconsistent fc hmem header validators haccepted.hasHeader haccepted.hasValidators).1
  · exact ValidatorSet.endorsed_of_verifyCommitAny hold haccepted.verified

/-! ## Heights -/

section

variable (P : Primitives) (A : Amino) (B : BlockCodec)

/-- The heights of the full commits that `Update` takes over, in order. -/
def updateHeights : DynamicCertifier → List Call → List Int
  | _, [] => []
  | dc, .certify check :: calls => updateHeights (dc.step P A B (.certify check)) calls
  | dc, .update fc :: calls =>
    let rest := updateHeights (dc.step P A B (.update fc)) calls
    match dc.update P A B fc with
    | some (.ok _) => fc.signed.height :: rest
    | _ => rest

/-- A certifier with the height from which it has its validators, as a record of the run. -/
structure Trust where
  dc : DynamicCertifier
  since : Int

/-- The certifier and the record after a call. -/
def Trust.step (t : Trust) (c : Call) : Trust where
  dc := t.dc.step P A B c
  since := match c, t.dc.call P A B c with
    | .update fc, some (.ok _) => fc.signed.height
    | _, _ => t.since

/-- No commit from before the trusted set is certified. -/
def Trust.NotBack (t : Trust) : Call → Prop
  | .certify check => (∃ dc', t.dc.certify P A B check = some (.ok dc')) → t.since ≤ check.height
  | .update _ => True

end

theorem accepted_height {validators : ValidatorSet} {header : Header} {commit : Demars.Commit}
    (h : Accepted P A B dc fc validators header commit) : fc.signed.height = header.height := by
  rw [SignedHeader.height, h.hasHeader]
  rfl

/-- While the last height is not before that of the trusted set, sets are taken over in the order of their heights. -/
theorem pairwise_updateHeights {calls : List Call} : ∀ {t : Trust}, t.since ≤ t.dc.lastHeight →
    Along (Trust.step P A B) (Trust.NotBack P A B) t calls →
    (t.since :: updateHeights P A B t.dc calls).Pairwise (· < ·) := by
  induction calls with
  | nil => exact fun _ _ => pairwise_singleton _ _
  | cons c calls ih =>
    intro t hsince halong
    cases c with
    | certify check =>
      have hkept : t.since ≤ (t.dc.step P A B (.certify check)).lastHeight := by
        unfold DynamicCertifier.step
        split
        next dc' h =>
          rw [certify_eq_ok h]
          exact halong.1 ⟨dc', h⟩
        next => exact hsince
      exact ih (t := t.step P A B (.certify check)) hkept halong.2
    | update fc =>
      by_cases htaken : ∃ dc', t.dc.update P A B fc = some (.ok dc')
      · obtain ⟨dc', h⟩ := htaken
        obtain ⟨validators, header, commit, haccepted, rfl⟩ := update_eq_ok h
        have hheight := accepted_height haccepted
        have hstep : t.step P A B (.update fc) =
            ⟨{ t.dc with validators := validators, lastHeight := header.height }, header.height⟩ := by
          simp [Trust.step, DynamicCertifier.step, DynamicCertifier.call, h, hheight]
        have hdc : t.dc.step P A B (.update fc) =
          { t.dc with validators := validators, lastHeight := header.height } := by
          simp [DynamicCertifier.step, DynamicCertifier.call, h]
        have hnext := halong.2
        rw [hstep] at hnext
        have hrest := ih le_rfl hnext
        simp only [updateHeights, h, hdc, hheight]
        have hlater := haccepted.later
        refine pairwise_cons.2 ⟨fun height hmem => ?_, hrest⟩
        rcases mem_cons.1 hmem with rfl | hmem
        · omega
        · have hafter : header.height < height := rel_of_pairwise_cons hrest hmem
          omega
      · have hdc : t.dc.step P A B (.update fc) = t.dc := by
          unfold DynamicCertifier.step
          split
          next dc' h => exact absurd ⟨dc', h⟩ htaken
          next => rfl
        have hstep : t.step P A B (.update fc) = t := by
          unfold Trust.step
          rw [hdc]
          split
          next dc' _ h => exact absurd ⟨_, h⟩ htaken
          next => rfl
        have hnext := halong.2
        rw [hstep] at hnext
        have hrest := ih hsince hnext
        rw [updateHeights, hdc]
        split
        next dc' h => exact absurd ⟨dc', h⟩ htaken
        next => exact hrest

/-- `Certify` sets the last height back: where no commit of an earlier height is certified, the heights of the
trusted sets increase. -/
theorem updates_increase (P : Primitives) (A : Amino) (B : BlockCodec) (dc : DynamicCertifier) (calls : List Call)
    (h : Along (Trust.step P A B) (Trust.NotBack P A B) ⟨dc, dc.lastHeight⟩ calls) :
    (dc.lastHeight :: updateHeights P A B dc calls).Pairwise (· < ·) :=
  pairwise_updateHeights le_rfl h

/-! ## Two validators -/

def liteValidator (key : UInt8) (power : Int) : Validator := ⟨[key], some (.ed25519 [key]), power, 0⟩

/-- Two validators with the same keys whatever their powers. -/
def liteSet (power₁ power₂ : Int) : ValidatorSet := ⟨[liteValidator 1 power₁, liteValidator 2 power₂], none⟩

/-- A header that names the set in which both have power 10. -/
def liteHeader (height : Int) : Header :=
  { chainID := ascii "c", height := height, time := 0, numTxs := 0, lastBlockID := BlockID.empty, totalTxs := 0,
    dataHash := []
    validatorsHash := (liteSet 10 10).hash .checked .plain, consensusHash := [], appHash := [], lastResultsHash := [] }

def liteID (height : Int) : BlockID := ⟨(liteHeader height).hash .checked .plain, ⟨1, [1]⟩⟩

def litePrecommit (key : UInt8) (index height : Int) : Vote :=
  Vote.signedBy [key] (ascii "c") ⟨[key], index, height, 0, 0, voteTypePrecommit, liteID height, none⟩

def liteSigned (height : Int) : SignedHeader :=
  ⟨some (liteHeader height), some ⟨liteID height, [some (litePrecommit 1 0 height), some (litePrecommit 2 1 height)]⟩⟩

/-- A certifier that trusts the two from height 1 on. -/
def liteCertifier : DynamicCertifier := ⟨ascii "c", liteSet 10 10, 1⟩

def liteFull (height power₁ power₂ : Int) : FullCommit := ⟨liteSigned height, some (liteSet power₁ power₂)⟩

theorem liteSet_fits : (liteSet 10 10).Fits := ⟨⟨by decide, by decide⟩, by decide⟩

theorem liteFull_consistent (height : Int) : (liteFull height 10 10).Consistent .checked .plain := by
  rintro _ _ ⟨⟩ ⟨⟩
  exact ⟨rfl, liteSet_fits⟩

theorem updates_endorsed_two : (liteSet 10 10).hash .checked .plain = (liteHeader 2).validatorsHash ∧
    ValidatorSet.Endorsed .checked .plain (liteSet 10 10) (ascii "c") (liteID 2) 2
      ⟨liteID 2, [some (litePrecommit 1 0 2), some (litePrecommit 2 1 2)]⟩ := by
  have hcalls : ∀ fc, Call.update fc ∈ [Call.update (liteFull 2 10 10)] → fc.Consistent .checked .plain := by
    intro fc hmem
    cases mem_singleton.1 hmem
    exact liteFull_consistent 2
  obtain ⟨_, _, hheader, hcommit, -, hhash, -, hendorsed⟩ := updates_endorsed .checked .plain .plain liteCertifier
    [.update (liteFull 2 10 10)] liteSet_fits hcalls [] (liteFull 2 10 10) liteCertifier ⟨ascii "c", liteSet 10 10, 2⟩
    (prefix_refl _) rfl (by decide +kernel)
  cases hheader
  cases hcommit
  exact ⟨hhash, hendorsed⟩

/-- Two have signed for half of the power each, and a set in which the first has nearly all of it is taken over. -/
theorem other_powers_trusted :
    liteCertifier.update .checked .plain .plain (liteFull 2 1000 1) = some (.ok ⟨ascii "c", liteSet 1000 1, 2⟩) ∧
      (liteSet 1000 1).hash .checked .plain ≠ (liteHeader 2).validatorsHash := by
  decide +kernel

theorem updates_increase_two :
    Along (Trust.step .checked .plain .plain) (Trust.NotBack .checked .plain .plain) ⟨liteCertifier, 1⟩
      [.update (liteFull 2 10 10), .certify (liteSigned 3), .update (liteFull 4 10 10)] ∧
    updateHeights .checked .plain .plain liteCertifier
      [.update (liteFull 2 10 10), .certify (liteSigned 3), .update (liteFull 4 10 10)] = [2, 4] ∧
    [(1 : Int), 2, 4].Pairwise (· < ·) := by
  have halong : Along (Trust.step .checked .plain .plain) (Trust.NotBack .checked .plain .plain) ⟨liteCertifier, 1⟩
      [.update (liteFull 2 10 10), .certify (liteSigned 3), .update (liteFull 4 10 10)] :=
    ⟨trivial, fun _ => by decide +kernel, trivial, trivial⟩
  have hheights : updateHeights .checked .plain .plain liteCertifier
      [.update (liteFull 2 10 10), .certify (liteSigned 3), .update (liteFull 4 10 10)] = [2, 4] := by decide +kernel
  have hincrease := updates_increase .checked .plain .plain liteCertifier _ halong
  rw [hheights] at hincrease
  exact ⟨halong, hheights, hincrease⟩

/-- After a commit of height 5 is certified, `Update` goes back from height 20 to height 6. -/
theorem update_goes_back : updateHeights .checked .plain .plain liteCertifier
    [.update (liteFull 20 10 10), .certify (liteSigned 5), .update (liteFull 6 10 10)] = [20, 6] := by
  decide +kernel

end Demars.Lite
