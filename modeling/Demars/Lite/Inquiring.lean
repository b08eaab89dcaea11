import Mathlib.Data.List.Sort
import Demars.Lite.Certifier

/-!
# The inquiring certifier

`lite/inquiring_certifier.go` and the provider of `lite/client/provider.go`. Where the validators have changed, an
`InquiringCertifier` asks a source for full commits and looks for a path of updates by bisection over the heights
(`updateToHeight`). The answers of the source are arbitrary, and may depend on how often it was asked.
-/

namespace Demars.Lite

open Machine List Option

inductive InquireError
  | cert (err : LiteError)
  /-- `ErrNoPathFound` -/
  | noPathFound
  /-- an error of the trusted provider -/
  | trusted
  /-- an error of the source -/
  | source
deriving DecidableEq

/-- How a call does not return. -/
inductive Halt
  | panicked
  /-- the model has no more steps to give -/
  | spent
deriving DecidableEq

/-- A full commit that was stored after it was verified, so that its validators are there. -/
structure TrustedCommit where
  signed : SignedHeader
  validators : ValidatorSet

/-- The contract of `Provider` for the one that keeps what is trusted; `none` is an error. -/
structure TrustedProvider (τ : Type) where
  storeCommit : τ → TrustedCommit → Option τ
  getByHeight : τ → Int → Option TrustedCommit
  /-- what was stored -/
  Holds : τ → TrustedCommit → Prop
  /-- `GetByHeight returns the closest commit with height <= h.` -/
  holds_get : ∀ {t h tc}, getByHeight t h = some tc → Holds t tc ∧ tc.signed.height ≤ h
  closest_get : ∀ {t h tc}, getByHeight t h = some tc →
    ∀ tc', Holds t tc' → tc'.signed.height ≤ h → tc'.signed.height ≤ tc.signed.height
  holds_store : ∀ {t tc t'}, storeCommit t tc = some t' → ∀ tc', Holds t' tc' ↔ tc' = tc ∨ Holds t tc'

/-- A source by the number of requests before: a full commit, an error, or a panic. -/
structure Source where
  getByHeight : Nat → Int → Option (Except Unit FullCommit)
  getByHash : Nat → Bytes → Option (Except Unit FullCommit)

/-- `InquiringCertifier`, with the number of requests to its source. -/
structure Inquiring (τ : Type) where
  cert : DynamicCertifier
  trusted : τ
  requests : Nat

namespace Inquiring

section

variable {τ : Type} (P : Primitives) (A : Amino) (B : BlockCodec) (T : TrustedProvider τ) (S : Source)

def asked (ic : Inquiring τ) : Inquiring τ := { ic with requests := ic.requests + 1 }

def reset (tc : TrustedCommit) (ic : Inquiring τ) : Inquiring τ :=
  if tc.signed.height ≠ ic.cert.lastHeight then { ic with cert := ⟨ic.cert.chainID, tc.validators, tc.signed.height⟩ }
  else ic

/-- `useClosestTrust`; `none` is an error, which changes nothing. -/
def useClosestTrust (h : Int) (ic : Inquiring τ) : Option (Inquiring τ) :=
  (T.getByHeight ic.trusted h).map fun tc => ic.reset tc

/-- `Update`, with the error that it returns, if any. -/
def update (fc : FullCommit) (ic : Inquiring τ) : Except Halt (Inquiring τ × Option InquireError) :=
  match ic.useClosestTrust T fc.signed.height with
  | none => .ok (ic, some .trusted)
  | some ic =>
    match ic.cert.update P A B fc with
    | none => .error .panicked
    | some (.error err) => .ok (ic, some (.cert err))
    | some (.ok cert) =>
      match T.storeCommit ic.trusted ⟨fc.signed, cert.validators⟩ with
      | none => .ok ({ ic with cert := cert }, some .trusted)
      | some trusted => .ok ({ ic with cert := cert, trusted := trusted }, none)

/-- The height between two others, in `int64`. -/
def middle (start «end» : Int) : Int := (wrap64 (start + «end»)).tdiv 2

/-- `updateToHeight`, up to a depth of recursion. -/
def updateToHeight : Nat → Int → Inquiring τ → Except Halt (Inquiring τ × Option InquireError)
  | 0, _, _ => .error .spent
  | n + 1, h, ic =>
    match S.getByHeight ic.requests h with
    | none => .error .panicked
    | some (.error _) => .ok (ic.asked, some .source)
    | some (.ok fc) =>
      if fc.signed.height ≤ ic.cert.lastHeight then .ok (ic.asked, some .noPathFound)
      else
        match ic.asked.update P A B T fc with
        | .ok (ic₁, some (.cert .tooMuchChange)) =>
          match updateToHeight n (middle ic.cert.lastHeight fc.signed.height) ic₁ with
          | .ok (ic₂, none) => updateToHeight n h ic₂
          | res => res
        | res => res

def updateToHash (n : Nat) (vhash : Bytes) (ic : Inquiring τ) : Except Halt (Inquiring τ × Option InquireError) :=
  match S.getByHash ic.requests vhash with
  | none => .error .panicked
  | some (.error _) => .ok (ic.asked, some .source)
  | some (.ok fc) =>
    match ic.cert.update P A B fc with
    | none => .error .panicked
    | some (.error .tooMuchChange) => ic.asked.updateToHeight P A B T S n fc.signed.height
    | some (.error err) => .ok (ic.asked, some (.cert err))
    | some (.ok cert) => .ok ({ ic.asked with cert := cert }, none)

/-- The end of `Certify`, after an update. -/
def certifyAgain (commit : SignedHeader) (ic : Inquiring τ) : Except Halt (Inquiring τ × Option InquireError) :=
  match ic.cert.certify P A B commit with
  | none => .error .panicked
  | some (.error err) => .ok (ic, some (.cert err))
  | some (.ok cert) =>
    match T.storeCommit ic.trusted ⟨commit, cert.validators⟩ with
    | none => .ok ({ ic with cert := cert }, some .trusted)
    | some trusted => .ok ({ ic with cert := cert, trusted := trusted }, none)

def certify (n : Nat) (commit : SignedHeader) (ic : Inquiring τ) : Except Halt (Inquiring τ × Option InquireError) :=
  match ic.useClosestTrust T commit.height with
  | none => .ok (ic, some .trusted)
  | some ic =>
    match ic.cert.certify P A B commit with
    | none => .error .panicked
    | some (.ok cert) => .ok ({ ic with cert := cert }, none)
    | some (.error .validatorsChanged) =>
      match ic.updateToHash P A B T S n ((commit.header.map Header.validatorsHash).getD []) with
      | .ok (ic, none) => ic.certifyAgain P A B T commit
      | res => res
    | some (.error err) => .ok (ic, some (.cert err))

end

variable {τ : Type} {P : Primitives} {A : Amino} {B : BlockCodec} {T : TrustedProvider τ} {S : Source}
  {ic ic' : Inquiring τ} {fc : FullCommit} {h : Int} {err : Option InquireError}

/-! ## Termination -/

/-- The last height is the one of a stored commit, and it is not negative. -/
def Anchored (T : TrustedProvider τ) (ic : Inquiring τ) : Prop :=
  0 ≤ ic.cert.lastHeight ∧ ∃ tc, T.Holds ic.trusted tc ∧ tc.signed.height = ic.cert.lastHeight

theorem lastHeight_reset (tc : TrustedCommit) : (ic.reset tc).cert.lastHeight = tc.signed.height := by
  unfold reset
  split_ifs with hne
  · rfl
  · exact (not_not.1 hne).symm

theorem trusted_reset (tc : TrustedCommit) : (ic.reset tc).trusted = ic.trusted := by
  unfold reset
  split_ifs <;> rfl

theorem Anchored.useClosestTrust (hic : ic.Anchored T) (hle : ic.cert.lastHeight ≤ h)
    (hclosest : ic.useClosestTrust T h = some ic') :
    ic'.Anchored T ∧ ic.cert.lastHeight ≤ ic'.cert.lastHeight := by
  obtain ⟨tc, htc, rfl⟩ := map_eq_some_iff.1 hclosest
  obtain ⟨hnonneg, tc', hheld, hheight⟩ := hic
  have hlater := T.closest_get htc tc' hheld (hheight ▸ hle)
  rw [hheight] at hlater
  unfold Anchored
  rw [lastHeight_reset, trusted_reset]
  exact ⟨⟨hnonneg.trans hlater, tc, (T.holds_get htc).1, rfl⟩, hlater⟩

theorem lastHeight_update {dc dc' : DynamicCertifier} (hupdate : dc.update P A B fc = some (.ok dc')) :
    dc'.lastHeight = fc.signed.height ∧ dc.lastHeight < fc.signed.height := by
  obtain ⟨validators, header, commit, haccepted, rfl⟩ := update_eq_ok hupdate
  rw [accepted_height haccepted]
  exact ⟨rfl, haccepted.later⟩

theorem Anchored.asked (hic : ic.Anchored T) : ic.asked.Anchored T := hic

/-- After an update the certifier is anchored and not before where it was. -/
theorem Anchored.update (hic : ic.Anchored T) (hlt : ic.cert.lastHeight < fc.signed.height)
    (hupdate : ic.update P A B T fc = .ok (ic', err)) (herr : err = none ∨ err = some (.cert .tooMuchChange)) :
    ic'.Anchored T ∧ ic.cert.lastHeight ≤ ic'.cert.lastHeight ∧
    (err = none → ic.cert.lastHeight < ic'.cert.lastHeight) := by
  unfold Inquiring.update at hupdate
  cases hclosest : ic.useClosestTrust T fc.signed.height with
  | none =>
    rw [hclosest] at hupdate
    cases hupdate
    simp at herr
  | some ic₁ =>
    obtain ⟨hic₁, hle⟩ := hic.useClosestTrust hlt.le hclosest
    simp only [hclosest] at hupdate
    split at hupdate
    · cases hupdate
    · cases hupdate
      exact ⟨hic₁, hle, nofun⟩
    next cert hcert =>
      obtain ⟨hheight, hlater⟩ := lastHeight_update hcert
      split at hupdate
      · cases hupdate
        simp at herr
      next trusted hstore =>
        cases hupdate
        have hlast : ic₁.cert.lastHeight < cert.lastHeight := hheight ▸ hlater
        refine ⟨⟨?_, _, (T.holds_store hstore _).2 (.inl rfl), hheight.symm⟩, ?_, fun _ => ?_⟩
        · exact hic₁.1.trans hlast.le
        · exact hle.trans hlast.le
        · exact hle.trans_lt hlast

theorem update_ne_spent : ic.update P A B T fc ≠ .error .spent := by
  unfold Inquiring.update
  split
  · exact nofun
  · split
    · exact nofun
    · exact nofun
    · split <;> exact nofun

theorem middle_lt {a b : Int} (ha : 0 ≤ a) (hab : a < b) : middle a b < b := by
  have hwrap : wrap64 (a + b) ≤ a + b := by
    rw [wrap64, Int.bmod_def]
    split <;> omega
  unfold middle
  rcases le_or_gt 0 (wrap64 (a + b)) with hpos | hneg
  · rw [Int.tdiv_eq_ediv_of_nonneg hpos]
    omega
  · rw [show wrap64 (a + b) = -(-wrap64 (a + b)) by ring, Int.neg_tdiv, Int.tdiv_eq_ediv_of_nonneg (by omega)]
    omega

/-- A path that was found leads to a later height. -/
theorem Anchored.updateToHeight : ∀ (n : Nat) {h : Int} {ic ic' : Inquiring τ}, ic.Anchored T →
    ic.updateToHeight P A B T S n h = .ok (ic', none) → ic'.Anchored T ∧ ic.cert.lastHeight < ic'.cert.lastHeight
  | 0, _, _, _, _, hres => nomatch hres
  | n + 1, h, ic, ic', hic, hres => by
    unfold Inquiring.updateToHeight at hres
    split at hres
    · cases hres
    · cases hres
    next fc _ =>
      split_ifs at hres with hpast
      · cases hres
      · rw [not_le] at hpast
        split at hres
        next ic₁ hupdate =>
          obtain ⟨hic₁, hle, -⟩ := hic.asked.update hpast hupdate (.inr rfl)
          split at hres
          next ic₂ hmid =>
            obtain ⟨hic₂, hlt⟩ := Anchored.updateToHeight n hic₁ hmid
            obtain ⟨hic', hlt'⟩ := Anchored.updateToHeight n hic₂ hres
            exact ⟨hic', hle.trans_lt (hlt.trans hlt')⟩
          next hnot => exact absurd hres (hnot ic')
        next =>
          obtain ⟨hic', -, hlt⟩ := hic.asked.update hpast hres (.inl rfl)
          exact ⟨hic', hlt rfl⟩

/-- Where the source answers with heights up to the one asked for, a depth above the distance is enough. -/
theorem updateToHeight_ne_spent (hS : ∀ n h fc, S.getByHeight n h = some (.ok fc) → fc.signed.height ≤ h) :
    ∀ (n : Nat) {h : Int}
    {ic : Inquiring τ}, ic.Anchored T → (h - ic.cert.lastHeight).toNat < n →
    ic.updateToHeight P A B T S n h ≠ .error .spent
  | 0, _, _, _, hn => absurd hn (Nat.not_lt_zero _)
  | n + 1, h, ic, hic, hn => by
    unfold Inquiring.updateToHeight
    split
    · exact nofun
    · exact nofun
    next fc hfc =>
      have hle := hS _ _ _ hfc
      split_ifs with hpast
      · exact nofun
      · rw [not_le] at hpast
        have hmiddle := middle_lt hic.1 hpast
        split
        next ic₁ hupdate =>
          obtain ⟨hic₁, hle₁, -⟩ := hic.asked.update hpast hupdate (.inr rfl)
          have hle₁ : ic.cert.lastHeight ≤ ic₁.cert.lastHeight := hle₁
          split
          next ic₂ hmid =>
            -- the path to the middle has brought the certifier closer
            obtain ⟨hic₂, hlt⟩ := hic₁.updateToHeight n hmid
            exact updateToHeight_ne_spent hS n hic₂ (by omega)
          next => exact updateToHeight_ne_spent hS n hic₁ (by omega)
        next => exact update_ne_spent

theorem certifyAgain_ne_spent {commit : SignedHeader} : ic.certifyAgain P A B T commit ≠ .error .spent := by
  unfold certifyAgain
  split
  · exact nofun
  · exact nofun
  · split <;> exact nofun

theorem updateToHash_ends (hS : ∀ n h fc, S.getByHeight n h = some (.ok fc) → fc.signed.height ≤ h)
    (hic : ic.Anchored T) (vhash : Bytes) :
    ∃ depth, ∀ n, depth ≤ n → ic.updateToHash P A B T S n vhash ≠ .error .spent := by
  unfold updateToHash
  split
  · exact ⟨0, fun n _ => nofun⟩
  · exact ⟨0, fun n _ => nofun⟩
  next fc _ =>
    refine ⟨(fc.signed.height - ic.cert.lastHeight).toNat + 1, fun n hn => ?_⟩
    split
    · exact nofun
    · exact updateToHeight_ne_spent hS n hic.asked hn
    · exact nofun
    · exact nofun

/-- The bisection ends where the source keeps to the contract of a provider and the trusted heights are not negative.
-/
theorem certify_ends (P : Primitives) (A : Amino) (B : BlockCodec) (T : TrustedProvider τ) (S : Source)
    (hS : ∀ n h fc, S.getByHeight n h = some (.ok fc) → fc.signed.height ≤ h) :
    (∀ (ic : Inquiring τ) (h : Int), ic.Anchored T → ∃ depth, ∀ n, depth ≤ n →
      ic.updateToHeight P A B T S n h ≠ .error .spent) ∧
    ∀ (ic : Inquiring τ) (commit : SignedHeader), (∀ tc, T.getByHeight ic.trusted commit.height = some tc →
      0 ≤ tc.signed.height) →
      ∃ depth, ∀ n, depth ≤ n → ic.certify P A B T S n commit ≠ .error .spent := by
  refine ⟨fun ic h hic => ⟨_, fun n hn => updateToHeight_ne_spent hS n hic hn⟩, fun ic commit hnonneg => ?_⟩
  unfold certify
  split
  · exact ⟨0, fun n _ => nofun⟩
  next ic₁ hclosest =>
    obtain ⟨tc, htc, rfl⟩ := map_eq_some_iff.1 hclosest
    have hic : (ic.reset tc).Anchored T := by
      unfold Anchored
      rw [lastHeight_reset, trusted_reset]
      exact ⟨hnonneg tc htc, tc, (T.holds_get htc).1, rfl⟩
    obtain ⟨depth, hdepth⟩ :=
      updateToHash_ends (P := P) (A := A) (B := B) hS hic ((commit.header.map Header.validatorsHash).getD [])
    refine ⟨depth, fun n hn => ?_⟩
    split
    · exact nofun
    · exact nofun
    · split
      · exact certifyAgain_ne_spent
      · exact hdepth n hn
    · exact nofun

/-! ## The provider of a node -/

/-- What a node answers, by the number of the request; `none` is an error. -/
structure NodeClient where
  commit : Nat → Int → Option SignedHeader
  validators : Nat → Option Int → Option (Int × List Validator)

/-- `seedFromCommit`: the validators of the commit's height have to match it. -/
def NodeClient.seedFromCommit (P : Primitives) (B : BlockCodec) (node : NodeClient) (n : Nat) (commit : SignedHeader) :
    Option (Except Unit FullCommit) := do
  let header ← commit.header
  match node.validators n (some header.height) with
  | none => some (.error ())
  | some (_, vals) =>
    let vset ← ValidatorSet.newValidatorSet vals
    some (if vset.hash P B ≠ header.validatorsHash then .error () else .ok ⟨commit, some vset⟩)

/-- `provider` as a source. `GetByHash` looks at the latest validators only, and `seedFromVals` takes any commit. -/
def NodeClient.provider (P : Primitives) (B : BlockCodec) (node : NodeClient) : Source where
  getByHeight n h :=
    match node.commit n h with
    | none => some (.error ())
    | some commit => node.seedFromCommit P B n commit
  getByHash n vhash :=
    match node.validators n none with
    | none => some (.error ())
    | some (blockHeight, vals) => do
      let vset ← ValidatorSet.newValidatorSet vals
      if vhash ≠ vset.hash P B then some (.error ())
      else some (match node.commit n blockHeight with
        | none => .error ()
        | some commit => .ok ⟨commit, some vset⟩)

/-- `memStoreProvider` checks a commit before it stores it, and sorts by height. -/
def memStore (P : Primitives) (B : BlockCodec) : TrustedProvider (List TrustedCommit) where
  storeCommit stored tc :=
    match tc.signed.validateBasic P B ((tc.signed.header.map Header.chainID).getD []) with
    | .error _ => none
    | .ok _ => some (tc :: stored)
  getByHeight stored h :=
    (stored.insertionSort fun a b => b.signed.height ≤ a.signed.height).find? fun tc => tc.signed.height ≤ h
  Holds stored tc := tc ∈ stored
  holds_get hget := ⟨(mem_insertionSort _).1 (mem_of_find?_eq_some hget), by simpa using find?_some hget⟩
  closest_get {stored h tc} hget tc' hmem hle := by
    obtain ⟨-, later, earlier, hsplit, hlater⟩ := find?_eq_some_iff_append.1 hget
    have hsorted := pairwise_insertionSort (fun a b : TrustedCommit => b.signed.height ≤ a.signed.height) stored
    have hmem' := (mem_insertionSort fun a b : TrustedCommit => b.signed.height ≤ a.signed.height).2 hmem
    rw [hsplit] at hsorted hmem'
    rcases mem_append.1 hmem' with hin | hin
    · have hgt := hlater tc' hin
      simp only [Bool.not_eq_true', decide_eq_false_iff_not] at hgt
      exact absurd hle hgt
    · rcases mem_cons.1 hin with rfl | hin
      · exact le_rfl
      · exact rel_of_pairwise_cons (pairwise_append.1 hsorted).2.1 hin
  holds_store hstore tc' := by
    split at hstore
    · cases hstore
    · cases hstore
      exact mem_cons

def trusting (requests : Nat) : Inquiring (List TrustedCommit) :=
  ⟨liteCertifier, [⟨liteSigned 1, liteSet 10 10⟩], requests⟩

def stranger : Validator := ⟨[3], some (.ed25519 [3]), 10, 0⟩

def strangeSet : ValidatorSet := (ValidatorSet.newValidatorSet [stranger]).getD ⟨[], none⟩

def strangeHeader : Header := { liteHeader 100 with validatorsHash := strangeSet.hash .checked .plain }

def strangeID : BlockID := ⟨strangeHeader.hash .checked .plain, ⟨1, [1]⟩⟩

def strangeSigned : SignedHeader := ⟨some strangeHeader, some ⟨strangeID,
  [some (Vote.signedBy [3] (ascii "c") ⟨[3], 0, 100, 0, 0, voteTypePrecommit, strangeID, none⟩)]⟩⟩

/-- A node that gives this answer to everything. -/
def strangeNode : NodeClient := ⟨fun _ _ => some strangeSigned, fun _ _ => some (100, [stranger])⟩

/-- A source that keeps to the contract. -/
def modestSource : Source where
  getByHeight _ h := if 2 ≤ h then some (.ok (liteFull 2 10 10)) else some (.error ())
  getByHash _ _ := some (.ok (liteFull 2 10 10))

theorem certify_ends_modest :
    (∀ n h fc, modestSource.getByHeight n h = some (.ok fc) → fc.signed.height ≤ h) ∧ ∃ depth, ∀ n, depth ≤ n →
      (trusting 0).certify .checked .plain .plain (memStore .checked .plain) modestSource n strangeSigned ≠
        .error .spent := by
  have hmodest : ∀ n h fc, modestSource.getByHeight n h = some (.ok fc) → fc.signed.height ≤ h := by
    intro n h fc hfc
    unfold modestSource at hfc
    dsimp only at hfc
    split_ifs at hfc with hle
    · cases hfc
      exact hle
    · cases hfc
  refine ⟨hmodest, (certify_ends .checked .plain .plain (memStore .checked .plain) modestSource hmodest).2 (trusting 0)
    strangeSigned fun tc htc => ?_⟩
  have hmem : tc ∈ [⟨liteSigned 1, liteSet 10 10⟩] := ((memStore .checked .plain).holds_get htc).1
  cases mem_singleton.1 hmem
  exact Int.one_nonneg

theorem strangeNode_getByHeight (n : Nat) (h : Int) : (strangeNode.provider .checked .plain).getByHeight n h =
    some (.ok ⟨strangeSigned, some strangeSet⟩) := by
  change strangeNode.seedFromCommit .checked .plain n strangeSigned = _
  have hset : ValidatorSet.newValidatorSet [stranger] = some strangeSet := by decide +kernel
  change ((ValidatorSet.newValidatorSet [stranger]).bind fun vset =>
    some (if vset.hash .checked .plain ≠ strangeSet.hash .checked .plain
    then (.error () : Except Unit FullCommit) else .ok ⟨strangeSigned, some vset⟩)) = _
  rw [hset, bind_some, if_neg (not_not.2 rfl)]

theorem trusting_useClosestTrust (n : Nat) :
    (trusting n).useClosestTrust (memStore .checked .plain) 100 = some (trusting n) := by
  rfl

theorem liteCertifier_update :
    liteCertifier.update .checked .plain .plain ⟨strangeSigned, some strangeSet⟩ = some (.error .tooMuchChange) := by
  decide +kernel

/-- Whatever height is asked for, the bisection asks for height 50 next. -/
theorem updateToHeight_strange : ∀ (depth n : Nat) (h : Int),
    (trusting n).updateToHeight .checked .plain .plain (memStore .checked .plain)
      (strangeNode.provider .checked .plain) depth h =
      .error .spent
  | 0, _, _ => rfl
  | depth + 1, n, h => by
    have hupdate : (trusting n).asked.update .checked .plain .plain (memStore .checked .plain)
      ⟨strangeSigned, some strangeSet⟩ =
        .ok (trusting (n + 1), some (.cert .tooMuchChange)) := by
      unfold Inquiring.update
      rw [show (trusting n).asked = trusting (n + 1) from rfl,
        show (⟨strangeSigned, some strangeSet⟩ : FullCommit).signed.height = 100 from rfl, trusting_useClosestTrust]
      dsimp only
      rw [show (trusting (n + 1)).cert = liteCertifier from rfl, liteCertifier_update]
    have hlater : ¬ strangeSigned.height ≤ (trusting n).cert.lastHeight := show ¬ (100 : Int) ≤ 1 by decide
    rw [updateToHeight, strangeNode_getByHeight]
    dsimp only
    rw [if_neg hlater, hupdate]
    dsimp only
    rw [updateToHeight_strange depth]

theorem certify_never_ends :
    (liteSet 10 10).Fits ∧ ∀ depth, (trusting 0).certify .checked .plain .plain (memStore .checked .plain)
    (strangeNode.provider .checked .plain) depth strangeSigned = .error .spent := by
  refine ⟨liteSet_fits, fun depth => ?_⟩
  have hcertify : liteCertifier.certify .checked .plain .plain strangeSigned = some (.error .validatorsChanged) := by
    decide +kernel
  have hhash : (strangeNode.provider .checked .plain).getByHash 0 (strangeSet.hash .checked .plain) =
      some (.ok ⟨strangeSigned, some strangeSet⟩) := by decide +kernel
  unfold certify
  rw [show strangeSigned.height = 100 from rfl, trusting_useClosestTrust]
  dsimp only
  rw [show (trusting 0).cert = liteCertifier from rfl, hcertify]
  dsimp only
  unfold updateToHash
  rw [show (strangeSigned.header.map Header.validatorsHash).getD [] = strangeSet.hash .checked .plain from rfl,
    show (trusting 0).requests = 0 from rfl, hhash]
  dsimp only
  rw [show (trusting 0).cert = liteCertifier from rfl, liteCertifier_update]
  dsimp only
  rw [show (trusting 0).asked = trusting 1 from rfl, updateToHeight_strange]

end Inquiring

end Demars.Lite
