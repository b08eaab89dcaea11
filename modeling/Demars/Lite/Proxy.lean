import Demars.Lite.Inquiring
import Demars.Types.TxProof

/-!
# The secure RPC client

`lite/proxy/wrapper.go`, `lite/proxy/block.go` and `GetCertifiedCommit` of `lite/proxy/query.go`. A `Wrapper` hands
requests on to a client that nobody trusts, and checks the answers with an inquiring certifier, which only ever
works with sets that can be traced back to what the user trusts (`Grounded.certify`).
-/

namespace Demars.Lite

open Option

structure ResultBlock where
  blockMeta : Option (BlockID × Option Header)
  block : Option Block
deriving DecidableEq

structure ResultTx where
  hash : Bytes
  height : Int
  index : Int
  tx : Bytes
  proof : TxProof
deriving DecidableEq

/-- The wrapped client during a call, with whatever it answers; `none` is an error. -/
structure Client where
  commit : Int → Option SignedHeader
  block : Int → Option ResultBlock
  tx : Bytes → Bool → Option ResultTx

inductive ProxyError
  /-- an error of the wrapped client -/
  | client
  | cert (err : InquireError)
  /-- `expecting a non-nil BlockMeta` -/
  | noBlockMeta
  /-- `expecting a non-nil Block` -/
  | noBlock
  /-- `expecting a non-nil Header` -/
  | noHeader
  /-- `ErrHeightMismatch` -/
  | heightMismatch (h₁ h₂ : Int)
  /-- `Headers don't match` -/
  | otherHeader
  /-- `Data hash doesn't match header` -/
  | otherData
  | proof (err : TxProofError)
deriving DecidableEq

/-- What the wrapper works with beside its client: the codecs, and the providers of its certifier. -/
structure Setting (τ : Type) where
  P : Primitives
  A : Amino
  B : BlockCodec
  T : TrustedProvider τ
  S : Source

section

variable {τ : Type} (E : Setting τ) (C : Client) (n : Nat)

def validateHeader (head : Option Header) (check : SignedHeader) : Except ProxyError Unit := do
  let some head := head | throw .noHeader
  if head.height ≠ check.height then throw (.heightMismatch head.height check.height)
  else if head.hash E.P E.B ≠ (check.header.map (Header.hash E.P E.B)).getD [] then throw .otherHeader

def validateBlockMeta (blockMeta : Option (BlockID × Option Header)) (check : SignedHeader) :
    Except ProxyError Unit := do
  let some blockMeta := blockMeta | throw .noBlockMeta
  validateHeader E blockMeta.2 check

def validateBlock (block : Option Block) (check : SignedHeader) : Except ProxyError Unit := do
  let some block := block | throw .noBlock
  validateHeader E block.header check
  if dataHash E.P block.data ≠ (block.header.map Header.dataHash).getD [] then throw .otherData

/-- A call of the wrapper, which may change its certifier, fail, or not come back. -/
abbrev Rpc (τ : Type) := ExceptT ProxyError (StateT (Inquiring τ) (Except Halt))

namespace Wrapper

/-- `Certify` of the wrapper's certifier, recurring up to a depth. -/
def certify (c : SignedHeader) : Rpc τ Unit := ExceptT.mk fun ic =>
  (ic.certify E.P E.A E.B E.T E.S n c).map fun
    | (ic, some err) => (.error (.cert err), ic)
    | (ic, none) => (.ok (), ic)

/-- `Wrapper.Commit`, once the wait for the height is over. -/
def commit (h : Int) : Rpc τ SignedHeader := do
  let some r := C.commit h | throw .client
  certify E n r
  return r

def getCertifiedCommit (h : Int) : Rpc τ SignedHeader := do
  let some r := C.commit h | throw .client
  if r.height ≠ h then throw (.heightMismatch h r.height)
  certify E n r
  return r

def block (h : Int) : Rpc τ ResultBlock := do
  let some r := C.block h | throw .client
  let check ← commit E C n h
  liftExcept (validateBlockMeta E r.blockMeta check)
  liftExcept (validateBlock E r.block check)
  return r

def tx (hash : Bytes) (prove : Bool) : Rpc τ ResultTx := do
  let some res := C.tx hash prove | throw .client
  if prove then
    let check ← getCertifiedCommit E C n res.height
    liftExcept ((res.proof.validate E.P ((check.header.map Header.dataHash).getD [])).mapError ProxyError.proof)
  return res

/-- The certifier after calls that returned, each time with a client that may answer differently. -/
inductive Run (start : Inquiring τ) : Inquiring τ → Prop
  | start : Run start start
  | commit {ic ic' C n h res} : Run start ic → commit E C n h ic = .ok (res, ic') → Run start ic'
  | block {ic ic' C n h res} : Run start ic → block E C n h ic = .ok (res, ic') → Run start ic'
  | tx {ic ic' C n hash prove res} : Run start ic → tx E C n hash prove ic = .ok (res, ic') → Run start ic'

end Wrapper

end

/-- What the user trusts to begin with. The full commits of the source have the validators that their headers name,
and no powers overflow. -/
structure Footing {τ : Type} (E : Setting τ) where
  chainID : Bytes
  root : ValidatorSet → Prop
  root_fits : ∀ {valSet}, root valSet → valSet.Fits
  byHeight : ∀ {n h fc}, E.S.getByHeight n h = some (.ok fc) → fc.Consistent E.P E.B
  byHash : ∀ {n vhash fc}, E.S.getByHash n vhash = some (.ok fc) → fc.Consistent E.P E.B

namespace Footing

variable {τ : Type} {E : Setting τ} (K : Footing E)

/-- The sets that the user trusts, and those whose hash is in a header that a trusted set has signed. -/
inductive Set : ValidatorSet → Prop
  | root {valSet : ValidatorSet} : K.root valSet → Set valSet
  | endorsed {valSet newSet : ValidatorSet} {header : Header} {commit : Demars.Commit} : Set valSet →
    ValidatorSet.Endorsed E.P E.A valSet K.chainID commit.blockID header.height commit →
      commit.blockID.hash = header.hash E.P E.B →
    newSet.hash E.P E.B = header.validatorsHash → newSet.Fits → Set newSet

/-- The header is signed by more than two thirds of a trusted set, the one that it names. -/
def Certified (c : SignedHeader) (header : Header) : Prop :=
  c.header = some header ∧ ∃ commit valSet, c.commit = some commit ∧ commit.blockID.hash = header.hash E.P E.B ∧
    K.Set valSet ∧ valSet.hash E.P E.B = header.validatorsHash ∧
    valSet.Justified E.P E.A K.chainID commit.blockID header.height commit

/-- What no hash of a header covers is right: the `BlockID` is the one that was signed, there are no
`LastBucketHashes` and no transactions in the first bucket, the ids of the buckets are those of `MakeBlock`, and the
commit inside is empty or signed by a trusted set for the block before. -/
structure Covered (c : SignedHeader) (r : ResultBlock) : Prop where
  blockID : r.blockMeta.map Prod.fst = c.commit.map Commit.blockID
  metaHeader : ∀ head ∈ r.blockMeta.bind Prod.snd, head.lastBucketHashes = none
  header : ∀ head ∈ r.block.bind Block.header, head.lastBucketHashes = none
  buckets : ∀ data ∈ r.block.bind Block.data, data.txBuckets.map TxBucket.bucketId <+: bucketIds ∧
    ∀ bucket ∈ data.txBuckets.head?, bucket.txs = []
  commit : ∀ b ∈ r.block, ∀ head ∈ b.header, ∀ commit ∈ b.commit, commit = ⟨.empty, []⟩ ∨
    commit.blockID = head.lastBlockID ∧ ∃ valSet, K.Set valSet ∧
      valSet.Justified E.P E.A K.chainID head.lastBlockID (head.height - 1) commit

/-- The certifier works with trusted sets, and so does what it has stored. -/
structure Grounded (ic : Inquiring τ) : Prop where
  chain : ic.cert.chainID = K.chainID
  cert : K.Set ic.cert.validators
  held : ∀ tc, E.T.Holds ic.trusted tc → K.Set tc.validators

variable {K} {ic ic' : Inquiring τ}

theorem Set.fits {valSet : ValidatorSet} (h : K.Set valSet) : valSet.Fits := by
  cases h with
  | root hroot => exact K.root_fits hroot
  | endorsed _ _ _ _ hfits => exact hfits

theorem Certified.height {c : SignedHeader} {header : Header} (h : K.Certified c header) :
    c.height = header.height := by
  rw [SignedHeader.height, h.1]
  rfl

namespace Grounded

variable {c : SignedHeader} {dc : DynamicCertifier} {err : Option InquireError}

section

variable (hic : K.Grounded ic)
include hic

theorem certified (h : ic.cert.certify E.P E.A E.B c = some (.ok dc)) : ∃ header, K.Certified c header := by
  obtain ⟨res, hres, h⟩ := map_eq_some_iff.1 h
  unfold staticCertify at hres
  split at hres
  · cases hres
    cases h
  next header commit hbasic =>
    obtain ⟨hheader, hcommit, -, -, hhash⟩ := validateBasic_eq_ok hbasic
    split_ifs at hres with hvals
    · cases hres
      cases h
    obtain ⟨verdict, hverify, rfl⟩ := map_eq_some_iff.1 hres
    cases verdict with
    | error err => cases h
    | ok _ =>
      obtain ⟨-, -, hsigned, hpower⟩ := (ValidatorSet.verifyCommit_eq_ok hic.cert.fits.toBounded).1 hverify
      rw [hic.cert.fits.toBounded.twoThirds_eq hic.cert.fits.double_le] at hpower
      exact ⟨header, hheader, commit, _, hcommit, hhash, hic.cert, not_not.1 hvals,
        hic.chain ▸ ValidatorSet.justified_of_powerOf hsigned (by omega)⟩

theorem useClosestTrust {h : Int} (hclosest : ic.useClosestTrust E.T h = some ic') : K.Grounded ic' := by
  obtain ⟨tc, htc, rfl⟩ := map_eq_some_iff.1 hclosest
  unfold Inquiring.reset
  split_ifs
  · exact ⟨hic.chain, hic.held tc (E.T.holds_get htc).1, hic.held⟩
  · exact hic

theorem store {tc : TrustedCommit} {trusted : τ} (htc : K.Set tc.validators)
    (hstore : E.T.storeCommit ic.trusted tc = some trusted) : K.Grounded { ic with trusted := trusted } := by
  refine ⟨hic.chain, hic.cert, fun tc' hheld => ?_⟩
  rcases (E.T.holds_store hstore tc').1 hheld with rfl | hheld
  · exact htc
  · exact hic.held tc' hheld

theorem setCert {fc : FullCommit} (hfc : fc.Consistent E.P E.B)
    (hupdate : ic.cert.update E.P E.A E.B fc = some (.ok dc)) : K.Grounded { ic with cert := dc } := by
  obtain ⟨validators, header, commit, haccepted, rfl⟩ := update_eq_ok hupdate
  obtain ⟨hhash, hnew⟩ := hfc header validators haccepted.hasHeader haccepted.hasValidators
  have hendorsed := ValidatorSet.endorsed_of_verifyCommitAny hic.cert.fits haccepted.verified
  rw [hic.chain] at hendorsed
  exact ⟨hic.chain, .endorsed hic.cert hendorsed haccepted.hash hhash hnew, hic.held⟩

theorem asked : K.Grounded ic.asked :=
  ⟨hic.chain, hic.cert, hic.held⟩

theorem update {fc : FullCommit} (hfc : fc.Consistent E.P E.B) (h : ic.update E.P E.A E.B E.T fc = .ok (ic', err)) :
    K.Grounded ic' := by
  unfold Inquiring.update at h
  split at h
  · cases h
    exact hic
  next ic₁ hclosest =>
    have hic₁ := hic.useClosestTrust hclosest
    split at h
    · cases h
    · cases h
      exact hic₁
    next dc hdc =>
      have hic₂ := hic₁.setCert hfc hdc
      split at h
      · cases h
        exact hic₂
      next trusted hstore =>
        cases h
        exact hic₂.store hic₂.cert hstore

end

theorem updateToHeight : ∀ (n : Nat) {h : Int} {ic ic' : Inquiring τ} {err : Option InquireError}, K.Grounded ic →
    ic.updateToHeight E.P E.A E.B E.T E.S n h = .ok (ic', err) → K.Grounded ic'
  | 0, _, _, _, _, _, hres => nomatch hres
  | n + 1, h, ic, ic', err, hic, hres => by
    unfold Inquiring.updateToHeight at hres
    split at hres
    · cases hres
    · cases hres
      exact hic.asked
    next fc hfc =>
      split_ifs at hres
      · cases hres
        exact hic.asked
      split at hres
      next ic₁ hupdate =>
        have hic₁ := hic.asked.update (K.byHeight hfc) hupdate
        split at hres
        next ic₂ hmid => exact updateToHeight n (updateToHeight n hic₁ hmid) hres
        next => exact updateToHeight n hic₁ hres
      next => exact hic.asked.update (K.byHeight hfc) hres

theorem updateToHash {n : Nat} {vhash : Bytes} (hic : K.Grounded ic)
    (h : ic.updateToHash E.P E.A E.B E.T E.S n vhash = .ok (ic', err)) : K.Grounded ic' := by
  unfold Inquiring.updateToHash at h
  split at h
  · cases h
  · cases h
    exact hic.asked
  next fc hfc =>
    split at h
    · cases h
    · exact hic.asked.updateToHeight n h
    · cases h
      exact hic.asked
    next dc hdc =>
      cases h
      exact hic.asked.setCert (K.byHash hfc) hdc

theorem setCertified (hic : K.Grounded ic) (h : ic.cert.certify E.P E.A E.B c = some (.ok dc)) :
    K.Grounded { ic with cert := dc } := by
  rw [certify_eq_ok h]
  exact ⟨hic.chain, hic.cert, hic.held⟩

/-- A commit is certified by a trusted set, at hand or after updates. -/
theorem certify {n : Nat} (hic : K.Grounded ic) (h : ic.certify E.P E.A E.B E.T E.S n c = .ok (ic', err)) :
    K.Grounded ic' ∧ (err = none → ∃ header, K.Certified c header) := by
  unfold Inquiring.certify at h
  split at h
  · cases h
    exact ⟨hic, nofun⟩
  next ic₁ hclosest =>
    have hic₁ := hic.useClosestTrust hclosest
    split at h
    · cases h
    next dc hdc =>
      cases h
      exact ⟨hic₁.setCertified hdc, fun _ => hic₁.certified hdc⟩
    · split at h
      next ic₂ hupdate =>
        have hic₂ := hic₁.updateToHash hupdate
        unfold Inquiring.certifyAgain at h
        split at h
        · cases h
        · cases h
          exact ⟨hic₂, nofun⟩
        next dc hdc =>
          have hic₃ := hic₂.setCertified hdc
          split at h
          · cases h
            exact ⟨hic₃, nofun⟩
          next trusted hstore =>
            cases h
            exact ⟨hic₃.store hic₃.cert hstore, fun _ => hic₂.certified hdc⟩
      next hnot =>
        refine ⟨hic₁.updateToHash h, fun herr => ?_⟩
        subst herr
        exact absurd h (hnot ic')
    · cases h
      exact ⟨hic₁, nofun⟩

end Grounded

/-! ## Calls that keep to trusted sets -/

variable {α β : Type} {m : Rpc τ α} {f : α → Rpc τ β} {Q : α → Prop} {R : β → Prop}

variable (K) in
/-- The call leaves a grounded certifier grounded, and what it returns has the property. -/
def Sound (m : Rpc τ α) (Q : α → Prop) : Prop :=
  ∀ ic ic' res, K.Grounded ic → m ic = .ok (res, ic') → K.Grounded ic' ∧ ∀ r, res = .ok r → Q r

namespace Sound

theorem lift {v : Except ProxyError α} (h : ∀ a, v = .ok a → Q a) : K.Sound (liftExcept v) Q := by
  intro ic ic' res hic hcall
  cases v <;> cases hcall
  · exact ⟨hic, nofun⟩
  · exact ⟨hic, by rintro _ ⟨⟩; exact h _ rfl⟩

theorem throw (err : ProxyError) : K.Sound (throw err) Q :=
  lift (v := .error err) nofun

theorem pure {a : α} (h : Q a) : K.Sound (pure a) Q :=
  lift (v := .ok a) (by rintro _ ⟨⟩; exact h)

theorem bind (hm : K.Sound m Q) (hf : ∀ a, Q a → K.Sound (f a) R) : K.Sound (m >>= f) R := by
  intro ic ic' res hic hcall
  change (m ic >>= fun p => ExceptT.bindCont f p.1 p.2) = _ at hcall
  rcases hm' : m ic with halt | ⟨_ | a, ic₁⟩ <;> rw [hm'] at hcall
  · cases hcall
  · cases hcall
    exact ⟨(hm _ _ _ hic hm').1, nofun⟩
  · obtain ⟨hic₁, ha⟩ := hm _ _ _ hic hm'
    exact hf a (ha a rfl) _ _ _ hic₁ hcall

variable {C : Client} {n : Nat}

theorem certify (c : SignedHeader) : K.Sound (Wrapper.certify E n c) fun _ => ∃ header, K.Certified c header := by
  intro ic ic' res hic hcall
  change (ic.certify E.P E.A E.B E.T E.S n c).map _ = _ at hcall
  rcases hcert : ic.certify E.P E.A E.B E.T E.S n c with halt | ⟨ic₁, _ | err⟩ <;> rw [hcert] at hcall <;> cases hcall
  · exact ⟨(hic.certify hcert).1, fun _ _ => (hic.certify hcert).2 rfl⟩
  · exact ⟨(hic.certify hcert).1, nofun⟩

theorem commit (h : Int) :
    K.Sound (Wrapper.commit E C n h) fun r => C.commit h = some r ∧ ∃ header, K.Certified r header := by
  unfold Wrapper.commit
  split
  next r hr => exact (certify r).bind fun _ hc => pure ⟨hr, hc⟩
  next => exact throw _

theorem getCertifiedCommit (h : Int) :
    K.Sound (Wrapper.getCertifiedCommit E C n h) fun r => r.height = h ∧ ∃ header, K.Certified r header := by
  unfold Wrapper.getCertifiedCommit
  split
  next r hr =>
    split_ifs with hheight
    · exact (throw (Q := fun _ => False) _).bind fun _ hf => hf.elim
    · exact (certify r).bind fun _ hc => pure ⟨not_not.1 hheight, hc⟩
  next => exact throw _

theorem block (h : Int) : K.Sound (Wrapper.block E C n h) fun r => C.block h = some r ∧ ∃ check header,
    C.commit h = some check ∧ K.Certified check header ∧ validateBlockMeta E r.blockMeta check = .ok () ∧
      validateBlock E r.block check = .ok () := by
  unfold Wrapper.block
  split
  next r hr =>
    refine (commit h).bind fun check ⟨hcheck, header, hheader⟩ => ?_
    refine (lift fun _ hmeta => hmeta).bind fun _ hmeta => (lift fun _ hblock => hblock).bind fun _ hblock => ?_
    exact pure ⟨hr, check, header, hcheck, hheader, hmeta, hblock⟩
  next => exact throw _

theorem tx (hash : Bytes) (prove : Bool) : K.Sound (Wrapper.tx E C n hash prove) fun r => C.tx hash prove = some r ∧
    (prove = true → ∃ check header, K.Certified check header ∧ header.height = r.height ∧
      r.proof.validate E.P header.dataHash = .ok ()) := by
  unfold Wrapper.tx
  split
  next r hr =>
    split_ifs with hprove
    · refine (getCertifiedCommit r.height).bind fun check ⟨hheight, header, hheader⟩ => ?_
      refine (lift fun _ hvalid => hvalid).bind fun _ hvalid => pure ⟨hr, fun _ => ⟨check, header, hheader, ?_, ?_⟩⟩
      · exact hheader.height.symm.trans hheight
      · rw [hheader.1] at hvalid
        cases h : r.proof.validate E.P header.dataHash with
        | error err => simp [h, Except.mapError] at hvalid
        | ok _ => rfl
    · exact pure ⟨hr, fun h => absurd h hprove⟩
  next => exact throw _

end Sound

theorem Grounded.run (hic : K.Grounded ic) (h : Wrapper.Run E ic ic') : K.Grounded ic' := by
  induction h with
  | start => exact hic
  | commit _ hcall ih => exact (Sound.commit _ _ _ _ ih hcall).1
  | block _ hcall ih => exact (Sound.block _ _ _ _ ih hcall).1
  | tx _ hcall ih => exact (Sound.tx _ _ _ _ _ ih hcall).1

end Footing

def Bound {τ : Type} (E : Setting τ) (h : Int) (header : Header) (head : Option Header) : Prop :=
  ∃ head', head = some head' ∧ head'.height = h ∧ head'.hash E.P E.B = header.hash E.P E.B

section

variable {τ : Type} {E : Setting τ} {check : SignedHeader} {header : Header} (hheader : check.header = some header)
include hheader

theorem validateHeader_eq_ok {head : Option Header} (h : validateHeader E head check = .ok ()) :
    Bound E header.height header head := by
  unfold validateHeader at h
  rw [SignedHeader.height, hheader] at h
  split at h
  next head =>
    split_ifs at h with hheight hhash
    exact ⟨head, rfl, not_not.1 hheight, not_not.1 hhash⟩
  next => cases h

theorem validateBlockMeta_eq_ok {blockMeta : Option (BlockID × Option Header)}
    (h : validateBlockMeta E blockMeta check = .ok ()) :
    ∃ id head, blockMeta = some (id, head) ∧ Bound E header.height header head := by
  unfold validateBlockMeta at h
  split at h
  next blockMeta => exact ⟨blockMeta.1, blockMeta.2, rfl, validateHeader_eq_ok hheader h⟩
  next => cases h

theorem validateBlock_eq_ok {block : Option Block} (h : validateBlock E block check = .ok ()) :
    ∃ b, block = some b ∧ Bound E header.height header b.header ∧
      dataHash E.P b.data = (b.header.map Header.dataHash).getD [] := by
  unfold validateBlock at h
  split at h
  next b =>
    cases hv : validateHeader E b.header check with
    | error err =>
      rw [hv] at h
      cases h
    | ok _ =>
      rw [hv] at h
      by_cases hdata : dataHash E.P b.data = (b.header.map Header.dataHash).getD []
      · exact ⟨b, rfl, validateHeader_eq_ok hheader hv, hdata⟩
      · simp [hdata, bind, Except.bind] at h
  next => cases h

end

namespace Wrapper

/-- The block of height 3 holds the transaction `[7]`. -/
def proxyBuckets : List TxBucket := [⟨ascii "0", []⟩, ⟨ascii "1", [[7]]⟩]

def proxyHeader : Header :=
  { liteHeader 3 with lastBlockID := liteID 2, dataHash := bucketsHash .checked proxyBuckets }

def proxyID : BlockID := ⟨proxyHeader.hash .checked .plain, ⟨1, [1]⟩⟩

/-- The header, signed by the two validators that are trusted. -/
def proxySigned : SignedHeader := ⟨some proxyHeader, some ⟨proxyID, [1, 2].map fun key => some (Vote.signedBy [key]
  (ascii "c") ⟨[key], (key.toNat : Int) - 1, 3, 0, 0, voteTypePrecommit, proxyID, none⟩)⟩⟩

/-- The block with the given `BlockID` and first bucket. -/
def proxyBlock (id : BlockID) (first : List Bytes) : ResultBlock :=
  ⟨some (id, some proxyHeader), some ⟨some proxyHeader, some ⟨⟨ascii "0", first⟩ :: proxyBuckets.tail⟩,
    (liteSigned 2).commit⟩⟩

def forgedBlock : ResultBlock := proxyBlock ⟨[6], ⟨1, [1]⟩⟩ [[9]]

/-- A transaction with a proof of `[7]`. -/
def proxyTx (hash tx : Bytes) : ResultTx :=
  ⟨hash, 3, 0, tx, ⟨1, 2, bucketsHash .checked proxyBuckets, [7], [Primitives.checked.sha256 [0]]⟩⟩

/-- A client that answers every request with what it has at height 3. -/
def proxyClient (block : ResultBlock) (tx : Bytes) : Client where
  commit _ := some proxySigned
  block _ := some block
  tx hash _ := some (proxyTx hash tx)

def proxySetting : Setting (List TrustedCommit) :=
  ⟨.checked, .plain, .plain, Inquiring.memStore .checked .plain, Inquiring.modestSource⟩

def proxyTrust : Footing proxySetting where
  chainID := ascii "c"
  root := (· = liteSet 10 10)
  root_fits := by
    rintro _ rfl
    exact liteSet_fits
  byHeight := by
    intro n h fc hfc
    dsimp only [proxySetting, Inquiring.modestSource] at hfc
    split_ifs at hfc <;> cases hfc
    exact liteFull_consistent 2
  byHash := by
    rintro n vhash _ ⟨⟩
    exact liteFull_consistent 2

theorem trusting_grounded : proxyTrust.Grounded (Inquiring.trusting 0) := by
  refine ⟨rfl, .root rfl, fun tc htc => ?_⟩
  cases List.mem_singleton.1 htc
  exact .root rfl

theorem proxyBlock_covered : proxyTrust.Covered proxySigned (proxyBlock proxyID []) := by
  have hcert : (liteCertifier.certify .checked .plain .plain (liteSigned 2)).map Except.toBool = some true := by
    decide +kernel
  obtain ⟨res, hres, hok⟩ := map_eq_some_iff.1 hcert
  cases res with
  | error err => cases hok
  | ok dc =>
    obtain ⟨_, ⟨⟩, _, valSet, ⟨⟩, -, hset, -, hjustified⟩ := trusting_grounded.certified (c := liteSigned 2) hres
    refine ⟨rfl, ?_, ?_, ?_, ?_⟩
    · rintro _ ⟨⟩
      rfl
    · rintro _ ⟨⟩
      rfl
    · rintro _ ⟨⟩
      refine ⟨by decide +kernel, ?_⟩
      rintro _ ⟨⟩
      rfl
    · rintro _ ⟨⟩ _ ⟨⟩ _ ⟨⟩
      exact .inr ⟨rfl, valSet, hset, hjustified⟩

theorem exists_of_map_fst {α : Type} {m : Except Halt (α × Inquiring (List TrustedCommit))} {a : α}
    (h : m.map Prod.fst = .ok a) : ∃ ic', m = .ok (a, ic') := by
  rcases m with halt | ⟨b, ic'⟩
  · cases h
  · cases h
    exact ⟨ic', rfl⟩

end Wrapper

end Demars.Lite
