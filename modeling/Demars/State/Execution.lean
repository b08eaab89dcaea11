import Demars.Coin.App
import Demars.Lib.Fold
import Demars.State.Validation

/-!
# Executing blocks and buckets

The two ways in which transactions of blocks reach the coin application: `execBlock` runs those of all buckets
through `DeliverTx`, and `applyBucket` one bucket through `DeliverBucketedTx`, which is how a node that catches up
by buckets goes through a list of blocks.
-/

namespace Demars

open Coin

section

variable (P : Primitives) (J : Json) (W : Wire)

def deliverTxs (height : Int) (S : Store) (txs : List Bytes) : Option Store :=
  txs.foldlM (fun S tx => (deliverTx P J W S tx height).map Prod.fst) S

/-- The delivery loop of `execBlockOnProxyApp`; a `nil` header or `nil` data panics. -/
def execBlock (S : Store) (block : Block) : Option Store :=
  block.header.bind fun header => block.data.bind fun data =>
    deliverTxs P J W header.height S (data.txBuckets.flatMap TxBucket.txs)

/-- A node that executes whole blocks. -/
def execBlocks (S : Store) (blocks : List Block) : Option Store := blocks.foldlM (execBlock P J W) S

def applyBucket (height : Int) (S : Store) (bucket : TxBucket) : Option Store :=
  bucket.txs.foldlM (fun S tx => (deliverBucketedTx J S tx height bucket.bucketId).map Prod.fst) S

def Block.bucketsOf (bucketID : Bytes) (block : Block) : List TxBucket :=
  (block.data.map fun data => data.txBuckets.filter fun bucket => decide (bucket.bucketId = bucketID)).getD []

def Block.height (block : Block) : Int := (block.header.map Header.height).getD 0

/-- A node that catches up by the buckets of one id. -/
def applyBuckets (bucketID : Bytes) (S : Store) (blocks : List Block) : Option Store :=
  blocks.foldlM (fun S block => (block.bucketsOf bucketID).foldlM (applyBucket J block.height) S) S

end

def InSegment (bucketID addr : Bytes) : Prop := firstTwo (hexString addr) = some bucketID

instance (bucketID addr : Bytes) : Decidable (InSegment bucketID addr) := inferInstanceAs (Decidable (_ = _))

section

variable (P : Primitives) (J : Json) (W : Wire) (S T : Store) (bucketID : Bytes) (blocks : List Block)

/-- Catching up from `T` by the buckets ends with the balances, in the segment, of a node that executed the blocks
from `S`. -/
def CatchesUp : Prop :=
  ∃ T', applyBuckets J bucketID T blocks = some T' ∧
    ∀ S', execBlocks P J W S blocks = some S' → ∀ addr, InSegment bucketID addr →
      T'.balanceOf J addr = S'.balanceOf J addr

/-- No transaction of the buckets is short enough for the bucket executor to look at. -/
def NothingToApply : Prop :=
  ∀ block ∈ blocks, ∀ bucket ∈ block.bucketsOf bucketID, ∀ tx ∈ bucket.txs, tx.length > maxTxSize

def NoCoins : Prop :=
  ∀ S', execBlocks P J W S blocks = some S' → ∀ addr, InSegment bucketID addr → S'.balanceOf J addr = 0

end

/-! ## What a bucket run does -/

section

variable {P : Primitives} {J : Json} {W : Wire} {S T : Store} {bucketID : Bytes} {height : Int}

theorem applyBucket_eq_some_iff (height : Int) (S : Store) (bucket : TxBucket) (S' : Store) :
    applyBucket J height S bucket = some S' ↔ (∀ tx ∈ bucket.txs, tx.length > maxTxSize) ∧ S' = S := by
  apply Fold.eq_some_iff
  intro s tx s'
  rw [deliverBucketedTx_eq]
  by_cases hlen : tx.length > maxTxSize <;> simp [hlen, eq_comm]

/-- A run over buckets ends only where it has nothing to apply. -/
theorem applyBuckets_eq_some_iff (blocks : List Block) (T T' : Store) :
    applyBuckets J bucketID T blocks = some T' ↔ NothingToApply bucketID blocks ∧ T' = T := by
  apply Fold.eq_some_iff
  intro s block s'
  exact Fold.eq_some_iff (applyBucket_eq_some_iff block.height) _ s s'

/-- The two nodes agree on a bucket exactly when there is nothing to execute in it and there are no coins in its
accounts. -/
theorem catchesUp_iff {blocks : List Block} (hT : ∀ addr, InSegment bucketID addr → T.getAccount J addr = none) :
    CatchesUp P J W S T bucketID blocks ↔ NothingToApply bucketID blocks ∧ NoCoins P J W S bucketID blocks := by
  have hzero : ∀ addr, InSegment bucketID addr → T.balanceOf J addr = 0 := fun addr ha => by
    simp [Store.balanceOf, hT addr ha]
  constructor
  · rintro ⟨T', hrun, hbal⟩
    obtain ⟨hnone, rfl⟩ := (applyBuckets_eq_some_iff blocks T T').1 hrun
    exact ⟨hnone, fun S' hS' addr ha => by rw [← hbal S' hS' addr ha, hzero addr ha]⟩
  · rintro ⟨hnone, hcoins⟩
    refine ⟨T, (applyBuckets_eq_some_iff blocks T T).2 ⟨hnone, rfl⟩, fun S' hS' addr ha => ?_⟩
    rw [hzero addr ha, hcoins S' hS' addr ha]

end

/-! ## One bucket with one transaction -/

/-- A snapshot block at height 101 with a single transaction in bucket `61`. -/
def oneTxBlock : Block where
  header := some {
    chainID := [], height := 101, time := 0, numTxs := 1, lastBlockID := BlockID.empty, totalTxs := 1, dataHash := []
    validatorsHash := [], consensusHash := [], appHash := [], lastResultsHash := [] }
  data := some ⟨[⟨ascii "61", [1 :: 5 :: 97 :: List.replicate 19 0]⟩]⟩
  commit := none

theorem catchesUp_iff_oneTx :
    CatchesUp .transparent .faithful .plain ∅ ∅ (ascii "61") [oneTxBlock] ↔
      NothingToApply (ascii "61") [oneTxBlock] ∧ NoCoins .transparent .faithful .plain ∅ (ascii "61") [oneTxBlock] :=
  catchesUp_iff fun _ _ => rfl

/-- The node that executes the block credits an account; the one that applies the bucket panics. -/
theorem oneTx_bucket_panics :
    (execBlocks .transparent .faithful .plain ∅ [oneTxBlock]).map (·.balanceOf .faithful (97 :: List.replicate 19 0)) =
        some 5 ∧
      InSegment (ascii "61") (97 :: List.replicate 19 0) ∧
      applyBuckets .faithful (ascii "61") ∅ [oneTxBlock] = none ∧
      ¬ CatchesUp .transparent .faithful .plain ∅ ∅ (ascii "61") [oneTxBlock] := by
  have hnone : applyBuckets .faithful (ascii "61") ∅ [oneTxBlock] = none := by decide +kernel
  refine ⟨by decide +kernel, by decide +kernel, hnone, ?_⟩
  rintro ⟨T', hT', _⟩
  rw [hnone] at hT'
  cases hT'

end Demars
