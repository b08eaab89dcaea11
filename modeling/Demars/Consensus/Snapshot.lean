import Demars.State.Execution
import Demars.Types.Majority

/-!
# Proposing a snapshot of the accounts

`createProposalBlock` of `consensus/state.go`. At a snapshot height the transactions of the block are the balances
of all accounts, as JSON; `DeliverTx` reads go-wire, whose type bytes no JSON text starts with.
-/

namespace Demars

open Coin List Option

section

variable (P : Primitives) (A : Amino) (B : BlockCodec) (J : Json) (W : Wire) (T : TxJson)

/-- The commit of the proposed block; `some none` where `createProposalBlock` gives up. -/
def proposalCommit (height : Int) (lastCommit : Option VoteSet) : Option (Option Commit) :=
  if height = 1 then some (some { blockID := BlockID.empty, precommits := [] })
  else match lastCommit with
    | none => some none
    | some voteSet => if voteSet.hasTwoThirdsMajority then voteSet.makeCommit.map some else some none

/-- The transactions of a snapshot block. -/
def snapshotTxs (balances : List ValidatorEntry) : List Bytes :=
  balances.map fun bal => T.marshalUTXO { address := bal.address, balance := UInt64.ofInt bal.power }

/-- `createProposalBlock` with the reaped transactions: a panic, no block, or a block with its parts. -/
def createProposalBlock (S : Store) (state : ChainState) (lastCommit : Option VoteSet) (reaped : List Bytes)
    (now height : Int) : Option (Option (Block × PartSet)) :=
  match proposalCommit height lastCommit with
  | none => none
  | some none => some none
  | some (some commit) =>
    if isSnapshotHeight height then
      (accountBalances J S).bind fun balances =>
        (state.makeBlock P B T now height (snapshotTxs T balances) commit).map some
    else (state.makeBlock P B T now height reaped commit).map some

def IsAccountStore (S : Store) : Prop := ∀ e ∈ S.entries, ∃ addr acc, e.1 = accountKey addr ∧ e.2 = .account acc

def ListsOnce (S : Store) (block : Block) : Prop :=
  ∀ addr, (S.getAccount J addr).isSome →
    (block.txs.filter fun tx => decide ((T.unmarshalUTXO tx).address = addr)).length = 1

/-- What a snapshot is for: valid blocks change no balance, and the proposed one lists all accounts and rebuilds them
from nothing. -/
structure SnapshotSafe (S : Store) (state : ChainState) (lastCommit : Option VoteSet) (reaped : List Bytes)
    (now height : Int) : Prop where
  unchanged : ∀ block S', block.height = height → state.validateBlock P A B (some block) = some (.ok ()) →
    execBlock P J W S block = some S' → ∀ addr, S'.balanceOf J addr = S.balanceOf J addr
  rebuilt : ∃ block parts S', createProposalBlock P B J T S state lastCommit reaped now height =
    some (some (block, parts)) ∧
    ListsOnce J T S block ∧ execBlock P J W ∅ block = some S' ∧ ∀ addr, S'.balance? J addr = S.balance? J addr

end

section

variable {P : Primitives} {A : Amino} {B : BlockCodec} {J : Json} {W : Wire} {T : TxJson} {S S' : Store}
  {state : ChainState} {lastCommit : Option VoteSet} {reaped : List Bytes} {now height : Int} {block : Block}
  {parts : PartSet}

/-- Every transaction of a snapshot block is the JSON of a `TxUTXO`. -/
theorem mem_txs_createProposalBlock (hh : isSnapshotHeight height = true)
    (h : createProposalBlock P B J T S state lastCommit reaped now height = some (some (block, parts))) :
    (∃ balances, accountBalances J S = some balances) ∧ ∀ tx ∈ block.txs, ∃ utxo, tx = T.marshalUTXO utxo := by
  unfold createProposalBlock at h
  cases hc : proposalCommit height lastCommit with
  | none => rw [hc] at h; cases h
  | some commit =>
    cases commit with
    | none => rw [hc] at h; cases h
    | some commit =>
      rw [hc] at h
      simp only [hh] at h
      obtain ⟨balances, hb, hmake⟩ := bind_eq_some_iff.1 h
      obtain ⟨p, hp, he⟩ := map_eq_some_iff.1 hmake
      cases Option.some.inj he
      refine ⟨⟨balances, hb⟩, fun tx htx => ?_⟩
      obtain ⟨bal, _, rfl⟩ := List.mem_map.1 (ChainState.mem_txs_makeBlock hp tx htx)
      exact ⟨_, rfl⟩

theorem deliverTxs_marshalUTXO (height : Int) : ∀ {txs : List Bytes}, (∀ tx ∈ txs, ∃ utxo, tx = T.marshalUTXO utxo) →
    deliverTxs P J W height S txs = some S
  | [], _ => rfl
  | tx :: txs, h => by
    obtain ⟨utxo, hu⟩ := h tx mem_cons_self
    have hhead : tx.head? = some 123 := by rw [hu]; exact T.head_marshalUTXO utxo
    have ih : deliverTxs P J W height S txs = some S :=
      deliverTxs_marshalUTXO height fun tx' htx' => h tx' (mem_cons_of_mem tx htx')
    rw [deliverTxs, foldlM_cons, deliverTx_of_head hhead (by decide)]
    exact ih

theorem execBlock_createProposalBlock (hh : isSnapshotHeight height = true)
    (h : createProposalBlock P B J T S state lastCommit reaped now height = some (some (block, parts)))
    {R R' : Store} (he : execBlock P J W R block = some R') : R' = R := by
  have htxs := (mem_txs_createProposalBlock hh h).2
  obtain ⟨header, _, he⟩ := bind_eq_some_iff.1 he
  obtain ⟨data, hd, he⟩ := bind_eq_some_iff.1 he
  have hall : ∀ tx ∈ data.txBuckets.flatMap TxBucket.txs, ∃ utxo, tx = T.marshalUTXO utxo := fun tx htx =>
    htxs tx (by simpa [Block.txs, hd] using htx)
  rw [deliverTxs_marshalUTXO header.height hall] at he
  exact (Option.some.inj he).symm

theorem exists_account_of_entries (hS : IsAccountStore S) (hne : S.entries ≠ []) :
    ∃ addr acc, S.getAccount J addr = some acc := by
  obtain ⟨e, l, hl⟩ := exists_cons_of_ne_nil hne
  obtain ⟨addr, acc, hk, hv⟩ := hS e (by rw [hl]; exact mem_cons_self)
  refine ⟨addr, J.unmarshal (.account acc), ?_⟩
  have hlook : S.lookup (accountKey addr) = some (.account acc) := by
    apply AList.mem_lookup_iff.2
    rw [hl, ← hk, ← hv]
    exact mem_cons_self
  simp [Store.getAccount, hlook, Value.isEmpty]

/-- The block changes nothing where it is executed, so it rebuilds no accounts. -/
theorem not_snapshotSafe (hS : IsAccountStore S) (hh : isSnapshotHeight height = true) :
    ¬ SnapshotSafe P A B J W T S state lastCommit reaped now height := by
  rintro ⟨_, block, parts, S', hcreate, _, hexec, hmap⟩
  obtain ⟨balances, hbal⟩ := (mem_txs_createProposalBlock hh hcreate).1
  have hne : S.entries ≠ [] := by
    intro hnil
    rw [accountBalances, getAllAccounts, hnil] at hbal
    cases hbal
  obtain ⟨addr, acc, hacc⟩ := exists_account_of_entries (J := J) hS hne
  have hempty : S' = ∅ := execBlock_createProposalBlock hh hcreate hexec
  have := hmap addr
  rw [hempty, Store.balance?, Store.balance?, hacc] at this
  cases this

end

/-! ## A snapshot of one account -/

/-- An address whose first two bytes spell the bucket id `61`. -/
def holderAddr : Bytes := 54 :: 49 :: List.replicate 18 0

def holderStore : Store :=
  Store.setAccount ∅ holderAddr { pubKey := none, height := 0, balance := 5, address := holderAddr }

def soleValidators : ValidatorSet where
  validators := [⟨padTo 20 [7], some (.ed25519 [7]), 1, 0⟩]
  proposer := none

def block100 : BlockID := ⟨[1], ⟨1, [2]⟩⟩

def precommit100 : Vote := Vote.signedBy [7] [99] {
  validatorAddress := padTo 20 [7], validatorIndex := 0, height := 100, round := 0, timestamp := 0
  type_ := voteTypePrecommit, blockID := block100, signature := none }

def lastCommit100 : Option VoteSet :=
  ((VoteSet.newVoteSet [99] 100 0 voteTypePrecommit soleValidators).bind fun voteSet =>
    voteSet.addVote .transparent .plain (some precommit100)).map Prod.fst

def state100 : ChainState where
  chainID := [99]
  lastBlockHeight := 100
  lastBlockTotalTx := 0
  lastBlockID := block100
  validators := soleValidators
  lastValidators := soleValidators
  consensusParams := defaultConsensusParams
  lastResultsHash := []
  appHash := []

/-- A block with a binary `TxUTXO` that puts nine coins on the account. -/
def mintingBlock : Block where
  header := some {
    chainID := [99], height := 101, time := 0, numTxs := 1, lastBlockID := block100, totalTxs := 1
    dataHash := dataHash .transparent (some ⟨[⟨ascii "61", [1 :: 9 :: holderAddr]⟩]⟩)
    validatorsHash := soleValidators.hash .transparent .plain
    consensusHash := defaultConsensusParams.hash .transparent .plain, appHash := [], lastResultsHash := [] }
  data := some ⟨[⟨ascii "61", [1 :: 9 :: holderAddr]⟩]⟩
  commit := some { blockID := block100, precommits := [some precommit100] }

theorem isAccountStore_holderStore : IsAccountStore holderStore := by
  intro e he
  have he' : e ∈ [(⟨accountKey holderAddr, .account ⟨none, 0, 5, holderAddr⟩⟩ : Sigma fun _ : Bytes => Value)] := he
  rw [mem_singleton.1 he']
  exact ⟨holderAddr, _, rfl, rfl⟩

theorem not_snapshotSafe_holder :
    ¬ SnapshotSafe .transparent .plain .plain .faithful .plain .plain holderStore state100 lastCommit100 [] 0 101 :=
  not_snapshotSafe isAccountStore_holderStore rfl

/-- The proposed block lists the account, but rebuilds nothing; and a block that gives it other coins is valid. -/
theorem holder_balance_lost :
    (createProposalBlock .transparent .plain .faithful .plain holderStore state100 lastCommit100 [] 0 101).map
        (·.map (·.1.txs)) = some (some [123 :: 5 :: holderAddr]) ∧
      ((createProposalBlock .transparent .plain .faithful .plain holderStore state100 lastCommit100 [] 0 101).join.bind
        fun p => execBlock .transparent .faithful .plain ∅ p.1).map (·.balance? .faithful holderAddr) = some none ∧
      holderStore.balance? .faithful holderAddr = some 5 ∧
      (state100.validateBlock .transparent .plain .plain (some mintingBlock)).map Except.isOk = some true ∧
      (execBlock .transparent .faithful .plain holderStore mintingBlock).map (·.balance? .faithful holderAddr) =
        some (some 9) := by
  refine ⟨?_, ?_, ?_, ?_, ?_⟩ <;> decide +kernel

end Demars
