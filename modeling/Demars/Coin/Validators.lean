import Demars.Coin.App
import Demars.Lib.Selection

/-!
# The validators that the application chooses

`GetValidatorSet` reads the accounts in the order in which Go ranges over the map, sorts them by balance with
`sort.Slice`, which is not stable, and takes the first 100. An order of the map is a `Store` with the same entries
in another order, and a `sort` is any function that sorts.
-/

namespace Demars.Coin

open Selection List Option

def sliceTo (bz : Bytes) (n : Nat) : Option Bytes := if n ≤ bz.length then some (bz.take n) else none

/-- `MemKVS.GetAll`, with the entries in the order of the iteration. -/
def getAll (key : Bytes) (prefixSize : Nat) : List (Sigma fun _ : Bytes => Value) → Option (List Value)
  | [] => some []
  | ⟨k, v⟩ :: entries => (sliceTo k prefixSize).bind fun kp => (sliceTo key prefixSize).bind fun keyp =>
      (getAll key prefixSize entries).map fun values => if kp = keyp then v :: values else values

section

variable (J : Json)

def getAllAccountsInSegment (S : Store) (addr : Bytes) (prefixSize : Nat) : Option (List Account) :=
  (getAll (accountKey addr) prefixSize S.entries).map fun data => data.map J.unmarshal

def topkAccounts (sort : List Account → List Account) (accs : List Account) (k : Nat) : List Account :=
  (sort accs).take k

/-- `fmt.Sprintf("%x", n)` of a number that is not negative. -/
def hexOf (n : Int) : Bytes := (Nat.toDigits 16 n.toNat).map fun c => UInt8.ofNat c.toNat

def lastUTXOheight (height : Int) : Int := height / 100 * 100 + 1

def getValidatorSet (sort : List Account → List Account) (S : Store) (height : Int) : Option (List ValidatorEntry) :=
  if height < 0 then accountBalances J S
  else
    (getAllAccountsInSegment J S (hexOf (height % 100)) 2).bind fun accs =>
      match accs with
      -- logging the first account
      | [] => none
      | acc :: rest =>
        if (acc :: rest).any fun acc => decide (lastUTXOheight height ≤ acc.height) then some []
        else some ((topkAccounts sort (acc :: rest) 100).map fun acc => ⟨acc.address, 1⟩)

end

/-- Any result of `sort.Slice` by balance. -/
structure SortsByBalance (sort : List Account → List Account) : Prop where
  perm : ∀ accs, (sort accs).Perm accs
  sorted : ∀ accs, (sort accs).Pairwise fun a b => ¬ b.balance < a.balance

def ChosenAlike (J : Json) (S : Store) (height : Int) : Prop :=
  ∀ S₁ S₂ : Store, S₁.entries.Perm S.entries → S₂.entries.Perm S.entries →
    ∀ sort₁ sort₂, SortsByBalance sort₁ → SortsByBalance sort₂ →
      (getValidatorSet J sort₁ S₁ height).map List.toFinset = (getValidatorSet J sort₂ S₂ height).map List.toFinset

/-- The accounts by whose keys `GetValidatorSet` finds a segment: `ba`, whatever the segment. -/
def segmentAccounts (J : Json) (S : Store) : List Account :=
  (S.entries.filter fun e => e.1.take 2 = accountPrefix.take 2).map fun e => J.unmarshal e.2

/-- Each address that may be among the first 100 is in any case: with ties, fewer than 100 accounts of others come
before it. -/
def TiesDecided (accs : List Account) : Prop :=
  ∀ acc ∈ accs, (∀ other ∈ accs, other.address = acc.address → acc.balance ≤ other.balance) →
    accs.countP (fun other => other.balance < acc.balance) < 100 →
      accs.countP (fun other => other.address ≠ acc.address ∧ other.balance ≤ acc.balance) < 100

variable {J : Json} {S S' : Store} {sort : List Account → List Account} {accs r : List Account} {height : Int}

/-! ## The accounts that are read -/

theorem getAll_eq (addr : Bytes) : ∀ entries : List (Sigma fun _ : Bytes => Value), getAll (accountKey addr) 2 entries =
    if ∀ e ∈ entries, 2 ≤ e.1.length then some ((entries.filter fun e => e.1.take 2 = accountPrefix.take 2).map
      Sigma.snd) else none
  | [] => rfl
  | ⟨k, v⟩ :: entries => by
    have hkey : sliceTo (accountKey addr) 2 = some (accountPrefix.take 2) := rfl
    rw [getAll, getAll_eq addr entries, hkey]
    by_cases hk : 2 ≤ k.length
    · simp only [sliceTo, hk, if_true, bind_some, forall_mem_cons, true_and]
      by_cases hall : ∀ e ∈ entries, 2 ≤ e.1.length
      · rw [if_pos hall, if_pos hall, map_some]
        by_cases heq : k.take 2 = accountPrefix.take 2
        · simp [heq]
        · simp [heq]
      · simp only [hall, if_false, map_none]
    · simp [sliceTo, hk]

theorem getValidatorSet_eq (h : 0 ≤ height) : getValidatorSet J sort S height =
    if (∀ e ∈ S.entries, 2 ≤ e.1.length) ∧ segmentAccounts J S ≠ [] then
      if ∀ acc ∈ segmentAccounts J S, acc.height < lastUTXOheight height then
        some (((sort (segmentAccounts J S)).take 100).map fun acc => ⟨acc.address, 1⟩) else some [] else none := by
  rw [getValidatorSet, if_neg (not_lt.2 h), getAllAccountsInSegment, getAll_eq]
  by_cases hlong : ∀ e ∈ S.entries, 2 ≤ e.1.length
  · rw [if_pos hlong, map_some, List.map_map]
    change (match segmentAccounts J S with | [] => _ | _ :: _ => _) = _
    cases hseg : segmentAccounts J S with
    | nil => simp
    | cons acc rest =>
      have hany : (((acc :: rest).any fun acc => decide (lastUTXOheight height ≤ acc.height)) = true) ↔
          ¬ ∀ a ∈ acc :: rest, a.height < lastUTXOheight height := by
        simp only [List.any_eq_true, decide_eq_true_eq, not_forall, not_lt, exists_prop]
      rw [if_pos ⟨hlong, cons_ne_nil _ _⟩]
      simp only [hany, ite_not, topkAccounts]
  · simp [hlong]

theorem segmentAccounts_perm (h : S'.entries.Perm S.entries) : (segmentAccounts J S').Perm (segmentAccounts J S) :=
  (h.filter _).map _

/-! ## Sorting by balance -/

def Account.entry (acc : Account) : ValidatorEntry := ⟨acc.address, 1⟩

theorem Account.entry_inj {a b : Account} : a.entry = b.entry ↔ a.address = b.address := by simp [Account.entry]

theorem SortsByBalance.sorting (h : SortsByBalance sort) (accs : List Account) :
    Sorting (fun acc => acc.balance.toNat) accs (sort accs) where
  perm := h.perm accs
  sorted := (h.sorted accs).imp fun hle => UInt64.le_iff_toNat_le.1 (UInt64.not_lt.1 hle)

theorem exists_sortsByBalance (h : Sorting (fun acc => acc.balance.toNat) accs r) :
    ∃ sort, SortsByBalance sort ∧ sort accs = r := by
  choose base hbase using exists_sorting fun acc : Account => acc.balance.toNat
  have hsort : ∀ l, Sorting (fun acc => acc.balance.toNat) l (Function.update base accs r l) := by
    intro l
    by_cases heq : l = accs
    · subst heq
      rwa [Function.update_self]
    · rw [Function.update_of_ne heq]
      exact hbase l
  refine ⟨Function.update base accs r, ⟨fun l => (hsort l).perm, fun l => ?_⟩, Function.update_self _ _ _⟩
  exact (hsort l).sorted.imp fun hle => UInt64.not_lt.2 (UInt64.le_iff_toNat_le.2 hle)

theorem tiesDecided_iff : TiesDecided accs ↔ ∀ r r', Sorting (fun acc => acc.balance.toNat) accs r →
    Sorting (fun acc => acc.balance.toNat) accs r' → ∀ a, a ∈ (r.take 100).map Account.entry →
    a ∈ (r'.take 100).map Account.entry := by
  rw [selection_iff]
  simp only [TiesDecided, UInt64.le_iff_toNat_le, UInt64.lt_iff_toNat_lt, Account.entry_inj, ne_eq]

/-- What comes out with the map in another order, said of the map. -/
theorem getValidatorSet_of_perm (h : 0 ≤ height) (hS : S'.entries.Perm S.entries) (hsort : SortsByBalance sort) :
    ∃ r, Sorting (fun acc => acc.balance.toNat) (segmentAccounts J S) r ∧ getValidatorSet J sort S' height =
      if (∀ e ∈ S.entries, 2 ≤ e.1.length) ∧ segmentAccounts J S ≠ [] then
        if ∀ acc ∈ segmentAccounts J S, acc.height < lastUTXOheight height then some ((r.take 100).map Account.entry)
          else some []
      else none := by
  have hp : (segmentAccounts J S').Perm (segmentAccounts J S) := segmentAccounts_perm hS
  have hlong : (∀ e ∈ S'.entries, 2 ≤ e.1.length) ↔ ∀ e ∈ S.entries, 2 ≤ e.1.length := by simp only [hS.mem_iff]
  have hold : (∀ acc ∈ segmentAccounts J S', acc.height < lastUTXOheight height) ↔
      ∀ acc ∈ segmentAccounts J S, acc.height < lastUTXOheight height := by simp only [hp.mem_iff]
  have hnil : segmentAccounts J S' ≠ [] ↔ segmentAccounts J S ≠ [] :=
    not_congr ⟨fun h => (h ▸ hp).symm.eq_nil, fun h => (h ▸ hp).eq_nil⟩
  refine ⟨sort (segmentAccounts J S'), (hsort.sorting _).of_perm hp, ?_⟩
  simp only [getValidatorSet_eq h, hlong, hnil, hold]
  rfl

theorem accountBalances_of_perm (hS : S'.entries.Perm S.entries) :
    (accountBalances J S').map List.toFinset = (accountBalances J S).map List.toFinset := by
  have hp : (getAllAccounts J S').Perm (getAllAccounts J S) := hS.map _
  unfold accountBalances
  cases hS' : getAllAccounts J S' with
  | nil =>
    rw [hS'] at hp
    rw [hp.symm.eq_nil]
  | cons acc' rest' =>
    cases hS'' : getAllAccounts J S with
    | nil =>
      rw [hS''] at hp
      rw [hp.eq_nil] at hS'
      cases hS'
    | cons acc rest =>
      rw [hS', hS''] at hp
      exact congrArg some (toFinset_eq_of_perm _ _ (hp.map _))

/-- **The choice of validators**: all orders of the map and all ways to sort give one set exactly where ties do not
matter, or nothing is chosen: at a negative height, on a short key, or with an account that is too new. -/
theorem chosenAlike_iff (J : Json) (S : Store) (height : Int) : ChosenAlike J S height ↔
    (0 ≤ height → (∀ e ∈ S.entries, 2 ≤ e.1.length) →
      (∀ acc ∈ segmentAccounts J S, acc.height < lastUTXOheight height) → TiesDecided (segmentAccounts J S)) := by
  constructor
  · intro h hheight hlong hold
    refine tiesDecided_iff.2 fun r r' hr hr' a ha => ?_
    obtain ⟨sort, hsort, hsorted⟩ := exists_sortsByBalance hr
    obtain ⟨sort', hsort', hsorted'⟩ := exists_sortsByBalance hr'
    have hne : segmentAccounts J S ≠ [] := fun hnil => by
      rw [hnil] at hr
      rw [hr.perm.eq_nil] at ha
      cases ha
    have heq := h S S (.refl _) (.refl _) sort sort' hsort hsort'
    simp only [getValidatorSet_eq hheight, if_pos (And.intro hlong hne), if_pos hold, map_some, hsorted, hsorted',
      Option.some.injEq] at heq
    rw [← List.mem_toFinset] at ha ⊢
    change a ∈ List.toFinset ((r'.take 100).map fun acc => (⟨acc.address, 1⟩ : ValidatorEntry))
    rwa [← heq]
  · intro h S₁ S₂ hS₁ hS₂ sort₁ sort₂ hsort₁ hsort₂
    by_cases hheight : 0 ≤ height
    · obtain ⟨r₁, hr₁, hres₁⟩ := getValidatorSet_of_perm (J := J) hheight hS₁ hsort₁
      obtain ⟨r₂, hr₂, hres₂⟩ := getValidatorSet_of_perm (J := J) hheight hS₂ hsort₂
      rw [hres₁, hres₂]
      split_ifs with hreads hold
      · have hties := tiesDecided_iff.1 (h hheight hreads.1 hold)
        refine congrArg some (Finset.ext fun a => ?_)
        rw [List.mem_toFinset, List.mem_toFinset]
        exact ⟨hties r₁ r₂ hr₁ hr₂ a, hties r₂ r₁ hr₂ hr₁ a⟩
      · rfl
      · rfl
    · rw [getValidatorSet, getValidatorSet, if_pos (not_le.1 hheight), if_pos (not_le.1 hheight),
        accountBalances_of_perm hS₁, accountBalances_of_perm hS₂]

/-! ## A tie at the cut -/

def equalAccounts (n : Nat) : List (Sigma fun _ : Bytes => Value) :=
  (List.range n).map fun i => ⟨accountKey [UInt8.ofNat i], .account ⟨none, 0, 5, [UInt8.ofNat i]⟩⟩

def equalStore : Store := ⟨equalAccounts 101, show (equalAccounts 101).keys.Nodup by decide +kernel⟩

/-- The same accounts, as the other node ranges over them. -/
def equalStoreBackwards : Store :=
  ⟨equalStore.entries.reverse, (perm_nodupKeys (reverse_perm _)).2 equalStore.nodupKeys⟩

def balanceSort : List Account → List Account := List.insertionSort fun a b => a.balance.toNat ≤ b.balance.toNat

theorem balanceSort_sorts : SortsByBalance balanceSort where
  perm accs := perm_insertionSort _ accs
  sorted accs := by
    have h := pairwise_insertionSort (fun a b : Account => a.balance.toNat ≤ b.balance.toNat) accs
    exact h.imp fun hle => UInt64.not_lt.2 (UInt64.le_iff_toNat_le.2 hle)

/-- Two nodes with the same 101 accounts of equal balance: the last one is a validator for one node only. -/
theorem tie_splits_nodes : equalStoreBackwards.entries.Perm equalStore.entries ∧ SortsByBalance balanceSort ∧
    (getValidatorSet .faithful balanceSort equalStore 5).map (fun vals => decide (⟨[100], 1⟩ ∈ vals)) = some false ∧
    (getValidatorSet .faithful balanceSort equalStoreBackwards 5).map (fun vals => decide (⟨[100], 1⟩ ∈ vals)) =
      some true :=
  ⟨reverse_perm _, balanceSort_sorts, by decide +kernel, by decide +kernel⟩

/-! ## The richest accounts -/

def Richest (accs : List Account) (k : Nat) (chosen : List Account) : Prop :=
  chosen.length = min k accs.length ∧
    ∃ left, (chosen ++ left).Perm accs ∧ ∀ acc ∈ chosen, ∀ other ∈ left, other.balance ≤ acc.balance

/-- The sort is by rising balance: when the poorest are the richest too. -/
theorem topkAccounts_richest_iff (sort : List Account → List Account) (hsort : SortsByBalance sort)
    (accs : List Account) (k : Nat) : Richest accs k (topkAccounts sort accs k) ↔
      k = 0 ∨ accs.length ≤ k ∨ ∀ a ∈ accs, ∀ b ∈ accs, a.balance = b.balance := by
  have hlen : (topkAccounts sort accs k).length = min k accs.length := by
    rw [topkAccounts, length_take, (hsort.perm accs).length_eq]
  have hsplit : ((topkAccounts sort accs k) ++ (sort accs).drop k).Perm accs := by
    rw [topkAccounts, take_append_drop]
    exact hsort.perm accs
  have hgreatest := (hsort.sorting accs).take_greatest_iff (k := k)
  simp only [UInt64.toNat_inj] at hgreatest
  rw [← hgreatest]
  constructor
  · rintro ⟨-, left, hperm, hrich⟩ acc hacc other hother
    -- what is left out is determined up to its order
    have hleft : left.Perm ((sort accs).drop k) := (perm_append_left_iff _).1 (hperm.trans hsplit.symm)
    exact hrich acc hacc other (hleft.mem_iff.2 hother)
  · exact fun hrich => ⟨hlen, _, hsplit, hrich⟩

def richAndPoor : List Account := [⟨none, 0, 9, [1]⟩, ⟨none, 0, 2, [2]⟩]

theorem topkAccounts_richest_two :
    SortsByBalance balanceSort ∧ Richest richAndPoor 2 (topkAccounts balanceSort richAndPoor 2) :=
  ⟨balanceSort_sorts, (topkAccounts_richest_iff balanceSort balanceSort_sorts richAndPoor 2).2 (.inr (.inl le_rfl))⟩

/-- Of two accounts the poorer one is chosen. -/
theorem topkAccounts_poorest :
    SortsByBalance balanceSort ∧ topkAccounts balanceSort richAndPoor 1 = [⟨none, 0, 2, [2]⟩] ∧
    ¬ Richest richAndPoor 1 (topkAccounts balanceSort richAndPoor 1) := by
  have hchosen : topkAccounts balanceSort richAndPoor 1 = [⟨none, 0, 2, [2]⟩] := by decide
  refine ⟨balanceSort_sorts, hchosen, ?_⟩
  rintro ⟨-, left, hperm, hrich⟩
  have hleft : (⟨none, 0, 9, [1]⟩ : Account) ∈ [⟨none, 0, 2, [2]⟩] ++ left := hperm.mem_iff.2 (by decide)
  rcases mem_append.1 hleft with hmem | hmem
  · exact absurd hmem (by decide)
  · exact absurd (hrich _ mem_cons_self _ hmem) (by decide)

end Demars.Coin
