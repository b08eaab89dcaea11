import Demars.Crypto.Merkle
import Demars.Lib.HashPath

/-!
# Merkle proofs

`crypto/merkle/simple_proof.go`. The root, the trails that proofs are made from, and the root that a proof leads to
are computed by three recursions that halve a list, or its length, in the same way.
-/

namespace Demars.Merkle

open Machine HashTree List Option

variable {P : Primitives}

/-! ## Trails -/

structure SimpleProofNode where
  hash : Bytes
  left : Option Bytes
  right : Option Bytes

/-- `FlattenAunts`, of the nodes from a leaf to the root. -/
def flattenAunts : List SimpleProofNode → List Bytes
  | [] => []
  | spn :: parents =>
    match spn.left, spn.right with
    | some left, _ => left :: flattenAunts parents
    | none, some right => right :: flattenAunts parents
    | none, none => []

def joinTrail (left right : Option Bytes) (root : Bytes) (trail : List SimpleProofNode) : List SimpleProofNode :=
  trail.dropLast ++ (trail.getLast?.map fun spn => { spn with left, right }).toList ++ [⟨root, none, none⟩]

/-- `trailsFromHashers`: the nodes from each leaf to the root, and the root. -/
def proofNodesLoop (P : Primitives) : Nat → List Bytes → List (List SimpleProofNode) × Bytes
  | _, [] => ([], [])
  | _, [hash] => ([[⟨hash, none, none⟩]], hash)
  | 0, _ => ([], [])
  | fuel + 1, hashes =>
    let lefts := proofNodesLoop P fuel (hashes.take ((hashes.length + 1) / 2))
    let rights := proofNodesLoop P fuel (hashes.drop ((hashes.length + 1) / 2))
    let rootHash := simpleHashFromTwoHashes P lefts.2 rights.2
    (lefts.1.map (joinTrail none (some rights.2) rootHash) ++ rights.1.map (joinTrail (some lefts.2) none rootHash),
      rootHash)

def trailsFromHashers (P : Primitives) (hashes : List Bytes) : List (List SimpleProofNode) × Bytes :=
  proofNodesLoop P hashes.length hashes

def IsTrail (trail : List SimpleProofNode) : Prop :=
  ∃ nodes root, trail = nodes ++ [⟨root, none, none⟩] ∧ ∀ spn ∈ nodes, spn.left.isSome ∨ spn.right.isSome

theorem flattenAunts_append {nodes : List SimpleProofNode} (h : ∀ spn ∈ nodes, spn.left.isSome ∨ spn.right.isSome)
    (parents : List SimpleProofNode) :
    flattenAunts (nodes ++ parents) = flattenAunts nodes ++ flattenAunts parents := by
  induction nodes with
  | nil => rfl
  | cons spn nodes ih =>
    obtain ⟨hspn, hnodes⟩ := forall_mem_cons.1 h
    obtain ⟨hash, left, right⟩ := spn
    cases left with
    | some left => simp [flattenAunts, ih hnodes]
    | none =>
      cases right with
      | some right => simp [flattenAunts, ih hnodes]
      | none => simp at hspn

theorem IsTrail.join {trail : List SimpleProofNode} (h : IsTrail trail) {left right : Option Bytes} {sibling : Bytes}
    (root : Bytes) (hsibling : left = some sibling ∨ left = none ∧ right = some sibling) :
    IsTrail (joinTrail left right root trail) ∧
      flattenAunts (joinTrail left right root trail) = flattenAunts trail ++ [sibling] := by
  obtain ⟨nodes, top, rfl, hnodes⟩ := h
  have hjoin : joinTrail left right root (nodes ++ [⟨top, none, none⟩]) = (nodes ++ [⟨top, left, right⟩]) ++
    [⟨root, none, none⟩] := by
    simp [joinTrail]
  have hall : ∀ spn ∈ nodes ++ [(⟨top, left, right⟩ : SimpleProofNode)], spn.left.isSome ∨ spn.right.isSome := by
    intro spn hspn
    rcases mem_append.1 hspn with hold | hnew
    · exact hnodes spn hold
    · rw [mem_singleton.1 hnew]
      rcases hsibling with rfl | ⟨-, rfl⟩
      · exact .inl rfl
      · exact .inr rfl
  rw [hjoin]
  refine ⟨⟨_, root, rfl, hall⟩, ?_⟩
  rw [flattenAunts_append hall, flattenAunts_append hnodes, flattenAunts_append hnodes]
  rcases hsibling with rfl | ⟨rfl, rfl⟩
  · simp [flattenAunts]
  · simp [flattenAunts]

variable {hashes aunts : List Bytes} {total index : Int} {leafHash rootHash : Bytes}

theorem proofNodesLoop_of_two_le {fuel : Nat} (h : 2 ≤ hashes.length) : proofNodesLoop P (fuel + 1) hashes =
      let lefts := proofNodesLoop P fuel (hashes.take ((hashes.length + 1) / 2))
      let rights := proofNodesLoop P fuel (hashes.drop ((hashes.length + 1) / 2))
      let rootHash := simpleHashFromTwoHashes P lefts.2 rights.2
      (lefts.1.map (joinTrail none (some rights.2) rootHash) ++ rights.1.map (joinTrail (some lefts.2) none rootHash),
        rootHash) := by
  match hashes, h with
  | _ :: _ :: _, _ => rfl

theorem trailsLoop_of_two_le {fuel : Nat} (h : 2 ≤ hashes.length) : trailsLoop P (fuel + 1) hashes =
      let lefts := trailsLoop P fuel (hashes.take ((hashes.length + 1) / 2))
      let rights := trailsLoop P fuel (hashes.drop ((hashes.length + 1) / 2))
      (simpleHashFromTwoHashes P lefts.1 rights.1, lefts.2.map (· ++ [rights.1]) ++ rights.2.map (· ++ [lefts.1])) := by
  match hashes, h with
  | _ :: _ :: _, _ => rfl

theorem rootLoop_of_two_le {fuel : Nat} (h : 2 ≤ hashes.length) : rootLoop P (fuel + 1) hashes =
      simpleHashFromTwoHashes P (rootLoop P fuel (hashes.take ((hashes.length + 1) / 2)))
        (rootLoop P fuel (hashes.drop ((hashes.length + 1) / 2))) := by
  match hashes, h with
  | _ :: _ :: _, _ => rfl

theorem proofNodesLoop_spec (fuel : Nat) (hashes : List Bytes) :
    (∀ trail ∈ (proofNodesLoop P fuel hashes).1, IsTrail trail) ∧
      ((proofNodesLoop P fuel hashes).2, (proofNodesLoop P fuel hashes).1.map flattenAunts) =
        trailsLoop P fuel hashes := by
  have hleaf : ∀ hash : Bytes, IsTrail [⟨hash, none, none⟩] := fun hash => ⟨[], hash, rfl, by simp⟩
  induction fuel generalizing hashes with
  | zero =>
    match hashes with
    | [] => exact ⟨by simp [proofNodesLoop], rfl⟩
    | [hash] => exact ⟨by simpa [proofNodesLoop] using hleaf hash, rfl⟩
    | _ :: _ :: _ => exact ⟨by simp [proofNodesLoop], rfl⟩
  | succ fuel ih =>
    match hashes with
    | [] => exact ⟨by simp [proofNodesLoop], rfl⟩
    | [hash] => exact ⟨by simpa [proofNodesLoop] using hleaf hash, rfl⟩
    | a :: b :: rest =>
      generalize hl : a :: b :: rest = l
      have htwo : 2 ≤ l.length := by simp [← hl]
      obtain ⟨hleft, hlefts⟩ := ih (l.take ((l.length + 1) / 2))
      obtain ⟨hright, hrights⟩ := ih (l.drop ((l.length + 1) / 2))
      rw [proofNodesLoop_of_two_le htwo, trailsLoop_of_two_le htwo, ← hlefts, ← hrights]
      refine ⟨?_, ?_⟩
      · intro trail htrail
        rcases mem_append.1 htrail with hmem | hmem
        · obtain ⟨old, hold, rfl⟩ := List.mem_map.1 hmem
          exact ((hleft old hold).join _ (.inr ⟨rfl, rfl⟩)).1
        · obtain ⟨old, hold, rfl⟩ := List.mem_map.1 hmem
          exact ((hright old hold).join _ (.inl rfl)).1
      · simp only [map_append, List.map_map, Prod.mk.injEq, true_and]
        congr 1
        · apply map_congr_left
          intro trail htrail
          exact ((hleft trail htrail).join _ (.inr ⟨rfl, rfl⟩)).2
        · apply map_congr_left
          intro trail htrail
          exact ((hright trail htrail).join _ (.inl rfl)).2

/-- `SimpleProofsFromHashers`; without items there is no node to read the root from. -/
def simpleProofsFromHashers (P : Primitives) (hashes : List Bytes) : Option (Bytes × List (List Bytes)) :=
  if hashes = [] then none
  else some ((trailsFromHashers P hashes).2, (trailsFromHashers P hashes).1.map flattenAunts)

/-- `FlattenAunts` reads the aunts of each leaf off the nodes. -/
theorem simpleProofsFromHashers_eq (h : hashes ≠ []) :
    simpleProofsFromHashers P hashes = some (simpleProofsFromHashes P hashes) := by
  rw [simpleProofsFromHashers, if_neg h]
  exact congrArg some (proofNodesLoop_spec hashes.length hashes).2

/-! ## Every leaf has a proof -/

theorem trailsLoop_fst (fuel : Nat) (hashes : List Bytes) : (trailsLoop P fuel hashes).1 = rootLoop P fuel hashes := by
  induction fuel generalizing hashes with
  | zero =>
    match hashes with
    | [] => rfl
    | [_] => rfl
    | _ :: _ :: _ => rfl
  | succ fuel ih =>
    match hashes with
    | [] => rfl
    | [_] => rfl
    | a :: b :: rest =>
      generalize hl : a :: b :: rest = l
      have htwo : 2 ≤ l.length := by simp [← hl]
      rw [trailsLoop_of_two_le htwo, rootLoop_of_two_le htwo]
      dsimp only
      rw [ih, ih]

theorem numLeft_eq (h0 : 0 ≤ total) (h : total < maxInt64) : numLeft total = (total + 1) / 2 := by
  rw [numLeft, wrap64_eq (by unfold minInt64; omega) (by omega), Int.tdiv_eq_ediv_of_nonneg (by omega)]

theorem computeHashFromAunts_left {aunt : Bytes} (h0 : 0 ≤ index)
    (htotal : 2 ≤ total) (hmax : total < maxInt64) (h : index < (total + 1) / 2) :
    computeHashFromAunts P index total leafHash (aunt :: aunts) =
      (computeHashFromAunts P index ((total + 1) / 2) leafHash aunts).map fun leftHash => simpleHashFromTwoHashes P
        leftHash aunt := by
  rw [computeHashFromAunts, if_neg (by omega), numLeft_eq (by omega) hmax, if_pos h]

theorem computeHashFromAunts_right {aunt : Bytes} (hlt : index < total)
    (htotal : 2 ≤ total) (hmax : total < maxInt64) (h : (total + 1) / 2 ≤ index) :
    computeHashFromAunts P index total leafHash (aunt :: aunts) =
      (computeHashFromAunts P (index - (total + 1) / 2) (total - (total + 1) / 2) leafHash aunts).map fun rightHash =>
        simpleHashFromTwoHashes P aunt rightHash := by
  rw [computeHashFromAunts, if_neg (by omega), numLeft_eq (by omega) hmax, if_neg (by omega),
    wrap64_eq (by unfold minInt64; omega) (by omega), wrap64_eq (by unfold minInt64; omega) (by omega)]

theorem computeHashFromAunts_trailsLoop (fuel : Nat) (hfuel : hashes.length ≤ fuel)
    (hmax : (hashes.length : Int) < maxInt64) {i : Nat} (hleaf : hashes[i]? = some leafHash) :
    ∃ aunts, (trailsLoop P fuel hashes).2[i]? = some aunts ∧
      computeHashFromAunts P i hashes.length leafHash aunts.reverse = some (rootLoop P fuel hashes) := by
  induction fuel generalizing hashes i with
  | zero =>
    obtain rfl : hashes = [] := length_eq_zero_iff.1 (by omega)
    simp at hleaf
  | succ fuel ih =>
    rcases hashes with _ | ⟨hash, _ | ⟨b, rest⟩⟩
    · simp at hleaf
    · obtain ⟨rfl, rfl⟩ : i = 0 ∧ hash = leafHash := by
        cases i with
        | zero => simpa using hleaf
        | succ i => simp at hleaf
      exact ⟨[], rfl, by simp [computeHashFromAunts, rootLoop]⟩
    · generalize hl : hash :: b :: rest = l at *
      have htwo : 2 ≤ l.length := by simp [← hl]
      have hi : i < l.length := (List.getElem?_eq_some_iff.1 hleaf).1
      have hlenl := length_trailsLoop P fuel (l.take ((l.length + 1) / 2)) (by rw [length_take]; omega)
      rw [length_take] at hlenl
      rw [trailsLoop_of_two_le htwo, rootLoop_of_two_le htwo]
      by_cases hside : i < (l.length + 1) / 2
      · have hleft : (l.take ((l.length + 1) / 2))[i]? = some leafHash := by rw [getElem?_take, if_pos hside, hleaf]
        obtain ⟨aunts, haunts, hroot⟩ := ih (by rw [length_take]; omega) (by rw [length_take]; omega) hleft
        refine ⟨aunts ++ [(trailsLoop P fuel (l.drop ((l.length + 1) / 2))).1], ?_, ?_⟩
        · rw [getElem?_append_left (by rw [length_map]; omega), getElem?_map, haunts, map_some]
        · have hcast : (((l.take ((l.length + 1) / 2)).length : Nat) : Int) = ((l.length : Int) + 1) / 2 := by
            rw [length_take]
            omega
          rw [hcast] at hroot
          rw [reverse_append, reverse_singleton, singleton_append,
            computeHashFromAunts_left (by omega) (by omega) hmax (by omega), hroot, trailsLoop_fst, map_some]
      · have hright : (l.drop ((l.length + 1) / 2))[i - (l.length + 1) / 2]? = some leafHash := by
          rw [getElem?_drop, show (l.length + 1) / 2 + (i - (l.length + 1) / 2) = i by omega, hleaf]
        obtain ⟨aunts, haunts, hroot⟩ := ih (by rw [length_drop]; omega) (by rw [length_drop]; omega) hright
        refine ⟨aunts ++ [(trailsLoop P fuel (l.take ((l.length + 1) / 2))).1], ?_, ?_⟩
        · have hlenmin : min ((l.length + 1) / 2) l.length = (l.length + 1) / 2 := by omega
          rw [getElem?_append_right (by rw [length_map]; omega), length_map, hlenl, hlenmin, getElem?_map,
            haunts, map_some]
        · have hcast : (((l.drop ((l.length + 1) / 2)).length : Nat) : Int) = (l.length : Int) -
            ((l.length : Int) + 1) / 2 := by
            rw [length_drop]
            omega
          have hindex : ((i - (l.length + 1) / 2 : Nat) : Int) = (i : Int) - ((l.length : Int) + 1) / 2 := by omega
          rw [hcast, hindex] at hroot
          rw [reverse_append, reverse_singleton, singleton_append,
            computeHashFromAunts_right (by omega) (by omega) hmax (by omega), hroot, trailsLoop_fst, map_some]

theorem fst_simpleProofsFromHashes (hashes : List Bytes) :
    (simpleProofsFromHashes P hashes).1 = simpleHashFromHashes P hashes := trailsLoop_fst _ _

theorem exists_proof (hmax : (hashes.length : Int) < maxInt64) {i : Nat}
    (hleaf : hashes[i]? = some leafHash) : ∃ aunts, (simpleProofsFromHashes P hashes).2[i]? = some aunts ∧
      verifyProof P aunts i hashes.length leafHash (simpleHashFromHashes P hashes) = true := by
  obtain ⟨aunts, haunts, hcomputed⟩ := computeHashFromAunts_trailsLoop hashes.length le_rfl hmax hleaf
  refine ⟨aunts, haunts, ?_⟩
  rw [verifyProof, hcomputed]
  simp [simpleHashFromHashes]

/-! ## A proof is a path -/

/-- The sides that `computeHashFromAunts` takes on its way down. -/
def sides : Nat → Int → Int → List Bool
  | 0, _, _ => []
  | n + 1, index, total =>
    if index < numLeft total then true :: sides n index (numLeft total)
    else false :: sides n (wrap64 (index - numLeft total)) (wrap64 (total - numLeft total))

def proofPath (aunts : List Bytes) (index total : Int) : List (Bool × Bytes) :=
  (sides aunts.length index total).zip aunts.reverse

theorem length_sides (n : Nat) (index total : Int) : (sides n index total).length = n := by
  induction n generalizing index total with
  | zero => rfl
  | succ n ih =>
    rw [sides]
    split_ifs
    · rw [length_cons, ih]
    · rw [length_cons, ih]

/-- A proof is a path through a tree of hashes, with sides by index and total. -/
theorem computeHashFromAunts_eq_climb (h : computeHashFromAunts P index total leafHash aunts = some rootHash) :
    rootHash = climb (simpleHashFromTwoHashes P) ((sides aunts.length index total).zip aunts) leafHash := by
  induction aunts generalizing index total rootHash with
  | nil =>
    rw [computeHashFromAunts] at h
    split_ifs at h
    cases h
    rfl
  | cons aunt aunts ih =>
    rw [computeHashFromAunts] at h
    rw [length_cons, sides]
    split_ifs at h ⊢ with hguard hside
    · obtain ⟨leftHash, hleft, rfl⟩ := map_eq_some_iff.1 h
      rw [zip_cons_cons, climb, ← ih hleft]
    · obtain ⟨rightHash, hright, rfl⟩ := map_eq_some_iff.1 h
      rw [zip_cons_cons, climb, ← ih hright]

theorem length_aunts_unique {leafHash' : Bytes} {aunts' : List Bytes}
    (h : (computeHashFromAunts P index total leafHash aunts).isSome)
    (h' : (computeHashFromAunts P index total leafHash' aunts').isSome) : aunts.length = aunts'.length := by
  induction aunts generalizing index total aunts' with
  | nil =>
    cases aunts' with
    | nil => rfl
    | cons aunt' aunts' =>
      rw [computeHashFromAunts] at h
      rw [computeHashFromAunts] at h'
      split_ifs at h h' with hnot hone
      all_goals simp at h h'
      all_goals omega
  | cons aunt aunts ih =>
    cases aunts' with
    | nil =>
      rw [computeHashFromAunts] at h
      rw [computeHashFromAunts] at h'
      split_ifs at h h'
      all_goals simp at h h'
      all_goals omega
    | cons aunt' aunts' =>
      rw [computeHashFromAunts] at h
      rw [computeHashFromAunts] at h'
      rw [length_cons, length_cons]
      split_ifs at h h'
      · simp at h
      · rw [isSome_map] at h h'
        rw [ih h h']
      · rw [isSome_map] at h h'
        rw [ih h h']

theorem verifyProof_eq_climb (h : verifyProof P aunts index total leafHash rootHash = true) :
    climb (simpleHashFromTwoHashes P) (proofPath aunts index total) leafHash = rootHash := by
  obtain ⟨computed, hcomputed, heq⟩ := (Option.any_eq_true _ _).1 h
  have hroot := computeHashFromAunts_eq_climb hcomputed
  rw [length_reverse] at hroot
  rw [proofPath, ← hroot]
  simpa using heq

/-- What `Verify` combines on its way to the root. -/
def verifiedPairs (P : Primitives) (aunts : List Bytes) (index total : Int) (leafHash : Bytes) : List (Bytes × Bytes) :=
  climbPairs (simpleHashFromTwoHashes P) (proofPath aunts index total) leafHash

/-- Proofs of one root at one index of one total are of one leaf, unless pairs collide. -/
theorem leaf_unique {aunts' : List Bytes} {leafHash' : Bytes}
    (h : verifyProof P aunts index total leafHash rootHash = true)
    (h' : verifyProof P aunts' index total leafHash' rootHash = true) :
    leafHash = leafHash' ∨ Collides (fun p => simpleHashFromTwoHashes P p.1 p.2)
      (verifiedPairs P aunts index total leafHash ++ verifiedPairs P aunts' index total leafHash') := by
  by_cases hno : Collides (fun p => simpleHashFromTwoHashes P p.1 p.2)
      (verifiedPairs P aunts index total leafHash ++ verifiedPairs P aunts' index total leafHash')
  · exact .inr hno
  · left
    have hsome : ∀ {aunts : List Bytes} {leafHash : Bytes}, verifyProof P aunts index total leafHash rootHash = true →
        (computeHashFromAunts P index total leafHash aunts.reverse).isSome := by
      intro aunts leafHash h
      obtain ⟨computed, hcomputed, -⟩ := (Option.any_eq_true _ _).1 h
      rw [hcomputed]
      rfl
    have hlen := length_aunts_unique (hsome h) (hsome h')
    rw [length_reverse, length_reverse] at hlen
    have hfst : ∀ aunts : List Bytes, (proofPath aunts index total).map Prod.fst = sides aunts.length index total := by
      intro aunts
      rw [proofPath, map_fst_zip (by rw [length_sides, length_reverse])]
    refine climb_inj ?_ hno ((verifyProof_eq_climb h).trans (verifyProof_eq_climb h').symm)
    rw [hfst, hfst, hlen]

/-- Every leaf has a proof, and a root has one leaf at an index of a total, unless pairs collide. -/
theorem simpleProofs_correct (P : Primitives) {hashes : List Bytes} (hne : hashes ≠ [])
    (hmax : (hashes.length : Int) < maxInt64) :
    (∃ proofs, simpleProofsFromHashers P hashes = some (simpleHashFromHashes P hashes, proofs) ∧
        ∀ (i : Nat) (leafHash : Bytes), hashes[i]? = some leafHash → ∃ aunts, proofs[i]? = some aunts ∧
          verifyProof P aunts i hashes.length leafHash (simpleHashFromHashes P hashes) = true) ∧
      ∀ (aunts aunts' : List Bytes) (index total : Int) (leafHash leafHash' rootHash : Bytes),
        verifyProof P aunts index total leafHash rootHash = true →
        verifyProof P aunts' index total leafHash' rootHash = true →
        leafHash = leafHash' ∨ Collides (fun p => simpleHashFromTwoHashes P p.1 p.2)
          (verifiedPairs P aunts index total leafHash ++ verifiedPairs P aunts' index total leafHash') := by
  refine ⟨⟨(simpleProofsFromHashes P hashes).2, ?_, fun i leafHash hleaf => exists_proof hmax hleaf⟩,
    fun _ _ _ _ _ _ _ h h' => leaf_unique h h'⟩
  rw [simpleProofsFromHashers_eq hne, ← fst_simpleProofsFromHashes]

/-- Three leaves. -/
theorem simpleProofs_correct_three :
    ∃ proofs, simpleProofsFromHashers .transparent [[1], [2], [3]] =
        some (simpleHashFromHashes .transparent [[1], [2], [3]], proofs) ∧
      ∀ (i : Nat) (leafHash : Bytes), ([[1], [2], [3]] : List Bytes)[i]? = some leafHash →
        ∃ aunts, proofs[i]? = some aunts ∧
        verifyProof .transparent aunts i 3 leafHash (simpleHashFromHashes .transparent [[1], [2], [3]]) = true :=
  (simpleProofs_correct .transparent (by decide) (by decide)).1

end Demars.Merkle
