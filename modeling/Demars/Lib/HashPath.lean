import Demars.Lib.HashTree

/-!
# Paths through trees of hashes

A proof that something is in a tree of hashes is a path from the root: at each node the side on which the digest
below it stands, and the digest beside it. Nothing says where a path ends: it may stop at an inner node, and it may
go on below a leaf that is the writing of a pair.
-/

namespace HashTree

open List

variable {M D : Type*}

section

variable (combine : D → D → D)

def climb : List (Bool × D) → D → D
  | [], d => d
  | (true, aunt) :: path, d => combine (climb path d) aunt
  | (false, aunt) :: path, d => combine aunt (climb path d)

/-- The pairs that are combined on the way. -/
def climbPairs : List (Bool × D) → D → List (D × D)
  | [], _ => []
  | (true, aunt) :: path, d => (climb combine path d, aunt) :: climbPairs path d
  | (false, aunt) :: path, d => (aunt, climb combine path d) :: climbPairs path d

variable {combine}

theorem climb_append (path rest : List (Bool × D)) (d : D) :
    climb combine (path ++ rest) d = climb combine path (climb combine rest d) := by
  induction path with
  | nil => rfl
  | cons step path ih =>
    obtain ⟨side, aunt⟩ := step
    cases side <;> simp only [cons_append, climb, ih]

theorem climbPairs_append (path rest : List (Bool × D)) (d : D) :
    climbPairs combine (path ++ rest) d = climbPairs combine path (climb combine rest d) ++
      climbPairs combine rest d := by
  induction path with
  | nil => rfl
  | cons step path ih =>
    obtain ⟨side, aunt⟩ := step
    cases side <;> simp only [cons_append, climbPairs, climb_append, ih]

theorem climb_inj {path path' : List (Bool × D)} (hsides : path.map Prod.fst = path'.map Prod.fst) {d d' : D}
    (hno : ¬ Collides (fun p : D × D => combine p.1 p.2) (climbPairs combine path d ++ climbPairs combine path' d'))
    (h : climb combine path d = climb combine path' d') : d = d' := by
  induction path generalizing path' with
  | nil =>
    cases path' with
    | nil => exact h
    | cons step' path' => cases hsides
  | cons step path ih =>
    cases path' with
    | nil => cases hsides
    | cons step' path' =>
      obtain ⟨side, aunt⟩ := step
      obtain ⟨side', aunt'⟩ := step'
      obtain ⟨hside, hrest⟩ := List.cons.inj hsides
      obtain rfl : side = side' := hside
      have hbelow : climb combine path d = climb combine path' d' := by
        cases side with
        | true =>
          have hpairs : (climb combine path d, aunt) = (climb combine path' d', aunt') :=
            eq_of_not_collides hno (by simp [climbPairs]) (by simp [climbPairs]) h
          exact (Prod.mk.inj hpairs).1
        | false =>
          have hpairs : (aunt, climb combine path d) = (aunt', climb combine path' d') :=
            eq_of_not_collides hno (by simp [climbPairs]) (by simp [climbPairs]) h
          exact (Prod.mk.inj hpairs).2
      refine ih hrest (fun hc => hno (hc.mono ?_)) hbelow
      intro p hp
      cases side <;> simp only [mem_append] at hp ⊢ <;> tauto

end

/-! ## Paths in a tree -/

variable {hash : M → D} {pair : D → D → M}

/-- The length of the longest path to a leaf. -/
def depth : HashTree M D → Nat
  | const _ => 0
  | leaf _ => 0
  | node left right => max left.depth right.depth + 1

theorem depth_balanced {nil : D} (k fuel : Nat) {ts : List (HashTree M D)} (hts : ∀ t ∈ ts, t.depth = 0)
    (hlen : ts.length ≤ 2 ^ k) : (balanced nil fuel ts).depth ≤ k := by
  induction fuel generalizing k ts with
  | zero =>
    match ts, hts with
    | [], _ => exact Nat.zero_le k
    | [t], hts => exact (hts t mem_cons_self).le.trans (Nat.zero_le k)
    | _ :: _ :: _, _ => exact Nat.zero_le k
  | succ fuel ih =>
    match ts, hts, hlen with
    | [], _, _ => exact Nat.zero_le k
    | [t], hts, _ => exact (hts t mem_cons_self).le.trans (Nat.zero_le k)
    | t :: u :: ts, hts, hlen =>
      generalize hl : t :: u :: ts = l at *
      have htwo : 2 ≤ l.length := by simp [← hl]
      cases k with
      | zero =>
        omega
      | succ k =>
        have hleft : (balanced nil fuel (l.take ((l.length + 1) / 2))).depth ≤ k :=
          ih k (fun t ht => hts t (mem_of_mem_take ht)) (by rw [length_take]; omega)
        have hright : (balanced nil fuel (l.drop ((l.length + 1) / 2))).depth ≤ k :=
          ih k (fun t ht => hts t (mem_of_mem_drop ht)) (by rw [length_drop]; omega)
        rw [balanced_of_two_le htwo]
        exact Nat.succ_le_succ (max_le hleft hright)

/-- There is a path to every message hashed for the tree, through such messages. -/
theorem exists_climb {t : HashTree M D} {m : M} (hm : m ∈ t.inputs hash pair) :
    ∃ path, climb (fun a b => hash (pair a b)) path (hash m) = t.digest hash pair ∧
      (∀ p ∈ climbPairs (fun a b => hash (pair a b)) path (hash m), pair p.1 p.2 ∈ t.inputs hash pair) ∧
      path.length ≤ t.depth := by
  induction t with
  | const d => cases hm
  | leaf m' =>
    rw [mem_singleton.1 hm]
    exact ⟨[], rfl, fun p hp => (not_mem_nil hp).elim, le_rfl⟩
  | node left right ihl ihr =>
    rw [inputs, mem_cons, mem_append] at hm
    rcases hm with rfl | hm | hm
    · exact ⟨[], rfl, fun p hp => (not_mem_nil hp).elim, Nat.zero_le _⟩
    · obtain ⟨path, hclimb, hpairs, hlen⟩ := ihl hm
      refine ⟨(true, right.digest hash pair) :: path, by rw [climb, hclimb, digest], ?_, ?_⟩
      · intro p hp
        rw [climbPairs, mem_cons] at hp
        rcases hp with rfl | hp
        · simp [inputs, hclimb]
        · simp [inputs, hpairs p hp]
      · rw [length_cons, depth]
        omega
    · obtain ⟨path, hclimb, hpairs, hlen⟩ := ihr hm
      refine ⟨(false, left.digest hash pair) :: path, by rw [climb, hclimb, digest], ?_, ?_⟩
      · intro p hp
        rw [climbPairs, mem_cons] at hp
        rcases hp with rfl | hp
        · simp [inputs, hclimb]
        · simp [inputs, hpairs p hp]
      · rw [length_cons, depth]
        omega

/-- What a path hashes: the message at its end and the pairs on the way. -/
def climbInputs (hash : M → D) (pair : D → D → M) (path : List (Bool × D)) (m : M) : List M :=
  m :: (climbPairs (fun a b => hash (pair a b)) path (hash m)).map fun p => pair p.1 p.2

/-- A step down from a message: it is a pair with the hash of another message. -/
def Holds (hash : M → D) (pair : D → D → M) (m below : M) : Prop :=
  ∃ aunt, m = pair (hash below) aunt ∨ m = pair aunt (hash below)

/-- At the top of a path is a digest of a message that was hashed on it. -/
theorem exists_climb_eq_hash (path : List (Bool × D)) (m : M) :
    ∃ top ∈ climbInputs hash pair path m, climb (fun a b => hash (pair a b)) path (hash m) = hash top := by
  cases path with
  | nil => exact ⟨m, by simp [climbInputs], rfl⟩
  | cons step path =>
    obtain ⟨side, aunt⟩ := step
    cases side with
    | true | false => exact ⟨_, by simp [climbInputs, climbPairs], rfl⟩

/-- A path to a message of a set that is closed under steps down ends in it, unless there is a collision. -/
theorem mem_of_climb {S : M → Prop} (path : List (Bool × D)) {w m : M}
    (hclosed : ∀ w, S w → ∀ below ∈ climbInputs hash pair path m, Holds hash pair w below → S below)
    (hno : ¬ Collides hash (w :: climbInputs hash pair path m)) (hw : S w)
    (h : climb (fun a b => hash (pair a b)) path (hash m) = hash w) : S m := by
  induction path generalizing w with
  | nil =>
    have heq : m = w := eq_of_not_collides hno (by simp [climbInputs]) (by simp) h
    rwa [heq]
  | cons step path ih =>
    obtain ⟨side, aunt⟩ := step
    have hsub : climbInputs hash pair path m ⊆ climbInputs hash pair ((side, aunt) :: path) m := by
      intro x hx
      simp only [climbInputs, mem_cons] at hx ⊢
      cases side <;> simp only [climbPairs] <;> tauto
    -- the message at the top of the rest of the path is a step down from `w`
    obtain ⟨top, hmem, htop⟩ := (exists_climb_eq_hash path m : ∃ top ∈ climbInputs hash pair path m, _)
    have hstep : Holds hash pair w top := by
      cases side with
      | true =>
        have hmsg : pair (climb (fun a b => hash (pair a b)) path (hash m)) aunt = w :=
          eq_of_not_collides hno (by simp [climbInputs, climbPairs]) (by simp) h
        exact ⟨aunt, .inl (by rw [← hmsg, htop])⟩
      | false =>
        have hmsg : pair aunt (climb (fun a b => hash (pair a b)) path (hash m)) = w :=
          eq_of_not_collides hno (by simp [climbInputs, climbPairs]) (by simp) h
        exact ⟨aunt, .inr (by rw [← hmsg, htop])⟩
    refine ih (fun w hw below hbelow => hclosed w hw below (hsub hbelow)) (fun hc => hno (hc.mono ?_))
      (hclosed w hw top (hsub hmem) hstep) htop
    intro x hx
    rcases mem_cons.1 hx with rfl | hx
    · exact mem_cons_of_mem _ (hsub hmem)
    · exact mem_cons_of_mem _ (hsub hx)

theorem exists_climb_holds (path : List (Bool × D)) {m below : M} (h : Holds hash pair m below) :
    ∃ step, climb (fun a b => hash (pair a b)) (path ++ [step]) (hash below) = climb (fun a b => hash (pair a b))
      path (hash m) ∧
      climbInputs hash pair (path ++ [step]) below ⊆ below :: climbInputs hash pair path m := by
  obtain ⟨aunt, h⟩ := h
  have hstep : ∃ step, climb (fun a b => hash (pair a b)) [step] (hash below) = hash m ∧
      (climbPairs (fun a b => hash (pair a b)) [step] (hash below)).map (fun p => pair p.1 p.2) = [m] := by
    rcases h with rfl | rfl
    · exact ⟨(true, aunt), rfl, rfl⟩
    · exact ⟨(false, aunt), rfl, rfl⟩
  obtain ⟨step, hclimb, hpairs⟩ := hstep
  refine ⟨step, by rw [climb_append, hclimb], ?_⟩
  intro x hx
  rw [climbInputs, climbPairs_append, map_append, hpairs, hclimb] at hx
  simp only [climbInputs, mem_cons, mem_append] at hx ⊢
  tauto

theorem leaves_subset_inputs (t : HashTree M D) : t.leaves ⊆ t.inputs hash pair := by
  induction t with
  | const d => exact nil_subset _
  | leaf m => exact List.Subset.refl _
  | node left right ihl ihr =>
    intro m hm
    rw [inputs, mem_cons, mem_append]
    rcases mem_append.1 hm with hm | hm
    · exact .inr (.inl (ihl hm))
    · exact .inr (.inr (ihr hm))

/-- A digest that the hash has at all is that of a message of the tree. -/
theorem exists_input_of_digest {t : HashTree M D} (ht : t.Closed hash) {m : M} (h : hash m = t.digest hash pair) :
    ∃ w ∈ t.inputs hash pair, t.digest hash pair = hash w := by
  cases t with
  | const d => exact absurd h (ht m)
  | leaf m' => exact ⟨m', mem_cons_self, rfl⟩
  | node left right => exact ⟨_, mem_cons_self, rfl⟩

end HashTree
