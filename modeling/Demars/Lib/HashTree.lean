import Mathlib.Tactic

/-!
# Trees of hashes

A `HashTree` is what a hash over structured data computes: digests that are given, messages that are hashed, and
pairs of digests that are written as one message and hashed again. Alike trees are equal, but a message may be the
writing of a pair and stand where another tree has that pair.
-/

inductive HashTree (M D : Type*)
  | const (d : D)
  | leaf (m : M)
  | node (left right : HashTree M D)

namespace HashTree

open List

variable {M D : Type*}

/-- Two of the messages have one hash. -/
def Collides (hash : M → D) (ms : List M) : Prop := ∃ m ∈ ms, ∃ m' ∈ ms, m ≠ m' ∧ hash m = hash m'

instance [DecidableEq M] [DecidableEq D] (hash : M → D) (ms : List M) : Decidable (Collides hash ms) :=
  inferInstanceAs (Decidable (∃ m ∈ ms, ∃ m' ∈ ms, m ≠ m' ∧ hash m = hash m'))

theorem Collides.mono {hash : M → D} {ms ms' : List M} (h : Collides hash ms) (hsub : ms ⊆ ms') :
    Collides hash ms' := by
  obtain ⟨m, hm, m', hm', hne, heq⟩ := h
  exact ⟨m, hsub hm, m', hsub hm', hne, heq⟩

theorem eq_of_not_collides {hash : M → D} {ms : List M} (hno : ¬ Collides hash ms) {m m' : M} (hm : m ∈ ms)
    (hm' : m' ∈ ms) (heq : hash m = hash m') : m = m' := by
  by_contra hne
  exact hno ⟨m, hm, m', hm', hne, heq⟩

section

variable (hash : M → D) (pair : D → D → M)

def digest : HashTree M D → D
  | const d => d
  | leaf m => hash m
  | node left right => hash (pair left.digest right.digest)

def inputs : HashTree M D → List M
  | const _ => []
  | leaf m => [m]
  | node left right => pair (left.digest hash pair) (right.digest hash pair) :: (left.inputs ++ right.inputs)

def leaves : HashTree M D → List M
  | const _ => []
  | leaf m => [m]
  | node left right => left.leaves ++ right.leaves

def Alike : HashTree M D → HashTree M D → Prop
  | const d, const d' => d = d'
  | leaf m, leaf m' => m = m'
  | leaf m, node left right => m = pair (left.digest hash pair) (right.digest hash pair)
  | node left right, leaf m => pair (left.digest hash pair) (right.digest hash pair) = m
  | node left right, node left' right' => Alike left left' ∧ Alike right right'
  | _, _ => False

/-- The given digests are none that the hash has. -/
def Closed : HashTree M D → Prop
  | const d => ∀ m, hash m ≠ d
  | leaf _ => True
  | node left right => left.Closed ∧ right.Closed

end

variable {hash : M → D} {pair : D → D → M} {t t' : HashTree M D}

theorem Alike.digest_eq (h : Alike hash pair t t') : t.digest hash pair = t'.digest hash pair := by
  induction t generalizing t' with
  | const d =>
    cases t' with
    | const d' => exact h
    | leaf m' | node left' right' => exact h.elim
  | leaf m =>
    cases t' with
    | const d' => exact h.elim
    | leaf m' | node left' right' => exact congrArg hash h
  | node left right ihl ihr =>
    cases t' with
    | const d' => exact h.elim
    | leaf m' => exact congrArg hash h
    | node left' right' => rw [digest, digest, ihl h.1, ihr h.2]

/-- **Binding**: trees with one digest are alike, unless messages that were hashed for them collide. -/
theorem alike_of_digest_eq (hpair : ∀ a b a' b', pair a b = pair a' b' → a = a' ∧ b = b') (ht : t.Closed hash)
    (ht' : t'.Closed hash) (hno : ¬ Collides hash (t.inputs hash pair ++ t'.inputs hash pair))
    (h : t.digest hash pair = t'.digest hash pair) : Alike hash pair t t' := by
  induction t generalizing t' with
  | const d =>
    cases t' with
    | const d' => exact h
    | leaf m' => exact ht m' h.symm
    | node left' right' => exact ht _ h.symm
  | leaf m =>
    cases t' with
    | const d' => exact ht' m h
    | leaf m' | node left' right' => exact eq_of_not_collides hno (by simp [inputs]) (by simp [inputs]) h
  | node left right ihl ihr =>
    cases t' with
    | const d' => exact ht' _ h
    | leaf m' => exact eq_of_not_collides hno (by simp [inputs]) (by simp [inputs]) h
    | node left' right' =>
      -- the pairs are equal messages, so the parts have one digest each
      obtain ⟨hl, hr⟩ := hpair _ _ _ _ (eq_of_not_collides hno (by simp [inputs]) (by simp [inputs]) h)
      refine ⟨ihl ht.1 ht'.1 (fun hc => hno (hc.mono ?_)) hl, ihr ht.2 ht'.2 (fun hc => hno (hc.mono ?_)) hr⟩
      · intro m hm
        simp only [inputs, mem_append, mem_cons] at hm ⊢
        tauto
      · intro m hm
        simp only [inputs, mem_append, mem_cons] at hm ⊢
        tauto

theorem digest_eq_iff_alike (hpair : ∀ a b a' b', pair a b = pair a' b' → a = a' ∧ b = b') (ht : t.Closed hash)
    (ht' : t'.Closed hash) (hno : ¬ Collides hash (t.inputs hash pair ++ t'.inputs hash pair)) :
    t.digest hash pair = t'.digest hash pair ↔ Alike hash pair t t' :=
  ⟨alike_of_digest_eq hpair ht ht' hno, Alike.digest_eq⟩

/-! ## Balanced trees -/

/-- The tree over a list, halved at every node; `nil` for no members. The first number bounds the depth. -/
def balanced (nil : D) : Nat → List (HashTree M D) → HashTree M D
  | _, [] => const nil
  | _, [t] => t
  | 0, _ => const nil
  | fuel + 1, ts =>
    node (balanced nil fuel (ts.take ((ts.length + 1) / 2))) (balanced nil fuel (ts.drop ((ts.length + 1) / 2)))

section

variable {nil : D} {ts : List (HashTree M D)}

theorem balanced_of_two_le {fuel : Nat} (h : 2 ≤ ts.length) :
    balanced nil (fuel + 1) ts = node (balanced nil fuel (ts.take ((ts.length + 1) / 2)))
      (balanced nil fuel (ts.drop ((ts.length + 1) / 2))) := by
  match ts, h with
  | _ :: _ :: _, _ => rfl

/-- What holds of the members, the empty tree and, if of its parts, of a node, holds of the balanced tree. -/
theorem balanced_induct {p : HashTree M D → Prop} (hnil : p (const nil))
    (hnode : ∀ left right, p left → p right → p (node left right)) (fuel : Nat) (hts : ∀ t ∈ ts, p t) :
    p (balanced nil fuel ts) := by
  induction fuel generalizing ts with
  | zero =>
    match ts, hts with
    | [], _ => exact hnil
    | [t], hts => exact hts t mem_cons_self
    | _ :: _ :: _, _ => exact hnil
  | succ fuel ih =>
    match ts, hts with
    | [], _ => exact hnil
    | [t], hts => exact hts t mem_cons_self
    | _ :: _ :: _, hts =>
      exact hnode _ _ (ih fun t ht => hts t (mem_of_mem_take ht)) (ih fun t ht => hts t (mem_of_mem_drop ht))

theorem leaves_balanced (fuel : Nat) (hfuel : ts.length ≤ fuel) :
    (balanced nil fuel ts).leaves = ts.flatMap leaves := by
  induction fuel generalizing ts with
  | zero =>
    obtain rfl : ts = [] := length_eq_zero_iff.1 (by omega)
    rfl
  | succ fuel ih =>
    match ts, hfuel with
    | [], _ => rfl
    | [t], _ => exact (append_nil _).symm
    | t :: u :: ts, hfuel =>
      generalize hl : t :: u :: ts = l at *
      have htwo : 2 ≤ l.length := by simp [← hl]
      rw [balanced_of_two_le htwo, leaves, ih (by rw [length_take]; omega), ih (by rw [length_drop]; omega),
        ← flatMap_append, take_append_drop]

theorem alike_balanced_iff (fuel : Nat) {ts' : List (HashTree M D)} (hfuel : ts.length ≤ fuel)
    (hlen : ts.length = ts'.length) :
    Alike hash pair (balanced nil fuel ts) (balanced nil fuel ts') ↔ List.Forall₂ (Alike hash pair) ts ts' := by
  induction fuel generalizing ts ts' with
  | zero =>
    obtain rfl : ts = [] := length_eq_zero_iff.1 (by omega)
    obtain rfl : ts' = [] := length_eq_zero_iff.1 (by simpa using hlen.symm)
    exact iff_of_true rfl .nil
  | succ fuel ih =>
    match ts, ts', hfuel, hlen with
    | [], [], _, _ => exact iff_of_true rfl .nil
    | [t], [t'], _, _ =>
      rw [forall₂_cons, and_iff_left .nil]
      rfl
    | t :: u :: ts, t' :: u' :: ts', hfuel, hlen =>
      generalize hl : t :: u :: ts = l at *
      generalize hl' : t' :: u' :: ts' = l' at *
      have htwo : 2 ≤ l.length := by simp [← hl]
      rw [balanced_of_two_le htwo, balanced_of_two_le (hlen ▸ htwo), Alike, ← hlen,
        ih (by rw [length_take]; omega) (by rw [length_take, length_take, hlen]),
        ih (by rw [length_drop]; omega) (by rw [length_drop, length_drop, hlen])]
      constructor
      · rintro ⟨hleft, hright⟩
        rw [← take_append_drop ((l.length + 1) / 2) l, ← take_append_drop ((l.length + 1) / 2) l']
        exact rel_append hleft hright
      · intro hall
        exact ⟨forall₂_take _ hall, forall₂_drop _ hall⟩

end

/-! ## The left edge -/

/-- The number of nodes on the left edge. -/
def spine : HashTree M D → Nat
  | const _ | leaf _ => 0
  | node left _ => left.spine + 1

/-- The message at the end of the left edge. -/
def leftEnd : HashTree M D → Option M
  | const _ => none
  | leaf m => some m
  | node left _ => left.leftEnd

/-- In a tree alike to one with a longer left edge, the message at its end is the writing of a pair. -/
theorem Alike.leftEnd_eq_pair (h : Alike hash pair t t') {m : M} (hm : t.leftEnd = some m)
    (hlt : t.spine + 1 < t'.spine) :
    ∃ a d, m = pair (hash a) d := by
  induction t generalizing t' with
  | const d => cases hm
  | leaf m' =>
    cases hm
    match t', h, hlt with
    | node (node l r) right, h, _ => exact ⟨_, _, h⟩
  | node left right ihl _ =>
    match t', h, hlt with
    | node left' right', h, hlt => exact ihl h.1 hm (by simpa [spine] using hlt)

theorem balanced_leftEnd {d : D} {fuel n : Nat} {ms : List M} (hfuel : ms.length ≤ fuel) (hne : ms ≠ [])
    (hn : ms.length ≤ 2 ^ n) :
    (balanced d fuel (ms.map leaf)).spine ≤ n ∧ ∃ m ∈ ms, (balanced d fuel (ms.map leaf)).leftEnd = some m := by
  induction fuel generalizing n ms with
  | zero => exact absurd (length_eq_zero_iff.1 (by omega)) hne
  | succ fuel ih =>
    match ms, hfuel, hne, hn with
    | [m], _, _, _ => exact ⟨Nat.zero_le n, m, mem_cons_self, rfl⟩
    | m :: m' :: ms, hfuel, _, hn =>
      generalize hl : m :: m' :: ms = l at *
      have htwo : 2 ≤ l.length := by simp [← hl]
      cases n with
      | zero => omega
      | succ n =>
        rw [pow_succ] at hn
        have hlen : (l.take ((l.length + 1) / 2)).length = (l.length + 1) / 2 := by rw [length_take]; omega
        have hfuel' : (l.take ((l.length + 1) / 2)).length ≤ fuel := by omega
        obtain ⟨hspine, m, hm, hend⟩ := ih (n := n) hfuel' (ne_nil_of_length_pos (by omega)) (by omega)
        rw [balanced_of_two_le (by rwa [length_map]), length_map, ← map_take]
        exact ⟨Nat.succ_le_succ hspine, m, mem_of_mem_take hm, hend⟩

end HashTree
