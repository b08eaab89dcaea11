import Mathlib.Tactic

/-!
# Lists sorted by a key

Lists in which the keys of the elements do not decrease. `IsSlot` is the place that a binary search for a key
finds, and `Upserts` what becomes of a list when an element is put there, between the others or in the place of the
first with its key. Elements that follow another one with their key (`Repeated`) stay.
-/

namespace SortedList

open List

variable {α κ : Type*} {key : α → κ}

/-! ## Repeated keys -/

def Repeated (key : α → κ) : List α → α → Prop
  | [], _ => False
  | b :: l, a => (key b = key a ∧ a ∈ l) ∨ Repeated key l a

theorem Repeated.mem {a : α} : ∀ {l : List α}, Repeated key l a → a ∈ l
  | [], h => h.elim
  | b :: l, h => by
    rcases h with ⟨-, h⟩ | h
    · exact mem_cons_of_mem b h
    · exact mem_cons_of_mem b h.mem

theorem repeated_append {a : α} : ∀ l₁ l₂ : List α,
    Repeated key (l₁ ++ l₂) a ↔ Repeated key l₁ a ∨ Repeated key l₂ a ∨ (a ∈ l₂ ∧ ∃ b ∈ l₁, key b = key a)
  | [], l₂ => by simp [Repeated]
  | c :: l₁, l₂ => by
    simp only [cons_append, Repeated, repeated_append l₁ l₂, mem_append, mem_cons, exists_eq_or_imp]
    tauto

theorem nodup_map_iff : ∀ {l : List α}, (l.map key).Nodup ↔ ∀ a, ¬ Repeated key l a
  | [] => by simp [Repeated]
  | b :: l => by
    rw [map_cons, nodup_cons, nodup_map_iff, List.mem_map]
    constructor
    · rintro ⟨hb, hl⟩ a (⟨hk, ha⟩ | ha)
      · exact hb ⟨a, ha, hk.symm⟩
      · exact hl a ha
    · intro h
      refine ⟨?_, fun a ha => h a (.inr ha)⟩
      rintro ⟨a, ha, hk⟩
      exact h a (.inl ⟨hk.symm, ha⟩)

/-! ## Slots -/

variable [Ord κ] {l l' : List α} {k : κ} {i : Nat}

def Sorted (key : α → κ) (l : List α) : Prop := l.Pairwise fun a b => compare (key a) (key b) ≠ .gt

/-- Where a binary search for `k` ends. -/
structure IsSlot (key : α → κ) (l : List α) (k : κ) (i : Nat) : Prop where
  before : ∀ a ∈ l.take i, compare (key a) k = .lt
  after : ∀ a ∈ l.drop i, compare (key a) k ≠ .lt

/-- `l'` is `l` with the element `x`, in the place of the first element with its key if there is one. -/
structure Upserts (key : α → κ) (l : List α) (x : α) (l' : List α) : Prop where
  sorted : Sorted key l'
  repeated : ∀ a, Repeated key l' a ↔ Repeated key l a
  mem : ∀ a, a ∈ l' ↔ a = x ∨ (a ∈ l ∧ key a ≠ key x) ∨ Repeated key l a

theorem Sorted.sublist (h : Sorted key l) (hsub : l'.Sublist l) : Sorted key l' := List.Pairwise.sublist hsub h

theorem IsSlot.before_ne [Std.ReflOrd κ] (hi : IsSlot key l k i) {a : α} (ha : a ∈ l.take i) : key a ≠ k := by
  rintro rfl
  have hlt := hi.before a ha
  rw [Std.ReflOrd.compare_self] at hlt
  cases hlt

theorem IsSlot.getElem?_eq [Std.LawfulEqOrd κ] [Std.OrientedOrd κ] (hi : IsSlot key l k i) (h : Sorted key l) {a : α}
    (ha : a ∈ l) (hk : key a = k) : ∃ b, l[i]? = some b ∧ key b = k := by
  have hdrop : a ∈ l.drop i := by
    rw [← take_append_drop i l, mem_append] at ha
    rcases ha with ha | ha
    · exact absurd hk (hi.before_ne ha)
    · exact ha
  have hsorted : Sorted key (l.drop i) := h.sublist (drop_sublist i l)
  have hafter := hi.after
  cases hd : l.drop i with
  | nil =>
    rw [hd] at hdrop
    cases hdrop
  | cons b rest =>
    rw [hd] at hdrop hsorted hafter
    refine ⟨b, by rw [← head?_drop, hd, head?_cons], ?_⟩
    rcases mem_cons.1 hdrop with rfl | hrest
    · exact hk
    · have hle := (pairwise_cons.1 hsorted).1 a hrest
      have hge := hafter b mem_cons_self
      rw [hk] at hle
      cases hcmp : compare (key b) k with
      | lt => exact absurd hcmp hge
      | eq => exact Std.LawfulEqCmp.eq_of_compare hcmp
      | gt => exact absurd hcmp hle

theorem IsSlot.upserts_insert [Std.LawfulEqOrd κ] [Std.OrientedOrd κ] {x : α} (hi : IsSlot key l (key x) i)
    (h : Sorted key l) (hnew : ∀ a ∈ l, key a ≠ key x) : Upserts key l x (l.take i ++ x :: l.drop i) := by
  have hsplit := take_append_drop i l
  obtain ⟨htake, hdrop, hcross⟩ := pairwise_append.1 (hsplit.symm ▸ h : Sorted key (l.take i ++ l.drop i))
  have hmem : ∀ a, a ∈ l ↔ a ∈ l.take i ∨ a ∈ l.drop i := by
    intro a
    rw [← mem_append, hsplit]
  refine ⟨pairwise_append.2 ⟨htake, pairwise_cons.2 ⟨?_, hdrop⟩, ?_⟩, ?_, ?_⟩
  · intro b hb hgt
    exact hi.after b hb (Std.OrientedCmp.lt_of_gt hgt)
  · intro b hb c hc
    rcases mem_cons.1 hc with rfl | hc
    · rw [hi.before b hb]
      exact fun hn => nomatch hn
    · exact hcross b hb c hc
  · intro a
    have hrep : Repeated key l a ↔ Repeated key (l.take i ++ l.drop i) a := by rw [hsplit]
    rw [hrep, repeated_append, repeated_append]
    simp only [mem_cons]
    constructor
    · rintro (h1 | (⟨hk, ha⟩ | h1) | ⟨rfl | ha, b, hb, hk⟩)
      · exact .inl h1
      · exact absurd hk.symm (hnew a ((hmem a).2 (.inr ha)))
      · exact .inr (.inl h1)
      · exact absurd hk (hnew b ((hmem b).2 (.inl hb)))
      · exact .inr (.inr ⟨ha, b, hb, hk⟩)
    · rintro (h1 | h1 | ⟨ha, b, hb, hk⟩)
      · exact .inl h1
      · exact .inr (.inl (.inr h1))
      · exact .inr (.inr ⟨.inr ha, b, hb, hk⟩)
  · intro a
    rw [mem_append, mem_cons]
    constructor
    · rintro (ha | rfl | ha)
      · exact .inr (.inl ⟨(hmem a).2 (.inl ha), hnew a ((hmem a).2 (.inl ha))⟩)
      · exact .inl rfl
      · exact .inr (.inl ⟨(hmem a).2 (.inr ha), hnew a ((hmem a).2 (.inr ha))⟩)
    · rintro (rfl | ⟨ha, -⟩ | hrep)
      · exact .inr (.inl rfl)
      · rcases (hmem a).1 ha with ha | ha
        · exact .inl ha
        · exact .inr (.inr ha)
      · rcases (hmem a).1 hrep.mem with ha | ha
        · exact .inl ha
        · exact .inr (.inr ha)

theorem IsSlot.upserts_set [Std.ReflOrd κ] {x y : α} (hi : IsSlot key l (key x) i) (h : Sorted key l)
    (hy : l[i]? = some y) (hk : key y = key x) : Upserts key l x (l.set i x) := by
  obtain ⟨hlt, hget⟩ := List.getElem?_eq_some_iff.1 hy
  have hset : l.set i x = l.take i ++ x :: l.drop (i + 1) := by rw [set_eq_take_append_cons_drop, if_pos hlt]
  have hsplit : l = l.take i ++ y :: l.drop (i + 1) := by
    rw [← hget, ← drop_eq_getElem_cons hlt, take_append_drop]
  have hbefore : ∀ b ∈ l.take i, key b ≠ key x := fun b hb => hi.before_ne hb
  have hrep : ∀ a, Repeated key l a ↔ Repeated key (l.take i ++ y :: l.drop (i + 1)) a := by
    intro a
    rw [← hsplit]
  have hmem : ∀ a, a ∈ l ↔ a ∈ l.take i ∨ a = y ∨ a ∈ l.drop (i + 1) := by
    intro a
    rw [← mem_cons, ← mem_append, ← hsplit]
  refine ⟨?_, ?_, ?_⟩
  · have hmap : (l.set i x).map key = l.map key := by
      rw [hset]
      conv_rhs => rw [hsplit]
      simp only [map_append, map_cons, hk]
    have hkeys : (l.map key).Pairwise fun a b => compare a b ≠ .gt := pairwise_map.2 h
    rw [← hmap] at hkeys
    exact pairwise_map.1 hkeys
  · intro a
    rw [hrep, hset, repeated_append, repeated_append]
    simp only [Repeated, mem_cons, hk]
    constructor
    · rintro (h1 | h1 | ⟨rfl | ha, b, hb, hab⟩)
      · exact .inl h1
      · exact .inr (.inl h1)
      · exact absurd hab (hbefore b hb)
      · exact .inr (.inr ⟨.inr ha, b, hb, hab⟩)
    · rintro (h1 | h1 | ⟨rfl | ha, b, hb, hab⟩)
      · exact .inl h1
      · exact .inr (.inl h1)
      · exact absurd (hab.trans hk) (hbefore b hb)
      · exact .inr (.inr ⟨.inr ha, b, hb, hab⟩)
  · intro a
    rw [hrep, hset, hmem, repeated_append, mem_append]
    simp only [Repeated, mem_cons, hk]
    constructor
    · rintro (ha | rfl | ha)
      · exact .inr (.inl ⟨.inl ha, hbefore a ha⟩)
      · exact .inl rfl
      · by_cases hak : key a = key x
        · exact .inr (.inr (.inr (.inl (.inl ⟨hak.symm, ha⟩))))
        · exact .inr (.inl ⟨.inr (.inr ha), hak⟩)
    · rintro (rfl | ⟨ha | rfl | ha, hne⟩ | h1 | (⟨-, ha⟩ | h1) | ⟨rfl | ha, b, hb, hab⟩)
      · exact .inr (.inl rfl)
      · exact .inl ha
      · exact absurd hk hne
      · exact .inr (.inr ha)
      · exact .inl h1.mem
      · exact .inr (.inr ha)
      · exact .inr (.inr h1.mem)
      · exact absurd (hab.trans hk) (hbefore b hb)
      · exact .inr (.inr ha)

/-! ## Several elements -/

/-- `l'` is `l` with the elements of `xs` put into it one after the other. -/
structure UpsertsAll (key : α → κ) (l xs l' : List α) : Prop where
  repeated : ∀ a, Repeated key l' a ↔ Repeated key l a
  mem : ∀ a, a ∈ l' ↔ a ∈ xs ∨ (a ∈ l ∧ key a ∉ xs.map key) ∨ Repeated key l a

omit [Ord κ] in
theorem UpsertsAll.nil : UpsertsAll key l [] l := by
  refine ⟨fun _ => Iff.rfl, fun a => ?_⟩
  simp only [not_mem_nil, map_nil, not_false_eq_true, and_true, false_or]
  exact ⟨.inl, fun h => h.elim id Repeated.mem⟩

theorem UpsertsAll.cons {m xs : List α} {x : α} (hx : Upserts key l x m) (hxs : UpsertsAll key m xs l')
    (hnew : key x ∉ xs.map key) : UpsertsAll key l (x :: xs) l' := by
  refine ⟨fun a => (hxs.repeated a).trans (hx.repeated a), fun a => ?_⟩
  rw [hxs.mem, hx.mem, hx.repeated, map_cons, mem_cons, mem_cons, not_or]
  constructor
  · rintro (ha | ⟨rfl | ⟨ha, hne⟩ | hrep, hnot⟩ | hrep)
    · exact .inl (.inr ha)
    · exact .inl (.inl rfl)
    · exact .inr (.inl ⟨ha, hne, hnot⟩)
    · exact .inr (.inr hrep)
    · exact .inr (.inr hrep)
  · rintro ((rfl | ha) | ⟨ha, hne, hnot⟩ | hrep)
    · exact .inr (.inl ⟨.inl rfl, hnew⟩)
    · exact .inl ha
    · exact .inr (.inl ⟨.inr (.inl ⟨ha, hne⟩), hnot⟩)
    · exact .inr (.inr hrep)

omit [Ord κ] in
/-- Seen through `f`, which shows the keys, the elements put in are all there is exactly if the keys before were
different and among the new ones. -/
theorem UpsertsAll.perm_iff {β : Type*} {xs : List α} (h : UpsertsAll key l xs l') (hnodup : (xs.map key).Nodup)
    (f : α → β) (g : β → κ) (hg : ∀ a, g (f a) = key a) :
    (l'.map f).Perm (xs.map f) ↔ (l.map key).Nodup ∧ ∀ a ∈ l, key a ∈ xs.map key := by
  have hkeys : ∀ l : List α, (l.map f).map g = l.map key := by
    intro l
    rw [List.map_map]
    exact map_congr_left fun a _ => hg a
  constructor
  · intro hperm
    have hnodup' : (l'.map key).Nodup := by
      rw [← hkeys] at hnodup ⊢
      exact (hperm.map g).nodup_iff.2 hnodup
    refine ⟨nodup_map_iff.2 fun a ha => nodup_map_iff.1 hnodup' a ((h.repeated a).2 ha), fun a ha => ?_⟩
    by_contra hnot
    have hin : f a ∈ xs.map f := hperm.subset (List.mem_map_of_mem ((h.mem a).2 (.inr (.inl ⟨ha, hnot⟩))))
    rw [← hkeys] at hnot
    exact hnot (List.mem_map.2 ⟨f a, hin, hg a⟩)
  · rintro ⟨hold, hsub⟩
    have hno := nodup_map_iff.1 hold
    have hnodup' : (l'.map key).Nodup := nodup_map_iff.2 fun a ha => hno a ((h.repeated a).1 ha)
    apply List.Perm.map
    rw [perm_ext_iff_of_nodup hnodup'.of_map hnodup.of_map]
    intro a
    rw [h.mem]
    constructor
    · rintro (ha | ⟨ha, hnot⟩ | hrep)
      · exact ha
      · exact absurd (hsub a ha) hnot
      · exact absurd hrep (hno a)
    · exact .inl

end SortedList
