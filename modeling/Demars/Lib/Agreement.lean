import Demars.Lib.Locking
import Demars.Lib.Quorum

/-!
# Agreement of voters that lock

The votes of all correct voters, in the order in which they were cast, make a history. At one height the voters
hold the seats of a committee, in which less than a third of the weight is faulty. A value is backed at a round
when a quorum of seats has voted for it, as far as correct voters hold them.
-/

namespace Locking

open Quorum List

variable {V K ι σ : Type}

/-- The seats of a height: their weights, the correct voters that hold them, and the faulty rest. -/
structure Committee (σ ι : Type) [DecidableEq σ] where
  base : Finset σ
  weight : σ → ℤ
  owns : σ → ι → Prop
  faulty : Finset σ
  weight_nonneg : ∀ j ∈ base, 0 ≤ weight j
  third : 3 * ∑ j ∈ base ∩ faulty, weight j < ∑ j ∈ base, weight j
  correct : ∀ j ∈ base, j ∉ faulty → ∃ i, owns j i

def Voted (hist : List (ι × Cast V)) (height : Int) (i : ι) (phase : Phase) (round : Int) (x : V) : Prop :=
  ∃ e, (i, e) ∈ hist ∧ e.height = height ∧ e.phase = phase ∧ e.round = round ∧ e.value = x

variable [DecidableEq σ] {C : Committee σ ι} {hist hist' : List (ι × Cast V)} {height : Int} {phase : Phase}

/-- A quorum of seats has voted for the value, as far as correct voters hold them. -/
def Backed (C : Committee σ ι) (hist : List (ι × Cast V)) (height : Int) (phase : Phase) (round : Int) (x : V) : Prop :=
  ∃ s, IsQuorum C.weight C.base s ∧ ∀ j ∈ s, ∀ i, C.owns j i → Voted hist height i phase round x

theorem Backed.mono {round : Int} {x : V} (h : Backed C hist height phase round x) (hsub : hist ⊆ hist') :
    Backed C hist' height phase round x := by
  obtain ⟨s, hs, hvoted⟩ := h
  refine ⟨s, hs, fun j hj i hi => ?_⟩
  obtain ⟨e, he, hrest⟩ := hvoted j hj i hi
  exact ⟨e, hsub he, hrest⟩

theorem Backed.exists_voter {hist' : List (ι × Cast V)} {phase' : Phase} {round round' : Int} {x y : V}
    (hx : Backed C hist height phase round x) (hy : Backed C hist' height phase' round' y) :
    ∃ i, Voted hist height i phase round x ∧ Voted hist' height i phase' round' y := by
  obtain ⟨s, hs, hsx⟩ := hx
  obtain ⟨t, ht, hty⟩ := hy
  obtain ⟨j, hjs, hjt, hj⟩ := hs.exists_mem_inter C.weight_nonneg ht C.third
  obtain ⟨i, hi⟩ := C.correct j (hs.subset hjs) hj
  exact ⟨i, hsx j hjs i hi, hty j hjt i hi⟩

/-- The votes of correct voters, with what they rest on. -/
structure History (C : Committee σ ι) (key : V → K) (nil : V) (height : Int) (hist : List (ι × Cast V)) : Prop where
  ordered : hist.Pairwise fun a b => a.1 = b.1 → a.2.Before b.2
  justified : ∀ a ∈ hist, Voter.Justified key nil a.2
  respects : hist.Pairwise fun a b => a.1 = b.1 → Voter.Respects key nil a.2 b.2
  backed : ∀ pre a post, hist = pre ++ a :: post → a.2.height = height → ∀ r x, a.2.polka r = some x →
    Backed C pre height .prevote r x

theorem Cast.Before.asymm {e f : Cast V} (h : e.Before f) : ¬ f.Before e := by
  unfold Cast.Before at h ⊢
  omega

theorem eq_or_of_pairwise {α : Type} {R : α → α → Prop} {l : List α} (h : l.Pairwise R) {a b : α} (ha : a ∈ l)
    (hb : b ∈ l) : a = b ∨ R a b ∨ R b a := by
  induction l with
  | nil => cases ha
  | cons c l ih =>
    obtain ⟨hc, hl⟩ := pairwise_cons.1 h
    rcases mem_cons.1 ha with hac | hal <;> rcases mem_cons.1 hb with hbc | hbl
    · exact .inl (hac.trans hbc.symm)
    · exact .inr (.inl (hac ▸ hc b hbl))
    · exact .inr (.inr (hbc ▸ hc a hal))
    · exact ih hl hal hbl

namespace History

variable {key : V → K} {nil : V} {round : Int} {x : V}

section

variable (h : History C key nil height hist)
include h

theorem unique {i : ι} {y : V} (hx : Voted hist height i phase round x) (hy : Voted hist height i phase round y) :
    x = y := by
  obtain ⟨e, he, hh, hp, hr, rfl⟩ := hx
  obtain ⟨f, hf, hh', hp', hr', rfl⟩ := hy
  have hnot : ∀ a b : Cast V, a.height = b.height → a.round = b.round → a.phase = b.phase → ¬ a.Before b := by
    intro a b h₁ h₂ h₃ hb
    unfold Cast.Before at hb
    rw [h₃] at hb
    omega
  rcases eq_or_of_pairwise h.ordered he hf with heq | hlt | hlt
  · rw [(Prod.mk.inj heq).2]
  · exact absurd (hlt rfl) (hnot _ _ (hh.trans hh'.symm) (hr.trans hr'.symm) (hp.trans hp'.symm))
  · exact absurd (hlt rfl) (hnot _ _ (hh'.trans hh.symm) (hr'.trans hr.symm) (hp'.trans hp.symm))

theorem mem_before {i : ι} {e f : Cast V} {pre post : List (ι × Cast V)}
    (hsplit : hist = pre ++ (i, f) :: post) (he : (i, e) ∈ hist) (hlt : e.Before f) : (i, e) ∈ pre := by
  have hord := h.ordered
  rw [hsplit] at he hord
  obtain ⟨-, hpost, -⟩ := pairwise_append.1 hord
  rcases mem_append.1 he with hpre | hrest
  · exact hpre
  · exfalso
    rcases mem_cons.1 hrest with heq | hafter
    · rw [(Prod.mk.inj heq).2] at hlt
      exact hlt.asymm hlt
    · exact hlt.asymm ((pairwise_cons.1 hpost).1 _ hafter rfl)

theorem polka_of_precommits (hkey : key x ≠ key nil)
    (hx : Backed C hist height .precommit round x) : Backed C hist height .prevote round x := by
  obtain ⟨i, ⟨e, he, hh, hp, hr, rfl⟩, -⟩ := hx.exists_voter hx
  obtain ⟨pre, post, hsplit⟩ := append_of_mem he
  rcases h.justified _ he hp with hnil | ⟨-, hpolka⟩
  · exact absurd (congrArg key hnil) hkey
  · rw [← hr]
    refine (h.backed pre _ post hsplit hh _ _ hpolka).mono ?_
    rw [hsplit]
    exact subset_append_left _ _

/-- What a quorum has precommitted was prevoted by a correct voter. -/
theorem exists_prevote (hkey : key x ≠ key nil)
    (hx : Backed C hist height .precommit round x) : ∃ i, Voted hist height i .prevote round x := by
  have hpolka := h.polka_of_precommits hkey hx
  obtain ⟨i, hi, -⟩ := hpolka.exists_voter hpolka
  exact ⟨i, hi⟩

/-- After a quorum has precommitted a value, every polka of a later round is for its key. -/
theorem polka_of_committed (hkey : key x ≠ key nil)
    (hx : Backed C hist height .precommit round x) (n : Nat) : ∀ pre post, hist = pre ++ post → pre.length ≤ n →
      ∀ round' y, round < round' → Backed C pre height .prevote round' y → key y = key x := by
  induction n with
  | zero =>
    -- an empty prefix backs nothing
    intro pre post _ hlen round' y _ hy
    obtain ⟨i, ⟨f, hf, -⟩, -⟩ := hy.exists_voter hx
    rw [length_eq_zero_iff.1 (Nat.le_zero.1 hlen)] at hf
    cases hf
  | succ n ih =>
    intro pre post hsplit hlen round' y hround hy
    -- a correct voter is in both quorums; its precommit came first
    obtain ⟨i, ⟨f, hf, hfh, hfp, hfr, rfl⟩, ⟨e, he, heh, hep, her, rfl⟩⟩ := hy.exists_voter hx
    obtain ⟨pre₁, post₁, rfl⟩ := append_of_mem hf
    have hsplit' : hist = pre₁ ++ (i, f) :: (post₁ ++ post) := by
      rw [hsplit, append_assoc, cons_append]
    have hltr : e.round < f.round := by omega
    have hlt : e.Before f := .inr ⟨heh.trans hfh.symm, .inl hltr⟩
    have hmem := h.mem_before hsplit' he hlt
    by_contra hne
    have hresp := h.respects
    rw [hsplit'] at hresp
    obtain ⟨r, z, hr₁, hr₂, hz, hzne⟩ := (pairwise_append.1 hresp).2.2 (i, e) hmem (i, f) mem_cons_self rfl
      (heh.trans hfh.symm) hep hfp hltr hkey hne
    -- the polka that overruled it was there before the prevote, so the induction hypothesis speaks about it
    have hbacked := h.backed pre₁ (i, f) (post₁ ++ post) hsplit' hfh r z hz
    have hlen₁ : pre₁.length ≤ n := by
      simp only [length_append, length_cons] at hlen
      omega
    have hr : round < r := her ▸ hr₁
    exact hzne (ih pre₁ _ hsplit' hlen₁ r z hr hbacked)

theorem agree_of_le {round' : Int} {y : V} (hx : key x ≠ key nil) (hy : key y ≠ key nil)
    (hbx : Backed C hist height .precommit round x) (hby : Backed C hist height .precommit round' y)
    (hle : round ≤ round') : key x = key y := by
  rcases lt_or_eq_of_le hle with hlt | rfl
  · have hpolka := h.polka_of_precommits hy hby
    exact (h.polka_of_committed hx hbx hist.length hist [] (by simp) le_rfl round' y hlt hpolka).symm
  · obtain ⟨i, hix, hiy⟩ := hbx.exists_voter hby
    rw [h.unique hix hiy]

/-- **Agreement**: two values that quorums have precommitted have the same key. -/
theorem agree {round' : Int} {y : V} (hx : key x ≠ key nil) (hy : key y ≠ key nil)
    (hbx : Backed C hist height .precommit round x) (hby : Backed C hist height .precommit round' y) :
    key x = key y := by
  rcases le_total round round' with hle | hle
  · exact h.agree_of_le hx hy hbx hby hle
  · exact (h.agree_of_le hy hx hby hbx hle).symm

end

end History

end Locking
