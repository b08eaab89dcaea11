import Mathlib.Data.List.Basic

/-!
# Frames one after the other

A frame is self-delimiting if the front of a string shows which frame it starts with.
-/

namespace Frames

open List

variable {α β : Type*}

def SelfDelimiting (enc : α → List β) (P : α → Prop) : Prop :=
  ∀ a b, P a → P b → ∀ x y, enc a ++ x = enc b ++ y → a = b

theorem SelfDelimiting.split {enc : α → List β} {P : α → Prop} (h : SelfDelimiting enc P) (hne : ∀ a, enc a ≠ []) :
    ∀ {as bs : List α} {x : List β}, (∀ a ∈ as, P a) → (∀ b ∈ bs, P b) → as.flatMap enc ++ x = bs.flatMap enc →
      ∃ cs, bs = as ++ cs ∧ x = cs.flatMap enc
  | [], bs, x, _, _, he => ⟨bs, rfl, he⟩
  | a :: as, [], x, _, _, he => by
    rw [flatMap_cons, append_assoc, flatMap_nil] at he
    exact absurd (append_eq_nil_iff.1 he).1 (hne a)
  | a :: as, b :: bs, x, ha, hb, he => by
    rw [flatMap_cons, flatMap_cons, append_assoc] at he
    cases h a b (ha a mem_cons_self) (hb b mem_cons_self) _ _ he
    obtain ⟨cs, rfl, hx⟩ := split h hne (fun c hc => ha c (mem_cons_of_mem a hc))
      (fun c hc => hb c (mem_cons_of_mem a hc)) (append_cancel_left he)
    exact ⟨cs, rfl, hx⟩

end Frames
