import Demars.Lib.Crash

/-!
# Tables with formatted keys

A table is a function from keys to values; `puts` is the table after a list of writes, and `Writes` describes a
program by its list of writes. `decimal` is the text of a number in a key, which a separator ends.
-/

namespace Table

open Crash Prog

variable {K V : Type} [DecidableEq K]

def puts (t : K → V) (ws : List (K × V)) : K → V := ws.foldl (fun t w => Function.update t w.1 w.2) t

@[simp] theorem puts_cons (t : K → V) (w : K × V) (ws : List (K × V)) :
    puts t (w :: ws) = puts (Function.update t w.1 w.2) ws := rfl

theorem puts_of_ne {k : K} : ∀ {ws : List (K × V)} {t : K → V}, (∀ w ∈ ws, w.1 ≠ k) → puts t ws k = t k
  | [], _, _ => rfl
  | w :: ws, t, h => by
    rw [puts_cons, puts_of_ne fun w' hw' => h w' (List.mem_cons_of_mem w hw')]
    exact Function.update_of_ne (h w List.mem_cons_self).symm _ _

theorem puts_of_mem {k : K} {v : V} :
    ∀ {ws : List (K × V)} {t : K → V}, (k, v) ∈ ws → (∀ w ∈ ws, w.1 = k → w.2 = v) → puts t ws k = v
  | w :: ws, t, hmem, hall => by
    rw [puts_cons]
    have hall' : ∀ w' ∈ ws, w'.1 = k → w'.2 = v := fun w' hw' => hall w' (List.mem_cons_of_mem w hw')
    by_cases hlater : ∃ w' ∈ ws, w'.1 = k
    · obtain ⟨w', hw', hk⟩ := hlater
      refine puts_of_mem ?_ hall'
      rwa [← hk, ← hall' w' hw' hk]
    · have hw : w = (k, v) := by
        rcases List.mem_cons.1 hmem with rfl | hmem
        · rfl
        · exact absurd ⟨_, hmem, rfl⟩ hlater
      rw [puts_of_ne fun w' hw' hk => hlater ⟨w', hw', hk⟩, hw]
      exact Function.update_self _ _ _

/-! ## Programs that write to a table -/

/-- The tables after each of some writes. -/
def tables (t : K → V) : List (K × V) → List (K → V)
  | [] => []
  | w :: ws => Function.update t w.1 w.2 :: tables (Function.update t w.1 w.2) ws

theorem last_tables : ∀ (t : K → V) (ws : List (K × V)), last t (tables t ws) = puts t ws
  | _, [] => rfl
  | t, w :: ws => last_tables (Function.update t w.1 w.2) ws

theorem tables_append :
    ∀ (t : K → V) (ws ws' : List (K × V)), tables t (ws ++ ws') = tables t ws ++ tables (puts t ws) ws'
  | _, [], _ => rfl
  | t, w :: ws, ws' => by
    rw [List.cons_append, tables, tables, List.cons_append, tables_append (Function.update t w.1 w.2) ws ws', puts_cons]

theorem take_tables : ∀ (t : K → V) (ws : List (K × V)) (n : Nat), (tables t ws).take n = tables t (ws.take n)
  | _, [], n => by cases n <;> rfl
  | _, _ :: _, 0 => rfl
  | t, w :: ws, n + 1 => by rw [tables, List.take_succ_cons, take_tables _ ws, List.take_succ_cons, tables]

variable {E α β : Type}

def set (k : K) (v : V) : Prog (K → V) E Unit := Prog.write fun t => Function.update t k v

def Writes (p : Prog (K → V) E α) (t : K → V) (ws : List (K × V)) (r : Except E α) : Prop := p t = (tables t ws, r)

variable {p : Prog (K → V) E α} {f : α → Prog (K → V) E β} {t : K → V} {ws ws' : List (K × V)} {r : Except E α}

theorem writes_pure (a : α) (t : K → V) : Writes (pure a : Prog (K → V) E α) t [] (.ok a) := rfl

theorem writes_stop (e : E) (t : K → V) : Writes (stop e : Prog (K → V) E α) t [] (.error e) := rfl

theorem writes_set (k : K) (v : V) (t : K → V) : Writes (set k v : Prog (K → V) E Unit) t [(k, v)] (.ok ()) := rfl

theorem Writes.bind {a : α} {r : Except E β} (hp : Writes p t ws (.ok a)) (hf : Writes (f a) (puts t ws) ws' r) :
    Writes (p >>= f) t (ws ++ ws') r := by
  unfold Writes at hf ⊢
  rw [tables_append]
  refine seq hp ?_
  rwa [last_tables]

theorem Writes.bind_error {e : E} (hp : Writes p t ws (.error e)) :
    Writes (p >>= f) t ws (.error e) := Prog.bind_error hp

theorem Writes.set_bind {k : K} {v : V} {f : Unit → Prog (K → V) E β} {r : Except E β}
    (hf : Writes (f ()) (Function.update t k v) ws r) : Writes (set k v >>= f) t ((k, v) :: ws) r :=
  (writes_set k v t).bind hf

theorem Writes.lift_bind {a : α} {x : Except E α} {r : Except E β} (hx : x = .ok a) (hf : Writes (f a) t ws r) :
    Writes (lift x >>= f) t ws r := by
  subst hx
  exact hf

theorem Writes.snd (h : Writes p t ws r) : (p t).2 = r := congrArg Prod.snd h

theorem Writes.final (h : Writes p t ws r) : p.final t = puts t ws := by
  rw [Prog.final, h]
  exact last_tables t ws

def after (p : Prog (K → V) E α) (t : K → V) (n : Nat) : K → V := last t ((p t).1.take n)

theorem Writes.after (h : Writes p t ws r) (n : Nat) : after p t n = puts t (ws.take n) := by
  rw [Table.after, h, take_tables, last_tables]

end Table

/-! ## Numbers in keys -/

def decimalNat (n : Nat) : List UInt8 :=
  if n = 0 then [48] else (Nat.digits 10 n).reverse.map fun d => (48 + d).toUInt8

def decimal (z : Int) : List UInt8 := if z < 0 then 45 :: decimalNat z.natAbs else decimalNat z.natAbs

theorem toNat_digit {d : Nat} (h : d < 10) : (48 + d).toUInt8.toNat = 48 + d := by
  rw [UInt8.toNat_ofNat']
  omega

theorem mem_decimalNat {n : Nat} {b : UInt8} (h : b ∈ decimalNat n) : 48 ≤ b.toNat ∧ b.toNat < 58 := by
  unfold decimalNat at h
  split_ifs at h
  · rw [List.mem_singleton.1 h]
    decide
  · obtain ⟨d, hd, rfl⟩ := List.mem_map.1 h
    have hlt : d < 10 := Nat.digits_lt_base (by norm_num) (List.mem_reverse.1 hd)
    rw [toNat_digit hlt]
    omega

/-- The number that digits stand for. -/
def valueOf (bz : List UInt8) : Nat := Nat.ofDigits 10 ((bz.map fun b => b.toNat - 48).reverse)

theorem valueOf_decimalNat (n : Nat) : valueOf (decimalNat n) = n := by
  unfold valueOf decimalNat
  split_ifs with h0
  · simp [h0]
  · have hdigits : (Nat.digits 10 n).map ((fun b : UInt8 => b.toNat - 48) ∘ fun d => (48 + d).toUInt8) =
      Nat.digits 10 n := by
      refine (List.map_congr_left fun d hd => ?_).trans (List.map_id _)
      have hlt : d < 10 := Nat.digits_lt_base (by norm_num) hd
      rw [Function.comp_apply, toNat_digit hlt, id_eq]
      omega
    rw [List.map_map, ← List.map_reverse, List.reverse_reverse, hdigits, Nat.ofDigits_digits]

theorem decimalNat_injective : Function.Injective decimalNat := fun m n h => by
  rw [← valueOf_decimalNat m, h, valueOf_decimalNat]

theorem mem_decimal {z : Int} {b : UInt8} (h : b ∈ decimal z) : b = 45 ∨ 48 ≤ b.toNat ∧ b.toNat < 58 := by
  unfold decimal at h
  split_ifs at h
  · exact (List.mem_cons.1 h).imp_right mem_decimalNat
  · exact .inr (mem_decimalNat h)

theorem decimal_injective : Function.Injective decimal := by
  intro y z h
  have hsign : ∀ n bz, decimalNat n ≠ 45 :: bz := fun n bz he => by
    have := (mem_decimalNat (n := n) (b := 45) (by rw [he]; exact List.mem_cons_self)).1
    exact absurd this (by decide)
  unfold decimal at h
  split_ifs at h with hy hz hz
  · have := decimalNat_injective (List.cons.inj h).2
    omega
  · exact absurd h.symm (hsign _ _)
  · exact absurd h (hsign _ _)
  · have := decimalNat_injective h
    omega

/-- What stands before the first separator. -/
theorem append_cons_inj_of_notMem {α : Type} {sep : α} : ∀ {x y s t : List α}, sep ∉ x → sep ∉ y →
    x ++ sep :: s = y ++ sep :: t → x = y ∧ s = t
  | [], [], _, _, _, _, h => ⟨rfl, (List.cons.inj h).2⟩
  | [], b :: y, _, _, _, hy, h => absurd ((List.cons.inj h).1 ▸ List.mem_cons_self) hy
  | a :: x, [], _, _, hx, _, h => absurd ((List.cons.inj h).1 ▸ List.mem_cons_self) hx
  | a :: x, b :: y, _, _, hx, hy, h => by
    obtain ⟨hab, htail⟩ := List.cons.inj h
    obtain ⟨hxy, hst⟩ :=
      append_cons_inj_of_notMem (List.not_mem_of_not_mem_cons hx) (List.not_mem_of_not_mem_cons hy) htail
    exact ⟨by rw [hab, hxy], hst⟩

theorem decimal_append_cons_inj {y z : Int} {sep : UInt8} {s t : List UInt8} (hsign : sep ≠ 45)
    (hdigit : 58 ≤ sep.toNat ∨ sep.toNat < 48) (h : decimal y ++ sep :: s = decimal z ++ sep :: t) : y = z ∧ s = t := by
  have hfree : ∀ x : Int, sep ∉ decimal x := fun x hmem => by
    rcases mem_decimal hmem with rfl | hd
    · exact hsign rfl
    · omega
  obtain ⟨hy, hst⟩ := append_cons_inj_of_notMem (hfree y) (hfree z) h
  exact ⟨decimal_injective hy, hst⟩

theorem decimal_ne_nil (z : Int) : decimal z ≠ [] := by
  have hnat : ∀ n, decimalNat n ≠ [] := fun n => by
    unfold decimalNat
    split_ifs with h0
    · exact List.cons_ne_nil _ _
    · simpa [Nat.digits_eq_nil_iff_eq_zero] using h0
  unfold decimal
  split_ifs
  · exact List.cons_ne_nil _ _
  · exact hnat _
