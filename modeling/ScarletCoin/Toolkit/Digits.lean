import Mathlib.Data.List.Induction
import Mathlib.Tactic.Ring
import Mathlib.Algebra.Order.Ring.Nat
import Mathlib.Tactic.Common

/-!
# Digit strings of a fixed length

The digits of a number in a base, highest first and as many as one asks for (`digitsOf`), and the
number that digits spell (`spell`). Both ways round: digits within the base are those of what they
spell (`digitsOf_spell`), and a number that fits is spelled by its digits (`spell_digitsOf`).
-/

set_option autoImplicit false

namespace Toolkit

variable {b : Nat}

/-- The number that digits spell, the highest first. -/
def spell (b : Nat) (ds : List Nat) : Nat := ds.foldl (fun n d => n * b + d) 0

/-- The lowest digits of a number, the highest of them first. -/
def digitsOf (b : Nat) : Nat → Nat → List Nat
  | 0, _ => []
  | k + 1, n => digitsOf b k (n / b) ++ [n % b]

@[simp] theorem spell_nil : spell b [] = 0 := rfl

@[simp] theorem spell_concat (ds : List Nat) (d : Nat) :
    spell b (ds ++ [d]) = spell b ds * b + d := by
  rw [spell, List.foldl_append]
  rfl

theorem spell_append (xs ys : List Nat) :
    spell b (xs ++ ys) = spell b xs * b ^ ys.length + spell b ys := by
  induction ys using List.reverseRecOn with
  | nil => simp
  | append_singleton ys d ih =>
    rw [← List.append_assoc, spell_concat, spell_concat, ih, List.length_append,
      List.length_singleton, pow_succ]
    ring

theorem spell_replicate_zero (k : Nat) : spell b (List.replicate k 0) = 0 := by
  induction k with
  | zero => rfl
  | succ k ih => rw [List.replicate_succ', spell_concat, ih, Nat.zero_mul]

@[simp] theorem length_digitsOf (k n : Nat) : (digitsOf b k n).length = k := by
  induction k generalizing n with
  | zero => rfl
  | succ k ih => rw [digitsOf, List.length_append, ih, List.length_singleton]

theorem lt_of_mem_digitsOf (hb : 0 < b) {k n d : Nat} (h : d ∈ digitsOf b k n) : d < b := by
  induction k generalizing n with
  | zero => cases h
  | succ k ih =>
    rcases List.mem_append.mp h with h | h
    · exact ih h
    · rw [List.mem_singleton.mp h]
      exact Nat.mod_lt n hb

theorem spell_digitsOf {k n : Nat} (h : n < b ^ k) : spell b (digitsOf b k n) = n := by
  induction k generalizing n with
  | zero =>
    rw [pow_zero, Nat.lt_one_iff] at h
    rw [h]
    rfl
  | succ k ih =>
    have hlt : n / b < b ^ k := Nat.div_lt_of_lt_mul (by rwa [Nat.mul_comm, ← pow_succ])
    rw [digitsOf, spell_concat, ih hlt]
    exact Nat.div_add_mod' n b

theorem digitsOf_spell {ds : List Nat} (h : ∀ d ∈ ds, d < b) :
    digitsOf b ds.length (spell b ds) = ds := by
  induction ds using List.reverseRecOn with
  | nil => rfl
  | append_singleton ds d ih =>
    have hd : d < b := h d (by simp)
    have hdiv : (spell b ds * b + d) / b = spell b ds := by
      rw [Nat.mul_comm, Nat.mul_add_div (Nat.zero_lt_of_lt hd), Nat.div_eq_of_lt hd, Nat.add_zero]
    have hmod : (spell b ds * b + d) % b = d := by
      rw [Nat.mul_add_mod_self_right, Nat.mod_eq_of_lt hd]
    rw [List.length_append, List.length_singleton, digitsOf, spell_concat, hdiv, hmod,
      ih fun x hx => h x (List.mem_append_left _ hx)]

/-- Each digit by itself. -/
theorem digitsOf_eq_map (k n : Nat) :
    digitsOf b k n = (List.range k).map fun i => n / b ^ (k - 1 - i) % b := by
  induction k generalizing n with
  | zero => rfl
  | succ k ih =>
    rw [digitsOf, ih, List.range_succ, List.map_append, List.map_singleton]
    congr 1
    · refine List.map_congr_left fun i hi => ?_
      have hlt := List.mem_range.mp hi
      obtain ⟨e, he⟩ : ∃ e, k - i = e + 1 := ⟨k - i - 1, by omega⟩
      rw [Nat.div_div_eq_div_mul, show k + 1 - 1 - i = e + 1 by omega, show k - 1 - i = e by omega,
        pow_succ, Nat.mul_comm]
    · rw [Nat.add_sub_cancel, Nat.sub_self, pow_zero, Nat.div_one]

end Toolkit
