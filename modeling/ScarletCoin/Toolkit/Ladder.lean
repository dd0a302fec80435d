import Mathlib.Tactic

/-!
# Samples that thin out

A ladder down a list takes the first ten items, then leaves gaps that double: the items at the
distances `ladder 0, ladder 1, …` from the head. `rungs k xs` is the rest of a sample whose last `k`
items are taken; how many items it has is read off the distances (`length_rungs_le`).
-/

set_option autoImplicit false

namespace Toolkit

universe u

/-- How far the item with a number is from the first one. -/
def ladder (i : Nat) : Nat := if i < 10 then i else 7 + 2 ^ (i - 8)

/-- How far the next item is from the last one, once `k` items are taken. -/
def gap (k : Nat) : Nat := if k < 10 then 1 else 2 ^ (k - 9)

theorem gap_pos (k : Nat) : 0 < gap k := by
  unfold gap
  split
  · exact Nat.one_pos
  · exact Nat.two_pow_pos _

theorem gap_succ (k : Nat) : gap (k + 1) = if 10 ≤ k + 1 then gap k * 2 else gap k := by
  unfold gap
  by_cases hsmall : k + 1 < 10
  · rw [if_pos hsmall, if_neg (by omega), if_pos (by omega)]
  · rw [if_neg hsmall, if_pos (by omega)]
    by_cases hnine : k < 10
    · obtain rfl : k = 9 := by omega
      rfl
    · rw [if_neg hnine, ← pow_succ]
      congr 1
      omega

theorem ladder_succ (i : Nat) : ladder (i + 1) = ladder i + gap (i + 1) := by
  unfold ladder gap
  by_cases hsmall : i + 1 < 10
  · rw [if_pos hsmall, if_pos (by omega), if_pos hsmall]
  · rw [if_neg hsmall, if_neg hsmall]
    by_cases hnine : i < 10
    · obtain rfl : i = 9 := by omega
      rfl
    · have hexp : i + 1 - 8 = i - 8 + 1 := by omega
      have hgap : i + 1 - 9 = i - 8 := by omega
      rw [if_neg hnine, hexp, hgap, pow_succ]
      omega

variable {α β : Type u}

/-- The rest of a sample of which `k` items are taken; the next one is the head of the list. -/
def rungs : Nat → List α → List α
  | _, [] => []
  | k, x :: xs => x :: rungs (k + 1) (xs.drop (gap (k + 1) - 1))
  termination_by _ xs => xs.length
  decreasing_by
    rw [List.length_drop, List.length_cons]
    omega

@[simp] theorem rungs_nil (k : Nat) : rungs k ([] : List α) = [] := by rw [rungs]

theorem rungs_cons (k : Nat) (x : α) (xs : List α) :
    rungs k (x :: xs) = x :: rungs (k + 1) ((x :: xs).drop (gap (k + 1))) := by
  have hpos := gap_pos (k + 1)
  obtain ⟨g, hg⟩ : ∃ g, gap (k + 1) = g + 1 := ⟨gap (k + 1) - 1, by omega⟩
  rw [rungs, hg]
  rfl

theorem rungs_map (k : Nat) (f : α → β) (xs : List α) :
    rungs k (xs.map f) = (rungs k xs).map f := by
  fun_induction rungs k xs with
  | case1 k => rw [List.map_nil, rungs_nil]
  | case2 k x xs ih => rw [List.map_cons, rungs, ← List.map_drop, ih, List.map_cons]

theorem rungs_sublist (k : Nat) (xs : List α) : (rungs k xs).Sublist xs := by
  fun_induction rungs k xs with
  | case1 k => exact List.Sublist.slnil
  | case2 k x xs ih => exact (ih.trans (List.drop_sublist _ xs)).cons_cons x

/-- A sample has no more items than the ladder has distances within the list. -/
theorem length_rungs_le {k n : Nat} {xs : List α} (hlen : xs.length ≤ ladder (k + n) - ladder k) :
    (rungs k xs).length ≤ n := by
  induction n generalizing k xs with
  | zero =>
    rw [Nat.add_zero, Nat.sub_self] at hlen
    rw [List.eq_nil_of_length_eq_zero (Nat.le_zero.mp hlen), rungs_nil]
    exact Nat.le_refl 0
  | succ n ih =>
    cases xs with
    | nil => simp
    | cons x xs =>
      have hnext := ladder_succ k
      rw [rungs_cons, List.length_cons]
      refine Nat.succ_le_succ (ih ?_)
      rw [List.length_drop, show k + 1 + n = k + (n + 1) by omega]
      omega

end Toolkit
