import Mathlib.Data.List.Perm.Subperm
import Mathlib.Algebra.GroupWithZero.Nat
import Mathlib.Algebra.BigOperators.Group.List.Basic

/-!
# The largest entries of a list

In a list by descending value the first entries are worth the most: no other choice of as many
entries is worth more than the prefix of that length (`total_le_take`). So if some choice reaches a
requirement that depends on its length alone, the prefix of that length reaches it too
(`reaches_take`), and the shortest prefix that does is a shortest choice.
-/

set_option autoImplicit false

namespace Toolkit.Greedy

variable {α : Type} (value : α → Nat)

/-- The value of entries together. -/
def total (xs : List α) : Nat := (xs.map value).sum

/-- The list is by descending value. -/
def Descending (xs : List α) : Prop := xs.Pairwise fun a b => value b ≤ value a

@[simp] theorem total_nil : total value [] = 0 := rfl

@[simp] theorem total_cons (x : α) (xs : List α) :
    total value (x :: xs) = value x + total value xs := by
  rw [total, List.map_cons, List.sum_cons, total]

@[simp] theorem total_append (xs ys : List α) :
    total value (xs ++ ys) = total value xs + total value ys := by
  rw [total, List.map_append, List.sum_append, total, total]

variable {value}

theorem total_perm {xs ys : List α} (h : xs.Perm ys) : total value xs = total value ys :=
  (h.map value).sum_nat

/-- A prefix of the tail, shifted back by an entry that is worth at least as much, loses nothing. -/
theorem total_take_le_cons {x : α} {xs : List α} (h : ∀ y ∈ xs, value y ≤ value x) (n : Nat) :
    total value (xs.take n) ≤ total value ((x :: xs).take n) := by
  cases n with
  | zero => exact Nat.le_refl _
  | succ n =>
    rw [List.take_succ_cons, total_cons, List.take_add_one, total_append]
    have hlast : total value xs[n]?.toList ≤ value x := by
      cases hn : xs[n]? with
      | none => exact Nat.zero_le _
      | some y =>
        have hy := h y (List.mem_of_getElem? hn)
        simpa using hy
    omega

/-- A sublist is worth at most the prefix of its length. -/
theorem total_le_take_of_sublist {s xs : List α} (hxs : Descending value xs) (hs : s.Sublist xs) :
    total value s ≤ total value (xs.take s.length) := by
  induction hs with
  | slnil => exact Nat.le_refl _
  | @cons s xs x hs ih =>
    obtain ⟨hhead, htail⟩ := List.pairwise_cons.mp hxs
    exact Nat.le_trans (ih htail) (total_take_le_cons hhead s.length)
  | @cons_cons s xs x hs ih =>
    obtain ⟨-, htail⟩ := List.pairwise_cons.mp hxs
    rw [List.length_cons, List.take_succ_cons, total_cons, total_cons]
    exact Nat.add_le_add_left (ih htail) _

/-- No choice of entries is worth more than the prefix of its length. -/
theorem total_le_take {s xs : List α} (hxs : Descending value xs) (hs : s.Subperm xs) :
    total value s ≤ total value (xs.take s.length) := by
  obtain ⟨t, hperm, hsub⟩ := hs
  rw [← total_perm hperm, ← hperm.length_eq]
  exact total_le_take_of_sublist hxs hsub

/-- If a choice reaches a requirement on its length, the prefix of that length reaches it. -/
theorem reaches_take {required : Nat → Nat} {s xs : List α} (hxs : Descending value xs)
    (hs : s.Subperm xs) (h : required s.length ≤ total value s) :
    required s.length ≤ total value (xs.take s.length) :=
  Nat.le_trans h (total_le_take hxs hs)

end Toolkit.Greedy
