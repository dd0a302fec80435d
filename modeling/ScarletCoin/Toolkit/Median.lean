import Mathlib.Data.List.Sort
import Mathlib.Order.Defs.LinearOrder

/-!
# Low medians of sliding windows

The low median of a list is the item in the middle of the sorted list, the lower one of two. It is
at least `m` exactly if at most half of the other items are below `m` (`le_lowMedian_iff`). So when
a list grows at the front by items that are at least the median of the window behind them, the
medians never go down (`lowMedian_slide`), also while the window is still filling up.
-/

set_option autoImplicit false

namespace Toolkit

variable {α : Type} [LinearOrder α] {xs s : List α} {x y m t : α}

/-- The low median. -/
def lowMedian (xs : List α) : Option α := (xs.insertionSort (· ≤ ·))[(xs.length - 1) / 2]?

/-- A list that is not empty has a median. -/
theorem exists_lowMedian (h : xs ≠ []) : ∃ x, lowMedian xs = some x := by
  have hlen := List.length_pos_iff.mpr h
  unfold lowMedian
  rw [List.getElem?_eq_getElem (by rw [List.length_insertionSort]; omega)]
  exact ⟨_, rfl⟩

/-- The items below `m` come first in a sorted list. -/
theorem le_getElem?_iff (hs : s.Pairwise (· ≤ ·)) {i : Nat} (hx : s[i]? = some x) :
    m ≤ x ↔ s.countP (fun a => decide (a < m)) ≤ i := by
  induction s generalizing i with
  | nil => cases hx
  | cons a s ih =>
    obtain ⟨hall, hsorted⟩ := List.pairwise_cons.mp hs
    by_cases ha : a < m
    · rw [List.countP_cons_of_pos (by simpa using ha)]
      cases i with
      | zero =>
        obtain rfl := Option.some.inj hx
        exact iff_of_false (not_le_of_gt ha) (by omega)
      | succ i =>
        rw [ih hsorted hx]
        omega
    · have hnone : ∀ b ∈ a :: s, m ≤ b := by
        intro b hb
        rcases List.mem_cons.mp hb with rfl | hb
        · exact le_of_not_gt ha
        · exact le_trans (le_of_not_gt ha) (hall b hb)
      have hcount : (a :: s).countP (fun b => decide (b < m)) = 0 :=
        List.countP_eq_zero.mpr fun b hb => by simpa using hnone b hb
      rw [hcount]
      exact iff_of_true (hnone x (List.mem_of_getElem? hx)) (Nat.zero_le i)

theorem le_lowMedian_iff (hx : lowMedian xs = some x) :
    m ≤ x ↔ xs.countP (fun a => decide (a < m)) ≤ (xs.length - 1) / 2 := by
  have hsorted : (xs.insertionSort (· ≤ ·)).Pairwise (· ≤ ·) := List.pairwise_insertionSort _ xs
  rw [le_getElem?_iff hsorted hx, (List.perm_insertionSort _ xs).countP_eq]

/-- An item in front that is at least the median of the window does not lower the median of the next
window. -/
theorem lowMedian_slide {k : Nat} {ts : List α} (hx : lowMedian (ts.take k) = some x)
    (hy : lowMedian ((t :: ts).take k) = some y) (ht : x ≤ t) : x ≤ y := by
  have hbelow := (le_lowMedian_iff hx).mp (le_refl x)
  rw [le_lowMedian_iff hy]
  cases k with
  | zero => cases hx
  | succ k =>
    rw [List.take_succ_cons, List.countP_cons_of_neg (by simpa using ht), List.length_cons]
    have hsub : (ts.take k).countP (fun a => decide (a < x)) ≤
        (ts.take (k + 1)).countP (fun a => decide (a < x)) :=
      (List.take_sublist_take_left (Nat.le_succ k)).countP_le
    have hlen : (ts.take (k + 1)).length ≤ (ts.take k).length + 1 := by
      rw [List.length_take, List.length_take]
      omega
    omega

end Toolkit
