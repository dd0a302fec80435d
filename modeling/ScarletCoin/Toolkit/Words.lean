import Mathlib.Data.List.SplitOn
import Mathlib.Tactic.Common

/-!
# Words between separators

The words of a list are its longest runs without separators (`wordsOf`). Words that are joined by
one separator are the words of the result (`wordsOf_intercalate`).
-/

set_option autoImplicit false

namespace Toolkit

variable {α : Type} (sep : α → Bool)

/-- The longest runs without separators. -/
def wordsOf (xs : List α) : List (List α) := (xs.splitOnP sep).filter fun w => !w.isEmpty

/-- Something, without separators. -/
def IsWord (w : List α) : Prop := w ≠ [] ∧ ∀ x ∈ w, sep x = false

variable {sep}

theorem wordsOf_of_isWord {w : List α} (h : IsWord sep w) : wordsOf sep w = [w] := by
  rw [wordsOf, List.splitOnP_eq_singleton h.2]
  simp [h.1]

theorem wordsOf_append {w : List α} (h : IsWord sep w) {x : α} (hx : sep x = true) (xs : List α) :
    wordsOf sep (w ++ x :: xs) = w :: wordsOf sep xs := by
  rw [wordsOf, List.splitOnP_append_cons_of_forall_mem h.2 x hx]
  simp [h.1, wordsOf]

/-- Joined words are the words of the result. -/
theorem wordsOf_intercalate {ws : List (List α)} (h : ∀ w ∈ ws, IsWord sep w) {x : α}
    (hx : sep x = true) : wordsOf sep ([x].intercalate ws) = ws := by
  induction ws with
  | nil => rfl
  | cons w ws ih =>
    have hw := h w List.mem_cons_self
    cases ws with
    | nil => rw [List.intercalate_singleton, wordsOf_of_isWord hw]
    | cons v ws =>
      rw [List.intercalate_cons_cons, List.append_assoc, List.singleton_append,
        wordsOf_append hw hx, ih fun u hu => h u (List.mem_cons_of_mem w hu)]

/-- The parts of a split hold no separators. -/
theorem not_sep_of_mem_splitOnP {xs w : List α} (h : w ∈ xs.splitOnP sep) :
    ∀ x ∈ w, sep x = false := by
  induction xs generalizing w with
  | nil =>
    rw [List.splitOnP_nil, List.mem_singleton] at h
    rw [h]
    exact fun x hx => absurd hx List.not_mem_nil
  | cons y xs ih =>
    rw [List.splitOnP_cons_eq_if_modifyHead] at h
    split at h
    · rcases List.mem_cons.mp h with rfl | h
      · exact fun x hx => absurd hx List.not_mem_nil
      · exact ih h
    · rename_i hy
      cases hparts : xs.splitOnP sep with
      | nil => exact absurd hparts (List.splitOnP_ne_nil sep xs)
      | cons v vs =>
        rw [hparts] at h ih
        rw [List.modifyHead_cons] at h
        rcases List.mem_cons.mp h with rfl | h
        · intro x hx
          rcases List.mem_cons.mp hx with rfl | hx
          · exact Bool.eq_false_iff.mpr hy
          · exact ih List.mem_cons_self x hx
        · exact ih (List.mem_cons_of_mem v h)

/-- Words are words. -/
theorem isWord_of_mem {xs w : List α} (h : w ∈ wordsOf sep xs) : IsWord sep w := by
  obtain ⟨hmem, hne⟩ := List.mem_filter.mp h
  exact ⟨by simpa using hne, not_sep_of_mem_splitOnP hmem⟩

end Toolkit
