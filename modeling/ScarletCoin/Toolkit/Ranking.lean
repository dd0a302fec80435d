import Mathlib.Data.List.Sort

/-!
# The best of a list, and counting in lists

Sorting a list by a total order and keeping the first few elements keeps the best ones: an element
that is left out is preceded by as many elements as are kept (`mem_take_insertionSort`). Marking
more elements takes as many out of the count of those that are not marked (`length_filter_marked`).
-/

set_option autoImplicit false

namespace Toolkit

universe u

variable {α : Type u} {r : α → α → Prop} [DecidableRel r]

/-- An element of a list is among the first `k` of the sorted list, or `k` others are and come
before it. -/
theorem mem_take_insertionSort [Std.Total r] [IsTrans α r] {l : List α} {x : α} (hx : x ∈ l)
    (k : Nat) : x ∈ (l.insertionSort r).take k ∨
      ((l.insertionSort r).take k).length = k ∧ ∀ y ∈ (l.insertionSort r).take k, r y x := by
  have hsplit : (l.insertionSort r).take k ++ (l.insertionSort r).drop k = l.insertionSort r :=
    List.take_append_drop k _
  have hmem : x ∈ (l.insertionSort r).take k ++ (l.insertionSort r).drop k := by
    rw [hsplit]
    exact (List.mem_insertionSort r).mpr hx
  have hsorted : ((l.insertionSort r).take k ++ (l.insertionSort r).drop k).Pairwise r := by
    rw [hsplit]
    exact List.pairwise_insertionSort r l
  rcases List.mem_append.mp hmem with htake | hdrop
  · exact .inl htake
  · refine .inr ⟨?_, fun y hy => (List.pairwise_append.mp hsorted).2.2 y hy x hdrop⟩
    have hpos : 0 < ((l.insertionSort r).drop k).length := List.length_pos_of_mem hdrop
    rw [List.length_drop] at hpos
    rw [List.length_take]
    omega

/-! ## Counting what is not marked -/

section Marks

variable {β : Type u} [BEq β] [LawfulBEq β] (f : α → β) (known : List β)

/-- Marking a value takes its occurrences out of the count. -/
theorem length_filter_mark {x : β} (hx : x ∉ known) (l : List α) :
    (l.filter fun a => !(known ++ [x]).contains (f a)).length +
      (l.filter fun a => f a == x).length = (l.filter fun a => !known.contains (f a)).length := by
  induction l with
  | nil => rfl
  | cons a l ih =>
    by_cases hfa : f a = x
    · subst hfa
      simp [hx] at ih ⊢
      omega
    · by_cases hknown : f a ∈ known
      · simp [hknown, hfa] at ih ⊢
        omega
      · simp [hknown, hfa] at ih ⊢
        omega

/-- Marking values that occur once each and were not marked takes as many out of the count. -/
theorem length_filter_marked {l marks : List β} (hl : l.Nodup) (hmarks : marks.Nodup)
    (hnew : ∀ x ∈ marks, x ∈ l ∧ x ∉ known) :
    (l.filter fun a => !(known ++ marks).contains a).length + marks.length =
      (l.filter fun a => !known.contains a).length := by
  have hsplit : (l.filter fun a => !known.contains a).Perm
      ((l.filter fun a => !(known ++ marks).contains a) ++ marks) := by
    refine (List.perm_ext_iff_of_nodup (hl.filter _) ?_).mpr fun a => ?_
    · refine List.Nodup.append (hl.filter _) hmarks fun a ha hmark => ?_
      have hnot := (List.mem_filter.mp ha).2
      simp [hmark] at hnot
    · simp only [List.mem_append, List.mem_filter]
      constructor
      · rintro ⟨ha, hunknown⟩
        by_cases hmark : a ∈ marks
        · exact .inr hmark
        · exact .inl ⟨ha, by simpa [hmark] using hunknown⟩
      · rintro (⟨ha, hunknown⟩ | hmark)
        · exact ⟨ha, by simp at hunknown ⊢; exact hunknown.1⟩
        · exact ⟨(hnew a hmark).1, by simpa using (hnew a hmark).2⟩
  rw [hsplit.length_eq, List.length_append]

end Marks

end Toolkit
