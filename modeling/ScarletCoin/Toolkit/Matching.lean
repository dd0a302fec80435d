import Mathlib.Data.List.NodupEquivFin
import Mathlib.Data.List.Forall2

/-!
# Greedy matching in order

`Matched p xs ys` says that every item of `xs` can be given an item of `ys` that fits it, with the
order kept and no item of `ys` given twice. The greedy pass gives each item the first one left that
fits (`greedyMatch`), and finds such an assignment if there is one at all (`greedyMatch_iff`): a
first item that fits can always be exchanged for the one an assignment uses.
-/

set_option autoImplicit false

namespace Toolkit

variable {α β : Type} {p : α → β → Bool} {x : α} {y : β} {xs : List α} {ys : List β}

/-- An assignment in order: an increasing map of positions to positions of items that fit. -/
def Matched (p : α → β → Bool) (xs : List α) (ys : List β) : Prop :=
  ∃ f : Fin xs.length ↪o Fin ys.length, ∀ i, p (xs.get i) (ys.get (f i)) = true

/-- The greedy pass: each item takes the first item left that fits. -/
def greedyMatch (p : α → β → Bool) : List α → List β → Bool
  | [], _ => true
  | _ :: _, [] => false
  | x :: xs, y :: ys => if p x y then greedyMatch p xs ys else greedyMatch p (x :: xs) ys

/-! ## Assignments as sublists -/

/-- The items that are given away form a sublist. -/
theorem matched_iff_sublist :
    Matched p xs ys ↔ ∃ zs, zs.Sublist ys ∧ List.Forall₂ (fun x z => p x z = true) xs zs := by
  constructor
  · rintro ⟨f, hf⟩
    refine ⟨List.ofFn fun i => ys.get (f i), ?_, ?_⟩
    · rw [List.sublist_iff_exists_fin_orderEmbedding_get_eq]
      have hlen : (List.ofFn fun i => ys.get (f i)).length = xs.length := List.length_ofFn
      refine ⟨(Fin.castOrderIso hlen).toOrderEmbedding.trans f, fun i => ?_⟩
      rw [List.get_ofFn]
      rfl
    · rw [List.forall₂_iff_get]
      refine ⟨List.length_ofFn.symm, fun i hi _ => ?_⟩
      simpa using hf ⟨i, hi⟩
  · rintro ⟨zs, hsub, hfit⟩
    obtain ⟨f, hf⟩ := List.sublist_iff_exists_fin_orderEmbedding_get_eq.mp hsub
    have hlen : xs.length = zs.length := hfit.length_eq
    refine ⟨(Fin.castOrderIso hlen).toOrderEmbedding.trans f, fun i => ?_⟩
    have hi := (List.forall₂_iff_get.mp hfit).2 i i.isLt (hlen ▸ i.isLt)
    rw [show ys.get (((Fin.castOrderIso hlen).toOrderEmbedding.trans f) i) = _ from (hf _).symm]
    exact hi

theorem matched_nil : Matched p [] ys :=
  matched_iff_sublist.mpr ⟨[], List.nil_sublist ys, .nil⟩

theorem not_matched_nil : ¬ Matched p (x :: xs) [] := by
  rintro ⟨f, -⟩
  exact (f ⟨0, Nat.succ_pos _⟩).elim0

/-- An item that does not fit the first item is matched further on. -/
theorem matched_cons_of_not (h : p x y = false) :
    Matched p (x :: xs) (y :: ys) ↔ Matched p (x :: xs) ys := by
  rw [matched_iff_sublist, matched_iff_sublist]
  constructor
  · rintro ⟨zs, hsub, hfit⟩
    cases hsub with
    | cons _ hsub => exact ⟨zs, hsub, hfit⟩
    | cons_cons _ hsub =>
      cases hfit with
      | cons hxy _ =>
        rw [h] at hxy
        cases hxy
  · rintro ⟨zs, hsub, hfit⟩
    exact ⟨zs, hsub.cons y, hfit⟩

/-- An item that fits can be taken at once: whatever an assignment gave instead comes later. -/
theorem matched_cons_of_fit (h : p x y = true) :
    Matched p (x :: xs) (y :: ys) ↔ Matched p xs ys := by
  rw [matched_iff_sublist, matched_iff_sublist]
  constructor
  · rintro ⟨zs, hsub, hfit⟩
    cases hfit with
    | cons _ hrest =>
      cases hsub with
      | cons _ hsub => exact ⟨_, (List.sublist_cons_self _ _).trans hsub, hrest⟩
      | cons_cons _ hsub => exact ⟨_, hsub, hrest⟩
  · rintro ⟨zs, hsub, hfit⟩
    exact ⟨y :: zs, hsub.cons_cons y, .cons h hfit⟩

/-- The greedy pass succeeds exactly if there is an assignment. -/
theorem greedyMatch_iff : greedyMatch p xs ys = true ↔ Matched p xs ys := by
  induction ys generalizing xs with
  | nil =>
    cases xs with
    | nil => exact iff_of_true rfl matched_nil
    | cons x xs => exact iff_of_false Bool.false_ne_true not_matched_nil
  | cons y ys ih =>
    cases xs with
    | nil => exact iff_of_true rfl matched_nil
    | cons x xs =>
      unfold greedyMatch
      by_cases hfit : p x y = true
      · rw [if_pos hfit, ih, matched_cons_of_fit hfit]
      · rw [if_neg hfit, ih, matched_cons_of_not ((Bool.not_eq_true _).mp hfit)]

end Toolkit
