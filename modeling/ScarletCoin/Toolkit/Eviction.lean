import Mathlib.Algebra.Order.BigOperators.Group.List
import Mathlib.Algebra.GroupWithZero.Nat
import Mathlib.Algebra.Order.Group.Nat
import Mathlib.Logic.Relation
import Mathlib.Tactic.Common

/-!
# Evicting items with what hangs on them

A list of items of which some hang on others. Taking an item out takes out everything that hangs on
it, `clearOf`. Eviction goes through the items in an order and takes them out as long as the rest
weighs too much. An item stays iff, whenever the turn of something that it hangs on comes, the rest
has become light enough (`mem_evict`), where the rest is described by the items alone and not by the
run.
-/

set_option autoImplicit false

namespace Toolkit

variable {α : Type} (R : α → α → Prop)

/-! ## What hangs on an item -/

/-- The first item is the second, or hangs on it through items of the list. -/
def Under (es : List α) : α → α → Prop :=
  Relation.ReflTransGen fun a b => a ∈ es ∧ b ∈ es ∧ R a b

variable {R} {es : List α}

theorem Under.target_mem {a b : α} (h : Under R es a b) (ha : a ∈ es) : b ∈ es := by
  rcases h.cases_tail with rfl | ⟨c, -, hstep⟩
  · exact ha
  · exact hstep.2.1

variable (R) in
open Classical in
/-- The items that hang on none of these. -/
noncomputable def clearOf (es gone : List α) : List α :=
  es.filter fun e => decide (∀ a ∈ gone, ¬ Under R es e a)

theorem mem_clearOf {gone : List α} {e : α} :
    e ∈ clearOf R es gone ↔ e ∈ es ∧ ∀ a ∈ gone, ¬ Under R es e a := by
  classical
  rw [clearOf, List.mem_filter, decide_eq_true_iff]

theorem clearOf_sublist (gone : List α) : (clearOf R es gone).Sublist es := by
  classical
  exact List.filter_sublist

theorem clearOf_congr {gone gone' : List α}
    (h : ∀ e ∈ es, (∀ a ∈ gone, ¬ Under R es e a) ↔ ∀ a ∈ gone', ¬ Under R es e a) :
    clearOf R es gone = clearOf R es gone' := by
  classical
  exact List.filter_congr fun e he => decide_eq_decide.mpr (h e he)

theorem clearOf_nil : clearOf R es [] = es := by
  classical
  exact List.filter_eq_self.mpr fun _ _ => decide_eq_true fun _ ha => absurd ha List.not_mem_nil

/-- Nothing that an item hangs on is taken out without it. -/
theorem under_clearOf {gone : List α} {e b : α} (he : e ∈ clearOf R es gone) :
    Under R (clearOf R es gone) e b ↔ Under R es e b := by
  constructor
  · refine Relation.ReflTransGen.mono ?_ _ _
    rintro a c ⟨ha, hc, hac⟩
    exact ⟨(clearOf_sublist gone).mem ha, (clearOf_sublist gone).mem hc, hac⟩
  · intro h
    induction h using Relation.ReflTransGen.head_induction_on with
    | refl => exact .refl
    | @head a c hstep _ ih =>
      obtain ⟨-, hc, hac⟩ := id hstep
      have hkept : c ∈ clearOf R es gone :=
        mem_clearOf.mpr ⟨hc, fun g hg hcg => (mem_clearOf.mp he).2 g hg (.head hstep hcg)⟩
      exact .head ⟨he, hkept, hac⟩ (ih hkept)

/-- Items taken out one after the other. -/
theorem clearOf_clearOf (gone more : List α) :
    clearOf R (clearOf R es gone) more = clearOf R es (gone ++ more) := by
  classical
  have hinner : clearOf R (clearOf R es gone) more =
      (clearOf R es gone).filter fun e => decide (∀ a ∈ more, ¬ Under R es e a) := by
    refine List.filter_congr fun e he => decide_eq_decide.mpr ?_
    exact forall₂_congr fun a _ => not_congr (under_clearOf he)
  rw [hinner, clearOf, clearOf, List.filter_filter]
  refine List.filter_congr fun e _ => ?_
  rw [← Bool.decide_and, decide_eq_decide, List.forall_mem_append, and_comm]

/-! ## Eviction -/

variable (weight : α → Nat) (limit : Nat)

variable (R) in
/-- Take out items in order, with what hangs on them, until the rest is light enough. -/
noncomputable def evict : List α → List α → List α
  | [], es => es
  | a :: order, es => if (es.map weight).sum ≤ limit then es else evict order (clearOf R es [a])

variable (R) in
/-- When the turn of something that the item hangs on comes, the rest is light enough. -/
def Outlasts (order es : List α) (e : α) : Prop :=
  ∀ before a after, order = before ++ a :: after → Under R es e a →
    ((clearOf R es before).map weight).sum ≤ limit

variable {weight limit}

theorem sum_clearOf_le (gone : List α) :
    ((clearOf R es gone).map weight).sum ≤ (es.map weight).sum :=
  ((clearOf_sublist gone).map weight).sum_le_sum fun _ _ => Nat.zero_le _

/-- What is left is light enough, once everything has had its turn. -/
theorem sum_evict_le {order : List α} (h : ∀ e ∈ es, e ∈ order) :
    ((evict R weight limit order es).map weight).sum ≤ limit := by
  induction order generalizing es with
  | nil =>
    obtain rfl : es = [] := List.eq_nil_iff_forall_not_mem.mpr fun e he => List.not_mem_nil (h e he)
    exact Nat.zero_le _
  | cons a order ih =>
    unfold evict
    split
    · assumption
    · refine ih fun e he => ?_
      obtain ⟨hmem, hfree⟩ := mem_clearOf.mp he
      rcases List.mem_cons.mp (h e hmem) with rfl | hlater
      · exact absurd .refl (hfree e List.mem_cons_self)
      · exact hlater

/-- **What stays** are the items that outlast the eviction. -/
theorem mem_evict {order : List α} {e : α} :
    e ∈ evict R weight limit order es ↔ e ∈ es ∧ Outlasts R weight limit order es e := by
  induction order generalizing es with
  | nil =>
    refine (and_iff_left fun before a after h => ?_).symm
    exact absurd h (by simp)
  | cons first order ih =>
    unfold evict
    by_cases hlight : (es.map weight).sum ≤ limit
    · rw [if_pos hlight]
      exact (and_iff_left fun before _ _ _ _ => le_trans (sum_clearOf_le before) hlight).symm
    · rw [if_neg hlight, ih, mem_clearOf]
      constructor
      · rintro ⟨⟨he, hfirst⟩, hlast⟩
        have hkept : e ∈ clearOf R es [first] := mem_clearOf.mpr ⟨he, hfirst⟩
        refine ⟨he, fun before a after horder hea => ?_⟩
        cases before with
        | nil =>
          obtain ⟨rfl, -⟩ := List.cons.inj horder
          exact absurd hea (hfirst first List.mem_cons_self)
        | cons b before =>
          obtain ⟨rfl, rfl⟩ := List.cons.inj horder
          have hrest := hlast before a after rfl ((under_clearOf hkept).mpr hea)
          rwa [clearOf_clearOf] at hrest
      · rintro ⟨he, hlast⟩
        have hfirst : ∀ a ∈ [first], ¬ Under R es e a := by
          intro a ha hea
          obtain rfl := List.mem_singleton.mp ha
          have hnone := hlast [] a order rfl hea
          rw [clearOf_nil] at hnone
          exact hlight hnone
        have hkept : e ∈ clearOf R es [first] := mem_clearOf.mpr ⟨he, hfirst⟩
        refine ⟨⟨he, hfirst⟩, fun before a after horder hea => ?_⟩
        rw [clearOf_clearOf]
        exact hlast (first :: before) a after (by rw [horder]; rfl) ((under_clearOf hkept).mp hea)

/-! ## Sublists -/

/-- A sublist of a list without repetitions is the filter by membership. -/
theorem eq_filter_of_sublist {xs ys : List α} (h : xs.Sublist ys) (hnodup : ys.Nodup) (P : α → Bool)
    (hmem : ∀ y ∈ ys, y ∈ xs ↔ P y = true) : xs = ys.filter P := by
  induction h with
  | slnil => rfl
  | @cons xs ys a hsub ih =>
    obtain ⟨hnot, hrest⟩ := List.nodup_cons.mp hnodup
    have hout : ¬ P a = true := fun hp =>
      hnot (hsub.mem ((hmem a List.mem_cons_self).mpr hp))
    rw [List.filter_cons_of_neg hout]
    exact ih hrest fun y hy => hmem y (List.mem_cons_of_mem a hy)
  | @cons_cons xs ys a hsub ih =>
    obtain ⟨hnot, hrest⟩ := List.nodup_cons.mp hnodup
    rw [List.filter_cons_of_pos ((hmem a List.mem_cons_self).mp List.mem_cons_self)]
    congr 1
    refine ih hrest fun y hy => ?_
    rw [← hmem y (List.mem_cons_of_mem a hy), List.mem_cons, or_iff_right]
    rintro rfl
    exact hnot hy

end Toolkit
