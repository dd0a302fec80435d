import Mathlib.Data.List.Nodup
import Mathlib.Tactic.Common

/-!
# Trees of joined pairs

A list is joined pair by pair, an odd last item with itself, until one item is left (`rootFrom`). As
far as `join` tells apart the pairs it is used on, and its values from the leaves, an item lies on
one level only (`AtLevel.unique`), and lists of leaves without repetition have different roots
(`rootFrom_injective`), whatever their lengths.
-/

set_option autoImplicit false

namespace Toolkit.MerkleTree

variable {α : Type} (join : α → α → α)

/-- One level of the tree from the level below. -/
def level : List α → List α
  | [] => []
  | [a] => [join a a]
  | a :: b :: rest => join a b :: level rest

/-- The pairs that are joined on one level. -/
def pairs : List α → List (α × α)
  | [] => []
  | [a] => [(a, a)]
  | a :: b :: rest => (a, b) :: pairs rest

/-- The root above a level. Every round halves the level, so its length bounds the rounds. -/
def rootFrom : Nat → List α → Option α
  | 0, xs => xs.head?
  | rounds + 1, xs => if xs.length ≤ 1 then xs.head? else rootFrom rounds (level join xs)

/-- All pairs that are joined above a level. -/
def pairsFrom : Nat → List α → List (α × α)
  | 0, _ => []
  | rounds + 1, xs => if xs.length ≤ 1 then [] else pairs xs ++ pairsFrom rounds (level join xs)

/-- Used pairs with one value are one pair, and no value is a leaf. -/
structure Apart (used : α × α → Prop) (leaf : α → Prop) : Prop where
  injective : ∀ p q, used p → used q → join p.1 p.2 = join q.1 q.2 → p = q
  notLeaf : ∀ p, used p → ¬ leaf (join p.1 p.2)

/-- The item lies that many levels above leaves. -/
def AtLevel (used : α × α → Prop) (leaf : α → Prop) : Nat → α → Prop
  | 0, c => leaf c
  | k + 1, c => ∃ a b, used (a, b) ∧ AtLevel used leaf k a ∧ c = join a b

theorem level_length (xs : List α) : (level join xs).length = (xs.length + 1) / 2 := by
  fun_induction level join xs with
  | case1 => simp
  | case2 => simp
  | case3 a b rest ih =>
    rw [List.length_cons, ih, List.length_cons, List.length_cons]
    omega

/-- The items of a level are joined pairs. -/
theorem mem_level {xs : List α} {c : α} (h : c ∈ level join xs) :
    ∃ p ∈ pairs xs, c = join p.1 p.2 ∧ p.1 ∈ xs := by
  fun_induction level join xs with
  | case1 => cases h
  | case2 a =>
    rw [List.mem_singleton.mp h]
    exact ⟨(a, a), List.mem_singleton.mpr rfl, rfl, List.mem_singleton.mpr rfl⟩
  | case3 a b rest ih =>
    rcases List.mem_cons.mp h with rfl | h
    · exact ⟨(a, b), List.mem_cons_self, rfl, List.mem_cons_self⟩
    · obtain ⟨p, hp, rfl, hmem⟩ := ih h
      exact ⟨p, List.mem_cons_of_mem _ hp, rfl,
        List.mem_cons_of_mem _ (List.mem_cons_of_mem _ hmem)⟩

/-- A list that is not empty has a root. -/
theorem exists_rootFrom {rounds : Nat} {xs : List α} (hne : xs ≠ [])
    (hrounds : xs.length ≤ rounds) : ∃ r, rootFrom join rounds xs = some r := by
  induction rounds generalizing xs with
  | zero => exact absurd (List.length_eq_zero_iff.mp (Nat.le_zero.mp hrounds)) hne
  | succ rounds ih =>
    unfold rootFrom
    split
    · exact ⟨xs.head hne, List.head?_eq_some_head hne⟩
    · have hlen := level_length join xs
      refine ih (fun hnil => ?_) (by omega)
      rw [hnil, List.length_nil] at hlen
      omega

section Levels

variable {join} {used : α × α → Prop} {leaf : α → Prop} (hapart : Apart join used leaf)

/-- What is joined from a level lies one above it. -/
theorem atLevel_level {k : Nat} {xs : List α} (hused : ∀ p ∈ pairs xs, used p)
    (hlevel : ∀ a ∈ xs, AtLevel join used leaf k a) :
    ∀ c ∈ level join xs, AtLevel join used leaf (k + 1) c := by
  intro c hc
  obtain ⟨⟨a, b⟩, hp, rfl, ha⟩ := mem_level join hc
  exact ⟨a, b, hused _ hp, hlevel a ha, rfl⟩

/-- The root lies above the level, strictly so if there is something to join. -/
theorem rootFrom_atLevel {rounds k : Nat} {xs : List α} {r : α} (hrounds : xs.length ≤ rounds)
    (hused : ∀ p ∈ pairsFrom join rounds xs, used p)
    (hlevel : ∀ a ∈ xs, AtLevel join used leaf k a) (hroot : rootFrom join rounds xs = some r) :
    ∃ j, AtLevel join used leaf j r ∧ k ≤ j ∧ (1 < xs.length → k < j) := by
  induction rounds generalizing k xs with
  | zero =>
    rw [List.length_eq_zero_iff.mp (Nat.le_zero.mp hrounds)] at hroot
    cases hroot
  | succ rounds ih =>
    unfold rootFrom at hroot
    unfold pairsFrom at hused
    split at hroot
    · rename_i hone
      exact ⟨k, hlevel r (List.mem_of_head? hroot), Nat.le_refl k, fun hmany => by omega⟩
    · rename_i hmany
      rw [if_neg hmany] at hused
      have hlen := level_length join xs
      have hup := atLevel_level (fun p hp => hused p (List.mem_append_left _ hp)) hlevel
      obtain ⟨j, hj, hle, -⟩ := ih (by omega)
        (fun p hp => hused p (List.mem_append_right _ hp)) hup hroot
      exact ⟨j, hj, by omega, fun _ => by omega⟩

include hapart

/-- An item lies on one level only. -/
theorem AtLevel.unique {k j : Nat} {c : α} (hk : AtLevel join used leaf k c)
    (hj : AtLevel join used leaf j c) : k = j := by
  induction k generalizing j c with
  | zero =>
    cases j with
    | zero => rfl
    | succ j =>
      obtain ⟨a, b, hused, -, rfl⟩ := hj
      exact absurd hk (hapart.notLeaf _ hused)
  | succ k ih =>
    obtain ⟨a, b, hused, ha, rfl⟩ := hk
    cases j with
    | zero => exact absurd hj (hapart.notLeaf _ hused)
    | succ j =>
      obtain ⟨a', b', hused', ha', heq⟩ := hj
      obtain ⟨rfl, -⟩ := Prod.mk.inj (hapart.injective _ _ hused hused' heq)
      rw [ih ha ha']

/-- Levels without repetition are told apart by the level above. -/
theorem level_injective {xs ys : List α} (hxs : ∀ p ∈ pairs xs, used p)
    (hys : ∀ p ∈ pairs ys, used p) (hxsNodup : xs.Nodup) (hysNodup : ys.Nodup)
    (heq : level join xs = level join ys) : xs = ys := by
  induction xs using level.induct generalizing ys with
  | case1 =>
    cases ys using level.fun_cases with
    | case1 => rfl
    | case2 => cases heq
    | case3 => cases heq
  | case2 a =>
    cases ys using level.fun_cases with
    | case1 => cases heq
    | case2 c =>
      have hjoin := (List.cons.inj heq).1
      have hpair := hapart.injective _ _ (hxs _ List.mem_cons_self) (hys _ List.mem_cons_self) hjoin
      rw [(Prod.mk.inj hpair).1]
    | case3 c d rest =>
      -- the odd last item would be two equal ones
      have hjoin := (List.cons.inj heq).1
      have hpair := hapart.injective _ _ (hxs _ List.mem_cons_self) (hys _ List.mem_cons_self) hjoin
      obtain ⟨rfl, rfl⟩ := Prod.mk.inj hpair
      exact absurd List.mem_cons_self (List.nodup_cons.mp hysNodup).1
  | case3 a b rest ih =>
    cases ys using level.fun_cases with
    | case1 => cases heq
    | case2 c =>
      have hjoin := (List.cons.inj heq).1
      have hpair := hapart.injective _ _ (hxs _ List.mem_cons_self) (hys _ List.mem_cons_self) hjoin
      obtain ⟨rfl, rfl⟩ := Prod.mk.inj hpair
      exact absurd List.mem_cons_self (List.nodup_cons.mp hxsNodup).1
    | case3 c d rest' =>
      obtain ⟨hjoin, hrest⟩ := List.cons.inj heq
      have hpair := hapart.injective _ _ (hxs _ List.mem_cons_self) (hys _ List.mem_cons_self) hjoin
      obtain ⟨rfl, rfl⟩ := Prod.mk.inj hpair
      rw [ih (fun p hp => hxs p (List.mem_cons_of_mem _ hp))
        (fun p hp => hys p (List.mem_cons_of_mem _ hp))
        (List.nodup_cons.mp (List.nodup_cons.mp hxsNodup).2).2
        (List.nodup_cons.mp (List.nodup_cons.mp hysNodup).2).2 hrest]

/-- A level without repetition lies below one. -/
theorem level_nodup {xs : List α} (hxs : ∀ p ∈ pairs xs, used p) (hnodup : xs.Nodup) :
    (level join xs).Nodup := by
  induction xs using level.induct with
  | case1 => exact List.nodup_nil
  | case2 a => exact List.nodup_singleton _
  | case3 a b rest ih =>
    obtain ⟨ha, htail⟩ := List.nodup_cons.mp hnodup
    refine List.nodup_cons.mpr ⟨fun hmem => ?_,
      ih (fun p hp => hxs p (List.mem_cons_of_mem _ hp)) (List.nodup_cons.mp htail).2⟩
    obtain ⟨p, hp, hjoin, hfirst⟩ := mem_level join hmem
    have hpair := hapart.injective (a, b) p (hxs _ List.mem_cons_self)
      (hxs _ (List.mem_cons_of_mem _ hp)) hjoin
    rw [← hpair] at hfirst
    exact ha (List.mem_cons_of_mem _ hfirst)

/-- Lists without repetition on one level have different roots. -/
theorem rootFrom_injective {rounds rounds' k : Nat} {xs ys : List α} {r : α}
    (hrounds : xs.length ≤ rounds) (hrounds' : ys.length ≤ rounds')
    (hxs : ∀ p ∈ pairsFrom join rounds xs, used p) (hys : ∀ p ∈ pairsFrom join rounds' ys, used p)
    (hxsLevel : ∀ a ∈ xs, AtLevel join used leaf k a)
    (hysLevel : ∀ a ∈ ys, AtLevel join used leaf k a)
    (hxsNodup : xs.Nodup) (hysNodup : ys.Nodup)
    (hxsRoot : rootFrom join rounds xs = some r) (hysRoot : rootFrom join rounds' ys = some r) :
    xs = ys := by
  induction rounds generalizing rounds' k xs ys with
  | zero =>
    rw [List.length_eq_zero_iff.mp (Nat.le_zero.mp hrounds)] at hxsRoot
    cases hxsRoot
  | succ rounds ih =>
    cases rounds' with
    | zero =>
      rw [List.length_eq_zero_iff.mp (Nat.le_zero.mp hrounds')] at hysRoot
      cases hysRoot
    | succ rounds' =>
      -- the root lies as far above one list as above the other
      obtain ⟨i, hi, -, hxsMany⟩ := rootFrom_atLevel hrounds hxs hxsLevel hxsRoot
      obtain ⟨j, hj, -, hysMany⟩ := rootFrom_atLevel hrounds' hys hysLevel hysRoot
      have hij := hi.unique hapart hj
      have hsingle : ∀ {zs : List α}, zs.length ≤ 1 → zs.head? = some r → zs = [r] := by
        intro zs hone hhead
        obtain ⟨rest, rfl⟩ := List.head?_eq_some_iff.mp hhead
        rw [List.length_cons] at hone
        have hnil : rest.length = 0 := by omega
        rw [List.length_eq_zero_iff.mp hnil]
      unfold rootFrom at hxsRoot hysRoot
      unfold pairsFrom at hxs hys
      by_cases hone : xs.length ≤ 1
      · rw [if_pos hone] at hxsRoot
        have hk := hi.unique hapart (hxsLevel r (List.mem_of_head? hxsRoot))
        have hone' : ys.length ≤ 1 := Nat.not_lt.mp fun hmany => by
          have hlt := hysMany hmany
          omega
        rw [if_pos hone'] at hysRoot
        rw [hsingle hone hxsRoot, hsingle hone' hysRoot]
      · rw [if_neg hone] at hxsRoot hxs
        have hone' : ¬ ys.length ≤ 1 := fun hone' => by
          rw [if_pos hone'] at hysRoot
          have hk := hj.unique hapart (hysLevel r (List.mem_of_head? hysRoot))
          have hlt := hxsMany (Nat.not_le.mp hone)
          omega
        rw [if_neg hone'] at hysRoot hys
        have hxsPairs := fun p hp => hxs p (List.mem_append_left _ hp)
        have hysPairs := fun p hp => hys p (List.mem_append_left _ hp)
        have hxsLen := level_length join xs
        have hysLen := level_length join ys
        refine level_injective hapart hxsPairs hysPairs hxsNodup hysNodup ?_
        exact ih (by omega) (by omega) (fun p hp => hxs p (List.mem_append_right _ hp))
          (fun p hp => hys p (List.mem_append_right _ hp)) (atLevel_level hxsPairs hxsLevel)
          (atLevel_level hysPairs hysLevel) (level_nodup hapart hxsPairs hxsNodup)
          (level_nodup hapart hysPairs hysNodup) hxsRoot hysRoot

end Levels

end Toolkit.MerkleTree
