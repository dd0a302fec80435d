import Mathlib.Tactic
import Mathlib.Data.Finset.Card

/-!
# Branches of a tree of parent links

Nodes are kept under keys, and a node names its parent by key. `Branch` is a list of nodes from a
tip down to a root, each node followed by its parent. In a tree where every node is a root or lies
one above a stored parent, every node is the tip of exactly one branch (`WellRooted.exists_branch`,
`Branch.tail_unique`), two branches that share a node agree from there on (`Branch.agree`), and a
branch leaves another one at a fork (`Branch.fork`).
-/

set_option autoImplicit false

namespace Toolkit

/-- How nodes of type `β` are linked: their keys, the keys of their parents, their depths and which
of them are roots. -/
structure Lineage (κ β : Type) where
  key : β → κ
  prev : β → κ
  depth : β → Nat
  root : β → Prop

variable {κ β : Type} (L : Lineage κ β) (T : κ → Option β)

/-- Every node is stored under its key, and is a root or lies one above a stored parent. -/
structure WellRooted : Prop where
  keyed : ∀ {k n}, T k = some n → L.key n = k
  linked : ∀ {k n}, T k = some n → (L.root n ∧ L.depth n = 0) ∨
    ∃ p, T (L.prev n) = some p ∧ L.depth n = L.depth p + 1
  rootUnique : ∀ {k n k' n'}, T k = some n → T k' = some n' → L.root n → L.root n' → n = n'

/-- A list of nodes from a tip down to a root. -/
inductive Branch : List β → Prop where
  | root {g : β} : T (L.key g) = some g → L.root g → L.depth g = 0 → Branch [g]
  | child {b p : β} {rest : List β} : Branch (p :: rest) → T (L.key b) = some b →
      L.prev b = L.key p → L.depth b = L.depth p + 1 → Branch (b :: p :: rest)

variable {L T}

namespace Branch

variable {b : β} {rest bs : List β}

theorem ne_nil (h : Branch L T bs) : bs ≠ [] := by
  cases h <;> exact List.cons_ne_nil _ _

theorem stored (h : Branch L T bs) : ∀ n ∈ bs, T (L.key n) = some n := by
  induction h with
  | root hg _ _ =>
    intro n hn
    rw [List.mem_singleton.mp hn]
    exact hg
  | child _ hb _ _ ih =>
    intro n hn
    rcases List.mem_cons.mp hn with rfl | hn
    · exact hb
    · exact ih n hn

/-- The depth of the tip is the number of nodes below it. -/
theorem depth_head (h : Branch L T (b :: rest)) : L.depth b = rest.length := by
  generalize hbs : b :: rest = bs at h
  induction h generalizing b rest with
  | root _ _ hd =>
    obtain ⟨rfl, rfl⟩ := List.cons.inj hbs
    exact hd
  | child _ _ _ hd ih =>
    obtain ⟨rfl, rfl⟩ := List.cons.inj hbs
    rw [hd, ih rfl, List.length_cons]

theorem tail {p : β} (h : Branch L T (b :: p :: rest)) : Branch L T (p :: rest) := by
  cases h with
  | child hp _ _ _ => exact hp

theorem prev_head {p : β} (h : Branch L T (b :: p :: rest)) : L.prev b = L.key p := by
  cases h with
  | child _ _ hprev _ => exact hprev

/-- Every end of a branch is a branch. -/
theorem suffix {gone : List β} (h : Branch L T (gone ++ bs)) (hne : bs ≠ []) : Branch L T bs := by
  induction gone with
  | nil => exact h
  | cons n gone ih =>
    cases hrest : gone ++ bs with
    | nil =>
      obtain ⟨-, hbs⟩ := List.append_eq_nil_iff.mp hrest
      exact absurd hbs hne
    | cons p rest =>
      rw [List.cons_append, hrest] at h
      exact ih (hrest ▸ h.tail)

/-- The nodes below the tip are less deep. -/
theorem depth_lt (h : Branch L T (b :: rest)) : ∀ n ∈ rest, L.depth n < L.depth b := by
  intro n hn
  obtain ⟨gone, below, rfl⟩ := List.append_of_mem hn
  have hn' : Branch L T (n :: below) := by
    have h' : Branch L T ((b :: gone) ++ n :: below) := h
    exact h'.suffix (List.cons_ne_nil _ _)
  rw [hn'.depth_head, h.depth_head, List.length_append, List.length_cons]
  omega

/-- A branch has one node of each depth. -/
theorem depth_injective (h : Branch L T bs) :
    ∀ n ∈ bs, ∀ m ∈ bs, L.depth n = L.depth m → n = m := by
  induction bs with
  | nil => exact absurd rfl h.ne_nil
  | cons b rest ih =>
    intro n hn m hm heq
    cases rest with
    | nil => rw [List.mem_singleton.mp hn, List.mem_singleton.mp hm]
    | cons p rest =>
      rcases List.mem_cons.mp hn with rfl | hn'
      · rcases List.mem_cons.mp hm with rfl | hm'
        · rfl
        · have hlt := h.depth_lt m hm'
          omega
      · rcases List.mem_cons.mp hm with rfl | hm'
        · have hlt := h.depth_lt n hn'
          omega
        · exact ih h.tail n hn' m hm' heq

theorem nodup (h : Branch L T bs) : bs.Nodup := by
  induction bs with
  | nil => exact List.nodup_nil
  | cons b rest ih =>
    cases rest with
    | nil => exact List.nodup_singleton b
    | cons p rest =>
      refine List.nodup_cons.mpr ⟨fun hb => ?_, ih h.tail⟩
      exact Nat.lt_irrefl _ (h.depth_lt b hb)

/-- The node at a depth within the branch. -/
theorem exists_depth (h : Branch L T bs) {d : Nat} (hd : d < bs.length) :
    ∃ n ∈ bs, L.depth n = d := by
  induction bs with
  | nil => exact absurd rfl h.ne_nil
  | cons b rest ih =>
    by_cases heq : d = rest.length
    · exact ⟨b, List.mem_cons_self, heq ▸ h.depth_head⟩
    · cases rest with
      | nil => exact absurd (Nat.lt_one_iff.mp hd) heq
      | cons p rest =>
        rw [List.length_cons] at hd
        obtain ⟨n, hn, hnd⟩ := ih h.tail (by omega)
        exact ⟨n, List.mem_cons_of_mem b hn, hnd⟩

/-- The parent of a node of the branch is the node of the branch one less deep. -/
theorem prev_of_depth (h : Branch L T bs) {n m : β} (hn : n ∈ bs) (hm : m ∈ bs)
    (hd : L.depth m = L.depth n + 1) : L.prev m = L.key n := by
  obtain ⟨gone, below, rfl⟩ := List.append_of_mem hm
  have hm' := h.suffix (List.cons_ne_nil m below)
  cases hm' with
  | root _ _ hzero => omega
  | @child _ p rest hp _ hprev hdepth =>
    have hpn : p = n := h.depth_injective p (by simp) n hn (by omega)
    rw [← hpn, hprev]

/-- A larger tree has the branches of a smaller one. -/
theorem mono {T' : κ → Option β} (hsub : ∀ k n, T k = some n → T' k = some n)
    (h : Branch L T bs) : Branch L T' bs := by
  induction h with
  | root hg hr hd => exact .root (hsub _ _ hg) hr hd
  | child _ hb hp hd ih => exact .child ih (hsub _ _ hb) hp hd

/-- The tip determines the branch. -/
theorem tail_unique {r₁ r₂ : List β} (h₁ : Branch L T (b :: r₁)) (h₂ : Branch L T (b :: r₂)) :
    r₁ = r₂ := by
  generalize hbs : b :: r₁ = bs at h₁
  induction h₁ generalizing b r₁ r₂ with
  | root _ _ hd =>
    obtain ⟨rfl, rfl⟩ := List.cons.inj hbs
    have hlen := h₂.depth_head
    rw [hd] at hlen
    exact (List.eq_nil_of_length_eq_zero hlen.symm).symm
  | @child b' p rest hp hb hprev hd ih =>
    obtain ⟨rfl, rfl⟩ := List.cons.inj hbs
    cases h₂ with
    | root _ _ hd' => omega
    | @child _ p' rest' hp' _ hprev' _ =>
      have hkey : L.key p = L.key p' := hprev.symm.trans hprev'
      have hpp : p = p' := by
        have hs := hp.stored p List.mem_cons_self
        rw [hkey, hp'.stored p' List.mem_cons_self] at hs
        exact (Option.some.inj hs).symm
      subst hpp
      rw [ih hp' rfl]

/-- Two branches that share a node agree from there on. -/
theorem agree {n : β} (new : List β) {path bs : List β} (hpath : Branch L T (new ++ n :: path))
    (h : Branch L T bs) (hn : n ∈ bs) : ∃ gone, bs = gone ++ n :: path := by
  obtain ⟨gone, below, rfl⟩ := List.append_of_mem hn
  have h₁ := hpath.suffix (List.cons_ne_nil n path)
  have h₂ := h.suffix (List.cons_ne_nil n below)
  exact ⟨gone, by rw [h₁.tail_unique h₂]⟩

/-- The root of the tree is on every branch. -/
theorem root_mem (hT : WellRooted L T) (h : Branch L T bs) {k : κ} {g : β} (hg : T k = some g)
    (hr : L.root g) : g ∈ bs := by
  induction h with
  | root hg' hr' _ => exact List.mem_singleton.mpr (hT.rootUnique hg hg' hr hr')
  | child _ _ _ _ ih => exact List.mem_cons_of_mem _ ih

/-- A branch leaves another one at a fork: below it both agree, and above it they share nothing. -/
theorem fork (hT : WellRooted L T) {path : List β} (hpath : Branch L T path) (h : Branch L T bs) :
    ∃ new gone old, path = new ++ old ∧ bs = gone ++ old ∧ old ≠ [] ∧ ∀ n ∈ new, n ∉ bs := by
  induction hpath with
  | @root g hg hr hd =>
    have hpath' : Branch L T [g] := .root hg hr hd
    obtain ⟨gone, hgone⟩ := agree [] hpath' h (h.root_mem hT hg hr)
    exact ⟨[], gone, [g], rfl, hgone, List.cons_ne_nil _ _, fun _ h => absurd h List.not_mem_nil⟩
  | @child b p rest hp hb hprev hd ih =>
    by_cases hmem : b ∈ bs
    · obtain ⟨gone, hgone⟩ := agree [] (Branch.child hp hb hprev hd) h hmem
      exact ⟨[], gone, b :: p :: rest, rfl, hgone, List.cons_ne_nil _ _,
        fun _ h => absurd h List.not_mem_nil⟩
    · obtain ⟨new, gone, old, hsplit, hbs, hold, hnew⟩ := ih
      refine ⟨b :: new, gone, old, by rw [hsplit]; rfl, hbs, hold, fun n hn => ?_⟩
      rcases List.mem_cons.mp hn with rfl | hn
      · exact hmem
      · exact hnew n hn

end Branch

/-- Every stored node is the tip of a branch. -/
theorem WellRooted.exists_branch (hT : WellRooted L T) {k : κ} {n : β} (hn : T k = some n) :
    ∃ rest, Branch L T (n :: rest) := by
  induction hd : L.depth n generalizing k n with
  | zero =>
    rcases hT.linked hn with ⟨hroot, hzero⟩ | ⟨p, -, hp⟩
    · exact ⟨[], .root (hT.keyed hn ▸ hn) hroot hzero⟩
    · omega
  | succ d ih =>
    rcases hT.linked hn with ⟨-, hzero⟩ | ⟨p, hp, hdepth⟩
    · omega
    · obtain ⟨rest, hbranch⟩ := ih hp (by omega)
      exact ⟨p :: rest, .child hbranch (hT.keyed hn ▸ hn) (hT.keyed hp).symm hdepth⟩

end Toolkit
