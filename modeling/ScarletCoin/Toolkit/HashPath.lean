import Mathlib.Tactic

/-!
# Paths in a hash tree

A path leads from a leaf to the top of a hash tree: at each level it names a sibling digest and the
side on which the digest climbed so far stands. `top` is the digest that a path reaches and `hashed`
are the messages that are hashed on the way.

If no two of these messages collide, a top and the sides of a path determine the leaf
(`top_injective`). Of two paths that reach the same top along the same side, one can be longer only
if the leaf of the shorter one is itself the digest of a message of the longer one
(`leaf_of_constant_side`).
-/

set_option autoImplicit false

namespace Toolkit

variable {δ μ : Type}

/-- No two of the messages have the same digest. -/
def CollisionFree (hash : μ → δ) (messages : List μ) : Prop :=
  ∀ x ∈ messages, ∀ y ∈ messages, hash x = hash y → x = y

instance [DecidableEq δ] [DecidableEq μ] (hash : μ → δ) (messages : List μ) :
    Decidable (CollisionFree hash messages) :=
  inferInstanceAs (Decidable (∀ x ∈ messages, ∀ y ∈ messages, hash x = hash y → x = y))

theorem CollisionFree.sublist {hash : μ → δ} {messages messages' : List μ}
    (h : CollisionFree hash messages) (hsub : ∀ x ∈ messages', x ∈ messages) :
    CollisionFree hash messages' :=
  fun x hx y hy => h x (hsub x hx) y (hsub y hy)

namespace HashPath

variable (hash : μ → δ) (join : δ → δ → μ)

/-- The message hashed at one level: on the right side the sibling comes first. -/
def message (right : Bool) (leaf sibling : δ) : μ :=
  if right then join sibling leaf else join leaf sibling

/-- The digest that a path reaches from a leaf. -/
def top : δ → List (Bool × δ) → δ
  | leaf, [] => leaf
  | leaf, (right, sibling) :: path => top (hash (message join right leaf sibling)) path

/-- The messages that are hashed on a path, the lowest first. -/
def hashed : δ → List (Bool × δ) → List μ
  | _, [] => []
  | leaf, (right, sibling) :: path =>
      message join right leaf sibling ::
        hashed (hash (message join right leaf sibling)) path

variable {hash join}

theorem top_append (leaf : δ) (path path' : List (Bool × δ)) :
    top hash join leaf (path ++ path') = top hash join (top hash join leaf path) path' := by
  induction path generalizing leaf with
  | nil => rfl
  | cons step path ih => simp only [List.cons_append, top, ih]

theorem hashed_append (leaf : δ) (path path' : List (Bool × δ)) :
    hashed hash join leaf (path ++ path') =
      hashed hash join leaf path ++ hashed hash join (top hash join leaf path) path' := by
  induction path generalizing leaf with
  | nil => rfl
  | cons step path ih => simp only [List.cons_append, hashed, top, ih]

/-- The top of a path that is not empty is the digest of its last message. -/
theorem top_mem_hashed (leaf : δ) {path : List (Bool × δ)} (hne : path ≠ []) :
    ∃ x ∈ hashed hash join leaf path, top hash join leaf path = hash x := by
  induction path generalizing leaf with
  | nil => exact absurd rfl hne
  | cons step path ih =>
    by_cases hpath : path = []
    · subst hpath
      exact ⟨_, List.mem_cons_self, rfl⟩
    · obtain ⟨x, hx, htop⟩ := ih (hash (message join step.1 leaf step.2)) hpath
      exact ⟨x, List.mem_cons_of_mem _ hx, htop⟩

section Injective

variable (hjoin : ∀ a b a' b', join a b = join a' b' → a = a' ∧ b = b')

include hjoin

theorem join_message_injective {right : Bool} {leaf leaf' sibling sibling' : δ}
    (h : message join right leaf sibling = message join right leaf' sibling') : leaf = leaf' := by
  cases right with
  | false => exact (hjoin _ _ _ _ h).1
  | true => exact (hjoin _ _ _ _ h).2

/-- Without a collision, the top and the sides of a path determine its leaf. -/
theorem top_injective {leaf leaf' : δ} {path path' : List (Bool × δ)}
    (hsides : path.map Prod.fst = path'.map Prod.fst)
    (hcol : CollisionFree hash (hashed hash join leaf path ++ hashed hash join leaf' path'))
    (htop : top hash join leaf path = top hash join leaf' path') : leaf = leaf' := by
  induction path generalizing leaf leaf' path' with
  | nil =>
    have hnil : path' = [] := List.map_eq_nil_iff.mp hsides.symm
    subst hnil
    exact htop
  | cons step path ih =>
    cases path' with
    | nil => cases hsides
    | cons step' path' =>
      obtain ⟨right, sibling⟩ := step
      obtain ⟨right', sibling'⟩ := step'
      simp only [List.map_cons, List.cons.injEq] at hsides
      obtain ⟨rfl, hsides⟩ := hsides
      simp only [hashed] at hcol
      -- the levels above agree by induction, and the lowest messages do not collide
      have hup : hash (message join right leaf sibling) =
          hash (message join right leaf' sibling') := by
        refine ih hsides (hcol.sublist ?_) htop
        intro x hx
        simp only [List.cons_append, List.mem_cons, List.mem_append] at hx ⊢
        tauto
      apply join_message_injective hjoin
      exact hcol _ (by simp) _ (by simp) hup

/-- Two paths to one top, with every step on the same side, start at the same leaf if they are
equally long; the leaf of a shorter one is the digest of a message of the longer one. -/
theorem leaf_of_constant_side {side : Bool} {leaf leaf' : δ} {path path' : List (Bool × δ)}
    (hside : ∀ right ∈ path.map Prod.fst, right = side)
    (hside' : ∀ right ∈ path'.map Prod.fst, right = side)
    (hcol : CollisionFree hash (hashed hash join leaf path ++ hashed hash join leaf' path'))
    (htop : top hash join leaf path = top hash join leaf' path')
    (hlen : path.length ≤ path'.length) :
    leaf = leaf' ∨ ∃ x ∈ hashed hash join leaf' path', leaf = hash x := by
  obtain ⟨low, high, rfl, hhigh⟩ : ∃ low high, path' = low ++ high ∧ high.length = path.length :=
    ⟨path'.take (path'.length - path.length), path'.drop (path'.length - path.length),
      (List.take_append_drop _ _).symm, by rw [List.length_drop]; omega⟩
  rw [top_append] at htop
  rw [hashed_append] at hcol ⊢
  -- the upper part of the longer path is as long as the shorter one, so they start at one digest
  have hsides : path.map Prod.fst = high.map Prod.fst := by
    have hall : ∀ l : List (Bool × δ), (∀ right ∈ l.map Prod.fst, right = side) →
        l.map Prod.fst = List.replicate l.length side := by
      intro l hl
      rw [List.eq_replicate_iff]
      exact ⟨List.length_map _, hl⟩
    have hupper : ∀ right ∈ high.map Prod.fst, right = side := by
      intro right hr
      apply hside'
      rw [List.map_append]
      exact List.mem_append_right _ hr
    rw [hall path hside, hall high hupper, hhigh]
  have hleaf : leaf = top hash join leaf' low := by
    refine top_injective hjoin hsides (hcol.sublist ?_) htop
    intro x hx
    simp only [List.mem_append] at hx ⊢
    tauto
  by_cases hlow : low = []
  · subst hlow
    exact .inl hleaf
  · obtain ⟨x, hx, hxtop⟩ : ∃ x ∈ hashed hash join leaf' low, top hash join leaf' low = hash x :=
      top_mem_hashed leaf' hlow
    exact .inr ⟨x, List.mem_append_left _ hx, hleaf.trans hxtop⟩

end Injective

end HashPath

end Toolkit
