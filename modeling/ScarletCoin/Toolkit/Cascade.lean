import Mathlib.Tactic

/-!
# Taking things out with what hangs on them

A loop over a stack of keys: each key is taken out of a state, if it is there, and what taking it
out uncovers goes on the stack. If every key taken out makes the state smaller by at least the
number of keys that it uncovers, the loop empties the stack, and an invariant of the rounds holds in
the end with nothing pending (`cascade_rule`).
-/

set_option autoImplicit false

namespace Toolkit

variable {σ κ : Type}

/-- Take the keys on the stack out of a state. `take` gives the state without a key and the keys
that this uncovers, the next one first. The answer is the state with the keys taken out, in
order. -/
def cascade (take : σ → κ → Option (σ × List κ)) : Nat → List κ → σ → List κ → σ × List κ
  | 0, _, s, taken => (s, taken)
  | _ + 1, [], s, taken => (s, taken)
  | rounds + 1, k :: pending, s, taken =>
      match take s k with
      | none => cascade take rounds pending s taken
      | some (s', uncovered) => cascade take rounds (uncovered ++ pending) s' (taken ++ [k])

/-- What the rounds keep holds in the end, with an empty stack. -/
theorem cascade_rule {take : σ → κ → Option (σ × List κ)} (Inv : List κ → σ → List κ → Prop)
    (size : σ → Nat)
    (hskip : ∀ k pending s taken, Inv (k :: pending) s taken → take s k = none →
      Inv pending s taken)
    (htake : ∀ k pending s taken s' uncovered, Inv (k :: pending) s taken →
      take s k = some (s', uncovered) →
      size s' + uncovered.length ≤ size s ∧ Inv (uncovered ++ pending) s' (taken ++ [k]))
    {rounds : Nat} {pending : List κ} {s : σ} {taken : List κ}
    (hrounds : pending.length + size s ≤ rounds) (h : Inv pending s taken) :
    Inv [] (cascade take rounds pending s taken).1 (cascade take rounds pending s taken).2 := by
  induction rounds generalizing pending s taken with
  | zero =>
    obtain rfl : pending = [] := List.eq_nil_of_length_eq_zero (by omega)
    exact h
  | succ rounds ih =>
    cases pending with
    | nil => exact h
    | cons k pending =>
      rw [List.length_cons] at hrounds
      unfold cascade
      cases hk : take s k with
      | none => exact ih (by omega) (hskip k pending s taken h hk)
      | some out =>
        obtain ⟨s', uncovered⟩ := out
        obtain ⟨hsize, hinv⟩ := htake k pending s taken s' uncovered h hk
        exact ih (by rw [List.length_append]; omega) hinv

end Toolkit
