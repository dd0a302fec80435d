import Mathlib.Tactic

/-!
# Loops that may not end

A `while True` loop is a round function: from a state a round either goes on in a new state or halts
with an answer. `loop step n s` is the answer of the loop from `s` if it comes within `n` rounds,
and `Visits step s t` says that a run from `s` starts some round in `t`. An invariant of the rounds
holds in every visited state (`Visits.invariant`), and an answer is given by a visited state
(`loop_eq_some`).
-/

set_option autoImplicit false

namespace Toolkit

universe u v w

/-- The outcome of one round of a loop. -/
inductive Round (σ : Type u) (ρ : Type v) where
  | next (s : σ)
  | halt (r : ρ)

variable {σ : Type u} {ρ : Type v} (step : σ → Round σ ρ)

/-- The answer of the loop from `s`, if it comes within `n` rounds. -/
def loop : Nat → σ → Option ρ
  | 0, _ => none
  | n + 1, s =>
      match step s with
      | .next s' => loop n s'
      | .halt r => some r

/-- A run from the first state starts a round in the second. -/
inductive Visits (s : σ) : σ → Prop where
  | start : Visits s s
  | step {t t' : σ} : Visits s t → step t = .next t' → Visits s t'

variable {step}

theorem loop_succ_next {n : Nat} {s s' : σ} (h : step s = .next s') :
    loop step (n + 1) s = loop step n s' := by
  simp only [loop, h]

theorem loop_succ_halt {n : Nat} {s : σ} {r : ρ} (h : step s = .halt r) :
    loop step (n + 1) s = some r := by
  simp only [loop, h]

theorem Visits.head {s s' t : σ} (h : step s = .next s') (ht : Visits step s' t) :
    Visits step s t := by
  induction ht with
  | start => exact .step .start h
  | step _ hstep ih => exact .step ih hstep

/-- What holds at the start and is kept by every round holds whenever a round starts. -/
theorem Visits.invariant (P : σ → Prop) {s t : σ} (h0 : P s)
    (hstep : ∀ a b, Visits step s a → P a → step a = .next b → P b) (ht : Visits step s t) :
    P t := by
  induction ht with
  | start => exact h0
  | step hvisit hnext ih => exact hstep _ _ hvisit ih hnext

/-- More rounds do not change an answer. -/
theorem loop_mono {n m : Nat} {s : σ} {r : ρ} (h : loop step n s = some r) (hle : n ≤ m) :
    loop step m s = some r := by
  induction n generalizing m s with
  | zero => cases h
  | succ n ih =>
    obtain ⟨m, rfl⟩ : ∃ m', m = m' + 1 := ⟨m - 1, by omega⟩
    cases hs : step s with
    | next s' =>
      rw [loop_succ_next hs] at h ⊢
      exact ih h (by omega)
    | halt r' =>
      rw [loop_succ_halt hs] at h ⊢
      exact h

/-- An answer is given by a state that the run visits. -/
theorem loop_eq_some {n : Nat} {s : σ} {r : ρ} (h : loop step n s = some r) :
    ∃ t, Visits step s t ∧ step t = .halt r := by
  induction n generalizing s with
  | zero => cases h
  | succ n ih =>
    cases hs : step s with
    | next s' =>
      rw [loop_succ_next hs] at h
      obtain ⟨t, hvisit, hhalt⟩ := ih h
      exact ⟨t, hvisit.head hs, hhalt⟩
    | halt r' =>
      rw [loop_succ_halt hs] at h
      exact ⟨s, .start, Option.some.inj h ▸ hs⟩

end Toolkit
