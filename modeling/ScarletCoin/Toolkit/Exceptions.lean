import Mathlib.Tactic

/-!
# Computations that may raise

Fallible code is a computation in `Except ε`. A guard that raises is `raiseIf`, and a call wrapped
in a handler is `rescue`. The inversion lemmas take a sequence of such computations apart without
unfolding the monad: a sequence returns iff every part returns (`bind_eq_ok`), it raises iff one
part does and all parts before it return (`bind_eq_error`), and what holds at the start of a fold
over a list and is kept by every step holds at its end (`foldlM_invariant`).
-/

set_option autoImplicit false

namespace Toolkit

universe u

variable {ε α β : Type u}

/-- Raise `e` if `c` holds. -/
def raiseIf {ε : Type u} (c : Prop) [Decidable c] (e : ε) : Except ε PUnit.{u + 1} :=
  if c then .error e else .ok ⟨⟩

/-- Run `x`; an exception that `handler` accepts is replaced by what `handler` says. -/
def rescue (x : Except ε α) (handler : ε → Option (Except ε α)) : Except ε α :=
  match x with
  | .ok a => .ok a
  | .error e => (handler e).getD (.error e)

theorem toOption_eq_some {x : Except ε α} {a : α} : x.toOption = some a ↔ x = .ok a := by
  cases x with
  | error e => exact ⟨nofun, nofun⟩
  | ok b =>
    rw [Except.ok.injEq]
    exact Option.some_inj

theorem raiseIf_eq_ok {c : Prop} [Decidable c] {e : ε} {u : PUnit} :
    raiseIf c e = .ok u ↔ ¬ c := by
  unfold raiseIf
  split <;> simp_all

theorem raiseIf_eq_error {c : Prop} [Decidable c] {e e' : ε} :
    raiseIf c e = .error e' ↔ c ∧ e = e' := by
  unfold raiseIf
  split <;> simp_all

/-- A sequence returns iff both parts return. -/
theorem bind_eq_ok {x : Except ε α} {f : α → Except ε β} {b : β} :
    (x >>= f) = .ok b ↔ ∃ a, x = .ok a ∧ f a = .ok b := by
  cases x with
  | error e => simp [bind, Except.bind]
  | ok a => simp [bind, Except.bind]

/-- A sequence raises iff its first part raises, or the first returns and the second raises. -/
theorem bind_eq_error {x : Except ε α} {f : α → Except ε β} {e : ε} :
    (x >>= f) = .error e ↔ x = .error e ∨ ∃ a, x = .ok a ∧ f a = .error e := by
  cases x with
  | error e => simp [bind, Except.bind]
  | ok a => simp [bind, Except.bind]

theorem pure_eq_ok {a b : α} : (pure a : Except ε α) = .ok b ↔ a = b := by
  simp [pure, Except.pure]

theorem pure_ne_error {a : α} {e : ε} : (pure a : Except ε α) ≠ .error e := by
  simp [pure, Except.pure]

@[simp] theorem ok_bind (a : α) (f : α → Except ε β) : ((.ok a : Except ε α) >>= f) = f a := rfl

/-- A guard followed by a computation returns iff the guard is quiet and the computation returns. -/
theorem raiseIf_bind_eq_ok {c : Prop} [Decidable c] {e : ε} {f : PUnit → Except ε β} {b : β} :
    (raiseIf c e >>= f) = .ok b ↔ ¬ c ∧ f ⟨⟩ = .ok b := by
  rw [bind_eq_ok]
  constructor
  · rintro ⟨⟨⟩, hc, hf⟩
    exact ⟨raiseIf_eq_ok.mp hc, hf⟩
  · rintro ⟨hc, hf⟩
    exact ⟨⟨⟩, raiseIf_eq_ok.mpr hc, hf⟩

theorem raiseIf_bind_eq_error {c : Prop} [Decidable c] {e e' : ε} {f : PUnit → Except ε β} :
    (raiseIf c e >>= f) = .error e' ↔ (c ∧ e = e') ∨ (¬ c ∧ f ⟨⟩ = .error e') := by
  rw [bind_eq_error, raiseIf_eq_error]
  constructor
  · rintro (h | ⟨⟨⟩, hc, hf⟩)
    · exact .inl h
    · exact .inr ⟨raiseIf_eq_ok.mp hc, hf⟩
  · rintro (h | ⟨hc, hf⟩)
    · exact .inl h
    · exact .inr ⟨⟨⟩, raiseIf_eq_ok.mpr hc, hf⟩

theorem rescue_eq_ok {x : Except ε α} {handler : ε → Option (Except ε α)} {a : α} :
    rescue x handler = .ok a ↔
      x = .ok a ∨ ∃ e, x = .error e ∧ handler e = some (.ok a) := by
  cases x with
  | ok b => simp [rescue]
  | error e =>
    cases h : handler e with
    | none => simp [rescue, h]
    | some y => simp [rescue, h]

theorem rescue_eq_error {x : Except ε α} {handler : ε → Option (Except ε α)} {e' : ε} :
    rescue x handler = .error e' ↔
      ∃ e, x = .error e ∧ (handler e = some (.error e') ∨ (handler e = none ∧ e = e')) := by
  cases x with
  | ok b => simp [rescue]
  | error e =>
    cases h : handler e with
    | none => simp [rescue, h]
    | some y => simp [rescue, h]

section Folds

variable {σ : Type u} {τ : Type*} {step : σ → τ → Except ε σ}

theorem foldlM_nil_eq_ok {s s' : σ} : List.foldlM step s [] = .ok s' ↔ s = s' := by
  simp [List.foldlM, pure_eq_ok]

theorem foldlM_cons_eq_ok {s s' : σ} {x : τ} {xs : List τ} :
    List.foldlM step s (x :: xs) = .ok s' ↔
      ∃ s₁, step s x = .ok s₁ ∧ List.foldlM step s₁ xs = .ok s' := by
  rw [List.foldlM_cons, bind_eq_ok]

theorem foldlM_cons_eq_error {s : σ} {e : ε} {x : τ} {xs : List τ} :
    List.foldlM step s (x :: xs) = .error e ↔
      step s x = .error e ∨ ∃ s₁, step s x = .ok s₁ ∧ List.foldlM step s₁ xs = .error e := by
  rw [List.foldlM_cons, bind_eq_error]

/-- What holds at the start of a fold and is kept by every step that returns holds at its end. -/
theorem foldlM_invariant (P : σ → Prop) {s s' : σ} {xs : List τ}
    (hstep : ∀ s x s₁, x ∈ xs → P s → step s x = .ok s₁ → P s₁)
    (h0 : P s) (h : List.foldlM step s xs = .ok s') : P s' := by
  induction xs generalizing s with
  | nil => exact foldlM_nil_eq_ok.mp h ▸ h0
  | cons x xs ih =>
    obtain ⟨s₁, hx, hrest⟩ := foldlM_cons_eq_ok.mp h
    have h1 : P s₁ := hstep s x s₁ List.mem_cons_self h0 hx
    exact ih (fun t y t₁ hy => hstep t y t₁ (List.mem_cons_of_mem x hy)) h1 hrest

/-- An exception of a fold comes from one step, started in a state that the invariant describes. -/
theorem foldlM_error (P : σ → Prop) {s : σ} {e : ε} {xs : List τ}
    (hstep : ∀ s x s₁, x ∈ xs → P s → step s x = .ok s₁ → P s₁)
    (h0 : P s) (h : List.foldlM step s xs = .error e) :
    ∃ s₁ x, x ∈ xs ∧ P s₁ ∧ step s₁ x = .error e := by
  induction xs generalizing s with
  | nil => exact absurd h pure_ne_error
  | cons x xs ih =>
    rcases foldlM_cons_eq_error.mp h with hx | ⟨s₁, hx, hrest⟩
    · exact ⟨s, x, List.mem_cons_self, h0, hx⟩
    · have h1 : P s₁ := hstep s x s₁ List.mem_cons_self h0 hx
      obtain ⟨t, y, hy, hP, he⟩ :=
        ih (fun t y t₁ hy => hstep t y t₁ (List.mem_cons_of_mem x hy)) h1 hrest
      exact ⟨t, y, List.mem_cons_of_mem x hy, hP, he⟩

end Folds

/-- Mapping succeeds iff it does at each entry, and gives the results in order. -/
theorem mapM_eq_ok {f : α → Except ε β} {xs : List α} {ys : List β} :
    xs.mapM f = .ok ys ↔ List.Forall₂ (fun x y => f x = .ok y) xs ys := by
  induction xs generalizing ys with
  | nil =>
    rw [List.mapM_nil, pure_eq_ok, List.forall₂_nil_left_iff, eq_comm]
  | cons x xs ih =>
    simp only [List.mapM_cons, bind_eq_ok, pure_eq_ok, ih, List.forall₂_cons_left_iff]
    constructor
    · rintro ⟨y, hy, ys', hys, rfl⟩
      exact ⟨y, ys', hy, hys, rfl⟩
    · rintro ⟨y, ys', hy, hys, rfl⟩
      exact ⟨y, hy, ys', hys, rfl⟩

/-- Each result of mapping comes from an entry. -/
theorem exists_of_mem_mapM {f : α → Except ε β} {xs : List α} {ys : List β}
    (h : xs.mapM f = .ok ys) {y : β} (hy : y ∈ ys) : ∃ x ∈ xs, f x = .ok y := by
  have hall := mapM_eq_ok.mp h
  clear h
  induction hall with
  | nil => cases hy
  | cons hhead _ ih =>
    rcases List.mem_cons.mp hy with rfl | hy
    · exact ⟨_, List.mem_cons_self, hhead⟩
    · obtain ⟨x, hx, hfx⟩ := ih hy
      exact ⟨x, List.mem_cons_of_mem _ hx, hfx⟩

section ForEach

variable {τ : Type*} {check : τ → Except ε PUnit.{u + 1}}

/-- Run `check` on the members of a list in order. -/
def forEach (check : τ → Except ε PUnit.{u + 1}) : List τ → Except ε PUnit.{u + 1}
  | [] => .ok ⟨⟩
  | x :: xs => do
      check x
      forEach check xs

/-- The checks of a list pass iff each of them does. -/
theorem forEach_eq_ok {xs : List τ} {r : PUnit} :
    forEach check xs = .ok r ↔ ∀ x ∈ xs, check x = .ok ⟨⟩ := by
  induction xs with
  | nil => exact ⟨fun _ x hx => absurd hx List.not_mem_nil, fun _ => rfl⟩
  | cons x xs ih =>
    rw [forEach, bind_eq_ok, List.forall_mem_cons]
    constructor
    · rintro ⟨⟨⟩, hx, hxs⟩
      exact ⟨hx, ih.mp hxs⟩
    · rintro ⟨hx, hxs⟩
      exact ⟨⟨⟩, hx, ih.mpr hxs⟩

/-- An exception comes from the check of one member. -/
theorem forEach_error {xs : List τ} {e : ε} (h : forEach check xs = .error e) :
    ∃ x ∈ xs, check x = .error e := by
  induction xs with
  | nil => cases h
  | cons x xs ih =>
    rcases bind_eq_error.mp h with hx | ⟨_, -, hxs⟩
    · exact ⟨x, List.mem_cons_self, hx⟩
    · obtain ⟨y, hy, he⟩ := ih hxs
      exact ⟨y, List.mem_cons_of_mem x hy, he⟩

end ForEach

end Toolkit
