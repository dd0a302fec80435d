import Mathlib.Data.Int.Log
import Mathlib.Data.Rat.Floor
import Mathlib.Tactic.Linarith
import Mathlib.Tactic.Positivity
import Mathlib.Tactic.FieldSimp
import Mathlib.Tactic.Ring

/-!
# Decimal arithmetic

Decimal numbers with a coefficient and an exponent, and the arithmetic of a context that keeps a
number of significant digits, ties to even, between two bounds on the exponent. A result is the
exact one, rounded to the weight of its last digit, or overflows (`Context.round_cases`).
-/

set_option autoImplicit false

namespace Toolkit

/-! ## Nearest whole numbers -/

/-- A quotient to the nearest whole number, ties to the even one. -/
def halfEven (n d : Nat) : Nat :=
  if 2 * (n % d) < d ∨ (2 * (n % d) = d ∧ n / d % 2 = 0) then n / d else n / d + 1

variable {n d m : Nat}

theorem halfEven_close (hd : 0 < d) :
    2 * n ≤ 2 * (halfEven n d * d) + d ∧ 2 * (halfEven n d * d) ≤ 2 * n + d := by
  have hsplit := Nat.div_add_mod' n d
  have hmod := Nat.mod_lt n hd
  unfold halfEven
  split
  · omega
  · rw [Nat.add_mul, Nat.one_mul]
    omega

/-- An even number within half a unit is the nearest. -/
theorem halfEven_eq_of_even (hd : 0 < d) (hm : m % 2 = 0) (hlow : 2 * n ≤ 2 * (m * d) + d)
    (hhigh : 2 * (m * d) ≤ 2 * n + d) : halfEven n d = m := by
  have hsplit := Nat.div_add_mod' n d
  have hmod := Nat.mod_lt n hd
  rcases Nat.lt_trichotomy (n / d) m with hlt | heq | hgt
  · -- the quotient is one below
    have hm' : m = n / d + 1 := by
      by_contra hne
      have hle : (n / d + 2) * d ≤ m * d := Nat.mul_le_mul_right d (by omega)
      rw [Nat.add_mul] at hle
      omega
    have hmd : m * d = n / d * d + d := by rw [hm', Nat.add_mul, Nat.one_mul]
    rw [halfEven, if_neg (by omega), hm']
  · subst heq
    rw [halfEven, if_pos (by omega)]
  · have hle : (m + 1) * d ≤ n / d * d := Nat.mul_le_mul_right d hgt
    rw [Nat.add_mul, Nat.one_mul] at hle
    omega

theorem halfEven_of_dvd (hd : 0 < d) (h : d ∣ n) : halfEven n d = n / d := by
  rw [halfEven, Nat.mod_eq_zero_of_dvd h, if_pos (.inl (by omega))]

/-! ## Values -/

/-- The value of a coefficient and an exponent. -/
def scaleTen (c : Nat) (e : Int) : ℚ := c * 10 ^ e

theorem ten_zpow_pos (e : Int) : (0 : ℚ) < 10 ^ e := zpow_pos (by norm_num) e

theorem scaleTen_nonneg (c : Nat) (e : Int) : 0 ≤ scaleTen c e :=
  mul_nonneg (Nat.cast_nonneg c) (ten_zpow_pos e).le

@[simp] theorem scaleTen_zero (e : Int) : scaleTen 0 e = 0 := by simp [scaleTen]

theorem scaleTen_pos {c : Nat} (hc : 0 < c) (e : Int) : 0 < scaleTen c e :=
  mul_pos (Nat.cast_pos.mpr hc) (ten_zpow_pos e)

/-- Lowering the exponent lengthens the coefficient. -/
theorem scaleTen_shift (c k : Nat) (e : Int) : scaleTen (c * 10 ^ k) e = scaleTen c (e + k) := by
  rw [scaleTen, scaleTen, Nat.cast_mul, Nat.cast_pow, zpow_add₀ (by norm_num), zpow_natCast,
    Nat.cast_ofNat]
  ring

theorem scaleTen_mul (c n : Nat) (e : Int) : scaleTen (c * n) e = scaleTen c e * n := by
  rw [scaleTen, scaleTen, Nat.cast_mul]
  ring

/-- The position of the highest digit. -/
theorem log_scaleTen {c : Nat} (hc : 0 < c) (e : Int) :
    Int.log 10 (scaleTen c e) = Nat.log 10 c + e := by
  have hlow : (10 : ℚ) ^ (Nat.log 10 c) ≤ c := by exact_mod_cast Nat.pow_log_le_self 10 hc.ne'
  have hhigh : (c : ℚ) < 10 ^ (Nat.log 10 c + 1) := by
    exact_mod_cast Nat.lt_pow_succ_log_self (by decide) c
  have hpos := ten_zpow_pos e
  apply le_antisymm
  · refine Int.lt_add_one_iff.mp ((Int.lt_zpow_iff_log_lt (by decide) (scaleTen_pos hc e)).mp ?_)
    rw [show (Nat.log 10 c : Int) + e + 1 = ((Nat.log 10 c + 1 : ℕ) : Int) + e by push_cast; ring,
      zpow_add₀ (by norm_num), zpow_natCast]
    exact mul_lt_mul_of_pos_right hhigh hpos
  · refine (Int.zpow_le_iff_le_log (by decide) (scaleTen_pos hc e)).mp ?_
    rw [zpow_add₀ (by norm_num), zpow_natCast]
    exact mul_le_mul_of_nonneg_right hlow hpos.le

/-! ## Rounding to a weight -/

/-- Of the multiples of a power of ten, the nearest to a number; of two at the same distance, the
even one. -/
structure Nearest (w : Int) (x y : ℚ) : Prop where
  close : |x - y| ≤ 10 ^ w / 2
  even : ∀ m : Nat, m % 2 = 0 → |x - m * 10 ^ w| ≤ 10 ^ w / 2 → y = m * 10 ^ w

/-- Distances to a multiple, counted in units of the number's own exponent. -/
theorem abs_scaleTen_sub_le {c k : Nat} {e : Int} :
    |scaleTen c e - m * 10 ^ (e + k)| ≤ 10 ^ (e + k) / 2 ↔
      2 * c ≤ 2 * (m * 10 ^ k) + 10 ^ k ∧ 2 * (m * 10 ^ k) ≤ 2 * c + 10 ^ k := by
  have hpos := ten_zpow_pos e
  have hsub : scaleTen c e - m * 10 ^ (e + k) = (c - m * 10 ^ k) * 10 ^ e := by
    rw [scaleTen, zpow_add₀ (by norm_num), zpow_natCast]
    ring
  have hhalf : (10 : ℚ) ^ (e + k) / 2 = 10 ^ k / 2 * 10 ^ e := by
    rw [zpow_add₀ (by norm_num), zpow_natCast]
    ring
  rw [hsub, hhalf, abs_mul, abs_of_pos hpos, mul_le_mul_iff_left₀ hpos, abs_le]
  constructor
  · rintro ⟨hlow, hhigh⟩
    constructor
    · have : (2 * c : ℚ) ≤ 2 * (m * 10 ^ k) + 10 ^ k := by linarith
      exact_mod_cast this
    · have : (2 * (m * 10 ^ k) : ℚ) ≤ 2 * c + 10 ^ k := by linarith
      exact_mod_cast this
  · rintro ⟨hlow, hhigh⟩
    have hlow' : (2 * c : ℚ) ≤ 2 * (m * 10 ^ k) + 10 ^ k := by exact_mod_cast hlow
    have hhigh' : (2 * (m * 10 ^ k) : ℚ) ≤ 2 * c + 10 ^ k := by exact_mod_cast hhigh
    constructor <;> linarith

/-- Dropping the lowest digits. -/
theorem nearest_halfEven (c k : Nat) (e : Int) :
    Nearest (e + k) (scaleTen c e) (scaleTen (halfEven c (10 ^ k)) (e + k)) := by
  have hd : 0 < 10 ^ k := Nat.pow_pos (by decide)
  refine ⟨abs_scaleTen_sub_le.mpr (halfEven_close hd), fun m hm hclose => ?_⟩
  obtain ⟨hlow, hhigh⟩ := abs_scaleTen_sub_le.mp hclose
  rw [halfEven_eq_of_even hd hm hlow hhigh, scaleTen]

/-- A multiple stays what it is. -/
theorem nearest_multiple (c : Nat) (w : Int) : Nearest w (scaleTen c w) (scaleTen c w) := by
  have hw := ten_zpow_pos w
  refine ⟨by rw [sub_self, abs_zero]; positivity, fun m _ hclose => ?_⟩
  have hunits := (abs_scaleTen_sub_le (m := m) (k := 0) (e := w)).mp (by simpa using hclose)
  rw [pow_zero, Nat.mul_one] at hunits
  rw [scaleTen, show c = m by omega]

theorem Nearest.nonneg_le {w : Int} {x y : ℚ} (h : Nearest w x y) : y ≤ x + 10 ^ w / 2 := by
  linarith [(abs_le.mp h.close).1]

/-! ## Contexts -/

/-- What arithmetic signals, and what has no whole number. -/
inductive Fault where
  | invalidOperation
  | overflow
  | infinite
  | notANumber
  deriving DecidableEq, Repr

/-- How arithmetic rounds: the significant digits it keeps, and the bounds on the position of the
highest digit. -/
structure Context where
  prec : Nat
  emin : Int
  emax : Int
  pos : 0 < prec
  ordered : emin ≤ emax

namespace Context

variable (ctx : Context)

/-- The least exponent of a result. -/
def etiny : Int := ctx.emin - ctx.prec + 1

/-- The greatest exponent of a result that has all its digits. -/
def etop : Int := ctx.emax - ctx.prec + 1

/-- A coefficient and an exponent as the context keeps them. -/
def round (c : Nat) (e : Int) : Except Fault (Nat × Int) :=
  if c = 0 then .ok (0, min (max e ctx.etiny) ctx.emax)
  else if ctx.etop < Nat.log 10 c + 1 + e - ctx.prec then .error .overflow
  else
    let exp := max (Nat.log 10 c + 1 + e - ctx.prec) ctx.etiny
    if e < exp then
      let coeff := halfEven c (10 ^ (exp - e).toNat)
      -- rounding up may have carried into one digit more
      if 10 ^ ctx.prec ≤ coeff then
        if ctx.etop < exp + 1 then .error .overflow else .ok (coeff / 10, exp + 1)
      else .ok (coeff, exp)
    else .ok (c, e)

/-- Whether the context keeps a coefficient and an exponent as they are. -/
def fits (c : Nat) (e : Int) : Bool :=
  decide (Nat.log 10 c < ctx.prec ∧ Nat.log 10 c + e ≤ ctx.emax ∧ ctx.etiny ≤ e)

/-- The weight of the last digit that is kept of a number. -/
def quantum (x : ℚ) : Int := max (Int.log 10 x + 1 - ctx.prec) ctx.etiny

/-- Numbers from here on overflow. -/
def limit : ℚ := 10 ^ (ctx.emax + 1) - 10 ^ ctx.etop / 2

variable {ctx}

theorem etiny_le_etop : ctx.etiny ≤ ctx.etop := by
  have := ctx.ordered
  unfold etiny etop
  omega

theorem etop_le_emax : ctx.etop ≤ ctx.emax := by
  have := ctx.pos
  unfold etop
  omega

/-- A number below the top decade is below the limit. -/
theorem lt_limit_of_lt {x : ℚ} (h : x < 10 ^ ctx.emax) : x < ctx.limit := by
  have htop : (10 : ℚ) ^ ctx.etop ≤ 10 ^ ctx.emax := zpow_le_zpow_right₀ (by norm_num) etop_le_emax
  have hstep : (10 : ℚ) ^ (ctx.emax + 1) = 10 ^ ctx.emax * 10 := zpow_add_one₀ (by norm_num) _
  have hpos := ten_zpow_pos ctx.emax
  rw [limit, hstep]
  linarith

/-- What rounds to the first number out of range is what lies beyond the limit. -/
theorem top_le_iff {x y : ℚ} (hlog : Int.log 10 x ≤ ctx.emax) (h : Nearest (ctx.quantum x) x y) :
    10 ^ (ctx.emax + 1) ≤ y ↔ ctx.limit ≤ x := by
  have hbelow : x < 10 ^ (Int.log 10 x + 1) := Int.lt_zpow_succ_log_self (by decide) x
  have hquantum : ctx.quantum x ≤ ctx.etop := by
    refine max_le ?_ etiny_le_etop
    unfold etop
    omega
  have hunit : (10 : ℚ) ^ ctx.quantum x ≤ 10 ^ ctx.etop :=
    zpow_le_zpow_right₀ (by norm_num) hquantum
  have hstep : (10 : ℚ) ^ (ctx.emax + 1) = 10 ^ ctx.emax * 10 := zpow_add_one₀ (by norm_num) _
  rcases hlog.lt_or_eq with hlt | heq
  · have hx : x < 10 ^ ctx.emax := hbelow.trans_le (zpow_le_zpow_right₀ (by norm_num) (by omega))
    have htop : (10 : ℚ) ^ ctx.etop ≤ 10 ^ ctx.emax :=
      zpow_le_zpow_right₀ (by norm_num) etop_le_emax
    have hpos := ten_zpow_pos ctx.emax
    have hy := h.nonneg_le
    refine iff_of_false (fun hle => ?_) (not_le.mpr (lt_limit_of_lt hx))
    linarith
  · have hw : ctx.quantum x = ctx.etop := by
      have hle : ctx.etiny ≤ ctx.etop := etiny_le_etop
      rw [quantum, heq]
      unfold etop at *
      omega
    rw [heq] at hbelow
    -- the first number out of range is an even multiple of the unit
    obtain ⟨p, hp⟩ : ∃ p, ctx.prec = p + 1 := ⟨ctx.prec - 1, by have := ctx.pos; omega⟩
    have heven : 10 ^ ctx.prec % 2 = 0 := by rw [hp, Nat.pow_succ]; omega
    have hmultiple : ((10 ^ ctx.prec : Nat) : ℚ) * 10 ^ ctx.quantum x = 10 ^ (ctx.emax + 1) := by
      rw [hw, Nat.cast_pow, Nat.cast_ofNat, ← zpow_natCast, ← zpow_add₀ (by norm_num), etop]
      congr 1
      omega
    constructor
    · intro hle
      have hy := h.nonneg_le
      rw [hw] at hy
      rw [limit]
      linarith
    · intro hle
      rw [limit] at hle
      refine le_of_eq ?_
      rw [h.even _ heven, hmultiple]
      rw [hmultiple, hw, abs_le]
      constructor <;> linarith [ten_zpow_pos ctx.etop]

theorem quantum_scaleTen {c : Nat} (hc : 0 < c) (e : Int) :
    ctx.quantum (scaleTen c e) = max (Nat.log 10 c + 1 + e - ctx.prec) ctx.etiny := by
  rw [quantum, log_scaleTen hc, Int.add_right_comm]

/-- Rounding gives at most one digit more than the context keeps, and then a power of ten. -/
theorem halfEven_le {c k : Nat} (h : c < 10 ^ (ctx.prec + k)) :
    halfEven c (10 ^ k) ≤ 10 ^ ctx.prec := by
  have hd : 0 < 10 ^ k := Nat.pow_pos (by decide)
  have hclose := (halfEven_close (n := c) hd).2
  rw [Nat.pow_add] at h
  by_contra hlt
  have hle : (10 ^ ctx.prec + 1) * 10 ^ k ≤ halfEven c (10 ^ k) * 10 ^ k :=
    Nat.mul_le_mul_right _ (by omega)
  rw [Nat.add_mul, Nat.one_mul] at hle
  omega

/-- What `round_cases` says, where there is a digit. -/
theorem round_cases_of_pos {c : Nat} (hc : 0 < c) (e : Int) :
    (ctx.limit ≤ scaleTen c e ∧ ctx.round c e = .error .overflow) ∨
    (scaleTen c e < ctx.limit ∧ ∃ c' e', ctx.round c e = .ok (c', e') ∧
      Nearest (ctx.quantum (scaleTen c e)) (scaleTen c e) (scaleTen c' e')) := by
  have hlog := log_scaleTen hc e
  have hquantum : ctx.quantum (scaleTen c e) = _ := quantum_scaleTen hc e
  unfold round
  rw [if_neg hc.ne']
  by_cases hover : ctx.etop < Nat.log 10 c + 1 + e - ctx.prec
  · rw [if_pos hover]
    refine .inl ⟨?_, rfl⟩
    have hle : (10 : ℚ) ^ (ctx.emax + 1) ≤ scaleTen c e := by
      refine (Int.zpow_le_iff_le_log (by decide) (scaleTen_pos hc e)).mpr ?_
      rw [hlog]
      unfold etop at hover
      omega
    rw [limit]
    linarith [ten_zpow_pos ctx.etop]
  · rw [if_neg hover]
    dsimp only
    rw [← hquantum]
    have hlog' : Int.log 10 (scaleTen c e) ≤ ctx.emax := by
      rw [hlog]
      unfold etop at hover
      omega
    have hw : ctx.quantum (scaleTen c e) ≤ ctx.etop := by
      rw [hquantum]
      exact max_le (not_lt.mp hover) etiny_le_etop
    -- in each case one number is nearest, and it is out of range or not
    have hanswer : ∀ c' e', Nearest (ctx.quantum (scaleTen c e)) (scaleTen c e) (scaleTen c' e') →
        scaleTen c' e' < 10 ^ (ctx.emax + 1) → scaleTen c e < ctx.limit := fun c' e' hnearest hlt =>
      not_le.mp fun h => absurd ((top_le_iff hlog' hnearest).mpr h) (not_le.mpr hlt)
    split
    · rename_i hdrop
      obtain ⟨k, hk⟩ : ∃ k : Nat, ctx.quantum (scaleTen c e) = e + k :=
        ⟨(ctx.quantum (scaleTen c e) - e).toNat, by omega⟩
      have hnearest : Nearest (ctx.quantum (scaleTen c e)) (scaleTen c e)
          (scaleTen (halfEven c (10 ^ k)) (e + k)) := by
        rw [hk]
        exact nearest_halfEven c k e
      rw [show (ctx.quantum (scaleTen c e) - e).toNat = k by omega]
      have hdigits : c < 10 ^ (ctx.prec + k) := by
        refine (Nat.lt_pow_succ_log_self (by decide) c).trans_le
          (Nat.pow_le_pow_right (by decide) ?_)
        have := le_max_left (Nat.log 10 c + 1 + e - ctx.prec) ctx.etiny
        omega
      have hmost := halfEven_le hdigits
      by_cases hcarry : 10 ^ ctx.prec ≤ halfEven c (10 ^ k)
      · have hfull : halfEven c (10 ^ k) = 10 ^ ctx.prec := le_antisymm hmost hcarry
        have hvalue : scaleTen (10 ^ ctx.prec) (e + k) = 10 ^ (ctx.prec + (e + k)) := by
          rw [scaleTen, Nat.cast_pow, Nat.cast_ofNat, ← zpow_natCast, ← zpow_add₀ (by norm_num)]
        rw [if_pos hcarry, hfull]
        rw [hfull] at hnearest
        by_cases htop : ctx.etop < ctx.quantum (scaleTen c e) + 1
        · rw [if_pos htop]
          refine .inl ⟨(top_le_iff hlog' hnearest).mp ?_, rfl⟩
          rw [hvalue]
          refine zpow_le_zpow_right₀ (by norm_num) ?_
          unfold etop at htop
          omega
        · rw [if_neg htop]
          refine .inr ⟨hanswer _ _ hnearest ?_, _, _, rfl, ?_⟩
          · rw [hvalue]
            refine zpow_lt_zpow_right₀ (by norm_num) ?_
            unfold etop at htop
            omega
          · obtain ⟨p, hp⟩ : ∃ p, ctx.prec = p + 1 := ⟨ctx.prec - 1, by have := ctx.pos; omega⟩
            have hsame : scaleTen (10 ^ ctx.prec / 10) (ctx.quantum (scaleTen c e) + 1) =
                scaleTen (10 ^ ctx.prec) (e + k) := by
              rw [hp, Nat.pow_succ, Nat.mul_div_cancel _ (by decide), hk]
              exact (scaleTen_shift (10 ^ p) 1 (e + k)).symm
            rw [hsame]
            exact hnearest
      · rw [if_neg hcarry]
        refine .inr ⟨hanswer _ _ hnearest ?_, _, _, rfl, by rw [hk] at hnearest ⊢; exact hnearest⟩
        calc scaleTen (halfEven c (10 ^ k)) (e + k)
            < 10 ^ ctx.prec * 10 ^ (e + k : Int) := by
              refine mul_lt_mul_of_pos_right ?_ (ten_zpow_pos _)
              exact_mod_cast not_le.mp hcarry
          _ = 10 ^ (ctx.prec + (e + k) : Int) := by rw [← zpow_natCast, ← zpow_add₀ (by norm_num)]
          _ ≤ 10 ^ (ctx.emax + 1) := by
              refine zpow_le_zpow_right₀ (by norm_num) ?_
              unfold etop at hw
              omega
    · rename_i hkeep
      obtain ⟨k, hk⟩ : ∃ k : Nat, e = ctx.quantum (scaleTen c e) + k :=
        ⟨(e - ctx.quantum (scaleTen c e)).toNat, by omega⟩
      have hnearest : Nearest (ctx.quantum (scaleTen c e)) (scaleTen c e) (scaleTen c e) := by
        have hmultiple := nearest_multiple (c * 10 ^ k) (ctx.quantum (scaleTen c e))
        rwa [scaleTen_shift, ← hk] at hmultiple
      refine .inr ⟨hanswer _ _ hnearest ?_, c, e, rfl, hnearest⟩
      exact (Int.lt_zpow_iff_log_lt (by decide) (scaleTen_pos hc e)).mpr
        (Int.lt_add_one_iff.mpr hlog')

/-- A result is the exact one, rounded, and overflows where that is out of range. -/
theorem round_cases (c : Nat) (e : Int) :
    (ctx.limit ≤ scaleTen c e ∧ ctx.round c e = .error .overflow) ∨
    (scaleTen c e < ctx.limit ∧ ∃ c' e', ctx.round c e = .ok (c', e') ∧
      Nearest (ctx.quantum (scaleTen c e)) (scaleTen c e) (scaleTen c' e')) := by
  rcases Nat.eq_zero_or_pos c with rfl | hc
  · refine .inr ⟨?_, 0, _, rfl, ?_⟩
    · rw [scaleTen_zero]
      exact lt_limit_of_lt (ten_zpow_pos _)
    · rw [scaleTen_zero, scaleTen_zero]
      simpa using nearest_multiple 0 (ctx.quantum 0)
  · exact round_cases_of_pos hc e

/-- A number rounds to a small whole number where it is within half a unit of its last digit. -/
theorem nearest_eq_natCast_iff (htiny : ctx.etiny < 0) {x y : ℚ} {k : Nat} (hx : 0 ≤ x)
    (h : Nearest (ctx.quantum x) x y) (hk : 2 * k < 10 ^ (ctx.prec - 1)) :
    y = k ↔ |x - k| ≤ 10 ^ ctx.quantum x / 2 := by
  constructor
  · rintro rfl
    exact h.close
  · intro hclose
    rcases Nat.eq_zero_or_pos k with rfl | hkpos
    · simpa using h.even 0 rfl (by simpa using hclose)
    rcases lt_or_ge (ctx.quantum x) 0 with hneg | hpos
    · -- a whole number is an even multiple of the unit
      obtain ⟨p, hp⟩ : ∃ p : Nat, ctx.quantum x = -(p + 1 : Nat) :=
        ⟨(-ctx.quantum x - 1).toNat, by omega⟩
      have heven : k * 10 ^ (p + 1) % 2 = 0 := by
        rw [Nat.pow_succ, ← Nat.mul_assoc]
        omega
      have hmultiple : ((k * 10 ^ (p + 1) : Nat) : ℚ) * 10 ^ ctx.quantum x = k := by
        rw [hp, Nat.cast_mul, Nat.cast_pow, Nat.cast_ofNat, ← zpow_natCast, mul_assoc,
          ← zpow_add₀ (by norm_num), add_neg_cancel, zpow_zero, mul_one]
      rw [← hmultiple] at hclose ⊢
      exact h.even _ heven hclose
    · -- and far from a number whose last digit is not behind the point
      exfalso
      have hlog : ctx.quantum x = Int.log 10 x + 1 - ctx.prec := by
        refine max_eq_left ?_
        rcases le_max_iff.mp hpos with h | h <;> omega
      have hpos' := ctx.pos
      have hprec : ctx.prec ≠ 1 := fun h1 => by
        rw [h1] at hk
        omega
      have hx' : 0 < x := by
        refine lt_of_le_of_ne hx fun h0 => ?_
        subst h0
        rw [Int.log_zero_right] at hlog
        omega
      have hlow : (10 : ℚ) ^ Int.log 10 x ≤ x := Int.zpow_log_le_self (by decide) hx'
      have hunit : (10 : ℚ) ^ ctx.quantum x ≤ 10 ^ Int.log 10 x :=
        zpow_le_zpow_right₀ (by norm_num) (by omega)
      have hk' : (2 * k : ℚ) < 10 ^ Int.log 10 x := by
        calc (2 * k : ℚ) < 10 ^ (ctx.prec - 1) := by exact_mod_cast hk
          _ = 10 ^ ((ctx.prec - 1 : Nat) : Int) := (zpow_natCast _ _).symm
          _ ≤ 10 ^ Int.log 10 x := zpow_le_zpow_right₀ (by norm_num) (by omega)
      linarith [(abs_le.mp hclose).2]

end Context

/-! ## Decimals -/

/-- A decimal number, or one of the special values. -/
inductive Decimal where
  | finite (negative : Bool) (coefficient : Nat) (exponent : Int)
  | infinity (negative : Bool)
  | nan (signaling : Bool)
  deriving DecidableEq, Repr

namespace Decimal

/-- Whether a decimal is below zero; a NaN does not compare. -/
def ltZero : Decimal → Except Fault Bool
  | finite negative c _ => .ok (negative && c != 0)
  | infinity negative => .ok negative
  | nan _ => .error .invalidOperation

/-- The product with a whole number. -/
def mulNat (ctx : Context) (n : Nat) : Decimal → Except Fault Decimal
  | finite negative c e => do
    let (c', e') ← ctx.round (c * n) e
    pure (finite negative c' e')
  | infinity negative => if n = 0 then .error .invalidOperation else .ok (infinity negative)
  | nan signaling => if signaling then .error .invalidOperation else .ok (nan false)

/-- The nearest whole number, as a decimal. -/
def toIntegralValue : Decimal → Except Fault Decimal
  | finite negative c e =>
    if 0 ≤ e then .ok (finite negative c e)
      else .ok (finite negative (halfEven c (10 ^ (-e).toNat)) 0)
  | infinity negative => .ok (infinity negative)
  | nan signaling => if signaling then .error .invalidOperation else .ok (nan false)

/-- Whether two decimals differ as numbers; a NaN differs from everything. -/
def differ : Decimal → Decimal → Except Fault Bool
  | finite negative c e, finite negative' c' e' =>
    .ok (decide (¬((negative = negative' ∨ c = 0) ∧
      c * 10 ^ (e - min e e').toNat = c' * 10 ^ (e' - min e e').toNat)))
  | infinity negative, infinity negative' => .ok (negative != negative')
  | nan true, _ => .error .invalidOperation
  | _, nan true => .error .invalidOperation
  | _, _ => .ok true

/-- The whole part. -/
def toInt : Decimal → Except Fault Int
  | finite negative c e =>
    let whole : Nat := if 0 ≤ e then c * 10 ^ e.toNat else c / 10 ^ (-e).toNat
    .ok (if negative then -whole else whole)
  | infinity _ => .error .infinite
  | nan _ => .error .notANumber

/-- The exact value. -/
def value : Decimal → Option ℚ
  | finite negative c e => some (if negative then -scaleTen c e else scaleTen c e)
  | infinity _ => none
  | nan _ => none

variable {ctx : Context} {negative : Bool} {n c : Nat} {e : Int}

theorem mulNat_of_ok {c' : Nat} {e' : Int} (h : ctx.round (c * n) e = .ok (c', e')) :
    (finite negative c e).mulNat ctx n = .ok (finite negative c' e') := by
  rw [mulNat, h]
  rfl

theorem mulNat_of_error {fault : Fault} (h : ctx.round (c * n) e = .error fault) :
    (finite negative c e).mulNat ctx n = .error fault := by
  rw [mulNat, h]
  rfl

/-- A decimal is a whole number where the point leaves no digit behind it. -/
theorem scaleTen_neg_eq_natCast {k n : Nat} : scaleTen c (-(n : Int)) = k ↔ c = k * 10 ^ n := by
  have hpow : (10 : ℚ) ^ n ≠ 0 := pow_ne_zero _ (by norm_num)
  rw [scaleTen, zpow_neg, zpow_natCast, ← div_eq_mul_inv, div_eq_iff hpow]
  exact_mod_cast Iff.rfl

/-- A decimal differs from the nearest whole number, unless it is one. -/
theorem differ_toIntegralValue : ∃ d, (finite negative c e).toIntegralValue = .ok d ∧
    ((finite negative c e).differ d = .ok false ∧ (∃ k : Nat, scaleTen c e = k) ∨
      (finite negative c e).differ d = .ok true ∧ ¬∃ k : Nat, scaleTen c e = k) := by
  by_cases he : 0 ≤ e
  · obtain ⟨n, rfl⟩ := Int.eq_ofNat_of_zero_le he
    refine ⟨finite negative c n, by rw [toIntegralValue, if_pos he], .inl ⟨by simp [differ],
      c * 10 ^ n, ?_⟩⟩
    rw [scaleTen, zpow_natCast, Nat.cast_mul, Nat.cast_pow, Nat.cast_ofNat]
  · obtain ⟨n, rfl⟩ : ∃ n : Nat, e = -(n : Int) := ⟨(-e).toNat, by omega⟩
    have hd : 0 < 10 ^ n := Nat.pow_pos (by decide)
    refine ⟨_, by rw [toIntegralValue, if_neg he], ?_⟩
    have hmin : min (-(n : Int)) 0 = -n := min_eq_left (by omega)
    have hwhole : (∃ k : Nat, scaleTen c (-(n : Int)) = k) ↔ c = halfEven c (10 ^ n) * 10 ^ n := by
      constructor
      · rintro ⟨k, hk⟩
        have hck := scaleTen_neg_eq_natCast.mp hk
        have hdvd : 10 ^ n ∣ c := ⟨k, by rw [hck, Nat.mul_comm]⟩
        rw [halfEven_of_dvd hd hdvd, Nat.div_mul_cancel hdvd]
      · exact fun h => ⟨_, scaleTen_neg_eq_natCast.mpr h⟩
    rw [hwhole, neg_neg, Int.toNat_natCast]
    simp only [differ, hmin, sub_self, Int.toNat_zero, pow_zero, mul_one, true_or, true_and,
      sub_neg_eq_add, zero_add, Int.toNat_natCast]
    by_cases h : c = halfEven c (10 ^ n) * 10 ^ n
    · exact .inl ⟨by rw [decide_eq_false (not_not.mpr h)], h⟩
    · exact .inr ⟨by rw [decide_eq_true h], h⟩

/-- The whole part of a whole number. -/
theorem toInt_eq {k : Nat} (h : scaleTen c e = k) :
    (finite negative c e).toInt = .ok (if negative then -k else k) := by
  have hwhole : (if 0 ≤ e then c * 10 ^ e.toNat else c / 10 ^ (-e).toNat) = k := by
    split
    · rename_i he
      obtain ⟨n, rfl⟩ := Int.eq_ofNat_of_zero_le he
      rw [scaleTen, zpow_natCast] at h
      rw [Int.toNat_natCast]
      exact_mod_cast h
    · rename_i he
      obtain ⟨n, rfl⟩ : ∃ n : Nat, e = -(n : Int) := ⟨(-e).toNat, by omega⟩
      rw [scaleTen_neg_eq_natCast.mp h, neg_neg, Int.toNat_natCast,
        Nat.mul_div_cancel k (Nat.pow_pos (by decide))]
  rw [toInt, hwhole]

end Decimal

end Toolkit
