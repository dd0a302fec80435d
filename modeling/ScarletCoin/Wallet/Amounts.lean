import ScarletCoin.Toolkit.Numerals
import ScarletCoin.Wallet.Keys

/-!
# Amounts as text

`units.py`: amounts as decimal texts and back. The decimals of the standard library read a text
exactly or refuse it, where its exponent or its digits are beyond the greatest ones there are, and
round a product to the 28 significant digits of the default context, so what `parse_amount` compares
is the rounded product. Where the limits and the rounding do harm, and which special values escape,
is stated by `Harmless`. Formatted amounts are read back (`parseAmount_formatAmount`).
-/

set_option autoImplicit false

namespace ScarletCoin

open Toolkit

/-- What `parse_amount` raises: `ValueError`, or an exception of decimal arithmetic. -/
inductive AmountError where
  | value (message : String)
  | arithmetic (fault : Fault)
  deriving DecidableEq, Repr

/-- `_PLACES`. -/
def PLACES : Nat := 8

theorem defaultPrecision_pos : 0 < 28 := by decide

theorem defaultExponents_ordered : (-999999 : Int) ≤ 999999 := by decide

/-- The default context of decimal arithmetic. -/
def DEFAULT_CONTEXT : Context where
  prec := 28
  emin := -999999
  emax := 999999
  pos := defaultPrecision_pos
  ordered := defaultExponents_ordered

theorem maxPrecision_pos : 0 < 999999999999999999 := by decide

theorem maxExponents_ordered : (-999999999999999999 : Int) ≤ 999999999999999999 := by decide

/-- The context of `MAX_PREC`, `MIN_EMIN` and `MAX_EMAX`, in which texts are read. -/
def MAX_CONTEXT : Context where
  prec := 999999999999999999
  emin := -999999999999999999
  emax := 999999999999999999
  pos := maxPrecision_pos
  ordered := maxExponents_ordered

/-- `text.removesuffix(suffix)`. -/
def removeSuffix (suffix text : String) : String :=
  if suffix.toList.isSuffixOf text.toList then
    String.ofList (text.toList.take (text.toList.length - suffix.toList.length))
  else text

/-- `fraction` with eight digits, less the zeros at its end. -/
def fractionText (fraction : Nat) : String :=
  String.ofList (((digitsOf 10 PLACES fraction).map Nat.digitChar).reverse.dropWhile
    (· == '0')).reverse

/-- Render an amount as a decimal text. -/
def formatAmount (scar : Int) (symbol : Bool) : String :=
  let sign := if scar < 0 then "-" else ""
  let whole := scar.natAbs / COIN
  let fraction := scar.natAbs % COIN
  let text := s!"{sign}{whole}"
  let text := if fraction ≠ 0 then text ++ "." ++ fractionText fraction else text
  if symbol then text ++ " SCT" else text

section Parsing

variable (table : DigitTable)

/-- The characters of a text that count for `Decimal(text)`: not the whitespace around it, and not
the underscores in it. -/
def numeral (text : String) : List Char := (strip text).toList.filter fun c => c ≠ '_'

/-- How many digits stand behind the point. -/
def fractionDigits (cs : List Char) : Nat :=
  ((cs.dropWhile fun c => c ≠ '.').tail.takeWhile table.isDigit).length

/-- How many digits the payload of a NaN has, the zeros before it aside. -/
def payloadDigits (cs : List Char) : Nat :=
  ((cs.dropWhile fun c => !table.isDigit c).dropWhile fun c => table.digit c = 0).length

/-- Whether a decimal that is read is held without rounding it or moving its exponent. -/
def holds (cs : List Char) : Decimal → Bool
  | .finite _ c e => decide (fractionDigits table cs ≤ MAX_CONTEXT.prec) && MAX_CONTEXT.fits c e
  | .infinity _ => true
  | .nan _ => decide (payloadDigits table cs ≤ MAX_CONTEXT.prec)

/-- `Decimal(text)`: what the text spells, if it is held exactly. -/
def decimalOfText (text : String) : Option Decimal :=
  (readDecimal table (numeral text)).filter (holds table (numeral text))

/-- The text of an amount without whitespace around it and without its unit. -/
def cleanedAmount (text : String) : String := strip (removeSuffix "SCT" (strip text))

/-- Decimal arithmetic raises exceptions of its own. -/
def arithmetic {α : Type} (x : Except Fault α) : Except AmountError α := x.mapError .arithmetic

@[simp] theorem arithmetic_ok {α : Type} (a : α) : arithmetic (.ok a) = .ok a := rfl

/-- Read a decimal text as an amount. -/
def parseAmount (text : String) : Except AmountError Int := do
  let cleaned := cleanedAmount text
  raiseIf (cleaned = "") (.value "no amount given")
  let value ← match decimalOfText table cleaned with
    | some value => Except.ok value
    | none => .error (.value s!"'{text}' is not a valid amount")
  let negative ← arithmetic value.ltZero
  raiseIf (negative = true) (.value "amounts must not be negative")
  let scaled ← arithmetic (value.mulNat DEFAULT_CONTEXT COIN)
  let integral ← arithmetic scaled.toIntegralValue
  let inexact ← arithmetic (scaled.differ integral)
  raiseIf (inexact = true) (.value s!"'{text}' has more than {PLACES} decimal places")
  let scar ← arithmetic scaled.toInt
  raiseIf ((MAX_MONEY : Int) < scar) (.value "amount exceeds the maximum money supply")
  pure scar

/-! ## What a text says -/

/-- The decimal that a text spells, whitespace, unit and underscores aside. -/
def Denotes (text : String) (d : Decimal) : Prop := Spells table (numeral (cleanedAmount text)) d

/-- The number that a text spells. -/
def HasValue (text : String) (q : ℚ) : Prop := ∃ d, Denotes table text d ∧ d.value = some q

/-- The decimal that a text spells within the limits of decimals. -/
def Held (text : String) (d : Decimal) : Prop :=
  Denotes table text d ∧ holds table (numeral (cleanedAmount text)) d = true

/-- The number that a text spells within the limits of decimals. -/
def HeldValue (text : String) (q : ℚ) : Prop := ∃ d, Held table text d ∧ d.value = some q

/-- A text is read as the amount that it spells, and any other text is a `ValueError`. -/
def ReadExactly (text : String) : Prop :=
  (∀ n : Int, parseAmount table text = .ok n ↔
    0 ≤ n ∧ n ≤ MAX_MONEY ∧ ∃ q, HasValue table text q ∧ q * COIN = n) ∧
  ((¬∃ n : Int, 0 ≤ n ∧ n ≤ MAX_MONEY ∧ ∃ q, HasValue table text q ∧ q * COIN = n) →
    ∃ message, parseAmount table text = .error (.value message))

/-- A text that spells an amount within the limits of decimals only, and within these limits no NaN,
no positive infinity, and no number that overflows, or that lies within half a unit of its last
significant digit of an amount that it is not. -/
structure Harmless (text : String) : Prop where
  held : ∀ q, HasValue table text q → ∀ n : Nat, n ≤ MAX_MONEY → q * COIN = n →
    HeldValue table text q
  not_nan : ∀ signaling, ¬Held table text (.nan signaling)
  not_infinite : ¬Held table text (.infinity false)
  in_range : ∀ q, HeldValue table text q → q * COIN < DEFAULT_CONTEXT.limit
  apart : ∀ q, HeldValue table text q → 0 ≤ q → ∀ n : Nat, n ≤ MAX_MONEY → q * COIN ≠ n →
    10 ^ DEFAULT_CONTEXT.quantum (q * COIN) / 2 < |q * COIN - n|

/-! ## Running the parser -/

variable {table} {text : String}

theorem held_iff {d : Decimal} :
    Held table text d ↔ decimalOfText table (cleanedAmount text) = some d := by
  rw [Held, Denotes, ← readDecimal_eq_some_iff, decimalOfText, Option.filter_eq_some_iff]

theorem decimalOfText_empty : decimalOfText table "" = none := rfl

/-- A text that spells nothing is a `ValueError`. -/
theorem parseAmount_of_none (h : decimalOfText table (cleanedAmount text) = none) :
    ∃ message, parseAmount table text = .error (.value message) := by
  by_cases hempty : cleanedAmount text = ""
  · exact ⟨_, raiseIf_bind_eq_error.mpr (.inl ⟨hempty, rfl⟩)⟩
  · exact ⟨_, raiseIf_bind_eq_error.mpr (.inr ⟨hempty, by rw [h]; rfl⟩)⟩

/-- Past the reading of the text. -/
theorem parseAmount_of_some {d : Decimal} (h : decimalOfText table (cleanedAmount text) = some d) :
    parseAmount table text = (do
      let negative ← arithmetic d.ltZero
      raiseIf (negative = true) (.value "amounts must not be negative")
      let scaled ← arithmetic (d.mulNat DEFAULT_CONTEXT COIN)
      let integral ← arithmetic scaled.toIntegralValue
      let inexact ← arithmetic (scaled.differ integral)
      raiseIf (inexact = true) (.value s!"'{text}' has more than {PLACES} decimal places")
      let scar ← arithmetic scaled.toInt
      raiseIf ((MAX_MONEY : Int) < scar) (.value "amount exceeds the maximum money supply")
      pure scar) := by
  have hne : cleanedAmount text ≠ "" := by
    intro hempty
    rw [hempty, decimalOfText_empty] at h
    cases h
  unfold parseAmount
  dsimp only
  rw [h, raiseIf, if_neg hne]
  rfl

theorem parseAmount_nan {signaling : Bool}
    (h : decimalOfText table (cleanedAmount text) = some (.nan signaling)) :
    parseAmount table text = .error (.arithmetic .invalidOperation) := by
  rw [parseAmount_of_some h]
  rfl

theorem parseAmount_infinity (h :
    decimalOfText table (cleanedAmount text) = some (.infinity false)) :
    parseAmount table text = .error (.arithmetic .infinite) := by
  rw [parseAmount_of_some h]
  rfl

/-- What is below zero is a `ValueError`. -/
theorem parseAmount_negative {d : Decimal} (h : decimalOfText table (cleanedAmount text) = some d)
    (hneg : d.ltZero = .ok true) : ∃ message, parseAmount table text = .error (.value message) := by
  rw [parseAmount_of_some h, hneg]
  exact ⟨_, rfl⟩

/-- A number that is not below zero overflows, or is rounded and then taken if it is an amount. -/
theorem parseAmount_finite {negative : Bool} {c : Nat} {e : Int}
    (h : decimalOfText table (cleanedAmount text) = some (.finite negative c e))
    (hneg : (negative && c != 0) = false) :
    (DEFAULT_CONTEXT.limit ≤ scaleTen c e * COIN ∧
      parseAmount table text = .error (.arithmetic .overflow)) ∨
    (scaleTen c e * COIN < DEFAULT_CONTEXT.limit ∧ ∃ y,
      Nearest (DEFAULT_CONTEXT.quantum (scaleTen c e * COIN)) (scaleTen c e * COIN) y ∧
      ((∃ k : Nat, y = k ∧ k ≤ MAX_MONEY ∧ parseAmount table text = .ok k) ∨
        (∀ k : Nat, k ≤ MAX_MONEY → y ≠ k) ∧
          ∃ message, parseAmount table text = .error (.value message))) := by
  rw [parseAmount_of_some h, Decimal.ltZero, hneg, ← scaleTen_mul, arithmetic_ok, ok_bind, raiseIf,
    if_neg Bool.false_ne_true, ok_bind]
  rcases DEFAULT_CONTEXT.round_cases (c * COIN) e with ⟨hover, hround⟩ |
    ⟨hlt, c', e', hround, hnearest⟩
  · refine .inl ⟨hover, ?_⟩
    rw [Decimal.mulNat_of_error hround]
    rfl
  · refine .inr ⟨hlt, scaleTen c' e', hnearest, ?_⟩
    rw [Decimal.mulNat_of_ok hround, arithmetic_ok, ok_bind]
    obtain ⟨d, hintegral, ⟨hsame, k, hk⟩ | ⟨hdiffer, hnot⟩⟩ :=
      @Decimal.differ_toIntegralValue negative c' e'
    · have hint : (if negative = true then -(k : Int) else k) = k := by
        cases negative with
        | false => rfl
        | true =>
          -- the zero that is written with a minus
          have hc : c = 0 := by simpa using hneg
          rw [hc, Nat.zero_mul] at hround
          obtain ⟨rfl, -⟩ := Prod.mk.inj (Except.ok.inj hround)
          rw [scaleTen_zero] at hk
          obtain rfl : k = 0 := by exact_mod_cast hk.symm
          rfl
      rw [hintegral, arithmetic_ok, ok_bind, hsame, arithmetic_ok, ok_bind, raiseIf,
        if_neg Bool.false_ne_true, ok_bind, Decimal.toInt_eq hk, hint, arithmetic_ok, ok_bind,
        raiseIf]
      by_cases hmax : k ≤ MAX_MONEY
      · rw [if_neg (by exact_mod_cast not_lt.mpr hmax)]
        exact .inl ⟨k, hk, hmax, rfl⟩
      · rw [if_pos (by exact_mod_cast not_le.mp hmax)]
        refine .inr ⟨fun k' hk' h => hmax ?_, _, rfl⟩
        have hsame' : k = k' := by exact_mod_cast hk.symm.trans h
        rwa [hsame']
    · rw [hintegral, arithmetic_ok, ok_bind, hdiffer, arithmetic_ok, ok_bind, raiseIf, if_pos rfl]
      exact .inr ⟨fun k _ h => hnot ⟨k, h⟩, _, rfl⟩

/-! ## Where the parser is exact -/

theorem coin_pos : (0 : ℚ) < COIN := by exact_mod_cast (by decide : 0 < COIN)

theorem maxMoney_lt_limit : (MAX_MONEY : ℚ) < DEFAULT_CONTEXT.limit := by
  refine Context.lt_limit_of_lt ?_
  have hmoney : (MAX_MONEY : ℚ) < 10 ^ (16 : Int) := by
    rw [show (16 : Int) = ((16 : Nat) : Int) from rfl, zpow_natCast]
    exact_mod_cast (by decide : MAX_MONEY < 10 ^ 16)
  exact hmoney.trans_le (zpow_le_zpow_right₀ (by norm_num) (by decide))

/-- What an amount is rounded from. -/
theorem nearest_eq_amount_iff {x y : ℚ} {k : Nat} (hx : 0 ≤ x)
    (h : Nearest (DEFAULT_CONTEXT.quantum x) x y) (hk : k ≤ MAX_MONEY) :
    y = k ↔ |x - k| ≤ 10 ^ DEFAULT_CONTEXT.quantum x / 2 := by
  refine Context.nearest_eq_natCast_iff (by decide) hx h ?_
  have hmoney : 2 * MAX_MONEY < 10 ^ (DEFAULT_CONTEXT.prec - 1) := by decide
  omega

theorem Denotes.unique {d d' : Decimal} (h : Denotes table text d) (h' : Denotes table text d') :
    d = d' :=
  Option.some.inj ((readDecimal_eq_some_iff.mpr h).symm.trans (readDecimal_eq_some_iff.mpr h'))

theorem HasValue.unique {q q' : ℚ} (h : HasValue table text q) (h' : HasValue table text q') :
    q = q' := by
  obtain ⟨d, hd, hq⟩ := h
  obtain ⟨d', hd', hq'⟩ := h'
  obtain rfl := hd.unique hd'
  exact Option.some.inj (hq.symm.trans hq')

theorem HeldValue.hasValue {q : ℚ} (h : HeldValue table text q) : HasValue table text q := by
  obtain ⟨d, hd, hq⟩ := h
  exact ⟨d, hd.1, hq⟩

/-- The number of a text is that of its one decimal. -/
theorem hasValue_iff {d : Decimal} (h : decimalOfText table (cleanedAmount text) = some d) {q : ℚ} :
    HasValue table text q ↔ d.value = some q := by
  have hheld : Held table text d := held_iff.mpr h
  constructor
  · rintro ⟨d', hd', hq⟩
    obtain rfl := hheld.1.unique hd'
    exact hq
  · exact fun hq => ⟨d, hheld.1, hq⟩

theorem heldValue_iff {d : Decimal} (h : decimalOfText table (cleanedAmount text) = some d)
    {q : ℚ} : HeldValue table text q ↔ d.value = some q :=
  ⟨fun hq => (hasValue_iff h).mp hq.hasValue, fun hq => ⟨d, held_iff.mpr h, hq⟩⟩

theorem value_of_not_negative {negative : Bool} {c : Nat} {e : Int}
    (h : (negative && c != 0) = false) :
    (Decimal.finite negative c e).value = some (scaleTen c e) := by
  cases negative with
  | false => rfl
  | true =>
    obtain rfl : c = 0 := by simpa using h
    rw [Decimal.value, scaleTen_zero, if_pos rfl, neg_zero]

/-- An amount that a text spells is read. -/
theorem parseAmount_of_heldValue {q : ℚ} {k : Nat} (hk : k ≤ MAX_MONEY) (h : HeldValue table text q)
    (hq : q * COIN = k) : parseAmount table text = .ok (k : Int) := by
  obtain ⟨d, hd, hvalue⟩ := h
  have hread := held_iff.mp hd
  cases d with
  | infinity _ => cases hvalue
  | nan _ => cases hvalue
  | finite negative c e =>
    cases hneg : negative && c != 0 with
    | true =>
      -- a number below zero is no amount
      exfalso
      obtain ⟨rfl, hc⟩ := by simpa using hneg
      rw [Decimal.value, if_pos rfl, Option.some.injEq] at hvalue
      have hpos : 0 < scaleTen c e * COIN :=
        mul_pos (scaleTen_pos (Nat.pos_of_ne_zero hc) e) coin_pos
      have hk' : (0 : ℚ) ≤ k := Nat.cast_nonneg k
      rw [← hvalue, neg_mul] at hq
      linarith
    | false =>
      rw [value_of_not_negative hneg, Option.some.injEq] at hvalue
      rw [← hvalue] at hq
      have hmax : (k : ℚ) ≤ MAX_MONEY := by exact_mod_cast hk
      rcases parseAmount_finite hread hneg with ⟨hover, -⟩ | ⟨-, y, hnearest, hcases⟩
      · rw [hq] at hover
        exact absurd (hover.trans hmax) (not_le.mpr maxMoney_lt_limit)
      · rw [hq] at hnearest
        have hy : y = k := by
          refine (nearest_eq_amount_iff (Nat.cast_nonneg k) hnearest hk).mpr ?_
          rw [sub_self, abs_zero]
          exact (half_pos (ten_zpow_pos _)).le
        rcases hcases with ⟨k', hk', -, hrun⟩ | ⟨hnot, -⟩
        · have hsame : k = k' := by exact_mod_cast hy.symm.trans hk'
          rw [hsame]
          exact hrun
        · exact absurd hy (hnot k hk)

/-- A text that is refused is read exactly where it spells no amount. -/
theorem readExactly_of_refused (h : ∃ message, parseAmount table text = .error (.value message)) :
    ReadExactly table text ↔ ∀ q, HasValue table text q → ∀ n : Nat, n ≤ MAX_MONEY →
    q * COIN ≠ n := by
  obtain ⟨message, hrun⟩ := h
  constructor
  · intro hexact q hq n hn hqn
    have hok := (hexact.1 n).mpr ⟨Int.natCast_nonneg n, by exact_mod_cast hn, q, hq, by
      exact_mod_cast hqn⟩
    rw [hrun] at hok
    cases hok
  · refine fun hnone => ⟨fun n => ?_, fun _ => ⟨message, hrun⟩⟩
    rw [hrun]
    constructor
    · intro h
      cases h
    · rintro ⟨hn, hmax, q, hq, hqn⟩
      obtain ⟨k, rfl⟩ := Int.eq_ofNat_of_zero_le hn
      exact absurd (by exact_mod_cast hqn) (hnone q hq k (by exact_mod_cast hmax))

/-- What is below zero is no amount. -/
theorem mul_coin_ne_natCast {q : ℚ} (h : q < 0) (n : Nat) : q * COIN ≠ n := fun hq => by
  have hneg : q * COIN < 0 := mul_neg_of_neg_of_pos h coin_pos
  rw [hq] at hneg
  exact absurd hneg (not_lt.mpr (Nat.cast_nonneg n))

/-- A text without a value that escapes as another exception. -/
theorem not_readExactly_of_fault {fault : Fault}
    (h : parseAmount table text = .error (.arithmetic fault))
    (hvalue : ∀ q, ¬HasValue table text q) : ¬ReadExactly table text := by
  intro hexact
  obtain ⟨message, hrun⟩ := hexact.2 fun ⟨_, _, _, q, hq, _⟩ => hvalue q hq
  rw [h] at hrun
  cases hrun

/-- A text that spells an amount is read exactly. -/
theorem readExactly_of_heldValue {q : ℚ} {k : Nat} (hk : k ≤ MAX_MONEY) (h : HeldValue table text q)
    (hq : q * COIN = k) : ReadExactly table text := by
  have hrun := parseAmount_of_heldValue hk h hq
  have hamount : (0 : Int) ≤ k ∧ (k : Int) ≤ MAX_MONEY ∧ ∃ q, HasValue table text q ∧
      q * COIN = (k : Int) :=
    ⟨Int.natCast_nonneg k, by exact_mod_cast hk, q, h.hasValue, by exact_mod_cast hq⟩
  refine ⟨fun n => ?_, fun hnone => absurd ⟨k, hamount⟩ hnone⟩
  rw [hrun, Except.ok.injEq]
  constructor
  · rintro rfl
    exact hamount
  · rintro ⟨-, -, q', hq', hqn⟩
    obtain rfl := h.hasValue.unique hq'
    exact_mod_cast hq.symm.trans hqn

/-- A number that is not below zero is read exactly where it does not overflow and is not rounded to
an amount. -/
theorem readExactly_finite_iff {negative : Bool} {c : Nat} {e : Int}
    (hread : decimalOfText table (cleanedAmount text) = some (.finite negative c e))
    (hneg : (negative && c != 0) = false) :
    ReadExactly table text ↔ scaleTen c e * COIN < DEFAULT_CONTEXT.limit ∧
      ∀ k : Nat, k ≤ MAX_MONEY → scaleTen c e * COIN ≠ k →
        10 ^ DEFAULT_CONTEXT.quantum (scaleTen c e * COIN) / 2 < |scaleTen c e * COIN - k| := by
  have hvalue : ∀ q, HasValue table text q ↔ q = scaleTen c e := fun q => by
    rw [hasValue_iff hread, value_of_not_negative hneg, Option.some.injEq, eq_comm]
  have hnonneg : 0 ≤ scaleTen c e * COIN := mul_nonneg (scaleTen_nonneg c e) coin_pos.le
  have hspelled : ∀ n : Int, 0 ≤ n → n ≤ MAX_MONEY → (∃ q, HasValue table text q ∧ q * COIN = n) →
      parseAmount table text = .ok n := by
    rintro n hn hmax ⟨q, hq, hqn⟩
    obtain ⟨k, rfl⟩ := Int.eq_ofNat_of_zero_le hn
    have hheld := (heldValue_iff hread).mpr ((hasValue_iff hread).mp hq)
    exact parseAmount_of_heldValue (by exact_mod_cast hmax) hheld (by exact_mod_cast hqn)
  rcases parseAmount_finite hread hneg with ⟨hover, hrun⟩ | ⟨hlt, y, hnearest, hcases⟩
  · refine iff_of_false (fun h => ?_) fun h => absurd h.1 (not_lt.mpr hover)
    obtain ⟨message, hrun'⟩ := h.2 fun ⟨n, hn, hmax, hq⟩ => by
      have hok := hspelled n hn hmax hq
      rw [hrun] at hok
      cases hok
    rw [hrun] at hrun'
    cases hrun'
  · constructor
    · intro h
      refine ⟨hlt, fun k hk hne => not_le.mp fun hclose => hne ?_⟩
      -- rounded to an amount that it is not
      have hy := (nearest_eq_amount_iff hnonneg hnearest hk).mpr hclose
      rcases hcases with ⟨k', hk', -, hrun⟩ | ⟨hnot, -⟩
      · have hsame : k = k' := by exact_mod_cast hy.symm.trans hk'
        rw [← hsame] at hrun
        obtain ⟨-, -, q', hq', hqk⟩ := (h.1 k).mp hrun
        rw [(hvalue q').mp hq'] at hqk
        exact_mod_cast hqk
      · exact absurd hy (hnot k hk)
    · rintro ⟨-, hapart⟩
      have hexact : ∀ k : Nat, k ≤ MAX_MONEY → y = k →
          (0 : Int) ≤ k ∧ (k : Int) ≤ MAX_MONEY ∧ ∃ q, HasValue table text q ∧
          q * COIN = (k : Int) := by
        intro k hk hy
        refine ⟨Int.natCast_nonneg k, by exact_mod_cast hk, _, (hvalue _).mpr rfl, ?_⟩
        rw [Int.cast_natCast]
        by_contra hne
        exact absurd ((nearest_eq_amount_iff hnonneg hnearest hk).mp hy)
          (not_le.mpr (hapart k hk hne))
      rcases hcases with ⟨k, hk, hmax, hrun⟩ | ⟨-, message, hrun⟩
      · refine ⟨fun n => ⟨fun h => ?_, fun ⟨hn, hn', hq⟩ => hspelled n hn hn' hq⟩,
          fun hnone => absurd ⟨k, hexact k hmax hk⟩ hnone⟩
        rw [hrun] at h
        rw [← Except.ok.inj h]
        exact hexact k hmax hk
      · refine ⟨fun n => ⟨fun h => ?_, fun ⟨hn, hn', hq⟩ => hspelled n hn hn' hq⟩,
          fun _ => ⟨message, hrun⟩⟩
        rw [hrun] at h
        cases h

/-- What is refused before it is a decimal: it should be no amount. -/
theorem readExactly_iff_of_none (hread : decimalOfText table (cleanedAmount text) = none) :
    ReadExactly table text ↔ Harmless table text := by
  have hnot : ∀ d, ¬Held table text d := fun d h => by
    rw [held_iff, hread] at h
    cases h
  have hnone : ∀ q, ¬HeldValue table text q := fun q h => by
    obtain ⟨d, hd, -⟩ := h
    exact hnot d hd
  rw [readExactly_of_refused (parseAmount_of_none hread)]
  constructor
  · exact fun hno => ⟨fun q hq n hn hqn => absurd hqn (hno q hq n hn), fun _ => hnot _, hnot _,
      fun q h => absurd h (hnone q), fun q h => absurd h (hnone q)⟩
  · exact fun h q hq n hn hqn => hnone q (h.held q hq n hn hqn)

/-- A text is read exactly where neither the limits of decimals nor rounding nor a special value
does harm. -/
theorem readExactly_iff : ReadExactly table text ↔ Harmless table text := by
  cases hread : decimalOfText table (cleanedAmount text) with
  | none => exact readExactly_iff_of_none hread
  | some d =>
    have hheld : Held table text d := held_iff.mpr hread
    have hvalue : ∀ {q}, HasValue table text q → d.value = some q := (hasValue_iff hread).mp
    have hback : ∀ {q}, HasValue table text q → HeldValue table text q := fun h =>
      (heldValue_iff hread).mpr (hvalue h)
    have hother : ∀ {d'}, Held table text d' → d' = d := fun h => h.1.unique hheld.1
    cases d with
    | nan signaling =>
      -- an exception of decimal arithmetic, where a `ValueError` is asked for
      refine iff_of_false (not_readExactly_of_fault (parseAmount_nan hread) fun q h => ?_) fun h =>
        h.not_nan signaling hheld
      cases hvalue h
    | infinity negative =>
      have hnone : ∀ q, ¬HasValue table text q := fun q h => by cases hvalue h
      cases negative with
      | false =>
        exact iff_of_false (not_readExactly_of_fault (parseAmount_infinity hread) hnone) fun h =>
          h.not_infinite hheld
      -- minus infinity is below zero, and refused as it should be
      | true =>
        refine iff_of_true ((readExactly_of_refused (parseAmount_negative hread rfl)).mpr fun q h =>
          absurd h (hnone q)) ⟨fun q h _ _ _ => hback h, fun _ h => ?_, fun h => ?_,
            fun q h => absurd h.hasValue (hnone q), fun q h => absurd h.hasValue (hnone q)⟩
        · cases hother h
        · cases hother h
    | finite negative c e =>
      cases hneg : negative && c != 0 with
      | true =>
        obtain ⟨rfl, hc⟩ := by simpa using hneg
        -- a number below zero is refused, and is no amount
        have hbelow : ∀ q, HasValue table text q → q < 0 := fun q h => by
          have hq := hvalue h
          rw [Decimal.value, if_pos rfl, Option.some.injEq] at hq
          linarith [scaleTen_pos (Nat.pos_of_ne_zero hc) e]
        have hrun := parseAmount_negative hread (by rw [Decimal.ltZero, hneg])
        refine iff_of_true ((readExactly_of_refused hrun).mpr fun q h n _ =>
          mul_coin_ne_natCast (hbelow q h) n) ⟨fun q h _ _ _ => hback h, fun _ h => ?_, fun h => ?_,
            fun q h => ?_, fun q h hq => absurd hq (not_le.mpr (hbelow q h.hasValue))⟩
        · cases hother h
        · cases hother h
        · have hlt : q * COIN < 0 := mul_neg_of_neg_of_pos (hbelow q h.hasValue) coin_pos
          exact hlt.trans ((Nat.cast_nonneg MAX_MONEY).trans_lt maxMoney_lt_limit)
      | false =>
        -- otherwise only the rounding of the product is left
        have hone : HeldValue table text (scaleTen c e) :=
          (heldValue_iff hread).mpr (value_of_not_negative hneg)
        rw [readExactly_finite_iff hread hneg]
        constructor
        · rintro ⟨hlt, hapart⟩
          have hsame : ∀ q, HeldValue table text q → q = scaleTen c e := fun q h =>
            h.hasValue.unique hone.hasValue
          refine ⟨fun q h _ _ _ => hback h, fun _ h => ?_, fun h => ?_, fun q h => ?_,
            fun q h _ => ?_⟩
          · cases hother h
          · cases hother h
          · rwa [hsame q h]
          · rwa [hsame q h]
        · exact fun h => ⟨h.in_range _ hone, h.apart _ hone (scaleTen_nonneg c e)⟩

end Parsing

/-! ## Formatted amounts -/

/-- The digits of a fraction, up to the zeros at their end. -/
theorem fractionText_append (fraction : Nat) : ∃ k,
    (digitsOf 10 PLACES fraction).map Nat.digitChar =
      (fractionText fraction).toList ++ List.replicate k '0' := by
  rw [fractionText, String.toList_ofList]
  exact eq_append_replicate '0' _

theorem length_fractionText_le {fraction : Nat} :
    (fractionText fraction).toList.length ≤ PLACES := by
  obtain ⟨k, hk⟩ := fractionText_append fraction
  have hcount := congrArg List.length hk
  rw [List.length_map, length_digitsOf, List.length_append, List.length_replicate] at hcount
  omega

theorem isDigit_of_mem_fractionText {fraction : Nat} :
    ∀ c ∈ (fractionText fraction).toList, c.isDigit = true := by
  intro c hc
  obtain ⟨k, hk⟩ := fractionText_append fraction
  have hmem : c ∈ (digitsOf 10 PLACES fraction).map Nat.digitChar := by
    rw [hk]
    exact List.mem_append_left _ hc
  obtain ⟨d, hd, rfl⟩ := List.mem_map.mp hmem
  rw [Nat.isDigit_digitChar, decide_eq_true (lt_of_mem_digitsOf (by decide) hd)]

section Formatting

variable {table : DigitTable}

/-- Usual digits spell what they are the digits of. -/
theorem number_map_digitChar {ds : List Nat} (h : ∀ d ∈ ds, d < 10) :
    table.number (ds.map Nat.digitChar) = spell 10 ds := by
  have hdigit : ∀ d ∈ ds, table.digit (Nat.digitChar d) = d := fun d hd => by
    have hlt := h d hd
    rw [DigitTable.digit_of_isDigit (by rw [Nat.isDigit_digitChar, decide_eq_true hlt])]
    exact Nat.toNat_digitChar_sub_48_of_lt_ten hlt
  rw [DigitTable.number, List.map_map]
  exact congrArg (spell 10) ((List.map_congr_left hdigit).trans (List.map_id' ds))

theorem number_toDigits (n : Nat) : table.number (Nat.toDigits 10 n) = n := by
  rw [DigitTable.number_eq_ofDigitChars fun c hc => Nat.isDigit_of_mem_toDigits (by decide)
    (by decide) hc, Nat.ofDigitChars_ten_toDigits]

theorem coin_eq : COIN = 10 ^ PLACES := by decide

/-- A whole part and a fraction without its last zeros spell the amount, scaled. -/
theorem number_amount {whole fraction : Nat} (h : fraction < COIN) :
    scaleTen (table.number (Nat.toDigits 10 whole ++ (fractionText fraction).toList))
      (0 - (fractionText fraction).toList.length) * COIN = (whole * COIN + fraction : Nat) := by
  obtain ⟨k, hk⟩ := fractionText_append fraction
  have hlength : (fractionText fraction).toList.length + k = PLACES := by
    have hcount := congrArg List.length hk
    rw [List.length_map, length_digitsOf, List.length_append, List.length_replicate] at hcount
    exact hcount.symm
  have hzeros : table.number (List.replicate k '0') = 0 := by
    have hspelled : table.number ((List.replicate k 0).map Nat.digitChar) =
        spell 10 (List.replicate k 0) :=
      number_map_digitChar fun d hd => by rw [List.eq_of_mem_replicate hd]; decide
    rwa [List.map_replicate, spell_replicate_zero] at hspelled
  -- with all eight digits, the fraction is spelled in full
  have hfull : table.number (Nat.toDigits 10 whole ++ (fractionText fraction).toList) * 10 ^ k =
      whole * COIN + fraction := by
    have hfraction : table.number ((fractionText fraction).toList ++ List.replicate k '0') =
        fraction := by
      rw [← hk, number_map_digitChar fun d hd => lt_of_mem_digitsOf (by decide) hd,
        spell_digitsOf h]
    rw [DigitTable.number_append, hzeros, List.length_replicate, Nat.add_zero] at hfraction
    rw [DigitTable.number_append, number_toDigits, Nat.add_mul, hfraction, Nat.mul_assoc,
      ← Nat.pow_add, hlength, ← coin_eq]
  have hlow : ∀ c, c * COIN = c * 10 ^ k * 10 ^ (fractionText fraction).toList.length := fun c => by
    rw [coin_eq, ← hlength, Nat.add_comm, Nat.pow_add, Nat.mul_assoc]
  rw [← scaleTen_mul, hlow, scaleTen_shift, hfull, sub_add_cancel, scaleTen, zpow_zero, mul_one]

theorem toList_formatAmount (n : Nat) : (formatAmount n false).toList =
    Nat.toDigits 10 (n / COIN) ++
      if n % COIN = 0 then [] else '.' :: (fractionText (n % COIN)).toList := by
  have hsign : (if (n : Int) < 0 then "-" else "") = "" :=
    if_neg (Int.not_lt.mpr (Int.natCast_nonneg n))
  rw [formatAmount, hsign, Int.natAbs_natCast]
  by_cases hfraction : n % COIN = 0
  · rw [if_pos hfraction]
    simp [hfraction, Nat.toList_repr, toString]
  · rw [if_neg hfraction]
    simp [hfraction, Nat.toList_repr, toString]

/-- Formatting writes digits and a point only. -/
theorem plain_formatAmount (n : Nat) :
    ∀ c ∈ (formatAmount n false).toList, c ≠ '_' ∧ c ≠ 'T' ∧ isWhitespace c = false := by
  have hdigit : ∀ c : Char, c.isDigit = true → c ≠ '_' ∧ c ≠ 'T' ∧ isWhitespace c = false := by
    intro c hc
    obtain ⟨hne, -, -, -, hspace⟩ := not_special_of_isDigit hc
    refine ⟨hne, ?_, hspace⟩
    rintro rfl
    cases hc
  intro c hc
  rw [toList_formatAmount] at hc
  rcases List.mem_append.mp hc with hc | hc
  · exact hdigit c (Nat.isDigit_of_mem_toDigits (by decide) (by decide) hc)
  · split at hc
    · cases hc
    · rcases List.mem_cons.mp hc with rfl | hc
      · decide
      · exact hdigit c (isDigit_of_mem_fractionText c hc)

/-- Nothing of a formatted amount is left out when it is read. -/
theorem numeral_formatAmount (n : Nat) :
    numeral (cleanedAmount (formatAmount n false)) = (formatAmount n false).toList := by
  have hplain := plain_formatAmount n
  have hstrip : strip (formatAmount n false) = formatAmount n false :=
    strip_eq_self fun c hc => (hplain c hc).2.2
  have hsuffix : removeSuffix "SCT" (formatAmount n false) = formatAmount n false := by
    refine if_neg fun hend => ?_
    have hmem := (List.isSuffixOf_iff_suffix.mp hend).subset (show 'T' ∈ "SCT".toList by decide)
    exact (hplain 'T' hmem).2.1 rfl
  have hfilter : (formatAmount n false).toList.filter (fun c => c ≠ '_') =
      (formatAmount n false).toList :=
    List.filter_eq_self.mpr fun c hc => decide_eq_true (hplain c hc).1
  rw [numeral, cleanedAmount, hstrip, hsuffix, hstrip, hstrip, hfilter]

theorem denotes_formatAmount {n : Nat} {d : Decimal}
    (h : Spells table (formatAmount n false).toList d) :
    Denotes table (formatAmount n false) d := by
  rw [Denotes, numeral_formatAmount]
  exact h

/-- A formatted amount spells the amount, with eight decimals at most. -/
theorem denotes_formatAmount_finite (n : Nat) : ∃ c k, k ≤ PLACES ∧
    Denotes table (formatAmount n false) (.finite false c (0 - (k : Nat))) ∧
    scaleTen c (0 - (k : Nat)) * COIN = n := by
  have hdigits : (Nat.toDigits 10 (n / COIN)).all table.isDigit = true :=
    List.all_eq_true.mpr fun c hc =>
      DigitTable.isDigit_of_isDigit (Nat.isDigit_of_mem_toDigits (by decide) (by decide) hc)
  have htext := toList_formatAmount n
  by_cases hfraction : n % COIN = 0
  · rw [if_pos hfraction] at htext
    refine ⟨n / COIN, 0, Nat.zero_le _, denotes_formatAmount ?_, ?_⟩
    · rw [htext]
      refine ⟨[], _, false, rfl, .none, ?_⟩
      have hspells : SpellsUnsigned table false _ _ := .whole Nat.toDigits_ne_nil hdigits .none
      rwa [number_toDigits] at hspells
    · rw [← scaleTen_mul, Nat.div_mul_cancel (Nat.dvd_of_mod_eq_zero hfraction), scaleTen,
        Nat.cast_zero, sub_zero, zpow_zero, mul_one]
  · rw [if_neg hfraction] at htext
    have hvalue :
        scaleTen (table.number (Nat.toDigits 10 (n / COIN) ++ (fractionText (n % COIN)).toList))
        (0 - (fractionText (n % COIN)).toList.length) * COIN = (n / COIN * COIN + n % COIN : Nat) :=
      number_amount (Nat.mod_lt n (by decide))
    rw [Nat.div_add_mod'] at hvalue
    refine ⟨_, (fractionText (n % COIN)).toList.length, length_fractionText_le,
      denotes_formatAmount ?_, hvalue⟩
    rw [htext]
    refine ⟨[], _, false, rfl, .none, ?_⟩
    have hall : (Nat.toDigits 10 (n / COIN) ++ (fractionText (n % COIN)).toList).all table.isDigit =
        true := by
      rw [List.all_append, hdigits, Bool.true_and]
      exact List.all_eq_true.mpr fun c hc =>
        DigitTable.isDigit_of_isDigit (isDigit_of_mem_fractionText c hc)
    have hspells : SpellsUnsigned table false _ _ :=
      .pointed (fun h => Nat.toDigits_ne_nil (List.append_eq_nil_iff.mp h).1) hall .none
    rwa [List.append_nil] at hspells

/-- Behind the point of a formatted amount stands its fraction. -/
theorem fractionDigits_formatAmount (n : Nat) :
    fractionDigits table (formatAmount n false).toList ≤ PLACES := by
  have hrun : (Nat.toDigits 10 (n / COIN)).all (fun c => decide (c ≠ '.')) = true := by
    refine List.all_eq_true.mpr fun c hc => decide_eq_true ?_
    rintro rfl
    cases Nat.isDigit_of_mem_toDigits (by decide) (by decide) hc
  rw [fractionDigits, toList_formatAmount]
  by_cases hfraction : n % COIN = 0
  · rw [if_pos hfraction, (span_append hrun fun c hc => by cases hc).2]
    exact Nat.zero_le _
  · rw [if_neg hfraction, (span_append hrun fun c hc => ?_).2]
    · exact (List.takeWhile_sublist _).length_le.trans length_fractionText_le
    · rw [List.head?_cons, Option.mem_some_iff] at hc
      rw [← hc]
      decide

/-- The coefficient of an amount is no more than the amount. -/
theorem coefficient_le {c k n : Nat} (hk : k ≤ PLACES) (h : scaleTen c (0 - (k : Nat)) * COIN = n) :
    c ≤ n := by
  obtain ⟨j, hj⟩ := Nat.exists_eq_add_of_le hk
  have hcoin : c * COIN = c * 10 ^ j * 10 ^ k := by rw [coin_eq, hj, Nat.add_comm, Nat.pow_add,
    Nat.mul_assoc]
  rw [← scaleTen_mul, hcoin, scaleTen_shift, sub_add_cancel, scaleTen, zpow_zero, mul_one] at h
  have hsame : c * 10 ^ j = n := by exact_mod_cast h
  rw [← hsame]
  exact Nat.le_mul_of_pos_right c (Nat.pow_pos (by decide))

/-- A formatted amount is within the limits of decimals. -/
theorem heldValue_formatAmount {n : Nat} (h : n ≤ MAX_MONEY) :
    ∃ q, HeldValue table (formatAmount n false) q ∧ q * COIN = n := by
  obtain ⟨c, k, hk, hdenotes, hn⟩ := @denotes_formatAmount_finite table n
  refine ⟨_, ⟨_, ⟨hdenotes, ?_⟩, rfl⟩, hn⟩
  have hlog : Nat.log 10 c ≤ 15 :=
    (Nat.log_mono_right ((coefficient_le hk hn).trans h)).trans (by decide +kernel)
  have hplaces : k ≤ 8 := hk
  rw [holds, numeral_formatAmount, Bool.and_eq_true, Context.fits, decide_eq_true_eq,
    decide_eq_true_eq]
  refine ⟨(fractionDigits_formatAmount n).trans (by decide), ?_, ?_, ?_⟩
  · exact hlog.trans_lt (by decide)
  · change (Nat.log 10 c : Int) + (0 - (k : Nat)) ≤ 999999999999999999
    omega
  · change (-999999999999999999 : Int) - (999999999999999999 : Nat) + 1 ≤ 0 - (k : Nat)
    omega

/-- What `format_amount` writes, `parse_amount` reads. -/
theorem parseAmount_formatAmount {n : Nat} (h : n ≤ MAX_MONEY) :
    parseAmount table (formatAmount n false) = .ok n := by
  obtain ⟨q, hq, hn⟩ := @heldValue_formatAmount table n h
  exact parseAmount_of_heldValue h hq hn

end Formatting

/-- A text is read as the amount that it spells, or refused as a `ValueError`, exactly where neither
the limits of decimals nor rounding nor a special value does harm, and formatted amounts are read
back. -/
theorem parseAmount_exact_iff (table : DigitTable) :
    (∀ text, ReadExactly table text ↔ Harmless table text) ∧
    ∀ n : Int, 0 ≤ n → n ≤ MAX_MONEY → parseAmount table (formatAmount n false) = .ok n := by
  refine ⟨fun _ => readExactly_iff, fun n hn hmax => ?_⟩
  obtain ⟨k, rfl⟩ := Int.eq_ofNat_of_zero_le hn
  exact parseAmount_formatAmount (by exact_mod_cast hmax)

namespace Sample

def usualDigit (c : Char) : Option Nat := if c.isDigit then some (c.toNat - 48) else none

theorem usualDigit_lt {c : Char} {d : Nat} (h : usualDigit c = some d) : d < 10 := by
  unfold usualDigit at h
  split at h
  · rename_i hc
    obtain rfl := Option.some.inj h
    simp only [Char.isDigit, Bool.and_eq_true, decide_eq_true_eq, ge_iff_le] at hc
    have hle : c.toNat ≤ 57 := hc.2
    omega
  · cases h

theorem usualDigit_ascii (c : Char) (_ : c.toNat < 128) :
    usualDigit c = if c.isDigit then some (c.toNat - 48) else none := rfl

/-- The ten usual digits. -/
def digits : DigitTable where
  value := usualDigit
  lt := usualDigit_lt
  ascii := usualDigit_ascii

end Sample

/-- An amount that is formatted, read, and harmless. -/
theorem parseAmount_exact_iff_price :
    parseAmount Sample.digits (formatAmount 1234500000 false) = .ok 1234500000 ∧
      Harmless Sample.digits (formatAmount 1234500000 false) := by
  obtain ⟨hexact, hback⟩ := parseAmount_exact_iff Sample.digits
  obtain ⟨q, hq, hn⟩ := @heldValue_formatAmount Sample.digits 1234500000 (by decide)
  exact ⟨hback 1234500000 (by decide) (by decide),
    (hexact _).mp (readExactly_of_heldValue (by decide) hq hn)⟩

/-- A digit behind the twenty-eighth is dropped, a NaN is no `ValueError`, and a zero with too great
an exponent is one. -/
theorem readExactly_not_always :
    parseAmount Sample.digits "1.0000000000000000000000000001" = .ok 100000000 ∧
      HasValue Sample.digits "1.0000000000000000000000000001" (1 + 1 / 10 ^ 28) ∧
      ¬ReadExactly Sample.digits "1.0000000000000000000000000001" ∧
      parseAmount Sample.digits "nan" = .error (.arithmetic .invalidOperation) ∧
      HasValue Sample.digits "0e1000000000000000000" 0 ∧
      parseAmount Sample.digits "0e1000000000000000000" =
        .error (.value "'0e1000000000000000000' is not a valid amount") ∧
      ¬ReadExactly Sample.digits "0e1000000000000000000" := by
  have hread : decimalOfText Sample.digits (cleanedAmount "1.0000000000000000000000000001") =
      some (.finite false 10000000000000000000000000001 (-28)) := by decide +kernel
  have hrun : parseAmount Sample.digits "1.0000000000000000000000000001" = .ok 100000000 := by
    decide +kernel
  have hvalue : (Decimal.finite false 10000000000000000000000000001 (-28)).value =
      some (1 + 1 / 10 ^ 28) := by
    rw [Decimal.value, if_neg Bool.false_ne_true, scaleTen]
    norm_num
  have hzero : HasValue Sample.digits "0e1000000000000000000" 0 := by
    refine ⟨.finite false 0 1000000000000000000, readDecimal_eq_some_iff.mp (by decide +kernel), ?_⟩
    rw [Decimal.value, if_neg Bool.false_ne_true, scaleTen_zero]
  have hrefused : parseAmount Sample.digits "0e1000000000000000000" =
      .error (.value "'0e1000000000000000000' is not a valid amount") := by decide +kernel
  refine ⟨hrun, (hasValue_iff hread).mpr hvalue, fun h => ?_, by decide +kernel, hzero, hrefused,
    fun h => ?_⟩
  · obtain ⟨-, -, q, hq, hcoin⟩ := (h.1 100000000).mp hrun
    have hsame := (hasValue_iff hread).mp hq
    rw [hvalue, Option.some.injEq] at hsame
    rw [← hsame, show (COIN : ℚ) = 100000000 from rfl] at hcoin
    norm_num at hcoin
  · have hok := (h.1 0).mpr ⟨le_rfl, by decide, 0, hzero, by norm_num⟩
    rw [hrefused] at hok
    cases hok

end ScarletCoin
