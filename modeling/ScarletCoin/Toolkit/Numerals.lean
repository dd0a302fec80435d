import ScarletCoin.Toolkit.Decimals
import ScarletCoin.Toolkit.Digits

/-!
# Decimal numerals

How decimals are spelled, as a grammar (`Spells`) and as a reader (`readDecimal`), for any table of
digit characters. The reader finds the decimal that the grammar gives (`readDecimal_eq_some_iff`).
-/

set_option autoImplicit false

namespace Toolkit

/-- The characters that are decimal digits; of the first 128, the ten usual ones. -/
structure DigitTable where
  value : Char → Option Nat
  lt : ∀ {c : Char} {d : Nat}, value c = some d → d < 10
  ascii : ∀ c : Char, c.toNat < 128 → value c = if c.isDigit then some (c.toNat - 48) else none

namespace DigitTable

variable (table : DigitTable)

def isDigit (c : Char) : Bool := (table.value c).isSome

def digit (c : Char) : Nat := (table.value c).getD 0

/-- The number that digit characters spell. -/
def number (ds : List Char) : Nat := spell 10 (ds.map table.digit)

variable {table}

theorem isDigit_of_ascii {c : Char} (h : c.toNat < 128) : table.isDigit c = c.isDigit := by
  rw [isDigit, table.ascii c h]
  split <;> simp_all

theorem lt_of_isDigit {c : Char} (h : c.isDigit = true) : c.toNat < 128 := by
  simp only [Char.isDigit, Bool.and_eq_true, decide_eq_true_eq, ge_iff_le] at h
  exact lt_of_le_of_lt (UInt32.le_iff_toNat_le.mp h.2) (by decide)

/-- The usual digits are digits. -/
theorem isDigit_of_isDigit {c : Char} (h : c.isDigit = true) : table.isDigit c = true := by
  rw [isDigit_of_ascii (lt_of_isDigit h), h]

theorem digit_of_isDigit {c : Char} (h : c.isDigit = true) : table.digit c = c.toNat - 48 := by
  rw [digit, table.ascii c (lt_of_isDigit h), if_pos h, Option.getD_some]

/-- The usual digits spell what they always do. -/
theorem number_eq_ofDigitChars {ds : List Char} (h : ∀ c ∈ ds, c.isDigit = true) :
    table.number ds = Nat.ofDigitChars 10 ds 0 := by
  induction ds using List.reverseRecOn with
  | nil => rfl
  | append_singleton ds c ih =>
    have hc : table.digit c = c.toNat - 48 := digit_of_isDigit (h c (by simp))
    rw [Nat.ofDigitChars_append, Nat.ofDigitChars_cons, Nat.ofDigitChars_nil,
      ← ih fun c hc => h c (List.mem_append_left _ hc), number, List.map_append, List.map_singleton,
      spell_concat, hc, Nat.mul_comm]
    rfl

theorem number_append (xs ys : List Char) :
    table.number (xs ++ ys) = table.number xs * 10 ^ ys.length + table.number ys := by
  rw [number, List.map_append, spell_append, List.length_map]
  rfl

end DigitTable

/-! ## The grammar -/

inductive IsSign : List Char → Bool → Prop where
  | none : IsSign [] false
  | plus : IsSign ['+'] false
  | minus : IsSign ['-'] true

section Grammar

variable (table : DigitTable)

/-- The exponent part of a numeral. -/
inductive IsExponent : List Char → Int → Prop where
  | none : IsExponent [] 0
  | some {indicator : Char} {sign ds : List Char} {negative : Bool} :
      indicator = 'e' ∨ indicator = 'E' → IsSign sign negative → ds ≠ [] →
      ds.all table.isDigit = true →
      IsExponent (indicator :: (sign ++ ds)) (if negative then -table.number ds
        else table.number ds)

/-- Spellings of decimals without their sign. -/
inductive SpellsUnsigned (negative : Bool) : List Char → Decimal → Prop where
  | whole {ds tail : List Char} {e : Int} :
      ds ≠ [] → ds.all table.isDigit = true → IsExponent table tail e →
      SpellsUnsigned negative (ds ++ tail) (.finite negative (table.number ds) e)
  | pointed {ds fraction tail : List Char} {e : Int} :
      ds ++ fraction ≠ [] → (ds ++ fraction).all table.isDigit = true → IsExponent table tail e →
      SpellsUnsigned negative (ds ++ '.' :: (fraction ++ tail))
        (.finite negative (table.number (ds ++ fraction)) (e - fraction.length))
  | infinity {word : List Char} :
      word.map Char.toLower = "inf".toList ∨ word.map Char.toLower = "infinity".toList →
      SpellsUnsigned negative word (.infinity negative)
  | nan {word payload : List Char} {signaling : Bool} :
      word.map Char.toLower = (if signaling then "snan" else "nan").toList →
      payload.all table.isDigit = true →
      SpellsUnsigned negative (word ++ payload) (.nan signaling)

/-- Spellings of decimals. -/
def Spells (cs : List Char) (d : Decimal) : Prop :=
  ∃ sign rest negative, cs = sign ++ rest ∧ IsSign sign negative ∧
    SpellsUnsigned table negative rest d

end Grammar

/-! ## The reader -/

/-- A sign, and what comes after it. -/
def readSign : List Char → Bool × List Char
  | '-' :: cs => (true, cs)
  | '+' :: cs => (false, cs)
  | cs => (false, cs)

section Reader

variable (table : DigitTable)

def readExponent : List Char → Option Int
  | [] => some 0
  | c :: cs =>
    if c = 'e' ∨ c = 'E' then
      let (negative, ds) := readSign cs
      if ds ≠ [] ∧ ds.all table.isDigit = true then
        some (if negative then -table.number ds else table.number ds)
      else none
    else none

def readFinite (negative : Bool) (cs : List Char) : Option Decimal :=
  let whole := cs.takeWhile table.isDigit
  match cs.dropWhile table.isDigit with
  | '.' :: rest =>
    let fraction := rest.takeWhile table.isDigit
    if whole ++ fraction = [] then none
    else (readExponent table (rest.dropWhile table.isDigit)).map fun e =>
      .finite negative (table.number (whole ++ fraction)) (e - fraction.length)
  | rest =>
    if whole = [] then none
    else (readExponent table rest).map fun e => .finite negative (table.number whole) e

/-- The special values, by name. -/
def readSpecial (negative : Bool) (cs : List Char) : Option Decimal :=
  let word := (cs.takeWhile fun c => !table.isDigit c).map Char.toLower
  let payload := cs.dropWhile fun c => !table.isDigit c
  if word = "inf".toList ∨ word = "infinity".toList then
    if payload = [] then some (.infinity negative) else none
  else if payload.all table.isDigit = true then
    if word = "nan".toList then some (.nan false)
    else if word = "snan".toList then some (.nan true)
    else none
  else none

/-- The decimal that a text spells. -/
def readDecimal (cs : List Char) : Option Decimal :=
  let (negative, rest) := readSign cs
  (readSpecial table negative rest).or (readFinite table negative rest)

end Reader

/-! ## Spans -/

/-- A run of characters that ends where something else starts. -/
theorem span_append {α : Type} {p : α → Bool} {run rest : List α} (hrun : run.all p = true)
    (hrest : ∀ c ∈ rest.head?, p c = false) :
    (run ++ rest).takeWhile p = run ∧ (run ++ rest).dropWhile p = rest := by
  have hall := List.all_eq_true.mp hrun
  rw [List.takeWhile_append_of_pos hall, List.dropWhile_append_of_pos hall]
  cases rest with
  | nil => exact ⟨List.append_nil run, rfl⟩
  | cons c cs =>
    have hc := hrest c rfl
    rw [List.takeWhile_cons, List.dropWhile_cons, hc]
    exact ⟨List.append_nil run, rfl⟩

/-- What is dropped at the end of a list is one element, repeated. -/
theorem eq_append_replicate {α : Type} [BEq α] [LawfulBEq α] (x : α) (xs : List α) :
    ∃ k, xs = (xs.reverse.dropWhile (· == x)).reverse ++ List.replicate k x := by
  have hsplit := List.takeWhile_append_dropWhile (p := (· == x)) (l := xs.reverse)
  have hall : (xs.reverse.takeWhile (· == x)).all (· == x) = true := List.all_takeWhile
  have hsame := List.eq_replicate_of_mem fun c hc => eq_of_beq (List.all_eq_true.mp hall c hc)
  refine ⟨(xs.reverse.takeWhile (· == x)).length, ?_⟩
  rw [← List.reverse_replicate, ← hsame, ← List.reverse_append, hsplit, List.reverse_reverse]

section Reading

variable {table : DigitTable} {cs tail : List Char} {d : Decimal} {e : Int} {negative : Bool}

theorem isDigit_plus : table.isDigit '+' = false := DigitTable.isDigit_of_ascii (by decide)

theorem isDigit_minus : table.isDigit '-' = false := DigitTable.isDigit_of_ascii (by decide)

theorem isDigit_point : table.isDigit '.' = false := DigitTable.isDigit_of_ascii (by decide)

theorem isDigit_indicator {c : Char} (h : c = 'e' ∨ c = 'E') : table.isDigit c = false := by
  rcases h with rfl | rfl <;> exact DigitTable.isDigit_of_ascii (by decide)

/-- A character whose lower case is another sign of the first 128 is no digit. -/
theorem isDigit_of_toLower {c : Char} (hascii : c.toLower.toNat < 128)
    (hdigit : c.toLower.isDigit = false) : table.isDigit c = false := by
  unfold Char.toLower at hascii hdigit
  split at hascii
  · rename_i hupper
    have hlow := UInt32.le_iff_toNat_le.mp hupper.1
    have hhigh := UInt32.le_iff_toNat_le.mp hupper.2
    have hlt : c.toNat < 128 := lt_of_le_of_lt hhigh (by decide)
    rw [DigitTable.isDigit_of_ascii hlt, Char.isDigit, Bool.and_eq_false_iff,
      decide_eq_false_iff_not, decide_eq_false_iff_not]
    refine .inr fun h => ?_
    have hle := UInt32.le_iff_toNat_le.mp h
    exact absurd (hlow.trans hle) (by decide)
  · rename_i hlower
    rw [dif_neg hlower] at hdigit
    rw [DigitTable.isDigit_of_ascii hascii, hdigit]

/-! ## Signs and exponents -/

theorem readSign_append {sign : List Char} (hsign : IsSign sign negative)
    (hcs : ∀ c ∈ cs.head?, c ≠ '+' ∧ c ≠ '-') : readSign (sign ++ cs) = (negative, cs) := by
  cases hsign with
  | plus => rfl
  | minus => rfl
  | none =>
    rw [List.nil_append]
    unfold readSign
    split
    · exact absurd rfl (hcs '-' rfl).2
    · exact absurd rfl (hcs '+' rfl).1
    · rfl

theorem readSign_sound (cs : List Char) :
    ∃ sign, cs = sign ++ (readSign cs).2 ∧ IsSign sign (readSign cs).1 := by
  unfold readSign
  split
  · exact ⟨['-'], rfl, .minus⟩
  · exact ⟨['+'], rfl, .plus⟩
  · exact ⟨[], rfl, .none⟩

theorem not_sign_of_isDigit {c : Char} (h : table.isDigit c = true) : c ≠ '+' ∧ c ≠ '-' := by
  constructor
  · rintro rfl
    rw [isDigit_plus] at h
    cases h
  · rintro rfl
    rw [isDigit_minus] at h
    cases h

theorem isDigit_head {ds : List Char} (h : ds.all table.isDigit = true) :
    ∀ c ∈ ds.head?, table.isDigit c = true := fun c hc =>
  List.all_eq_true.mp h c (List.mem_of_mem_head? hc)

theorem readExponent_eq_some_iff : readExponent table tail = some e ↔ IsExponent table tail e := by
  constructor
  · intro h
    cases tail with
    | nil =>
      rw [readExponent, Option.some.injEq] at h
      exact h ▸ .none
    | cons c cs =>
      rw [readExponent] at h
      split at h
      · rename_i hc
        obtain ⟨sign, hcs, hsign⟩ := readSign_sound cs
        dsimp only at h
        split at h
        · rename_i hds
          obtain rfl := Option.some.inj h
          have hexponent := IsExponent.some hc hsign hds.1 hds.2
          rwa [← hcs] at hexponent
        · cases h
      · cases h
  · intro h
    cases h with
    | none => rfl
    | some hc hsign hne hds =>
      rw [readExponent, if_pos hc, readSign_append hsign fun c hc =>
        not_sign_of_isDigit (isDigit_head hds c hc)]
      exact if_pos ⟨hne, hds⟩

/-- An exponent part starts with its indicator. -/
theorem IsExponent.head (h : IsExponent table tail e) : ∀ c ∈ tail.head?, c = 'e' ∨ c = 'E' := by
  cases h with
  | none => exact fun c hc => nomatch hc
  | some hc _ _ _ =>
    intro c hhead
    rw [List.head?_cons, Option.mem_some_iff] at hhead
    exact hhead ▸ hc

/-! ## Finite numbers -/

theorem readFinite_whole {ds : List Char} (hne : ds ≠ []) (hds : ds.all table.isDigit = true)
    (htail : IsExponent table tail e) :
    readFinite table negative (ds ++ tail) = some (.finite negative (table.number ds) e) := by
  obtain ⟨htake, hdrop⟩ := span_append hds fun c hc => isDigit_indicator (htail.head c hc)
  rw [readFinite, htake, hdrop]
  split
  · exact absurd (htail.head '.' rfl) (by decide)
  · rw [if_neg hne, readExponent_eq_some_iff.mpr htail]
    rfl

theorem readFinite_pointed {ds fraction : List Char} (hne : ds ++ fraction ≠ [])
    (hds : (ds ++ fraction).all table.isDigit = true) (htail : IsExponent table tail e) :
    readFinite table negative (ds ++ '.' :: (fraction ++ tail)) =
      some (.finite negative (table.number (ds ++ fraction)) (e - fraction.length)) := by
  rw [List.all_append, Bool.and_eq_true] at hds
  have hpoint : ∀ c ∈ ('.' :: (fraction ++ tail)).head?, table.isDigit c = false := by
    intro c hc
    rw [List.head?_cons, Option.mem_some_iff] at hc
    exact hc ▸ isDigit_point
  obtain ⟨htake, hdrop⟩ := span_append hds.1 hpoint
  obtain ⟨htake', hdrop'⟩ := span_append hds.2 fun c hc => isDigit_indicator (htail.head c hc)
  rw [readFinite, htake, hdrop]
  change (if ds ++ (fraction ++ tail).takeWhile table.isDigit = [] then none else _) = _
  rw [htake', hdrop', if_neg hne, readExponent_eq_some_iff.mpr htail]
  rfl

theorem readFinite_sound (h : readFinite table negative cs = some d) :
    SpellsUnsigned table negative cs d := by
  have hcs := List.takeWhile_append_dropWhile (p := table.isDigit) (l := cs)
  have hwhole : (cs.takeWhile table.isDigit).all table.isDigit = true := List.all_takeWhile
  unfold readFinite at h
  dsimp only at h
  split at h
  · rename_i rest hrest
    split at h
    · cases h
    · rename_i hne
      obtain ⟨e, he, rfl⟩ := Option.map_eq_some_iff.mp h
      have hdigits : (cs.takeWhile table.isDigit ++ rest.takeWhile table.isDigit).all
          table.isDigit = true := by
        rw [List.all_append, hwhole, List.all_takeWhile]
        rfl
      have hspells : SpellsUnsigned table negative _ _ :=
        .pointed hne hdigits (readExponent_eq_some_iff.mp he)
      rwa [List.takeWhile_append_dropWhile, ← hrest, hcs] at hspells
  · split at h
    · cases h
    · rename_i hne
      obtain ⟨e, he, rfl⟩ := Option.map_eq_some_iff.mp h
      have hspells : SpellsUnsigned table negative _ _ :=
        .whole hne hwhole (readExponent_eq_some_iff.mp he)
      rwa [hcs] at hspells

/-! ## Special values -/

/-- The names of the special values. -/
def specialNames : List (List Char) :=
  ["inf".toList, "infinity".toList, "nan".toList, "snan".toList]

variable (table) in
/-- A name has no digits in it, and starts with a letter. -/
theorem word_of_name {word : List Char} (h : word.map Char.toLower ∈ specialNames) :
    (word.all fun c => !table.isDigit c) = true ∧
      ∃ c rest, word = c :: rest ∧ c ≠ '+' ∧ c ≠ '-' ∧ c ≠ '.' := by
  have hletters :
    (specialNames.all fun name => name.all fun c => decide (c.toNat < 128) && !c.isDigit) =
    true := by decide
  have hstarts :
    (specialNames.all fun name => name.head?.any fun c => c != '+' && c != '-' && c != '.') =
    true := by decide
  have hword := List.all_eq_true.mp hletters _ h
  have hstart := List.all_eq_true.mp hstarts _ h
  constructor
  · refine List.all_eq_true.mpr fun c hc => ?_
    have hletter := List.all_eq_true.mp hword c.toLower (List.mem_map_of_mem hc)
    rw [Bool.and_eq_true, decide_eq_true_eq, Bool.not_eq_true'] at hletter
    rw [isDigit_of_toLower hletter.1 hletter.2]
    rfl
  · cases word with
    | nil => cases hstart
    | cons c rest =>
      simp only [List.map_cons, List.head?_cons, Option.any_some, Bool.and_eq_true,
        bne_iff_ne] at hstart
      obtain ⟨⟨hplus, hminus⟩, hpoint⟩ := hstart
      refine ⟨c, rest, rfl, ?_, ?_, ?_⟩
      · rintro rfl
        exact hplus (by decide)
      · rintro rfl
        exact hminus (by decide)
      · rintro rfl
        exact hpoint (by decide)

theorem readSpecial_infinity {word : List Char}
    (h : word.map Char.toLower = "inf".toList ∨ word.map Char.toLower = "infinity".toList) :
    readSpecial table negative word = some (.infinity negative) := by
  have hname : word.map Char.toLower ∈ specialNames := by rcases h with h | h <;> rw [h] <;> decide
  obtain ⟨htake, hdrop⟩ := span_append (word_of_name table hname).1
    fun c (hc : c ∈ ([] : List Char).head?) => nomatch hc
  rw [List.append_nil] at htake hdrop
  rw [readSpecial, htake, hdrop]
  rw [if_pos h, if_pos rfl]

theorem readSpecial_nan {word payload : List Char} {signaling : Bool}
    (h : word.map Char.toLower = (if signaling then "snan" else "nan").toList)
    (hpayload : payload.all table.isDigit = true) :
    readSpecial table negative (word ++ payload) = some (.nan signaling) := by
  have hname : word.map Char.toLower ∈ specialNames := by rw [h]; cases signaling <;> decide
  obtain ⟨htake, hdrop⟩ := span_append (word_of_name table hname).1
    fun c (hc : c ∈ payload.head?) => by rw [isDigit_head hpayload c hc]; rfl
  rw [readSpecial, htake, hdrop]
  rw [h]
  cases signaling with
  | false => rw [if_neg (by decide), if_pos hpayload]; rfl
  | true => rw [if_neg (by decide), if_pos hpayload]; rfl

theorem readSpecial_sound (h : readSpecial table negative cs = some d) :
    SpellsUnsigned table negative cs d := by
  have hcs := List.takeWhile_append_dropWhile (p := fun c => !table.isDigit c) (l := cs)
  unfold readSpecial at h
  dsimp only at h
  split at h
  · rename_i hword
    split at h
    · rename_i hpayload
      rw [← Option.some.inj h]
      rw [hpayload, List.append_nil] at hcs
      rw [hcs] at hword
      exact .infinity hword
    · cases h
  · split at h
    · rename_i hpayload
      split at h
      · rename_i hword
        have hspells : SpellsUnsigned table negative _ (.nan false) := .nan hword hpayload
        rw [← Option.some.inj h]
        rwa [hcs] at hspells
      · split at h
        · rename_i hword
          have hspells : SpellsUnsigned table negative _ (.nan true) := .nan hword hpayload
          rw [← Option.some.inj h]
          rwa [hcs] at hspells
        · cases h
    · cases h

/-- A text that starts with a digit or a point is no special value. -/
theorem readSpecial_eq_none {c : Char} (h : table.isDigit c = true ∨ c = '.') :
    readSpecial table negative (c :: cs) = none := by
  cases hread : readSpecial table negative (c :: cs) with
  | none => rfl
  | some d =>
    exfalso
    have hfirst : ∀ word payload : List Char, c :: cs = word ++ payload →
        word.map Char.toLower ∈ specialNames → False := by
      intro word payload hcs hname
      obtain ⟨hdigits, c', rest, rfl, -, -, hpoint⟩ := word_of_name table hname
      obtain rfl : c = c' := (List.cons.inj hcs).1
      rcases h with h | h
      · have hc := List.all_eq_true.mp hdigits c List.mem_cons_self
        rw [h] at hc
        cases hc
      · exact hpoint h
    have hspecial : ∃ word payload, c :: cs = word ++ payload ∧
        word.map Char.toLower ∈ specialNames := by
      have hcs := List.takeWhile_append_dropWhile (p := fun c => !table.isDigit c) (l := c :: cs)
      refine ⟨_, _, hcs.symm, ?_⟩
      unfold readSpecial at hread
      dsimp only at hread
      split at hread
      · rename_i hword
        rcases hword with hword | hword <;> rw [hword] <;> decide
      · split at hread
        · split at hread
          · rename_i hword
            rw [hword]
            decide
          · split at hread
            · rename_i hword
              rw [hword]
              decide
            · cases hread
        · cases hread
    obtain ⟨word, payload, hcs, hname⟩ := hspecial
    exact hfirst word payload hcs hname

/-! ## The reader reads the grammar -/

/-- What an unsigned spelling reads as, and that it starts with no sign. -/
theorem SpellsUnsigned.read (h : SpellsUnsigned table negative cs d) :
    (∀ c ∈ cs.head?, c ≠ '+' ∧ c ≠ '-') ∧
      (readSpecial table negative cs).or (readFinite table negative cs) = some d := by
  cases h with
  | @whole ds tail e hne hds htail =>
    -- a digit begins neither a sign nor a name, so only the finite reader answers
    cases ds with
    | nil => exact absurd rfl hne
    | cons c ds =>
      have hc := isDigit_head hds c rfl
      refine ⟨fun c' hc' => ?_, ?_⟩
      · rw [List.cons_append, List.head?_cons, Option.mem_some_iff] at hc'
        exact hc' ▸ not_sign_of_isDigit hc
      · rw [readFinite_whole hne hds htail, List.cons_append, readSpecial_eq_none (.inl hc)]
        rfl
  | @pointed ds fraction tail e hne hds htail =>
    have hread : readFinite table negative _ = _ := readFinite_pointed hne hds htail
    cases ds with
    | nil =>
      refine ⟨fun c' hc' => ?_, ?_⟩
      · rw [List.nil_append, List.head?_cons, Option.mem_some_iff] at hc'
        rw [← hc']
        decide
      · rw [hread, List.nil_append, readSpecial_eq_none (.inr rfl)]
        rfl
    | cons c ds =>
      have hc := isDigit_head hds c rfl
      refine ⟨fun c' hc' => ?_, ?_⟩
      · rw [List.cons_append, List.head?_cons, Option.mem_some_iff] at hc'
        exact hc' ▸ not_sign_of_isDigit hc
      · rw [hread, List.cons_append, readSpecial_eq_none (.inl hc)]
        rfl
  -- a name begins with a letter, and it is read before a number is tried
  | infinity hword =>
    have hname :
      cs.map Char.toLower ∈ specialNames := by rcases hword with h | h <;> rw [h] <;> decide
    obtain ⟨-, c, rest, rfl, hplus, hminus, -⟩ := word_of_name table hname
    refine ⟨fun c' hc' => ?_, ?_⟩
    · rw [List.head?_cons, Option.mem_some_iff] at hc'
      exact hc' ▸ ⟨hplus, hminus⟩
    · rw [readSpecial_infinity hword]
      rfl
  | @nan word payload signaling hword hpayload =>
    have hname : word.map Char.toLower ∈ specialNames := by rw [hword]; cases signaling <;> decide
    have hread : readSpecial table negative _ = _ := readSpecial_nan hword hpayload
    obtain ⟨-, c, rest, rfl, hplus, hminus, -⟩ := word_of_name table hname
    refine ⟨fun c' hc' => ?_, ?_⟩
    · rw [List.cons_append, List.head?_cons, Option.mem_some_iff] at hc'
      exact hc' ▸ ⟨hplus, hminus⟩
    · rw [hread]
      rfl

theorem readDecimal_eq_some_iff : readDecimal table cs = some d ↔ Spells table cs d := by
  constructor
  · intro h
    obtain ⟨sign, hcs, hsign⟩ := readSign_sound cs
    refine ⟨sign, (readSign cs).2, (readSign cs).1, hcs, hsign, ?_⟩
    rcases Option.or_eq_some_iff.mp h with h | ⟨-, h⟩
    · exact readSpecial_sound h
    · exact readFinite_sound h
  · rintro ⟨sign, rest, negative, rfl, hsign, hrest⟩
    obtain ⟨hhead, hread⟩ := hrest.read
    rw [readDecimal, readSign_append hsign hhead]
    exact hread

end Reading

end Toolkit
