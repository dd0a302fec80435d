import ScarletCoin.Core.Crypto
import Mathlib.Data.Nat.Digits.Lemmas
import Mathlib.Data.Nat.Size

/-!
# Base58 and Base58Check

The text encoding of addresses and private keys, `crypto/base58.py`. A byte string survives encoding
and decoding, any leading zero bytes included (`b58decode_b58encode`), and so does a version byte
with its payload under the checksum (`b58checkDecode_b58checkEncode`). What is decoded is encoded by
the one text it was decoded from (`b58encode_of_b58decode`, `b58checkDecode_eq_ok_iff`).
-/

set_option autoImplicit false

namespace ScarletCoin

open Toolkit

/-- The Base58 alphabet. -/
def ALPHABET : List Char := "123456789ABCDEFGHJKLMNPQRSTUVWXYZabcdefghijkmnopqrstuvwxyz".toList

/-- Length of a checksum. -/
def CHECKSUM_LENGTH : Nat := 4

/-- The character of a digit. -/
def alphabetChar (digit : Nat) : Char := ALPHABET.getD digit '1'

/-- The digit of a character. -/
def alphabetIndex (c : Char) : Option Nat :=
  if ALPHABET.contains c then some (ALPHABET.idxOf c) else none

/-- How many leading entries equal `x`. -/
def leadingCount {α : Type} [BEq α] (x : α) (xs : List α) : Nat := (xs.takeWhile (· == x)).length

/-- Encode bytes as a Base58 string. -/
def b58encode (data : Bytes) : String :=
  let digits := (Nat.digits 58 (beNat data)).map alphabetChar
  String.ofList (List.replicate (leadingCount 0 data) '1' ++ digits.reverse)

/-- `number.to_bytes((number.bit_length() + 7) // 8, "big")`. -/
def minimalBytes (number : Nat) : Bytes := (leBytes ((number.size + 7) / 8) number).reverse

/-- The number that the digits of a text spell. -/
def b58number : Nat → List Char → Except PyError Nat
  | number, [] => .ok number
  | number, c :: rest =>
      match alphabetIndex c with
      | none => .error (.base58 s!"invalid Base58 character '{c}'")
      | some digit => b58number (number * 58 + digit) rest

/-- Decode a Base58 string into bytes. -/
def b58decode (text : String) : Except PyError Bytes := do
  let number ← b58number 0 text.toList
  pure (List.replicate (leadingCount '1' text.toList) 0 ++ minimalBytes number)

section Check

variable [Crypto]

/-- The first bytes of the hash of a body. -/
def checksum (body : Bytes) : Bytes := (hash256 body).val.take CHECKSUM_LENGTH

/-- Encode a payload with a version byte and a checksum. -/
def b58checkEncode (version : UInt8) (payload : Bytes) : String :=
  b58encode (version :: payload ++ checksum (version :: payload))

/-- Decode a Base58Check string into its version and payload. -/
def b58checkDecode (text : String) (expectedVersion : Option UInt8) :
    Except PyError (UInt8 × Bytes) := do
  let raw ← b58decode text
  raiseIf (raw.length < 1 + CHECKSUM_LENGTH) (.base58 "Base58Check string is too short")
  let body := raw.take (raw.length - CHECKSUM_LENGTH)
  raiseIf (checksum body ≠ raw.drop (raw.length - CHECKSUM_LENGTH))
    (.base58 "bad checksum: the string was mistyped or corrupted")
  match body with
  | [] => .error (.index "index out of range")
  | version :: payload =>
      match expectedVersion with
      | none => pure (version, payload)
      | some wanted =>
          if version ≠ wanted then
            .error (.base58
              s!"unexpected version byte {hexByte version}, wanted {hexByte wanted}")
          else pure (version, payload)

end Check

/-! ## Digits -/

theorem alphabetIndex_alphabetChar {d : Nat} (h : d < 58) :
    alphabetIndex (alphabetChar d) = some d := by
  interval_cases d <;> rfl

theorem alphabetChar_eq_one {d : Nat} (h : d < 58) : alphabetChar d = '1' ↔ d = 0 := by
  interval_cases d <;> decide

/-- The characters of digits spell the number of the digits. -/
theorem b58number_map {digits : List Nat} (h : ∀ d ∈ digits, d < 58) (number : Nat) :
    b58number number (digits.map alphabetChar) =
      .ok (digits.foldl (fun n d => n * 58 + d) number) := by
  induction digits generalizing number with
  | nil => rfl
  | cons d digits ih =>
    rw [List.map_cons, b58number, alphabetIndex_alphabetChar (h d List.mem_cons_self)]
    exact ih (fun x hx => h x (List.mem_cons_of_mem d hx)) _

/-- Digits spelled from the highest on give the number back. -/
theorem foldl_digits (n : Nat) :
    (Nat.digits 58 n).reverse.foldl (fun n d => n * 58 + d) 0 = n := by
  rw [List.foldl_reverse]
  conv_rhs => rw [← Nat.ofDigits_digits 58 n]
  rw [Nat.ofDigits_eq_foldr]
  congr 1
  funext d n
  rw [Nat.cast_id]
  ring

theorem foldl_zeros (n : Nat) (ds : List Nat) :
    (List.replicate n 0 ++ ds).foldl (fun n d => n * 58 + d) 0 =
    ds.foldl (fun n d => n * 58 + d) 0 := by
  induction n with
  | zero => rfl
  | succ n ih => exact ih

/-- The digits of the number that digits spell, if these do not start with a zero. -/
theorem digits_foldl {ds : List Nat} (h : ∀ d ∈ ds, d < 58) (hhead : ds.head? ≠ some 0) :
    Nat.digits 58 (ds.foldl (fun n d => n * 58 + d) 0) = ds.reverse := by
  have hspelled : ds.foldl (fun n d => n * 58 + d) 0 = Nat.ofDigits 58 ds.reverse := by
    rw [← List.foldr_reverse, Nat.ofDigits_eq_foldr]
    congr 1
    funext d n
    rw [Nat.cast_id]
    ring
  rw [hspelled]
  refine Nat.digits_ofDigits 58 (by decide) _ (fun d hd => h d (List.mem_reverse.mp hd)) ?_
  intro hne hlast
  refine hhead ?_
  rw [← List.getLast?_reverse, List.getLast?_eq_some_getLast hne, hlast]

/-- The character of the digit of a character is the character. -/
theorem alphabetIndex_eq_some {c : Char} {d : Nat} (h : alphabetIndex c = some d) :
    c ∈ ALPHABET ∧ d < 58 ∧ alphabetChar d = c := by
  unfold alphabetIndex at h
  split at h
  · rename_i hmem
    have hc : c ∈ ALPHABET := List.contains_iff_mem.mp hmem
    have hlt : ALPHABET.idxOf c < ALPHABET.length := List.idxOf_lt_length_of_mem hc
    obtain rfl := Option.some.inj h
    refine ⟨hc, hlt, ?_⟩
    rw [alphabetChar, List.getD_eq_getElem?_getD, List.getElem?_eq_getElem hlt]
    exact List.getElem_idxOf hlt
  · cases h

theorem alphabetIndex_of_mem {c : Char} (h : c ∈ ALPHABET) :
    alphabetIndex c = some (ALPHABET.idxOf c) := if_pos (List.contains_iff_mem.mpr h)

/-- A text over the alphabet is made of the characters of digits. -/
theorem exists_digits {cs : List Char} (h : ∀ c ∈ cs, c ∈ ALPHABET) :
    ∃ ds : List Nat, (∀ d ∈ ds, d < 58) ∧ cs = ds.map alphabetChar := by
  refine ⟨cs.map ALPHABET.idxOf, fun d hd => ?_, ?_⟩
  · obtain ⟨c, hc, rfl⟩ := List.mem_map.mp hd
    exact (alphabetIndex_eq_some (alphabetIndex_of_mem (h c hc))).2.1
  · rw [List.map_map]
    refine (List.map_id cs).symm.trans (List.map_congr_left fun c hc => ?_)
    exact (alphabetIndex_eq_some (alphabetIndex_of_mem (h c hc))).2.2.symm

/-- A text with a number is a text over the alphabet. -/
theorem mem_of_b58number {cs : List Char} {start number : Nat}
    (h : b58number start cs = .ok number) : ∀ c ∈ cs, c ∈ ALPHABET := by
  induction cs generalizing start with
  | nil => exact fun c hc => absurd hc List.not_mem_nil
  | cons c cs ih =>
    unfold b58number at h
    split at h
    · cases h
    · rename_i digit hdigit
      intro x hx
      rcases List.mem_cons.mp hx with rfl | hx
      · exact (alphabetIndex_eq_some hdigit).1
      · exact ih h x hx

/-! ## Leading zeros -/

section Leading

variable {α : Type} [BEq α] [LawfulBEq α] {x : α}

theorem replicate_leadingCount (x : α) (xs : List α) :
    List.replicate (leadingCount x xs) x ++ xs.dropWhile (· == x) = xs := by
  have hall : xs.takeWhile (· == x) = List.replicate (leadingCount x xs) x := by
    refine List.eq_replicate_iff.mpr ⟨rfl, fun b hb => ?_⟩
    exact beq_iff_eq.mp (List.all_eq_true.mp List.all_takeWhile b hb)
  rw [← hall, List.takeWhile_append_dropWhile]

/-- The count of leading entries stops at an entry that differs. -/
theorem leadingCount_replicate (n : Nat) {rest : List α} (h : rest.head? ≠ some x) :
    leadingCount x (List.replicate n x ++ rest) = n := by
  induction n with
  | zero =>
    cases rest with
    | nil => rfl
    | cons y rest =>
      have hne : (y == x) = false := beq_eq_false_iff_ne.mpr fun hyx => h (congrArg some hyx)
      rw [leadingCount, List.replicate_zero, List.nil_append, List.takeWhile_cons, hne]
      rfl
  | succ n ih =>
    rw [List.replicate_succ, List.cons_append, leadingCount, List.takeWhile_cons, beq_self_eq_true,
      if_pos rfl, List.length_cons]
    exact congrArg (· + 1) ih

theorem head?_dropWhile_ne (x : α) (xs : List α) : (xs.dropWhile (· == x)).head? ≠ some x := by
  intro h
  have hfalse := List.head?_dropWhile_not (· == x) xs
  rw [h] at hfalse
  simp at hfalse

end Leading

/-! ## Numbers and their bytes -/

theorem beNat_replicate_append (n : Nat) (rest : Bytes) :
    beNat (List.replicate n 0 ++ rest) = beNat rest := by
  induction n with
  | zero => rfl
  | succ n ih =>
    rw [List.replicate_succ, List.cons_append, beNat_cons, ih]
    simp

/-- Bytes that do not start with a zero are the shortest that spell their number. -/
theorem minimalBytes_beNat {bs : Bytes} (h : bs.head? ≠ some 0) : minimalBytes (beNat bs) = bs := by
  have hlength : ((beNat bs).size + 7) / 8 = bs.length := by
    cases bs with
    | nil => rfl
    | cons x xs =>
      have hx : x.toNat ≠ 0 := fun hzero => h (congrArg some (UInt8.toNat_inj.mp hzero))
      have hpow : ∀ n, 256 ^ n = 2 ^ (8 * n) := fun n => by rw [Nat.pow_mul]
      have hupper := beNat_lt (x :: xs)
      rw [hpow, ← Nat.size_le] at hupper
      have hlower : 2 ^ (8 * xs.length) ≤ beNat (x :: xs) := by
        rw [beNat_cons, ← hpow]
        exact Nat.le_add_left_of_le (Nat.le_mul_of_pos_right _ (Nat.pos_of_ne_zero hx))
      rw [← Nat.lt_size] at hlower
      rw [List.length_cons] at hupper ⊢
      omega
  unfold minimalBytes
  rw [hlength, beNat, ← List.length_reverse, leBytes_leNat, List.reverse_reverse]

/-- The shortest bytes of a number spell it. -/
theorem beNat_minimalBytes (n : Nat) : beNat (minimalBytes n) = n := by
  unfold minimalBytes beNat
  rw [List.reverse_reverse]
  refine leNat_leBytes_of_lt (Nat.lt_of_lt_of_le (Nat.lt_size_self n) ?_)
  rw [show 256 = 2 ^ 8 from rfl, ← Nat.pow_mul]
  exact Nat.pow_le_pow_right (by decide) (by omega)

/-- The shortest bytes of a number do not start with a zero. -/
theorem head?_minimalBytes_ne (n : Nat) : (minimalBytes n).head? ≠ some 0 := by
  intro hhead
  have hlength : (minimalBytes n).length = (n.size + 7) / 8 := by
    unfold minimalBytes
    rw [List.length_reverse, leBytes_length]
  have hspelled := beNat_minimalBytes n
  cases hbytes : minimalBytes n with
  | nil =>
    rw [hbytes] at hhead
    cases hhead
  | cons b bs =>
    rw [hbytes] at hhead hlength hspelled
    obtain rfl : b = 0 := Option.some.inj hhead
    have hlt := beNat_lt bs
    rw [beNat_cons, show (0 : UInt8).toNat = 0 from rfl, Nat.mul_zero, Nat.add_zero] at hspelled
    rw [hspelled, show 256 = 2 ^ 8 from rfl, ← Nat.pow_mul, ← Nat.size_le] at hlt
    rw [List.length_cons] at hlength
    omega

/-! ## Round trips -/

/-- Decoding what was encoded gives the bytes back, leading zeros included. -/
theorem b58decode_b58encode (data : Bytes) : b58decode (b58encode data) = .ok data := by
  have hdigits : ∀ d ∈ Nat.digits 58 (beNat data), d < 58 := fun d hd =>
    Nat.digits_lt_base (by decide) hd
  have hbody : beNat (data.dropWhile (· == 0)) = beNat data := by
    conv_rhs => rw [← replicate_leadingCount 0 data, beNat_replicate_append]
  have htext : (b58encode data).toList =
      (List.replicate (leadingCount 0 data) 0 ++ (Nat.digits 58 (beNat data)).reverse).map
        alphabetChar := by
    rw [b58encode, String.toList_ofList, List.map_append, List.map_replicate, List.map_reverse]
    rfl
  have hnumber : b58number 0 (b58encode data).toList = .ok (beNat data) := by
    rw [htext, b58number_map]
    · rw [foldl_zeros, foldl_digits]
    · intro d hd
      rcases List.mem_append.mp hd with hd | hd
      · rw [List.eq_of_mem_replicate hd]
        decide
      · exact hdigits d (List.mem_reverse.mp hd)
  -- the digits of a number do not begin with zero, so the ones are those of the zero bytes
  have hleading : leadingCount '1' (b58encode data).toList = leadingCount 0 data := by
    rw [htext, List.map_append, List.map_replicate]
    refine leadingCount_replicate _ ?_
    rw [List.head?_map, List.head?_reverse]
    intro hhead
    obtain ⟨d, hlast, hd⟩ := Option.map_eq_some_iff.mp hhead
    have hmem := List.mem_of_getLast? hlast
    have hzero := (alphabetChar_eq_one (hdigits d hmem)).mp hd
    have hne : beNat data ≠ 0 := by
      intro h0
      rw [h0, Nat.digits_zero] at hmem
      cases hmem
    have hlast' := Nat.getLast_digit_ne_zero 58 hne
    rw [List.getLast?_eq_some_getLast (List.ne_nil_of_mem hmem)] at hlast
    exact hlast' ((Option.some.inj hlast).trans hzero)
  unfold b58decode
  rw [hnumber, ok_bind, hleading, ← hbody, minimalBytes_beNat (head?_dropWhile_ne 0 data),
    replicate_leadingCount]
  rfl

/-- What was decoded is encoded by the text it was decoded from. -/
theorem b58encode_of_b58decode {text : String} {data : Bytes} (h : b58decode text = .ok data) :
    b58encode data = text := by
  obtain ⟨number, hnumber, hdata⟩ := bind_eq_ok.mp h
  obtain rfl := pure_eq_ok.mp hdata
  obtain ⟨ds, hds, htext⟩ := exists_digits (mem_of_b58number hnumber)
  have hsplit := replicate_leadingCount 0 ds
  generalize leadingCount 0 ds = zeros at hsplit
  have hhead := head?_dropWhile_ne 0 ds
  generalize ds.dropWhile (· == 0) = body at hsplit hhead
  have hbody : ∀ d ∈ body, d < 58 := fun d hd => hds d (hsplit ▸ List.mem_append_right _ hd)
  have hdigits : Nat.digits 58 number = body.reverse := by
    rw [htext, b58number_map hds] at hnumber
    rw [← Except.ok.inj hnumber, ← hsplit, foldl_zeros, digits_foldl hbody hhead]
  have hchars : text.toList = List.replicate zeros '1' ++ body.map alphabetChar := by
    rw [htext, ← hsplit, List.map_append, List.map_replicate]
    rfl
  have hleading : leadingCount '1' text.toList = zeros := by
    rw [hchars]
    refine leadingCount_replicate zeros fun hone => hhead ?_
    rw [List.head?_map] at hone
    obtain ⟨d, hd, hchar⟩ := Option.map_eq_some_iff.mp hone
    rw [hd, (alphabetChar_eq_one (hbody d (List.mem_of_head? hd))).mp hchar]
  unfold b58encode
  rw [hleading, leadingCount_replicate zeros (head?_minimalBytes_ne number), beNat_replicate_append,
    beNat_minimalBytes, hdigits, List.map_reverse]
  dsimp only
  rw [List.reverse_reverse, ← hchars]
  exact String.ofList_toList

/-- An encoded string is made of the characters of digits. -/
theorem b58encode_chars {data : Bytes} {c : Char} (h : c ∈ (b58encode data).toList) :
    ∃ d < 58, c = alphabetChar d := by
  rw [b58encode, String.toList_ofList] at h
  rcases List.mem_append.mp h with h | h
  · exact ⟨0, by decide, List.eq_of_mem_replicate h⟩
  · obtain ⟨d, hd, rfl⟩ := List.mem_map.mp (List.mem_reverse.mp h)
    exact ⟨d, Nat.digits_lt_base (by decide) hd, rfl⟩

/-- A version byte and a payload survive encoding and decoding under the checksum, whether or not
the version is expected. -/
theorem b58checkDecode_encoded [Crypto] (version : UInt8) (payload : Bytes)
    {expected : Option UInt8} (h : expected = none ∨ expected = some version) :
    b58checkDecode (b58checkEncode version payload) expected = .ok (version, payload) := by
  have hcheck : (checksum (version :: payload)).length = CHECKSUM_LENGTH := by
    rw [checksum, List.length_take, (hash256 _).property]
    rfl
  have hlength : (version :: payload ++ checksum (version :: payload)).length - CHECKSUM_LENGTH =
      (version :: payload).length := by
    rw [List.length_append, hcheck, Nat.add_sub_cancel]
  unfold b58checkDecode b58checkEncode
  rw [b58decode_b58encode, ok_bind]
  refine raiseIf_bind_eq_ok.mpr ⟨?_, ?_⟩
  · rw [List.length_append, hcheck, List.length_cons]
    omega
  · simp only [hlength, List.take_left, List.drop_left]
    refine raiseIf_bind_eq_ok.mpr ⟨not_not.mpr rfl, ?_⟩
    rcases h with rfl | rfl
    · rfl
    · dsimp only
      rw [if_neg (not_not.mpr rfl)]
      rfl

theorem b58checkDecode_b58checkEncode [Crypto] (version : UInt8) (payload : Bytes) :
    b58checkDecode (b58checkEncode version payload) (some version) = .ok (version, payload) :=
  b58checkDecode_encoded version payload (.inr rfl)

/-- A text decodes under the checksum to a version byte and a payload exactly when it is their
encoding and no other version is expected. -/
theorem b58checkDecode_eq_ok_iff [Crypto] {text : String} {expected : Option UInt8}
    {version : UInt8} {payload : Bytes} : b58checkDecode text expected = .ok (version, payload) ↔
      b58checkEncode version payload = text ∧ (expected = none ∨ expected = some version) := by
  constructor
  · intro h
    obtain ⟨raw, hraw, h₁⟩ := bind_eq_ok.mp h
    obtain ⟨hlong, h₂⟩ := raiseIf_bind_eq_ok.mp h₁
    obtain ⟨hsum, h₃⟩ := raiseIf_bind_eq_ok.mp h₂
    have hsplit := List.take_append_drop (raw.length - CHECKSUM_LENGTH) raw
    rw [← not_not.mp hsum] at hsplit
    split at h₃
    · cases h₃
    · rename_i first rest hbody
      rw [hbody] at hsplit
      have hencoded : b58checkEncode first rest = text := by
        rw [b58checkEncode, hsplit, b58encode_of_b58decode hraw]
      split at h₃
      · obtain ⟨rfl, rfl⟩ := Prod.mk.inj (pure_eq_ok.mp h₃)
        exact ⟨hencoded, .inl rfl⟩
      · split at h₃
        · cases h₃
        · rename_i wanted hwanted
          obtain ⟨rfl, rfl⟩ := Prod.mk.inj (pure_eq_ok.mp h₃)
          exact ⟨hencoded, .inr (congrArg some (not_not.mp hwanted).symm)⟩
  · rintro ⟨rfl, hexpected⟩
    exact b58checkDecode_encoded version payload hexpected

/-- Base58 spells every byte string and reads every text over the alphabet, each as the one
counterpart of the other, and Base58Check accepts the one spelling of a version byte and a
payload. -/
theorem base58_bijective [Crypto] :
    (∀ data, b58decode (b58encode data) = .ok data) ∧
    (∀ text : String, (∀ c ∈ text.toList, c ∈ ALPHABET) →
      ∃ data, b58decode text = .ok data ∧ b58encode data = text) ∧
    (∀ version payload expected, expected = none ∨ expected = some version →
      b58checkDecode (b58checkEncode version payload) expected = .ok (version, payload)) ∧
    ∀ text expected version payload,
      b58checkDecode text expected = .ok (version, payload) →
      b58checkEncode version payload = text := by
  refine ⟨b58decode_b58encode, fun text h => ?_,
    fun version payload expected h => b58checkDecode_encoded version payload h,
    fun text expected version payload h => (b58checkDecode_eq_ok_iff.mp h).1⟩
  obtain ⟨ds, hds, htext⟩ := exists_digits h
  have hdecode : ∃ data, b58decode text = .ok data := by
    unfold b58decode
    rw [htext, b58number_map hds]
    exact ⟨_, rfl⟩
  obtain ⟨data, hdata⟩ := hdecode
  exact ⟨data, hdata, b58encode_of_b58decode hdata⟩

/-- A text that starts with the digit zero. -/
theorem base58_bijective_leading :
    ∃ data, b58decode "11z" = .ok data ∧ b58encode data = "11z" ∧ data.take 2 = [0, 0] := by
  have halphabet : ("11z".toList.all fun c => ALPHABET.contains c) = true := by decide +kernel
  obtain ⟨data, hdecode, hencode⟩ :=
    (@base58_bijective ⟨fun _ => nullHash, fun _ => true, fun _ _ _ _ => true⟩).2.1 "11z"
      fun c hc => List.contains_iff_mem.mp (List.all_eq_true.mp halphabet c hc)
  have hdata : b58decode "11z" = .ok [0, 0, 57] := by decide +kernel
  rw [hdecode] at hdata
  exact ⟨data, hdecode, hencode, by rw [Except.ok.inj hdata]; rfl⟩

end ScarletCoin
