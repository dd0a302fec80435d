import ScarletCoin.Core.Crypto

/-!
# Hexadecimal text

`bytes.fromhex`, with which the pool reads every byte string it is handed as text. It reads back
what `bytes.hex` wrote (`fromHex_hex`).
-/

set_option autoImplicit false

namespace ScarletCoin

open Toolkit

/-- The ASCII whitespace that may stand before a byte. -/
def isSpace (c : Char) : Bool := c.toNat == 0x20 || (0x09 ≤ c.toNat && c.toNat ≤ 0x0D)

/-- The value of a hexadecimal digit of either case. -/
def hexValue (c : Char) : Option Nat :=
  let n := c.toNat
  if 0x30 ≤ n ∧ n ≤ 0x39 then some (n - 0x30)
  else if 0x61 ≤ n ∧ n ≤ 0x66 then some (n - 0x61 + 10)
  else if 0x41 ≤ n ∧ n ≤ 0x46 then some (n - 0x41 + 10)
  else none

/-- The error for the character at `position`. -/
def hexError (position : Nat) : PyError :=
  .value s!"non-hexadecimal number found in fromhex() arg at position {position}"

/-- Read pairs of digits, the first of them at `position`. -/
def fromHexFrom : Nat → List Char → Except PyError Bytes
  | _, [] => .ok []
  | position, c :: rest =>
      if isSpace c then fromHexFrom (position + 1) rest
      else
        match hexValue c with
        | none => .error (hexError position)
        | some top =>
            match rest with
            | [] => .error (hexError (position + 1))
            | d :: rest =>
                match hexValue d with
                | none => .error (hexError (position + 1))
                | some bottom => do
                    let bytes ← fromHexFrom (position + 2) rest
                    pure (UInt8.ofNat (16 * top + bottom) :: bytes)

/-- `bytes.fromhex`. Text with other than ASCII characters is refused before any digit is read. -/
def fromHex (text : String) : Except PyError Bytes :=
  match text.toList.findIdx? fun c => decide (0x80 ≤ c.toNat) with
  | some position => .error (hexError position)
  | none => fromHexFrom 0 text.toList

/-- A digit that is written is read back. -/
theorem hexValue_hexDigit {n : Nat} (h : n < 16) :
    hexValue (hexDigit n) = some n ∧ isSpace (hexDigit n) = false ∧ (hexDigit n).toNat < 0x80 := by
  interval_cases n <;> exact ⟨rfl, rfl, by decide⟩

/-- The two digits of a byte. -/
def hexPair (b : UInt8) : List Char := [hexDigit (b.toNat / 16), hexDigit (b.toNat % 16)]

theorem fromHexFrom_flatMap (position : Nat) (bs : Bytes) :
    fromHexFrom position (bs.flatMap hexPair) = .ok bs := by
  induction bs generalizing position with
  | nil => rfl
  | cons b bs ih =>
    have hb := UInt8.toNat_lt b
    obtain ⟨htop, hspace, -⟩ := hexValue_hexDigit (n := b.toNat / 16) (by omega)
    obtain ⟨hbottom, -, -⟩ := hexValue_hexDigit (n := b.toNat % 16) (by omega)
    have hbyte : UInt8.ofNat (16 * (b.toNat / 16) + b.toNat % 16) = b := by
      rw [Nat.div_add_mod, UInt8.ofNat_toNat]
    show fromHexFrom position (hexDigit (b.toNat / 16) :: hexDigit (b.toNat % 16) ::
      bs.flatMap hexPair) = _
    rw [fromHexFrom, hspace, if_neg Bool.false_ne_true, htop]
    dsimp only
    rw [hbottom]
    dsimp only
    rw [ih, ok_bind, hbyte]
    rfl

/-- What `bytes.hex` writes, `bytes.fromhex` reads back. -/
theorem fromHex_hex (bs : Bytes) : fromHex (hex bs) = .ok bs := by
  have hlist : (hex bs).toList = bs.flatMap hexPair := String.toList_ofList
  have hascii : (bs.flatMap hexPair).findIdx? (fun c => decide (0x80 ≤ c.toNat)) = none := by
    rw [List.findIdx?_eq_none_iff]
    intro c hc
    obtain ⟨b, -, hpair⟩ := List.mem_flatMap.mp hc
    have hb := UInt8.toNat_lt b
    have hsmall : ∀ n < 16, c = hexDigit n → decide (0x80 ≤ c.toNat) = false := by
      rintro n hn rfl
      exact decide_eq_false (Nat.not_le.mpr (hexValue_hexDigit hn).2.2)
    rcases List.mem_cons.mp hpair with hc | hc
    · exact hsmall _ (by omega) hc
    · exact hsmall _ (by omega) (List.mem_singleton.mp hc)
  unfold fromHex
  rw [hlist, hascii]
  exact fromHexFrom_flatMap 0 bs

end ScarletCoin
