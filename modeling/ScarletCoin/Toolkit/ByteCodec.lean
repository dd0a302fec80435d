import Mathlib.Tactic

/-!
# Byte strings and little-endian numbers

Byte strings are lists of `UInt8`. `leBytes n v` writes the `n` low bytes of `v`, lowest first, and
`leNat` reads a byte string back as a number. Reading what was written gives the value modulo
`256 ^ n` (`leNat_leBytes`), writing what was read gives the bytes back (`leBytes_leNat`), and two
equal concatenations whose first parts are equally long split (`append_split`), which is what makes
a sequence of fixed-width fields injective.
-/

set_option autoImplicit false

namespace Toolkit

/-- A byte string. -/
abbrev Bytes := List UInt8

/-- The `n` low bytes of `v`, lowest first. -/
def leBytes : Nat → Nat → Bytes
  | 0, _ => []
  | n + 1, v => UInt8.ofNat (v % 256) :: leBytes n (v / 256)

/-- The number a byte string spells, lowest byte first. -/
def leNat : Bytes → Nat
  | [] => 0
  | b :: bs => b.toNat + 256 * leNat bs

/-- The number a byte string spells, highest byte first. -/
def beNat (bs : Bytes) : Nat := leNat bs.reverse

@[simp] theorem leBytes_length (n v : Nat) : (leBytes n v).length = n := by
  induction n generalizing v with
  | zero => rfl
  | succ n ih => simp [leBytes, ih]

theorem toNat_ofNat_mod (v : Nat) : (UInt8.ofNat (v % 256)).toNat = v % 256 := by
  rw [UInt8.toNat_ofNat']
  exact Nat.mod_mod_of_dvd v (by decide)

/-- Reading the `n` bytes written for `v` gives `v` modulo `256 ^ n`. -/
theorem leNat_leBytes (n v : Nat) : leNat (leBytes n v) = v % 256 ^ n := by
  induction n generalizing v with
  | zero => simp [leBytes, leNat, Nat.mod_one]
  | succ n ih =>
    simp only [leBytes, leNat, ih, toNat_ofNat_mod]
    rw [Nat.pow_succ', Nat.mod_mul]

theorem leNat_leBytes_of_lt {n v : Nat} (h : v < 256 ^ n) : leNat (leBytes n v) = v := by
  rw [leNat_leBytes, Nat.mod_eq_of_lt h]

theorem leNat_lt (bs : Bytes) : leNat bs < 256 ^ bs.length := by
  induction bs with
  | nil => simp [leNat]
  | cons b bs ih =>
    have hb : b.toNat < 256 := UInt8.toNat_lt b
    simp only [leNat, List.length_cons, Nat.pow_succ']
    omega

theorem leNat_append (a b : Bytes) : leNat (a ++ b) = leNat a + 256 ^ a.length * leNat b := by
  induction a with
  | nil => simp [leNat]
  | cons x a ih =>
    rw [List.cons_append, leNat, leNat, ih, List.length_cons, Nat.pow_succ']
    ring

theorem beNat_cons (x : UInt8) (xs : Bytes) :
    beNat (x :: xs) = beNat xs + 256 ^ xs.length * x.toNat := by
  rw [beNat, List.reverse_cons, leNat_append, List.length_reverse, beNat]
  simp [leNat]

theorem beNat_lt (bs : Bytes) : beNat bs < 256 ^ bs.length := by
  have h := leNat_lt bs.reverse
  rwa [List.length_reverse] at h

/-- Writing the number that a byte string spells, at the string's length, gives the string. -/
theorem leBytes_leNat (bs : Bytes) : leBytes bs.length (leNat bs) = bs := by
  induction bs with
  | nil => rfl
  | cons b bs ih =>
    have hb : b.toNat < 256 := UInt8.toNat_lt b
    have hmod : (b.toNat + 256 * leNat bs) % 256 = b.toNat := by omega
    have hdiv : (b.toNat + 256 * leNat bs) / 256 = leNat bs := by omega
    simp [leNat, leBytes, hmod, hdiv, ih]

theorem leBytes_inj {n v w : Nat} (hv : v < 256 ^ n) (hw : w < 256 ^ n)
    (h : leBytes n v = leBytes n w) : v = w := by
  have hread := congrArg leNat h
  rwa [leNat_leBytes_of_lt hv, leNat_leBytes_of_lt hw] at hread

/-- Equal concatenations with equally long first parts have equal parts. -/
theorem append_split {a b x y : Bytes} (hlen : a.length = b.length) (h : a ++ x = b ++ y) :
    a = b ∧ x = y :=
  List.append_inj h hlen

end Toolkit
