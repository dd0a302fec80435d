import ScarletCoin.Core.Crypto

/-!
# Serialisation primitives

The `Writer` and `Reader` methods of `core/serialize.py`: fixed-width little-endian integers,
compact-size integers, raw and length-prefixed byte strings. A writer method is the byte string it
appends. A reader method consumes a prefix of the stream and raises `SerializationError` on a
truncated stream or an over-long integer.

Every writer is self-delimiting (`uint32_selfDelimiting`, `varint_selfDelimiting`,
`varbytes_selfDelimiting`) and every reader accepts only what its writer produces
(`Reader.uint32_eq_ok`, `Reader.varint_eq_ok`, `Reader.varbytes_canonical`).
-/

set_option autoImplicit false

namespace ScarletCoin

open Toolkit

/-! ## Writer -/

namespace Writer

/-- `struct.pack("<H", value)`. -/
def uint16 (value : UInt16) : Bytes := leBytes 2 value.toNat

/-- `struct.pack("<I", value)`. -/
def uint32 (value : UInt32) : Bytes := leBytes 4 value.toNat

/-- `struct.pack("<Q", value)`, for values below `2 ^ 64`. -/
def uint64 (value : Nat) : Bytes := leBytes 8 value

/-- A compact-size integer, for values below `2 ^ 64`. -/
def varint (value : Nat) : Bytes :=
  if value < 0xFD then leBytes 1 value
  else if value ≤ 0xFFFF then 0xFD :: leBytes 2 value
  else if value ≤ 0xFFFFFFFF then 0xFE :: leBytes 4 value
  else 0xFF :: leBytes 8 value

/-- A length-prefixed byte string. -/
def varbytes (data : Bytes) : Bytes := varint data.length ++ data

/-- A length-prefixed UTF-8 string. -/
def varstr (text : String) : Bytes := varbytes text.toUTF8.data.toList

end Writer

/-! ## Reader -/

namespace Reader

/-- Number of bytes left in the stream. -/
def remaining : Reader PyError Nat := fun bs => .ok (bs.length, bs)

/-- Raise from a reader. -/
def fail {α : Type} (e : PyError) : Reader PyError α := fun _ => .error e

/-- Read exactly `length` bytes. -/
def raw (length : Nat) : Reader PyError Bytes := fun bs =>
  if bs.length < length then
    .error (.serialization
      s!"truncated stream: wanted {length} bytes, {bs.length} available")
  else
    .ok (bs.take length, bs.drop length)

/-- Read one byte. -/
def uint8 : Reader PyError UInt8 := do
  let chunk ← raw 1
  pure (chunk.headD 0)

/-- Read a little-endian number of `width` bytes. -/
def uint (width : Nat) : Reader PyError Nat := do
  let chunk ← raw width
  pure (leNat chunk)

/-- Read a little-endian 16-bit number. -/
def uint16 : Reader PyError UInt16 := do
  let value ← uint 2
  pure (UInt16.ofNat value)

/-- Read a little-endian 32-bit number. -/
def uint32 : Reader PyError UInt32 := do
  let value ← uint 4
  pure (UInt32.ofNat value)

/-- Read a little-endian 64-bit number. -/
def uint64 : Reader PyError Nat := uint 8

/-- Read `value` bytes and insist that the number they spell is at least `minimum`. -/
def uintAtLeast (width minimum : Nat) : Reader PyError Nat := do
  let value ← uint width
  if value < minimum then
    fail (.serialization "non-canonical varint encoding")
  else
    pure value

/-- Read a canonical compact-size integer. -/
def varint : Reader PyError Nat := do
  let head ← uint8
  if head < 0xFD then pure head.toNat
  else if head = 0xFD then uintAtLeast 2 0xFD
  else if head = 0xFE then uintAtLeast 4 0x10000
  else uintAtLeast 8 0x100000000

/-- Assert that the whole stream has been consumed. -/
def expectEnd : Reader PyError Unit := do
  let left ← remaining
  if left ≠ 0 then
    fail (.serialization s!"{left} trailing bytes after object")
  else
    pure ()

/-! ## Readers and writers agree -/

theorem raw_eq_ok {n : Nat} {bs chunk rest : Bytes} :
    raw n bs = .ok (chunk, rest) ↔ chunk.length = n ∧ bs = chunk ++ rest := by
  unfold raw
  split
  · rename_i hlt
    constructor
    · intro h
      cases h
    · rintro ⟨rfl, rfl⟩
      simp at hlt
  · rename_i hge
    constructor
    · intro h
      obtain ⟨rfl, rfl⟩ := Prod.mk.inj (Except.ok.inj h)
      exact ⟨by rw [List.length_take]; omega, (List.take_append_drop n bs).symm⟩
    · rintro ⟨rfl, rfl⟩
      rw [List.take_left, List.drop_left]

theorem raw_append (chunk rest : Bytes) : raw chunk.length (chunk ++ rest) = .ok (chunk, rest) :=
  raw_eq_ok.mpr ⟨rfl, rfl⟩

theorem remaining_eq_ok {bs rest : Bytes} {n : Nat} :
    remaining bs = .ok (n, rest) ↔ n = bs.length ∧ rest = bs := by
  unfold remaining
  constructor
  · intro h
    obtain ⟨rfl, rfl⟩ := Prod.mk.inj (Except.ok.inj h)
    exact ⟨rfl, rfl⟩
  · rintro ⟨rfl, rfl⟩
    rfl

theorem fail_ne_ok {α : Type} {e : PyError} {bs rest : Bytes} {a : α} :
    fail e bs ≠ .ok (a, rest) := by
  intro h
  cases h

theorem uint8_eq_ok {bs rest : Bytes} {v : UInt8} :
    uint8 bs = .ok (v, rest) ↔ bs = v :: rest := by
  unfold uint8
  rw [reader_bind_eq_ok]
  constructor
  · rintro ⟨chunk, mid, hraw, h⟩
    obtain ⟨hlen, rfl⟩ := raw_eq_ok.mp hraw
    obtain ⟨rfl, rfl⟩ := reader_pure_eq_ok.mp h
    match chunk, hlen with
    | [b], _ => rfl
  · rintro rfl
    exact ⟨[v], rest, raw_append [v] rest, rfl⟩

theorem uint_eq_ok {n v : Nat} {bs rest : Bytes} :
    uint n bs = .ok (v, rest) ↔ v < 256 ^ n ∧ bs = leBytes n v ++ rest := by
  unfold uint
  rw [reader_bind_eq_ok]
  constructor
  · rintro ⟨chunk, mid, hraw, h⟩
    obtain ⟨rfl, rfl⟩ := raw_eq_ok.mp hraw
    obtain ⟨rfl, rfl⟩ := reader_pure_eq_ok.mp h
    exact ⟨leNat_lt chunk, by rw [leBytes_leNat]⟩
  · rintro ⟨hlt, rfl⟩
    refine ⟨leBytes n v, rest, raw_eq_ok.mpr ⟨leBytes_length n v, rfl⟩, ?_⟩
    exact reader_pure_eq_ok.mpr ⟨leNat_leBytes_of_lt hlt, rfl⟩

theorem uint32_eq_ok {v : UInt32} {bs rest : Bytes} :
    uint32 bs = .ok (v, rest) ↔ bs = Writer.uint32 v ++ rest := by
  unfold uint32 Writer.uint32
  rw [reader_bind_eq_ok]
  constructor
  · rintro ⟨value, mid, hread, h⟩
    obtain ⟨hlt, rfl⟩ := uint_eq_ok.mp hread
    obtain ⟨rfl, rfl⟩ := reader_pure_eq_ok.mp h
    rw [UInt32.toNat_ofNat', Nat.mod_eq_of_lt (by simpa using hlt)]
  · rintro rfl
    have hlt : v.toNat < 256 ^ 4 := by simpa using UInt32.toNat_lt v
    exact ⟨v.toNat, rest, uint_eq_ok.mpr ⟨hlt, rfl⟩, reader_pure_eq_ok.mpr ⟨by simp, rfl⟩⟩

theorem uint64_eq_ok {v : Nat} {bs rest : Bytes} :
    uint64 bs = .ok (v, rest) ↔ v < 2 ^ 64 ∧ bs = Writer.uint64 v ++ rest := uint_eq_ok

theorem uintAtLeast_eq_ok {n m v : Nat} {bs rest : Bytes} :
    uintAtLeast n m bs = .ok (v, rest) ↔ m ≤ v ∧ v < 256 ^ n ∧ bs = leBytes n v ++ rest := by
  unfold uintAtLeast
  rw [reader_bind_eq_ok]
  constructor
  · rintro ⟨value, mid, hread, h⟩
    obtain ⟨hlt, rfl⟩ := uint_eq_ok.mp hread
    split at h
    · exact absurd h fail_ne_ok
    · obtain ⟨rfl, rfl⟩ := reader_pure_eq_ok.mp h
      exact ⟨by omega, hlt, rfl⟩
  · rintro ⟨hm, hlt, rfl⟩
    refine ⟨v, rest, uint_eq_ok.mpr ⟨hlt, rfl⟩, ?_⟩
    rw [if_neg (by omega)]
    rfl

/-- A compact-size integer is read exactly from what the writer produces for it. -/
theorem varint_eq_ok {v : Nat} {bs rest : Bytes} :
    varint bs = .ok (v, rest) ↔ v < 2 ^ 64 ∧ bs = Writer.varint v ++ rest := by
  unfold varint Writer.varint
  rw [reader_bind_eq_ok]
  constructor
  · -- the head tells the width, and the width is the least one that holds the number
    rintro ⟨head, mid, hread, h⟩
    have hbs := uint8_eq_ok.mp hread
    subst hbs
    split at h
    · rename_i hsmall
      obtain ⟨rfl, rfl⟩ := reader_pure_eq_ok.mp h
      have hlt : head.toNat < 0xFD := hsmall
      refine ⟨by omega, ?_⟩
      rw [if_pos hlt]
      simp [leBytes]
    · split at h
      · rename_i hhead
        obtain ⟨hm, hlt, rfl⟩ := uintAtLeast_eq_ok.mp h
        refine ⟨by omega, ?_⟩
        rw [if_neg (by omega), if_pos (by omega), hhead]
        rfl
      · split at h
        · rename_i hhead
          obtain ⟨hm, hlt, rfl⟩ := uintAtLeast_eq_ok.mp h
          refine ⟨by omega, ?_⟩
          rw [if_neg (by omega), if_neg (by omega), if_pos (by omega), hhead]
          rfl
        · rename_i h1 h2 h3
          obtain ⟨hm, hlt, rfl⟩ := uintAtLeast_eq_ok.mp h
          have hhead : head = 0xFF := by
            have hn1 : ¬ head.toNat < 0xFD := h1
            have hn2 : head.toNat ≠ 0xFD := fun hc => h2 (UInt8.toNat_inj.mp hc)
            have hn3 : head.toNat ≠ 0xFE := fun hc => h3 (UInt8.toNat_inj.mp hc)
            have hn4 := UInt8.toNat_lt head
            exact UInt8.toNat_inj.mp (show head.toNat = 0xFF by omega)
          refine ⟨by omega, ?_⟩
          rw [if_neg (by omega), if_neg (by omega), if_neg (by omega), hhead]
          rfl
  · rintro ⟨hlt, rfl⟩
    -- conversely the width that is written is the one that is read
    by_cases h1 : v < 0xFD
    · refine ⟨UInt8.ofNat v, rest, uint8_eq_ok.mpr ?_, ?_⟩
      · rw [if_pos h1]
        simp [leBytes, Nat.mod_eq_of_lt (show v < 256 by omega)]
      · have hnat : (UInt8.ofNat v).toNat = v := by
          rw [UInt8.toNat_ofNat', Nat.mod_eq_of_lt (by omega)]
        have hsmall : UInt8.ofNat v < 0xFD := by
          show (UInt8.ofNat v).toNat < 0xFD
          omega
        rw [if_pos hsmall]
        exact reader_pure_eq_ok.mpr ⟨hnat, rfl⟩
    · by_cases h2 : v ≤ 0xFFFF
      · refine ⟨0xFD, leBytes 2 v ++ rest, uint8_eq_ok.mpr ?_, ?_⟩
        · rw [if_neg h1, if_pos h2]
          rfl
        · rw [if_neg (by decide), if_pos rfl]
          exact uintAtLeast_eq_ok.mpr ⟨by omega, by omega, rfl⟩
      · by_cases h3 : v ≤ 0xFFFFFFFF
        · refine ⟨0xFE, leBytes 4 v ++ rest, uint8_eq_ok.mpr ?_, ?_⟩
          · rw [if_neg h1, if_neg h2, if_pos h3]
            rfl
          · rw [if_neg (by decide), if_neg (by decide), if_pos rfl]
            exact uintAtLeast_eq_ok.mpr ⟨by omega, by omega, rfl⟩
        · refine ⟨0xFF, leBytes 8 v ++ rest, uint8_eq_ok.mpr ?_, ?_⟩
          · rw [if_neg h1, if_neg h2, if_neg h3]
            rfl
          · rw [if_neg (by decide), if_neg (by decide), if_neg (by decide)]
            exact uintAtLeast_eq_ok.mpr ⟨by omega, by omega, rfl⟩

/-- Read a 32-byte hash. -/
def hash32 : Reader PyError Hash :=
  attach (raw 32) fun _ _ _ h => (raw_eq_ok.mp h).1

/-- Read a 20-byte payload. -/
def payload : Reader PyError PubkeyHash :=
  attach (raw 20) fun _ _ _ h => (raw_eq_ok.mp h).1

/-- The body of `varbytes`: a length, at most `maxLength` if there is a limit, and that many
bytes. -/
def varbytesRaw (maxLength : Option Nat) : Reader PyError Bytes := do
  let length ← varint
  match maxLength with
  | none => raw length
  | some limit =>
      if limit < length then
        fail (.serialization s!"byte string too long: {length} > {limit}")
      else
        raw length

theorem varbytesRaw_eq_ok {limit : Option Nat} {bs chunk rest : Bytes}
    (h : varbytesRaw limit bs = .ok (chunk, rest)) :
    chunk.length < 2 ^ 64 ∧ bs = Writer.varbytes chunk ++ rest := by
  unfold varbytesRaw at h
  obtain ⟨n, mid, hread, hbody⟩ := reader_bind_eq_ok.mp h
  obtain ⟨hn, rfl⟩ := varint_eq_ok.mp hread
  have hraw : raw n mid = .ok (chunk, rest) := by
    cases limit with
    | none => exact hbody
    | some m =>
      dsimp only at hbody
      split at hbody
      · exact absurd hbody fail_ne_ok
      · exact hbody
  obtain ⟨rfl, rfl⟩ := raw_eq_ok.mp hraw
  exact ⟨hn, by rw [Writer.varbytes, List.append_assoc]⟩

/-- Read a length-prefixed byte string. -/
def varbytes (maxLength : Option Nat) : Reader PyError Blob :=
  attach (varbytesRaw maxLength) fun _ _ _ h => (varbytesRaw_eq_ok h).1

/-- Read a length-prefixed UTF-8 string of at most `maxLength` bytes. -/
def varstr (maxLength : Nat) : Reader PyError String := do
  let data ← varbytes (some maxLength)
  match String.fromUTF8? ⟨data.val.toArray⟩ with
  | none => fail (.serialization "invalid UTF-8 string")
  | some text => pure text

theorem varbytes_canonical (limit : Option Nat) :
    Canonical (fun b : Blob => Writer.varbytes b.val) (varbytes limit) :=
  fun _ _ _ h => (varbytesRaw_eq_ok (attach_eq_ok.mp h)).2.symm

theorem hash32_eq_ok {h : Hash} {bs rest : Bytes} :
    hash32 bs = .ok (h, rest) ↔ bs = h.val ++ rest := by
  unfold hash32
  rw [attach_eq_ok, raw_eq_ok]
  exact ⟨fun hr => hr.2, fun hr => ⟨h.property, hr⟩⟩

theorem payload_eq_ok {h : PubkeyHash} {bs rest : Bytes} :
    payload bs = .ok (h, rest) ↔ bs = h.val ++ rest := by
  unfold payload
  rw [attach_eq_ok, raw_eq_ok]
  exact ⟨fun hr => hr.2, fun hr => ⟨h.property, hr⟩⟩

theorem expectEnd_eq_ok {bs rest : Bytes} {u : Unit} :
    expectEnd bs = .ok (u, rest) ↔ bs = [] ∧ rest = [] := by
  unfold expectEnd
  rw [reader_bind_eq_ok]
  constructor
  · rintro ⟨n, mid, hread, h⟩
    obtain ⟨rfl, rfl⟩ := remaining_eq_ok.mp hread
    split at h
    · exact absurd h fail_ne_ok
    · rename_i hzero
      obtain ⟨-, rfl⟩ := reader_pure_eq_ok.mp h
      have hnil : mid = [] := List.length_eq_zero_iff.mp (by simpa using hzero)
      exact ⟨hnil, hnil⟩
  · rintro ⟨rfl, rfl⟩
    exact ⟨0, [], rfl, rfl⟩

end Reader

/-! ## Self-delimiting writers -/

theorem uint32_selfDelimiting : SelfDelimiting (fun _ => True) Writer.uint32 :=
  Inverts.selfDelimiting (r := Reader.uint32) fun _ _ _ => Reader.uint32_eq_ok.mpr rfl

theorem uint64_selfDelimiting : SelfDelimiting (· < 2 ^ 64) Writer.uint64 :=
  Inverts.selfDelimiting (r := Reader.uint64) fun _ _ hv =>
    Reader.uint64_eq_ok.mpr ⟨hv, rfl⟩

theorem varint_selfDelimiting : SelfDelimiting (· < 2 ^ 64) Writer.varint :=
  Inverts.selfDelimiting (r := Reader.varint) fun _ _ hv => Reader.varint_eq_ok.mpr ⟨hv, rfl⟩

theorem hash_selfDelimiting : SelfDelimiting (fun _ => True) (fun h : Hash => h.val) :=
  Inverts.selfDelimiting (r := Reader.hash32) fun _ _ _ => Reader.hash32_eq_ok.mpr rfl

theorem pubkeyHash_selfDelimiting : SelfDelimiting (fun _ => True) (fun h : PubkeyHash => h.val) :=
  SelfDelimiting.of_length 20 (fun a _ => a.property) fun _ _ _ _ h => Subtype.ext h

/-- A length-prefixed byte string ends where its length says. -/
theorem varbytes_selfDelimiting :
    SelfDelimiting (fun _ => True) (fun b : Blob => Writer.varbytes b.val) := by
  intro a b x y _ _ heq
  simp only [Writer.varbytes, List.append_assoc] at heq
  obtain ⟨hlen, htail⟩ := varint_selfDelimiting _ _ _ _ a.property b.property heq
  obtain ⟨hval, hxy⟩ := append_split hlen htail
  exact ⟨Subtype.ext hval, hxy⟩

end ScarletCoin
