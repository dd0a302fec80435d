import ScarletCoin.Toolkit.ByteCodec

/-!
# Hash functions that compress blocks

A message is padded to a whole number of blocks of 64 bytes, and a compression function takes a
state from block to block (`hash`). The blocks that lie within the message can be compressed before
the padding is known: what is left of the message and its length determine the rest
(`hash_eq_of_short`, `hash_eq_of_long`), so a common first part of messages needs to be compressed
once.
-/

set_option autoImplicit false

namespace Toolkit.MerkleDamgard

variable {σ : Type} (compress : σ → Bytes → σ)

/-- Compress the first blocks. The bytes after them are left. -/
def absorb : Nat → σ → Bytes → σ × Bytes
  | 0, state, data => (state, data)
  | n + 1, state, data => absorb n (compress state (data.take 64)) (data.drop 64)

/-- The number of bits of a message, in 8 bytes, highest first. -/
def lengthBytes (length : Nat) : Bytes := (leBytes 8 (8 * length)).reverse

/-- What ends a message: a marker, zeros up to a whole number of blocks, and the length. -/
def padding (length : Nat) : Bytes :=
  0x80 :: (List.replicate ((119 - length % 64) % 64) 0 ++ lengthBytes length)

/-- The hash of a message. -/
def hash (initial : σ) (output : σ → Bytes) (data : Bytes) : Bytes :=
  let padded := data ++ padding data.length
  output (absorb compress (padded.length / 64) initial padded).1

@[simp] theorem lengthBytes_length (length : Nat) : (lengthBytes length).length = 8 := by
  rw [lengthBytes, List.length_reverse, leBytes_length]

variable {compress}

theorem absorb_add (m n : Nat) (state : σ) (data : Bytes) :
    absorb compress (m + n) state data =
      absorb compress n (absorb compress m state data).1 (absorb compress m state data).2 := by
  induction m generalizing state data with
  | zero => rw [Nat.zero_add, absorb]
  | succ m ih => rw [Nat.succ_add, absorb, ih, absorb]

/-- Bytes after the blocks wait. -/
theorem absorb_append {n : Nat} {state : σ} {data : Bytes} (h : 64 * n ≤ data.length)
    (rest : Bytes) : absorb compress n state (data ++ rest) =
      ((absorb compress n state data).1, (absorb compress n state data).2 ++ rest) := by
  induction n generalizing state data with
  | zero => rfl
  | succ n ih =>
    have hblock : 64 ≤ data.length := by omega
    have htail : 64 * n ≤ (data.drop 64).length := by
      rw [List.length_drop]
      omega
    rw [absorb, List.take_append_of_le_length hblock, List.drop_append_of_le_length hblock,
      ih htail, absorb]

theorem absorb_rest (n : Nat) (state : σ) (data : Bytes) :
    (absorb compress n state data).2 = data.drop (64 * n) := by
  induction n generalizing state data with
  | zero => rfl
  | succ n ih =>
    rw [absorb, ih, List.drop_drop]
    congr 1
    omega

section Finish

variable {initial : σ} {output : σ → Bytes} {data rest : Bytes} {state : σ}

/-- The hash goes on from the blocks within the message. -/
theorem hash_eq_absorb (h : absorb compress (data.length / 64) initial data = (state, rest))
    {more : Nat} (hmore : (data ++ padding data.length).length / 64 = data.length / 64 + more) :
    hash compress initial output data =
      output (absorb compress more state (rest ++ padding data.length)).1 := by
  have hwhole : 64 * (data.length / 64) ≤ data.length := Nat.mul_div_le _ _
  rw [hash, hmore, absorb_add, absorb_append hwhole, h]

theorem rest_length (h : absorb compress (data.length / 64) initial data = (state, rest)) :
    rest.length = data.length % 64 := by
  have hrest : (absorb compress (data.length / 64) initial data).2 =
      data.drop (64 * (data.length / 64)) := absorb_rest _ initial data
  rw [h] at hrest
  have hlength := congrArg List.length hrest
  rw [List.length_drop] at hlength
  dsimp only at hlength
  omega

/-- The end of a message with room for the length is one block. -/
theorem hash_eq_of_short (h : absorb compress (data.length / 64) initial data = (state, rest))
    (hshort : rest.length < 56) :
    hash compress initial output data = output (compress state
      (rest ++ 0x80 :: (List.replicate (55 - rest.length) 0 ++ lengthBytes data.length))) := by
  have hrest := rest_length h
  have hzeros : (119 - data.length % 64) % 64 = 55 - rest.length := by omega
  have hblock : (rest ++ padding data.length).length = 64 := by
    rw [padding, hzeros]
    simp only [List.length_append, List.length_cons, List.length_replicate, lengthBytes_length]
    omega
  have hmore : (data ++ padding data.length).length / 64 = data.length / 64 + 1 := by
    rw [List.length_append] at hblock ⊢
    omega
  rw [hash_eq_absorb h hmore, absorb, absorb, List.take_of_length_le (Nat.le_of_eq hblock), padding,
    hzeros]

/-- The end of a message without room for the length is two blocks. -/
theorem hash_eq_of_long (h : absorb compress (data.length / 64) initial data = (state, rest))
    (hlong : 56 ≤ rest.length) :
    hash compress initial output data =
      output (compress (compress state (rest ++ 0x80 :: List.replicate (63 - rest.length) 0))
        (List.replicate 56 0 ++ lengthBytes data.length)) := by
  have hrest := rest_length h
  have hzeros : (119 - data.length % 64) % 64 = (63 - rest.length) + 56 := by omega
  have hsplit : rest ++ padding data.length =
      (rest ++ 0x80 :: List.replicate (63 - rest.length) 0) ++
        (List.replicate 56 0 ++ lengthBytes data.length) := by
    rw [padding, hzeros, List.replicate_add]
    simp only [List.append_assoc, List.cons_append]
  have hfirst : (rest ++ 0x80 :: List.replicate (63 - rest.length) (0 : UInt8)).length = 64 := by
    simp only [List.length_append, List.length_cons, List.length_replicate]
    omega
  have hsecond : (List.replicate 56 0 ++ lengthBytes data.length).length = 64 := by
    simp only [List.length_append, List.length_replicate, lengthBytes_length]
  have hlength : (rest ++ padding data.length).length = _ := congrArg List.length hsplit
  have hmore : (data ++ padding data.length).length / 64 = data.length / 64 + 2 := by
    have hboth := hlength.trans (List.length_append.trans (congrArg₂ (· + ·) hfirst hsecond))
    rw [List.length_append] at hboth ⊢
    omega
  rw [hash_eq_absorb h hmore, hsplit, absorb, absorb, absorb, List.take_left' hfirst,
    List.drop_left' hfirst, List.take_of_length_le (Nat.le_of_eq hsecond)]

end Finish

end Toolkit.MerkleDamgard
