import ScarletCoin.Core.Block
import ScarletCoin.Toolkit.MerkleDamgard

/-!
# The proof-of-work search

The scan of a range of nonces, `miner/solver.py`, and the native scanner it uses where one is
compiled, `miner/_scan_nonces.c`. The C code has 32-bit words, arithmetic modulo `2 ^ 32` on the
nonce, and buffers of fixed lengths, which are byte strings here. The time that a scan takes is left
out.
-/

set_option autoImplicit false

namespace ScarletCoin

open Toolkit

/-- The first number of a range with a property: `left` numbers are tried, from `n` on. -/
def firstFrom (p : Nat → Bool) : Nat → Nat → Option Nat
  | 0, _ => none
  | left + 1, n => if p n then some n else firstFrom p left (n + 1)

/-! ## The native scanner -/

namespace ScanNonces

/-- `uint32_t state[8]`. -/
structure State where
  a : UInt32
  b : UInt32
  c : UInt32
  d : UInt32
  e : UInt32
  f : UInt32
  g : UInt32
  h : UInt32
  deriving DecidableEq

/-- The state before the first block. -/
def initial : State :=
  ⟨0x6a09e667, 0xbb67ae85, 0x3c6ef372, 0xa54ff53a, 0x510e527f, 0x9b05688c, 0x1f83d9ab, 0x5be0cd19⟩

/-- The constants of the rounds. -/
def K : List UInt32 := [
  0x428a2f98, 0x71374491, 0xb5c0fbcf, 0xe9b5dba5, 0x3956c25b, 0x59f111f1,
  0x923f82a4, 0xab1c5ed5, 0xd807aa98, 0x12835b01, 0x243185be, 0x550c7dc3,
  0x72be5d74, 0x80deb1fe, 0x9bdc06a7, 0xc19bf174, 0xe49b69c1, 0xefbe4786,
  0x0fc19dc6, 0x240ca1cc, 0x2de92c6f, 0x4a7484aa, 0x5cb0a9dc, 0x76f988da,
  0x983e5152, 0xa831c66d, 0xb00327c8, 0xbf597fc7, 0xc6e00bf3, 0xd5a79147,
  0x06ca6351, 0x14292967, 0x27b70a85, 0x2e1b2138, 0x4d2c6dfc, 0x53380d13,
  0x650a7354, 0x766a0abb, 0x81c2c92e, 0x92722c85, 0xa2bfe8a1, 0xa81a664b,
  0xc24b8b70, 0xc76c51a3, 0xd192e819, 0xd6990624, 0xf40e3585, 0x106aa070,
  0x19a4c116, 0x1e376c08, 0x2748774c, 0x34b0bcb5, 0x391c0cb3, 0x4ed8aa4a,
  0x5b9cca4f, 0x682e6ff3, 0x748f82ee, 0x78a5636f, 0x84c87814, 0x8cc70208,
  0x90befffa, 0xa4506ceb, 0xbef9a3f7, 0xc67178f2]

def rotr (x n : UInt32) : UInt32 := (x >>> n) ||| (x <<< (32 - n))

/-- A word of the block, highest byte first. -/
def loadWord (block : Bytes) (i : Nat) : UInt32 :=
  ((block.getD (i * 4) 0).toUInt32 <<< 24) ||| ((block.getD (i * 4 + 1) 0).toUInt32 <<< 16) |||
    ((block.getD (i * 4 + 2) 0).toUInt32 <<< 8) ||| (block.getD (i * 4 + 3) 0).toUInt32

/-- The words after those given, which are in reverse order. -/
def extendWords : Nat → List UInt32 → List UInt32
  | 0, w => w
  | n + 1, w =>
      let w15 := w.getD 14 0
      let w2 := w.getD 1 0
      let s0 := rotr w15 7 ^^^ rotr w15 18 ^^^ (w15 >>> 3)
      let s1 := rotr w2 17 ^^^ rotr w2 19 ^^^ (w2 >>> 10)
      extendWords n ((w.getD 15 0 + s0 + w.getD 6 0 + s1) :: w)

/-- The 64 words of a block. -/
def words (block : Bytes) : List UInt32 :=
  (extendWords 48 ((List.range 16).reverse.map (loadWord block))).reverse

/-- One round, with its constant and its word. -/
def round (s : State) (kw : UInt32 × UInt32) : State :=
  let S1 := rotr s.e 6 ^^^ rotr s.e 11 ^^^ rotr s.e 25
  let ch := (s.e &&& s.f) ^^^ (~~~s.e &&& s.g)
  let temp1 := s.h + S1 + ch + kw.1 + kw.2
  let S0 := rotr s.a 2 ^^^ rotr s.a 13 ^^^ rotr s.a 22
  let maj := (s.a &&& s.b) ^^^ (s.a &&& s.c) ^^^ (s.b &&& s.c)
  let temp2 := S0 + maj
  ⟨temp1 + temp2, s.a, s.b, s.c, s.d + temp1, s.e, s.f, s.g⟩

/-- Compress one block. -/
def sha256Compress (state : State) (block : Bytes) : State :=
  let s := (K.zip (words block)).foldl round state
  ⟨state.a + s.a, state.b + s.b, state.c + s.c, state.d + s.d,
    state.e + s.e, state.f + s.f, state.g + s.g, state.h + s.h⟩

/-- The bytes of a word, highest first. -/
def wordBytes (w : UInt32) : Bytes :=
  [(w >>> 24).toUInt8, (w >>> 16).toUInt8, (w >>> 8).toUInt8, w.toUInt8]

/-- The digest that a state spells. -/
def digestBytes (s : State) : Bytes := [s.a, s.b, s.c, s.d, s.e, s.f, s.g, s.h].flatMap wordBytes

/-- Write a number of bits to the end of a block, highest byte first. -/
def writeBits (block : Bytes) (bits : Nat) : Bytes :=
  (List.range 8).foldl (fun block i => block.set (63 - i) (UInt8.ofNat (bits >>> (i * 8)))) block

/-- SHA-256 of any number of bytes. -/
def sha256 (data : Bytes) : Bytes :=
  let (state, rest) := MerkleDamgard.absorb sha256Compress (data.length / 64) initial data
  let block := (rest ++ List.replicate (64 - rest.length) 0).set rest.length 0x80
  let (state, block) :=
    if 56 ≤ rest.length then (sha256Compress state block, List.replicate 64 0) else (state, block)
  digestBytes (sha256Compress state (writeBits block (data.length * 8 % 2 ^ 64)))

/-- The first digest at most the target, compared byte by byte from index `n - 1` down. -/
def notAbove (digest target : Bytes) : Nat → Bool
  | 0 => true
  | j + 1 =>
      if digest.getD j 0 < target.getD j 0 then true
      else if target.getD j 0 < digest.getD j 0 then false
      else notAbove digest target j

/-- One turn of the loop: whether the header with this nonce meets the target. -/
def solves (midstate : State) (tail target : Bytes) (nonce : Nat) : Bool :=
  let block := ((tail ++ leBytes 4 nonce) ++ List.replicate 48 0).set 16 0x80
  let inner := digestBytes (sha256Compress midstate (writeBits block (80 * 8)))
  notAbove (sha256 inner) target 32

/-- `scarlet_scan_nonces`: the nonce that was found, or `-1`. -/
def scarletScanNonces (header target : Bytes) (start count : Nat) : Int :=
  let midstate := sha256Compress initial (header.take 64)
  let tail := (header.drop 64).take 12
  match firstFrom (fun i => solves midstate tail target ((start + i) % 2 ^ 32)) count 0 with
  | some i => ((start + i) % 2 ^ 32 : Nat)
  | none => -1

/-- Call the scanner: `ctypes` passes the low 32 bits of the range. -/
def call (header : Bytes) (target : Nat) (start count : Int) : Except PyError Int := do
  raiseIf (2 ^ 256 ≤ target) (.overflow "int too big to convert")
  pure (scarletScanNonces header (leBytes 32 target) (start % 2 ^ 32).toNat (count % 2 ^ 32).toNat)

end ScanNonces

/-! ## The scan -/

/-- The nonce field has this many values. -/
def NONCE_LIMIT : Int := 2 ^ 32

/-- Outcome of scanning a range of nonces. -/
structure ScanResult where
  nonce : Option Nat
  hashes : Int
  deriving DecidableEq

section Scan

variable [Crypto]

/-- The hash of the header with this nonce is at most the target. `hashlib` is given the first 64
bytes once, and the copies of that hash object the others. -/
def meetsTarget (header : Bytes) (target nonce : Nat) : Bool :=
  let midstate := header.take 64
  let tail := (header.drop 64).take 12
  decide (leNat (ScarletCoin.sha256
    (ScarletCoin.sha256 (midstate ++ (tail ++ leBytes 4 nonce))).val).val ≤ target)

/-- Try `count` nonces from `start` on; `native` says whether there is a compiled scanner. -/
def scanNonces (native : Bool) (header : Bytes) (target : Nat) (start count : Int) :
    Except PyError ScanResult := do
  raiseIf (header.length ≠ 80) (.value s!"header must be 80 bytes, got {header.length}")
  raiseIf (start < 0 ∨ count < 0) (.value "nonce range must not be negative")
  if native then do
    let nonce ← ScanNonces.call header target start count
    if 0 ≤ nonce then pure ⟨some nonce.toNat, nonce - start + 1⟩
    else pure ⟨none, count⟩
  else
    let stop := min (start + count) NONCE_LIMIT
    match firstFrom (meetsTarget header target) (stop - start).toNat start.toNat with
    | some nonce => pure ⟨some nonce, nonce - start + 1⟩
    | none => pure ⟨none, stop - start⟩

end Scan

end ScarletCoin
