import ScarletCoin.Core.Block
import ScarletCoin.Pool.Hex

/-!
# The parent coinbase of the pool

The construction of `scarlet_pool/coinbase.py`: the parent coinbase that carries a merged-mining
commitment, split around the two extranonces, the Merkle branch of a coinbase that is not known yet,
and the parent header that a miner says it hashed. Byte strings go through hexadecimal text wherever
the pool keeps them as text; numbers that come from outside are integers, which the writers refuse
when they do not fit their field.
-/

set_option autoImplicit false

namespace ScarletCoin

open Toolkit

/-! ## Checked writers -/

/-- `struct.pack` of an unsigned field of `width` bytes. -/
def packUint (width : Nat) (value : Int) : Except PyError Bytes := do
  raiseIf (value < 0 ∨ 256 ^ width ≤ value) (.struct "argument out of range")
  pure (leBytes width value.toNat)

/-- `Writer.uint32` of a number that may not fit. -/
def packUint32 (value : Int) : Except PyError UInt32 := do
  raiseIf (value < 0 ∨ 2 ^ 32 ≤ value) (.struct "argument out of range")
  pure (UInt32.ofNat value.toNat)

/-- `Writer.hash32`. -/
def packHash32 (digest : Bytes) : Except PyError Hash :=
  if h : digest.length = 32 then .ok ⟨digest, h⟩
  else .error (.serialization s!"expected a 32-byte hash, got {digest.length}")

/-! ## The coinbase -/

/-- A parent coinbase body split for Stratum. -/
structure ParentCoinbase where
  coinbase1 : String
  coinbase2 : String
  coinbaseValue : Int
  extranonce1Size : Nat
  extranonce2Size : Nat
  coinbaseDataSize : Nat
  deriving DecidableEq

/-- Sizes of the extranonces, from 1 to 16 bytes each. -/
structure CoinbaseBuilder where
  extranonce1Size : Nat
  extranonce2Size : Nat
  extranonce1_fits : 1 ≤ extranonce1Size ∧ extranonce1Size ≤ 16
  extranonce2_fits : 1 ≤ extranonce2Size ∧ extranonce2Size ≤ 16
  deriving DecidableEq

/-- A size clamped as the constructor of `CoinbaseBuilder` clamps it. -/
def clampedSize (size : Nat) : Nat := max 1 (min size 16)

theorem clampedSize_fits (size : Nat) : 1 ≤ clampedSize size ∧ clampedSize size ≤ 16 := by
  unfold clampedSize
  omega

/-- A builder for extranonces of about these sizes. -/
def CoinbaseBuilder.create (extranonce1Size extranonce2Size : Nat) : CoinbaseBuilder :=
  ⟨clampedSize extranonce1Size, clampedSize extranonce2Size, clampedSize_fits _, clampedSize_fits _⟩

/-- The bytes of a coinbase before its extranonces, with the value field already written. -/
def coinbasePrefix (value payoutHash : Bytes) (dataSize blockHeight : Nat) : Bytes :=
  Writer.uint32 1 ++ (Writer.varint 1 ++ (nullHash.val ++ (Writer.uint32 0xFFFFFFFF ++
    (Writer.uint32 SEQUENCE_FINAL ++ (Writer.varint 1 ++ (OUTPUT_P2PKH :: (value ++ (payoutHash ++
      (Writer.uint32 0 ++ (Writer.varint dataSize ++ leBytes 4 blockHeight))))))))))

/-- Build a parent coinbase carrying an AuxPoW commitment. -/
def CoinbaseBuilder.build (builder : CoinbaseBuilder) (coinbaseValue blockHeight : Int)
    (payoutHash auxCommitment : Bytes) : Except PyError ParentCoinbase := do
  raiseIf (blockHeight < 0 ∨ 0xFFFFFFFF < blockHeight)
    (.value s!"block height out of range: {blockHeight}")
  raiseIf (payoutHash.length ≠ 20)
    (.value s!"payout hash must be 20 bytes, got {payoutHash.length}")
  let dataSize := 4 + builder.extranonce1Size + builder.extranonce2Size + auxCommitment.length
  raiseIf (MAX_COINBASE_DATA < dataSize)
    (.value (s!"coinbase_data would be {dataSize} bytes," ++
      s!" over the {MAX_COINBASE_DATA}-byte limit"))
  let value ← packUint 8 coinbaseValue
  pure {
    coinbase1 := hex (coinbasePrefix value payoutHash dataSize blockHeight.toNat)
    coinbase2 := hex auxCommitment
    coinbaseValue := coinbaseValue
    extranonce1Size := builder.extranonce1Size
    extranonce2Size := builder.extranonce2Size
    coinbaseDataSize := dataSize }

/-- Parse a coinbase body. The body lacks the witness count of its input, so a zero byte is
appended. -/
def parseCoinbaseBody (body : Bytes) : Except PyError Transaction :=
  Transaction.deserialize (body ++ [0])

/-- Build the serialised merged-mining commitment. -/
def buildAuxpowCommitment (auxRoot : Bytes) (treeSize nonce : Int) : Except PyError Bytes := do
  raiseIf (auxRoot.length ≠ 32) (.auxPoW "aux root must be 32 bytes")
  raiseIf (treeSize < 1 ∨ 0xFFFFFFFF < treeSize)
    (.auxPoW s!"aux tree size out of range: {treeSize}")
  raiseIf (nonce < 0 ∨ 0xFFFFFFFF < nonce)
    (.auxPoW s!"commitment nonce out of range: {nonce}")
  pure (MERGED_MINING_HEADER ++ (auxRoot ++ (leBytes 4 treeSize.toNat ++ leBytes 4 nonce.toNat)))

/-! ## The branch of the coinbase -/

variable [Crypto]

/-- The Merkle root of a coinbase and the other transactions. -/
def computeMerkleRoot (coinbaseHash : Hash) (txids : List Hash) : Except PyError Hash :=
  merkleRoot (coinbaseHash :: txids)

/-- A level of the tree in which an odd end is paired with itself. -/
def evenLevel (level : List Bytes) : List Bytes :=
  if level.length % 2 = 1 then level ++ level.getLast?.toList else level

/-- The digests of the pairs of a level. -/
def pairDigests : List Bytes → List Bytes
  | a :: b :: rest => (hash256 (a ++ b)).val :: pairDigests rest
  | _ => []

/-- The siblings of leaf 0, nearest first. Every round halves the level, so its length bounds the
rounds. -/
def branchFrom : Nat → List Bytes → List Bytes
  | 0, _ => []
  | rounds + 1, level =>
      if level.length ≤ 1 then []
      else (evenLevel level)[1]?.toList ++ branchFrom rounds (pairDigests (evenLevel level))

/-- The Merkle branch of the coinbase. A placeholder stands in for it: it only feeds index 0 of each
level, which is never a sibling. -/
def coinbaseMerkleBranch (txids : List Bytes) : List Bytes :=
  branchFrom (txids.length + 1) (nullHash.val :: txids)

/-! ## The parent header -/

/-- The bytes of a coinbase whose four parts are given as text. -/
def coinbaseBytes (parts : List String) : Except PyError Bytes := do
  let bytes ← parts.mapM fromHex
  pure bytes.flatten

/-- The Merkle root above `root` along a branch of right-hand siblings. -/
def foldBranch : Hash → List String → Except PyError Hash
  | root, [] => .ok root
  | root, sibling :: rest => do
      let sibling ← fromHex sibling
      foldBranch (hash256 (root.val ++ sibling)) rest

/-- Reconstruct the 80-byte parent header a miner says it hashed. -/
def reconstructHeader (coinbase1 extranonce1 extranonce2 coinbase2 : String)
    (merkleBranches : List String) (prevHash : String) (version nbits ntime nonce : Int) :
    Except PyError Bytes := do
  let coinbase ← coinbaseBytes [coinbase1, extranonce1, extranonce2, coinbase2]
  let root ← foldBranch (hash256 coinbase) merkleBranches
  let version ← packUint32 version
  let prevBytes ← fromHex prevHash
  let prev ← packHash32 prevBytes
  let ntime ← packUint32 ntime
  let nbits ← packUint32 nbits
  let nonce ← packUint32 nonce
  pure (headerBytes version prev root ntime nbits nonce)

end ScarletCoin
