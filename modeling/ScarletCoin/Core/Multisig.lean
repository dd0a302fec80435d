import ScarletCoin.Core.Script

/-!
# Multisig scripts

The scripts that the library builds (`push_data`, `multisig_redeem` of `core/script.py`), and the
two nested loops of `OP_CHECKMULTISIG` with their counters (`multisigPass`), which the run of a
script takes as a recursion over the two lists (`matchSignatures`).
-/

set_option autoImplicit false

namespace ScarletCoin

open Toolkit

/-- Encode `data` as a push operation. -/
def pushData (data : Bytes) : Except PyError Bytes :=
  if data.length ≤ OP_PUSHBYTES_MAX.toNat then .ok (UInt8.ofNat data.length :: data)
  else if data.length ≤ 0xFF then .ok (OP_PUSHDATA1 :: UInt8.ofNat data.length :: data)
  else if data.length ≤ 0xFFFF then .ok (OP_PUSHDATA2 :: leBytes 2 data.length ++ data)
  else .error (.script s!"data push of {data.length} bytes is too large")

/-- `_push_small_int`. -/
def pushSmallInt (value : Int) : Except PyError Bytes :=
  if 1 ≤ value ∧ value ≤ 16 then .ok [UInt8.ofNat (OP_1.toNat - 1 + value.toNat)]
  else .error (.script s!"multisig threshold {value} is out of range 1..16")

/-- An m-of-n multisig redeem script. -/
def multisigRedeem (pubkeys : List Bytes) (threshold : Int) : Except PyError Bytes := do
  raiseIf (pubkeys = [] ∨ MAX_PUBKEYS < pubkeys.length)
    (.script s!"multisig needs 1..{MAX_PUBKEYS} public keys, got {pubkeys.length}")
  raiseIf (¬ (1 ≤ threshold ∧ threshold ≤ pubkeys.length))
    (.script s!"threshold {threshold} does not fit {pubkeys.length} public keys")
  forEach (fun key => raiseIf (isCompressedKey key = false)
    (.script "multisig public keys must be 33-byte compressed keys")) pubkeys
  let thresholdPush ← pushSmallInt threshold
  let keyPushes ← pubkeys.mapM pushData
  let countPush ← pushSmallInt pubkeys.length
  pure (thresholdPush ++ keyPushes.flatten ++ countPush ++ [OP_CHECKMULTISIG])

/-! ## The loops over signatures and keys -/

/-- The inner loop: the index of the first key from `keyIndex` on that verifies the signature. -/
def nextKey (verify : Bytes → Bytes → Bytes → Bool) (digest : Bytes) (pubkeys : List Bytes)
    (signature : Bytes) (keyIndex : Nat) : Nat :=
  if _ : keyIndex < pubkeys.length then
    if verify pubkeys[keyIndex] signature digest then keyIndex
    else nextKey verify digest pubkeys signature (keyIndex + 1)
  else keyIndex
termination_by pubkeys.length - keyIndex

/-- The outer loop: how many signatures are matched, or `none` when the keys run out. -/
def matchLoop (verify : Bytes → Bytes → Bytes → Bool) (digest : Bytes) (pubkeys : List Bytes) :
    List Bytes → Nat → Nat → Option Nat
  | [], matched, _ => some matched
  | signature :: signatures, matched, keyIndex =>
      let next := nextKey verify digest pubkeys signature keyIndex
      if pubkeys.length ≤ next then none
      else matchLoop verify digest pubkeys signatures (matched + 1) (next + 1)

/-- Both loops from the start, with the check of the count behind them. -/
def multisigPass (verify : Bytes → Bytes → Bytes → Bool) (digest : Bytes)
    (signatures pubkeys : List Bytes) : Bool :=
  matchLoop verify digest pubkeys signatures 0 0 = some signatures.length

end ScarletCoin
