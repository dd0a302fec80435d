import ScarletCoin.Core.Params
import ScarletCoin.Core.Script
import ScarletCoin.Core.Utxo

/-!
# Transaction validation

The checks of `core/validation.py` of a transaction against a view of the unspent coins. The loop
over the inputs is a fold that adds up the amounts, and each of its steps is `checkInput`.
-/

set_option autoImplicit false

namespace ScarletCoin

open Toolkit

/-- Whether the transaction may be included in a block at `height`. -/
def checkTransactionFinal (t : Transaction) (height : Nat) : Bool :=
  t.lockTime == 0 || decide (t.lockTime.toNat ≤ height)

variable [Crypto]

/-- Whether the witness of an input satisfies a script-hash output: the redeem script it starts
with, run on the rest of it, ends in a truthy result. -/
def verifyP2sh (t : Transaction) (index prevoutValue : Nat) (hasher : SignatureHasher) :
    Except PyError Bool :=
  match t.inputs[index]? with
  | none => .error (.index "tuple index out of range")
  | some txin =>
      match txin.witness with
      | [] => pure false
      | redeemScript :: arguments =>
          if MAX_SCRIPT_SIZE < redeemScript.val.length then
            pure false
          else do
            let digest ← hasher.digest index prevoutValue redeemScript.val
            rescue (evaluateScript redeemScript.val (arguments.map Subtype.val) digest)
              fun e => if e.isScriptError then some (pure false) else none

/-- Whether the lock of a coin of a known type is satisfied by an input. -/
def verifyLock (t : Transaction) (index : Nat) (coin : Coin) (hasher : SignatureHasher) :
    Except PyError Bool :=
  if coin.outputType = OUTPUT_P2PKH then
    t.verifyInputSignature index coin.value coin.payload hasher
  else
    verifyP2sh t index coin.value hasher

/-- One round of the loop over the inputs; `totalIn` is the amount of the inputs before it. -/
def checkInput (t : Transaction) (view : OutPoint → Option Coin) (height : Nat)
    (params : ChainParams) (verifySignatures : Bool) (totalIn : Nat) (entry : TxInput × Nat) :
    Except PyError Nat :=
  match view entry.1.prevout with
  | none => .error (.missingInput
      s!"input {entry.2} spends unknown output {entry.1.prevout.str}")
  | some coin => do
      raiseIf (coin.isSpendableAt height params.coinbaseMaturity = false)
        (.validation (s!"input {entry.2} spends a coinbase output from height {coin.height};" ++
          s!" it matures at height {coin.height + params.coinbaseMaturity}"))
      raiseIf (¬ (coin.outputType = OUTPUT_P2PKH ∨ coin.outputType = OUTPUT_P2SH))
        (.validation s!"input {entry.2} has an unknown output type {coin.outputType}")
      if verifySignatures then do
        let valid ← verifyLock t entry.2 coin (SignatureHasher.start t)
        raiseIf (valid = false) (.validation s!"input {entry.2} has an invalid signature")
      raiseIf (MAX_MONEY < totalIn + coin.value)
        (.validation "input values sum to more than the maximum money supply")
      pure (totalIn + coin.value)

/-- Validate the inputs of a transaction that is not a coinbase and return the fee it pays. -/
def checkTransactionInputs (t : Transaction) (view : OutPoint → Option Coin) (height : Nat)
    (params : ChainParams) (verifySignatures : Bool) : Except PyError Nat := do
  raiseIf (t.isCoinbase = true)
    (.validation "check_transaction_inputs must not be used on a coinbase")
  let totalIn ← t.inputs.zipIdx.foldlM
    (checkInput t view height params verifySignatures) 0
  raiseIf (totalIn < t.totalOutput)
    (.validation s!"transaction spends {t.totalOutput} but only provides {totalIn} scar")
  pure (totalIn - t.totalOutput)

end ScarletCoin
