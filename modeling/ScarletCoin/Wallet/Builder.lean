import ScarletCoin.Core.Utxo
import ScarletCoin.Wallet.Keys
import Mathlib.Data.List.MinMax
import Mathlib.Data.List.Sort

/-!
# Building transactions

Coin selection and transaction building, `wallet/builder.py`: the size and fee estimates, the
selection of coins, payments with change (`buildTransaction`) and sweeps of all coins in relay-sized
chunks (`buildSweepTransactions`). Amounts, fee rates and lock times are the integers of the caller;
the keyword arguments of the source are arguments in its order.
-/

set_option autoImplicit false

namespace ScarletCoin

open Toolkit

/-! ## Sizes and fees -/

/-- Serialised cost of one input with its witness. -/
def PER_INPUT_BYTES : Nat := 140

/-- Serialised cost of one output. -/
def PER_OUTPUT_BYTES : Nat := 29

/-- Number of bytes of a compact-size integer. -/
def varintSize (value : Nat) : Nat :=
  if value < 0xFD then 1
  else if value ≤ 0xFFFF then 3
  else if value ≤ 0xFFFFFFFF then 5
  else 9

/-- The serialised size of a signed transaction: version, counts, inputs, outputs, lock time and
empty coinbase data. -/
def estimateSize (inputCount outputCount : Nat) : Nat :=
  4 + varintSize inputCount + inputCount * PER_INPUT_BYTES + varintSize outputCount +
    outputCount * PER_OUTPUT_BYTES + 4 + 1

/-- The fee for a transaction of `size` bytes, rounded up. -/
def feeForSize (size : Nat) (feePerKb : Int) : Nat :=
  if 0 < feePerKb then max 1 ((size * feePerKb.toNat + 999) / 1000) else 0

/-- The value below which an output costs more to spend than it holds. -/
def dustThreshold (feePerKb : Int) : Nat := feeForSize PER_INPUT_BYTES feePerKb * 3

/-! ## Coin selection -/

/-- A coin with the outpoint that it is spent by. -/
abbrev Spendable := OutPoint × Coin

/-- The value of a coin. -/
def Spendable.value (item : Spendable) : Nat := item.2.value

/-- The value of coins together. -/
def totalValue (coins : List Spendable) : Nat := (coins.map Spendable.value).sum

/-- A transaction that was built, and the numbers that produced it. -/
structure BuiltTransaction where
  transaction : Transaction
  fee : Nat
  change : Nat
  totalInput : Nat
  coins : List Spendable

/-- The fee for that many inputs, assuming one change output. -/
def selectionFee (feePerKb : Int) (outputCount count : Nat) : Nat :=
  feeForSize (estimateSize count (outputCount + 1)) feePerKb

/-- Take coins until they cover what their number requires. -/
def accumulate (required : Nat → Nat) : List Spendable → Nat → List Spendable →
    Option (List Spendable)
  | _, _, [] => none
  | chosen, total, item :: rest =>
      let chosen := chosen ++ [item]
      let total := total + item.value
      if required chosen.length ≤ total then some chosen else accumulate required chosen total rest

/-- `sorted(coins, key=value, reverse=True)`: by descending value, coins of one value in their
order. -/
def sortCoins (coins : List Spendable) : List Spendable :=
  coins.insertionSort fun a b => b.value ≤ a.value

/-- Choose coins covering `amount` plus the resulting fee: the least coin that does on its own, else
the largest ones. -/
def selectCoins (coins : List Spendable) (amount feePerKb : Int) (outputCount : Nat) :
    Except PyError (List Spendable × Nat) := do
  raiseIf (amount < 0) (.value "amount must not be negative")
  let required := fun count => amount.toNat + selectionFee feePerKb outputCount count
  let usable := sortCoins coins
  match (usable.filter fun item => decide (required 1 ≤ item.value)).argmin Spendable.value with
  | some item => pure ([item], selectionFee feePerKb outputCount 1)
  | none =>
      match accumulate required [] 0 usable with
      | some chosen => pure (chosen, selectionFee feePerKb outputCount chosen.length)
      | none =>
          .error (.insufficientFunds (s!"need {required (max usable.length 1)} scar" ++
            s!" (payment plus fee) but only {totalValue usable} scar is available"))

/-! ## Outputs and signatures -/

/-- Where a payment goes: an address, or a public-key hash. -/
inductive Destination where
  | address (address : Address)
  | hash (bytes : Bytes)

/-- An output paying bytes that may not be a public-key hash. -/
def p2pkhOutput (value : Nat) (payload : Bytes) : Except PyError TxOutput := do
  raiseIf (MAX_MONEY < value) (.transaction "output value exceeds the maximum money supply")
  if h : payload.length = 20 then
    TxOutput.make OUTPUT_P2PKH value ⟨payload, h⟩
  else
    .error (.transaction s!"output payload must be 20 bytes, got {payload.length}")

theorem noWitness_fits : ([] : List Blob).length < 2 ^ 64 := by decide

theorem noData_fits : ([] : Bytes).length < 2 ^ 64 := by decide

/-- An input that is not signed yet. -/
def unsignedInput (item : Spendable) : TxInput := ⟨item.1, SEQUENCE_FINAL, [], noWitness_fits⟩

/-- The transaction before it is signed. -/
def unsignedTransaction (coins : List Spendable) (outputs : List TxOutput) (lockTime : Int) :
    Except PyError Transaction := do
  raiseIf (lockTime < 0 ∨ 0xFFFFFFFF < lockTime)
    (.transaction s!"lock time out of range: {lockTime}")
  if h : (coins.map unsignedInput).length < 2 ^ 32 ∧ outputs.length < 2 ^ 32 then
    pure ⟨1, coins.map unsignedInput, outputs, UInt32.ofNat lockTime.toNat, ⟨[], noData_fits⟩,
      h.1, h.2⟩
  else
    .error (.memory "")

theorem sizedWitness_fits (w : Transaction.SizedWitness) : w.val.length < 2 ^ 64 := w.property

/-- Attach witnesses to the inputs, in their order. -/
def attachWitnesses : List TxInput → List Transaction.SizedWitness → List TxInput
  | [], _ => []
  | txin :: inputs, [] => txin :: inputs
  | txin :: inputs, w :: witnesses =>
      { txin with witness := w.val, witness_fits := sizedWitness_fits w } ::
        attachWitnesses inputs witnesses

theorem attachWitnesses_length (inputs : List TxInput) (witnesses : List Transaction.SizedWitness) :
    (attachWitnesses inputs witnesses).length = inputs.length := by
  fun_induction attachWitnesses inputs witnesses with
  | case1 => rfl
  | case2 => rfl
  | case3 txin inputs w witnesses ih => rw [List.length_cons, ih, List.length_cons]

theorem attachWitnesses_fit (t : Transaction) (witnesses : List Transaction.SizedWitness) :
    (attachWitnesses t.inputs witnesses).length < 2 ^ 32 := by
  rw [attachWitnesses_length]
  exact t.inputs_fit

/-- A copy with witness data attached to the inputs. -/
def Transaction.signedWith (t : Transaction) (witnesses : List Transaction.SizedWitness) :
    Transaction :=
  { t with
    inputs := attachWitnesses t.inputs witnesses
    inputs_fit := attachWitnesses_fit t witnesses }

theorem twoItems_fit (a b : Blob) : [a, b].length < 2 ^ 64 := by
  rw [List.length_cons, List.length_singleton]
  decide

theorem signature_fits (signature : Signature) : signature.val.length < 2 ^ 64 := by
  rw [signature.property]
  decide

section Signing

variable [Crypto] [Curve]

omit [Curve] in
theorem pubkey_fits (key : PublicKey) : key.data.length < 2 ^ 64 := by
  rw [key.length]
  decide

/-- The witness of a P2PKH input: the public key and a signature. -/
def p2pkhWitness (key : PublicKey) (signature : Signature) : Transaction.SizedWitness :=
  ⟨[⟨key.data, pubkey_fits key⟩, ⟨signature.val, signature_fits signature⟩], twoItems_fit _ _⟩

/-- The witnesses for coins, the first of which is spent by the input `index`. -/
def signCoins (hasher : SignatureHasher) (keys : PubkeyHash → Option PrivateKey) :
    Nat → List Spendable → Except PyError (List Transaction.SizedWitness)
  | _, [] => .ok []
  | index, (outpoint, coin) :: rest =>
      match keys coin.payload with
      | none => .error (.value s!"no private key for coin {outpoint.str}")
      | some key => do
          let digest ← hasher.digest index coin.value (Transaction.p2pkhScriptCode coin.payload)
          let signature ← key.sign digest
          let witnesses ← signCoins hasher keys (index + 1) rest
          pure (p2pkhWitness key.publicKey signature :: witnesses)

/-- Sign every input with the key owning the matching coin. -/
def signInputs (unsigned : Transaction) (coins : List Spendable)
    (keys : PubkeyHash → Option PrivateKey) : Except PyError Transaction := do
  let witnesses ← signCoins (.start unsigned) keys 0 coins
  pure (unsigned.signedWith witnesses)

/-- The public-key hash of a destination. -/
def resolve (destination : Destination) (params : ChainParams) : Except PyError PubkeyHash :=
  match destination with
  | .address address =>
      if address.version ≠ params.addressVersion then
        .error (.value
          s!"address {address.str} does not belong to the {params.name.text} network")
      else .ok address.hash
  | .hash bytes =>
      if h : bytes.length = 20 then .ok ⟨bytes, h⟩
      else .error (.value "a destination must be an Address or a 20-byte public-key hash")

/-! ## Sweeps -/

/-- Spend all of the coins to one destination, with no change output. -/
def buildSweepTransaction (coins : List Spendable) (keys : PubkeyHash → Option PrivateKey)
    (destination : Destination) (feePerKb : Int) (params : ChainParams) (lockTime : Int) :
    Except PyError BuiltTransaction := do
  raiseIf (coins = []) (.insufficientFunds "there are no coins to spend")
  let pubkeyHash ← resolve destination params
  let total := totalValue coins
  let fee := feeForSize (estimateSize coins.length 1) feePerKb
  raiseIf (total ≤ fee)
    (.insufficientFunds s!"the {total} scar available does not cover the {fee} scar fee")
  let output ← p2pkhOutput (total - fee) pubkeyHash.val
  let unsigned ← unsignedTransaction coins [output] lockTime
  let signed ← signInputs unsigned coins keys
  pure ⟨signed, fee, 0, total, coins⟩

end Signing

/-- The binary search for the largest input count within a budget. Every round narrows the range, so
its width bounds the rounds. -/
def searchInputs (byteBudget : Nat) : Nat → Nat → Nat → Nat
  | 0, low, _ => low
  | rounds + 1, low, high =>
      if low < high then
        let mid := (low + high + 1) / 2
        if estimateSize mid 1 ≤ byteBudget then searchInputs byteBudget rounds mid high
        else searchInputs byteBudget rounds low (mid - 1)
      else low

/-- Largest input count whose one-output transaction fits in the budget. -/
def maxInputsForBudget (byteBudget : Nat) : Nat :=
  if byteBudget = 0 then 0
  else
    searchInputs byteBudget (byteBudget / PER_INPUT_BYTES + 1) 0 (byteBudget / PER_INPUT_BYTES + 1)

/-- Slices of `size` entries, the last of which may be shorter. Every slice of a positive size
shortens the list, so its length bounds the rounds. -/
def batches {α : Type} (size : Nat) : Nat → List α → List (List α)
  | 0, _ => []
  | _ + 1, [] => []
  | rounds + 1, x :: xs => (x :: xs).take size :: batches size rounds ((x :: xs).drop size)

section Signing

variable [Crypto] [Curve]

/-- How many inputs a transaction of a sweep has at most; a cap counts as at least 1. -/
def inputsPerTransaction (params : ChainParams) (maxInputsPerTx : Option Int) : Nat :=
  let perTransaction := max 1 (maxInputsForBudget (params.maxBlockSize / 2))
  match maxInputsPerTx with
  | none => perTransaction
  | some cap => min perTransaction (max 1 cap).toNat

/-- Sweep all of the coins to one destination, split into relay-sized chunks. -/
def buildSweepTransactions (coins : List Spendable) (keys : PubkeyHash → Option PrivateKey)
    (destination : Destination) (feePerKb : Int) (params : ChainParams) (lockTime : Int)
    (maxInputsPerTx : Option Int) : Except PyError (List BuiltTransaction) := do
  raiseIf (coins = []) (.insufficientFunds "there are no coins to spend")
  (batches (inputsPerTransaction params maxInputsPerTx) coins.length coins).mapM fun batch =>
    buildSweepTransaction batch keys destination feePerKb params lockTime

/-! ## Payments -/

/-- Select coins, build and sign a transaction that pays `outputs`. -/
def buildTransaction (coins : List Spendable) (keys : PubkeyHash → Option PrivateKey)
    (outputs : List (Destination × Int)) (changeHash : Bytes) (feePerKb : Int)
    (params : ChainParams) (lockTime : Int) : Except PyError BuiltTransaction := do
  raiseIf (outputs = []) (.value "a transaction must pay at least one output")
  let targets ← outputs.mapM fun (destination, amount) => do
    let pubkeyHash ← resolve destination params
    pure (pubkeyHash, amount)
  forEach (fun target : PubkeyHash × Int =>
    raiseIf (target.2 ≤ 0) (.value "output amounts must be positive")) targets
  let amount := (targets.map Prod.snd).sum
  let (chosen, fee) ← selectCoins coins amount feePerKb targets.length
  let total := totalValue chosen
  raiseIf ((total : Int) - amount - fee < 0)
    (.insufficientFunds "selected coins do not cover the fee")
  let change := ((total : Int) - amount - fee).toNat
  let payments ← targets.mapM fun target => p2pkhOutput target.2.toNat target.1.val
  if dustThreshold feePerKb < change then do
    let changeOutput ← p2pkhOutput change changeHash
    let unsigned ← unsignedTransaction chosen (payments ++ [changeOutput]) lockTime
    let signed ← signInputs unsigned chosen keys
    pure ⟨signed, fee, change, total, chosen⟩
  else do
    -- too small for an output of its own: the change is left to the miner
    let unsigned ← unsignedTransaction chosen payments lockTime
    let signed ← signInputs unsigned chosen keys
    pure ⟨signed, fee + change, 0, total, chosen⟩

end Signing

end ScarletCoin
