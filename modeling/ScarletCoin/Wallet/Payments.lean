import ScarletCoin.Wallet.Selection

/-!
# Built payments

A built transaction balances and pays enough (`buildTransaction_balanced`). The fee is chosen before
the outputs are known, for a transaction with a change output. The transaction that is signed has
that size, or the size without the change output if the change is left to the miner, and the fee
covers either.
-/

set_option autoImplicit false

namespace ScarletCoin

open Toolkit

/-- The bytes that an output to a destination pays. -/
def Destination.payload : Destination → Bytes
  | .address target => target.hash.val
  | .hash bytes => bytes

/-- What an output pays to whom. -/
def TxOutput.payment (o : TxOutput) : UInt8 × Bytes × Int := (o.type, o.payload.val, o.value)

/-- The payment that a caller asks for. -/
def requested (output : Destination × Int) : UInt8 × Bytes × Int :=
  (OUTPUT_P2PKH, output.1.payload, output.2)

/-- The change of a payment from coins: what the amount and the fee for a transaction with a change
output leave. -/
def changeOf (outputs : List (Destination × Int)) (feePerKb : Int) (coins : List Spendable) : Int :=
  totalValue coins - (outputs.map Prod.snd).sum - selectionFee feePerKb outputs.length coins.length

/-- A payment that balances: it spends coins of the wallet, has the requested outputs and the change
above dust, and leaves its fee, which is enough for its size. -/
structure BalancedPayment (coins : List Spendable) (outputs : List (Destination × Int))
    (changeHash : Bytes) (feePerKb : Int) (built : BuiltTransaction) : Prop where
  among : built.coins.Subperm coins
  prevouts : built.transaction.inputs.map TxInput.prevout = built.coins.map Prod.fst
  totalInput : built.totalInput = totalValue built.coins
  balance : built.totalInput = built.transaction.totalOutput + built.fee
  paid : built.transaction.outputs.map TxOutput.payment = outputs.map requested ++
    if (dustThreshold feePerKb : Int) < changeOf outputs feePerKb built.coins then
      [(OUTPUT_P2PKH, changeHash, changeOf outputs feePerKb built.coins)]
    else []
  change : (built.change : Int) =
    if (dustThreshold feePerKb : Int) < changeOf outputs feePerKb built.coins then
      changeOf outputs feePerKb built.coins
    else 0
  size : built.transaction.size =
    estimateSize built.transaction.inputs.length built.transaction.outputs.length
  fee : feeForSize built.transaction.size feePerKb ≤ built.fee

section Resolving

variable [Crypto]

/-- A destination that resolves is paid its own bytes. -/
theorem resolve_eq_ok {destination : Destination} {params : ChainParams} {pubkeyHash : PubkeyHash}
    (h : resolve destination params = .ok pubkeyHash) : pubkeyHash.val = destination.payload := by
  cases destination with
  | address address =>
    simp only [resolve] at h
    split at h
    · cases h
    · rw [← Except.ok.inj h]
      rfl
  | hash bytes =>
    simp only [resolve] at h
    split at h
    · rw [← Except.ok.inj h]
      rfl
    · cases h

/-- The requested outputs, resolved and built, are the payments in order. -/
theorem payments_eq {outputs : List (Destination × Int)} {params : ChainParams}
    {targets : List (PubkeyHash × Int)} {payments : List TxOutput}
    (htargets : List.Forall₂ (fun output target => resolve output.1 params = .ok target.1 ∧
      target.2 = output.2) outputs targets)
    (hpositive : ∀ target ∈ targets, 0 < target.2)
    (hpayments : List.Forall₂ (fun target o => p2pkhOutput target.2.toNat target.1.val = .ok o)
      targets payments) :
    payments.map TxOutput.payment = outputs.map requested := by
  induction hpayments generalizing outputs with
  | nil =>
    cases htargets
    rfl
  | @cons target o targets payments ho _ ih =>
    obtain ⟨output, outputs, ⟨hresolve, hamount⟩, htail, rfl⟩ :=
      List.forall₂_cons_right_iff.mp htargets
    obtain ⟨htype, hvalue, hpayload⟩ := p2pkhOutput_eq_ok ho
    have hvalue' : (o.value : Int) = output.2 := by
      rw [hvalue, Int.toNat_of_nonneg (Int.le_of_lt (hpositive target List.mem_cons_self)), hamount]
    have hfirst : o.payment = requested output := by
      rw [TxOutput.payment, requested, htype, hvalue', hpayload, resolve_eq_ok hresolve]
    rw [List.map_cons, List.map_cons, hfirst,
      ih htail fun t ht => hpositive t (List.mem_cons_of_mem target ht)]

end Resolving

/-- The amounts that outputs pay add up to the requested amount. -/
theorem sum_values_eq {outputs : List (Destination × Int)} {payments : List TxOutput}
    (h : payments.map TxOutput.payment = outputs.map requested) :
    ((payments.map TxOutput.value).sum : Int) = (outputs.map Prod.snd).sum := by
  have hamounts := congrArg (List.map fun p : UInt8 × Bytes × Int => p.2.2) h
  rw [List.map_map, List.map_map] at hamounts
  have hright : outputs.map ((fun p : UInt8 × Bytes × Int => p.2.2) ∘ requested) =
      outputs.map Prod.snd := rfl
  rw [← hright, ← hamounts, Nat.cast_list_sum, List.map_map]
  rfl

section Building

variable [Crypto] [Curve]

/-- What `build_transaction` goes through: coins that cover the amount, and a transaction that
spends them with or without the change. -/
theorem buildTransaction_eq_ok {coins : List Spendable} {keys : PubkeyHash → Option PrivateKey}
    {outputs : List (Destination × Int)} {changeHash : Bytes} {feePerKb : Int}
    {params : ChainParams} {lockTime : Int} {built : BuiltTransaction}
    (h : buildTransaction coins keys outputs changeHash feePerKb params lockTime = .ok built) :
    ∃ payments : List TxOutput, payments.map TxOutput.payment = outputs.map requested ∧
      0 ≤ (outputs.map Prod.snd).sum ∧
      (∃ fee, selectCoins coins (outputs.map Prod.snd).sum feePerKb outputs.length =
        .ok (built.coins, fee)) ∧
      0 ≤ changeOf outputs feePerKb built.coins ∧ built.totalInput = totalValue built.coins ∧
      if (dustThreshold feePerKb : Int) < changeOf outputs feePerKb built.coins then
        built.fee = selectionFee feePerKb outputs.length built.coins.length ∧
        (built.change : Int) = changeOf outputs feePerKb built.coins ∧
        ∃ changeOutput, changeOutput.payment =
            (OUTPUT_P2PKH, changeHash, changeOf outputs feePerKb built.coins) ∧
          Spends built.coins (payments ++ [changeOutput]) built.transaction
      else
        (built.fee : Int) = selectionFee feePerKb outputs.length built.coins.length +
            changeOf outputs feePerKb built.coins ∧
          built.change = 0 ∧ Spends built.coins payments built.transaction := by
  obtain ⟨-, h⟩ := raiseIf_bind_eq_ok.mp h
  obtain ⟨targets, htargets, h⟩ := bind_eq_ok.mp h
  obtain ⟨⟨⟩, hpositive, h⟩ := bind_eq_ok.mp h
  obtain ⟨⟨chosen, fee⟩, hselect, h⟩ := bind_eq_ok.mp h
  obtain ⟨hchange, h⟩ := raiseIf_bind_eq_ok.mp h
  obtain ⟨payments, hpayments, h⟩ := bind_eq_ok.mp h
  -- every output resolves to its own hash, with its amount
  have hresolved : List.Forall₂ (fun output target => resolve output.1 params = .ok target.1 ∧
      target.2 = output.2) outputs targets :=
    (mapM_eq_ok.mp htargets).imp fun output target htarget => by
      obtain ⟨pubkeyHash, hresolve, hpair⟩ := bind_eq_ok.mp htarget
      obtain rfl := pure_eq_ok.mp hpair
      exact ⟨hresolve, rfl⟩
  have hamounts : targets.map Prod.snd = outputs.map Prod.snd := by
    rw [← List.forall₂_eq_eq_eq, List.forall₂_map_left_iff, List.forall₂_map_right_iff]
    exact (hresolved.imp fun _ _ htarget => htarget.2).flip
  have hpos : ∀ target ∈ targets, 0 < target.2 := fun target ht =>
    Int.not_le.mp (raiseIf_eq_ok.mp (forEach_eq_ok.mp hpositive target ht))
  have hpaid := payments_eq hresolved hpos (mapM_eq_ok.mp hpayments)
  have hsum : 0 ≤ (outputs.map Prod.snd).sum := by
    rw [← hamounts]
    refine List.sum_nonneg fun value hvalue => ?_
    obtain ⟨target, ht, rfl⟩ := List.mem_map.mp hvalue
    exact Int.le_of_lt (hpos target ht)
  rw [← hresolved.length_eq, hamounts] at hselect
  have hfee := (selectCoins_selected hsum hselect).fee_eq
  rw [hamounts] at hchange h
  -- the fee of the selection is the one for its number of inputs, so the change is what is left
  have hleft : (totalValue chosen : Int) - (outputs.map Prod.snd).sum - fee =
      changeOf outputs feePerKb chosen := by rw [changeOf, hfee]
  simp only [hleft] at hchange h
  have hnonneg := Int.not_lt.mp hchange
  have hdust : dustThreshold feePerKb < (changeOf outputs feePerKb chosen).toNat ↔
      (dustThreshold feePerKb : Int) < changeOf outputs feePerKb chosen := by omega
  -- change above the threshold is an output, below it is a part of the fee
  by_cases habove : (dustThreshold feePerKb : Int) < changeOf outputs feePerKb chosen
  · rw [if_pos (hdust.mpr habove)] at h
    obtain ⟨changeOutput, hchangeOutput, h⟩ := bind_eq_ok.mp h
    obtain ⟨unsigned, hunsigned, h⟩ := bind_eq_ok.mp h
    obtain ⟨signed, hsigned, h⟩ := bind_eq_ok.mp h
    obtain rfl := pure_eq_ok.mp h
    obtain ⟨htype, hvalue, hpayload⟩ := p2pkhOutput_eq_ok hchangeOutput
    refine ⟨payments, hpaid, hsum, ⟨fee, hselect⟩, hnonneg, rfl, ?_⟩
    rw [if_pos habove]
    refine ⟨hfee, Int.toNat_of_nonneg hnonneg, changeOutput, ?_, spends_of_signed hunsigned hsigned⟩
    rw [TxOutput.payment, htype, hvalue, hpayload, Int.toNat_of_nonneg hnonneg]
  · rw [if_neg (mt hdust.mp habove)] at h
    obtain ⟨unsigned, hunsigned, h⟩ := bind_eq_ok.mp h
    obtain ⟨signed, hsigned, h⟩ := bind_eq_ok.mp h
    obtain rfl := pure_eq_ok.mp h
    refine ⟨payments, hpaid, hsum, ⟨fee, hselect⟩, hnonneg, rfl, ?_⟩
    rw [if_neg habove]
    refine ⟨?_, rfl, spends_of_signed hunsigned hsigned⟩
    rw [Nat.cast_add, Int.toNat_of_nonneg hnonneg, hfee]

/-- A transaction that is built balances, pays the requested outputs and leaves enough for the
miner. -/
theorem buildTransaction_balanced {coins : List Spendable} {keys : PubkeyHash → Option PrivateKey}
    {outputs : List (Destination × Int)} {changeHash : Bytes} {feePerKb : Int}
    {params : ChainParams} {lockTime : Int} {built : BuiltTransaction}
    (h : buildTransaction coins keys outputs changeHash feePerKb params lockTime = .ok built) :
    BalancedPayment coins outputs changeHash feePerKb built := by
  obtain ⟨payments, hpaid, hsum, ⟨fee, hselect⟩, hnonneg, htotal, hbuilt⟩ :=
    buildTransaction_eq_ok h
  have hselected := selectCoins_selected hsum hselect
  have hpayments := congrArg List.length hpaid
  rw [List.length_map, List.length_map] at hpayments
  have hvalues := sum_values_eq hpaid
  split at hbuilt
  · rename_i habove
    obtain ⟨hfee, hleft, changeOutput, hchange, hspends⟩ := hbuilt
    refine ⟨hselected.among, hspends.prevouts, htotal, ?_, ?_, ?_, hspends.size, ?_⟩
    · have hvalue : (changeOutput.value : Int) = changeOf outputs feePerKb built.coins :=
        congrArg (fun p : UInt8 × Bytes × Int => p.2.2) hchange
      rw [Transaction.totalOutput, hspends.outputs, List.map_append, List.sum_append, htotal, hfee]
      rw [changeOf] at hvalue
      simp only [List.map_cons, List.map_nil, List.sum_cons, List.sum_nil]
      omega
    · rw [hspends.outputs, List.map_append, hpaid, if_pos habove, List.map_cons, hchange,
        List.map_nil]
    · rw [if_pos habove, hleft]
    · rw [hspends.size, hspends.inputs_length, hspends.outputs, List.length_append, hpayments, hfee]
      exact Nat.le_refl _
  · rename_i hdust
    obtain ⟨hfee, hleft, hspends⟩ := hbuilt
    refine ⟨hselected.among, hspends.prevouts, htotal, ?_, ?_, ?_, hspends.size, ?_⟩
    · rw [Transaction.totalOutput, hspends.outputs, htotal]
      rw [changeOf] at hfee
      omega
    · rw [hspends.outputs, hpaid, if_neg hdust, List.append_nil]
    · rw [if_neg hdust, hleft, Nat.cast_zero]
    · -- without change the transaction is shorter than the one the fee was taken for
      have hsize : built.transaction.size ≤
          estimateSize built.coins.length (outputs.length + 1) := by
        rw [hspends.size, hspends.inputs_length, hspends.outputs, hpayments]
        exact estimateSize_mono (Nat.le_refl _) (Nat.le_succ _)
      have hleast := feeForSize_mono hsize feePerKb
      rw [selectionFee] at hfee
      omega

end Building

section Instances

attribute [local instance] Sample.crypto Sample.curve

/-- A payment of 1000 scar to an address, from two coins. -/
def Sample.payment : Except PyError BuiltTransaction :=
  buildTransaction [Sample.spendable 0 700, Sample.spendable 1 90000] (fun _ =>
    some Sample.privateKey)
    [(.address ⟨127, Sample.payload 2⟩, 1000)] (Sample.payload 3).val 1000 REGTEST 0

/-- It holds of a payment from two coins, of which one covers it and leaves change. -/
theorem buildTransaction_balanced_change : ∃ built, Sample.payment = .ok built ∧
    BalancedPayment [Sample.spendable 0 700, Sample.spendable 1 90000]
      [(.address ⟨127, Sample.payload 2⟩, 1000)] (Sample.payload 3).val 1000 built := by
  have hrun : Sample.payment.toOption.isSome = true := by decide +kernel
  obtain ⟨built, hbuilt⟩ := Option.isSome_iff_exists.mp hrun
  have hok := toOption_eq_some.mp hbuilt
  exact ⟨built, hok, buildTransaction_balanced hok⟩

end Instances

end ScarletCoin
