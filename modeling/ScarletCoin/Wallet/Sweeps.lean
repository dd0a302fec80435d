import ScarletCoin.Wallet.Payments

/-!
# Sweeps

A sweep spends every coin once, in transactions that a node relays (`buildSweepTransactions_swept`).
The coins are cut into slices of one length (`batches_flatten`), which the binary search finds as
the largest number of inputs that half a block has room for (`maxInputsForBudget_iff`), and a cap of
the caller shortens.
-/

set_option autoImplicit false

namespace ScarletCoin

open Toolkit

/-! ## Slices -/

/-- The slices are the list. -/
theorem batches_flatten {α : Type} {size rounds : Nat} {xs : List α} (hsize : 0 < size)
    (hrounds : xs.length ≤ rounds) : (batches size rounds xs).flatten = xs := by
  fun_induction batches size rounds xs with
  | case1 xs => exact (List.length_eq_zero_iff.mp (Nat.le_zero.mp hrounds)).symm
  | case2 => rfl
  | case3 rounds x xs ih =>
    have hrest : ((x :: xs).drop size).length ≤ rounds := by
      rw [List.length_drop]
      omega
    rw [List.flatten_cons, ih hrest, List.take_append_drop]

/-- No slice is longer than the others. -/
theorem length_le_of_mem_batches {α : Type} {size rounds : Nat} {xs batch : List α}
    (h : batch ∈ batches size rounds xs) : batch.length ≤ size := by
  fun_induction batches size rounds xs with
  | case1 => cases h
  | case2 => cases h
  | case3 rounds x xs ih =>
    rcases List.mem_cons.mp h with rfl | h
    · exact List.length_take_le size _
    · exact ih h

/-! ## The budget -/

/-- A range without room is the border between the counts that fit and the others. -/
theorem fits_iff_of_border {byteBudget low high m : Nat} (hborder : high ≤ low) (hm : 1 ≤ m)
    (hlow : ∀ m, 1 ≤ m → m ≤ low → estimateSize m 1 ≤ byteBudget)
    (hhigh : ∀ m, high < m → byteBudget < estimateSize m 1) :
    estimateSize m 1 ≤ byteBudget ↔ m ≤ low := by
  refine ⟨fun hfits => ?_, hlow m hm⟩
  by_contra hlt
  exact absurd hfits (Nat.not_le.mpr (hhigh m (by omega)))

/-- The search finds the border: the counts that fit are those up to what it returns. -/
theorem searchInputs_iff {byteBudget rounds low high m : Nat} (hrounds : high - low ≤ rounds)
    (hm : 1 ≤ m) (hlow : ∀ m, 1 ≤ m → m ≤ low → estimateSize m 1 ≤ byteBudget)
    (hhigh : ∀ m, high < m → byteBudget < estimateSize m 1) :
    estimateSize m 1 ≤ byteBudget ↔ m ≤ searchInputs byteBudget rounds low high := by
  fun_induction searchInputs byteBudget rounds low high with
  | case1 low high => exact fits_iff_of_border (by omega) hm hlow hhigh
  | case2 low high rounds hlt mid hfits ih =>
    refine ih (by omega) (fun n _ hn => ?_) hhigh
    exact Nat.le_trans (estimateSize_mono hn (Nat.le_refl 1)) hfits
  | case3 low high rounds hlt mid hfits ih =>
    refine ih (by omega) hlow fun n hn => ?_
    exact Nat.lt_of_lt_of_le (Nat.not_le.mp hfits)
      (estimateSize_mono (show mid ≤ n by omega) (Nat.le_refl 1))
  | case4 low high rounds hge => exact fits_iff_of_border (Nat.not_lt.mp hge) hm hlow hhigh

/-- Every input takes room. -/
theorem lt_estimateSize (m : Nat) : m * PER_INPUT_BYTES < estimateSize m 1 := by
  unfold estimateSize
  omega

/-- The largest number of inputs whose transaction with one output fits in a budget. -/
theorem maxInputsForBudget_iff (byteBudget : Nat) {m : Nat} (hm : 1 ≤ m) :
    estimateSize m 1 ≤ byteBudget ↔ m ≤ maxInputsForBudget byteBudget := by
  unfold maxInputsForBudget
  split
  · have hsize := lt_estimateSize m
    omega
  · refine searchInputs_iff (Nat.le_refl _) hm (fun n hn hle => by omega) fun n hn => ?_
    have hsize := lt_estimateSize n
    unfold PER_INPUT_BYTES at hn hsize
    omega

/-! ## The transactions -/

/-- What one transaction of a sweep is: it spends its coins, pays the destination what they are
worth but the fee for its size, and fits into half a block. -/
structure SweptOnce (destination : Destination) (feePerKb : Int) (params : ChainParams)
    (maxInputsPerTx : Option Int) (built : BuiltTransaction) : Prop where
  prevouts : built.transaction.inputs.map TxInput.prevout = built.coins.map Prod.fst
  size : built.transaction.size ≤ params.maxBlockSize / 2
  inputs : ∀ cap, maxInputsPerTx = some cap → (built.transaction.inputs.length : Int) ≤ max 1 cap
  paid : built.transaction.outputs.map TxOutput.payment =
    [(OUTPUT_P2PKH, destination.payload,
      (totalValue built.coins : Int) - feeForSize built.transaction.size feePerKb)]
  fee : built.fee = feeForSize built.transaction.size feePerKb

/-- A sweep spends every coin once, in order. -/
structure Swept (coins : List Spendable) (destination : Destination) (feePerKb : Int)
    (params : ChainParams) (maxInputsPerTx : Option Int) (built : List BuiltTransaction) :
        Prop where
  spent : built.flatMap BuiltTransaction.coins = coins
  prevouts : (built.flatMap fun b => b.transaction.inputs.map TxInput.prevout) = coins.map Prod.fst
  each : ∀ b ∈ built, SweptOnce destination feePerKb params maxInputsPerTx b

/-- Half a block has room for the inputs of a transaction, if it has for one. -/
theorem inputsPerTransaction_fits {params : ChainParams} {maxInputsPerTx : Option Int} {count : Nat}
    (hroom : estimateSize 1 1 ≤ params.maxBlockSize / 2)
    (hcount : count ≤ inputsPerTransaction params maxInputsPerTx) :
    estimateSize count 1 ≤ params.maxBlockSize / 2 := by
  have hone := (maxInputsForBudget_iff _ (Nat.le_refl 1)).mp hroom
  have hmost : count ≤ maxInputsForBudget (params.maxBlockSize / 2) := by
    unfold inputsPerTransaction at hcount
    rw [Nat.max_eq_right hone] at hcount
    cases maxInputsPerTx with
    | none => exact hcount
    | some cap => exact Nat.le_trans hcount (Nat.min_le_left _ _)
  exact Nat.le_trans (estimateSize_mono hmost (Nat.le_refl 1))
    ((maxInputsForBudget_iff _ hone).mpr (Nat.le_refl _))

theorem inputsPerTransaction_le_cap (params : ChainParams) (cap : Int) :
    (inputsPerTransaction params (some cap) : Int) ≤ max 1 cap := by
  simp only [inputsPerTransaction]
  omega

theorem inputsPerTransaction_pos (params : ChainParams) (maxInputsPerTx : Option Int) :
    0 < inputsPerTransaction params maxInputsPerTx := by
  cases maxInputsPerTx <;> simp only [inputsPerTransaction] <;> omega

section Building

variable [Crypto] [Curve]

/-- What one transaction of a sweep goes through. -/
theorem buildSweepTransaction_eq_ok {coins : List Spendable} {keys : PubkeyHash → Option PrivateKey}
    {destination : Destination} {feePerKb : Int} {params : ChainParams} {lockTime : Int}
    {built : BuiltTransaction}
    (h : buildSweepTransaction coins keys destination feePerKb params lockTime = .ok built) :
    built.coins = coins ∧ built.fee = feeForSize (estimateSize coins.length 1) feePerKb ∧
      ∃ output : TxOutput, output.payment =
          (OUTPUT_P2PKH, destination.payload, (totalValue coins : Int) - built.fee) ∧
        Spends coins [output] built.transaction := by
  obtain ⟨-, h⟩ := raiseIf_bind_eq_ok.mp h
  obtain ⟨pubkeyHash, hresolve, h⟩ := bind_eq_ok.mp h
  obtain ⟨hcovers, h⟩ := raiseIf_bind_eq_ok.mp h
  obtain ⟨output, houtput, h⟩ := bind_eq_ok.mp h
  obtain ⟨unsigned, hunsigned, h⟩ := bind_eq_ok.mp h
  obtain ⟨signed, hsigned, h⟩ := bind_eq_ok.mp h
  obtain rfl := pure_eq_ok.mp h
  obtain ⟨htype, hvalue, hpayload⟩ := p2pkhOutput_eq_ok houtput
  refine ⟨rfl, rfl, output, ?_, spends_of_signed hunsigned hsigned⟩
  rw [TxOutput.payment, htype, hpayload, resolve_eq_ok hresolve, hvalue,
    Nat.cast_sub (Nat.le_of_not_le hcovers)]

/-- A transaction of a slice is one of a sweep, if the slice is not too long. -/
theorem buildSweepTransaction_sweptOnce {coins : List Spendable}
    {keys : PubkeyHash → Option PrivateKey} {destination : Destination} {feePerKb : Int}
    {params : ChainParams} {lockTime : Int} {maxInputsPerTx : Option Int} {built : BuiltTransaction}
    (hroom : estimateSize 1 1 ≤ params.maxBlockSize / 2)
    (hlength : coins.length ≤ inputsPerTransaction params maxInputsPerTx)
    (h : buildSweepTransaction coins keys destination feePerKb params lockTime = .ok built) :
    SweptOnce destination feePerKb params maxInputsPerTx built := by
  obtain ⟨rfl, hfee, output, hpaid, hspends⟩ := buildSweepTransaction_eq_ok h
  have hsize : built.transaction.size = estimateSize built.coins.length 1 := by
    rw [hspends.size, hspends.inputs_length, hspends.outputs, List.length_singleton]
  rw [← hsize] at hfee
  refine ⟨hspends.prevouts, ?_, fun cap hcap => ?_, ?_, hfee⟩
  · rw [hsize]
    exact inputsPerTransaction_fits hroom hlength
  · subst hcap
    have hcap := inputsPerTransaction_le_cap params cap
    rw [hspends.inputs_length]
    omega
  · rw [hspends.outputs, List.map_singleton, hpaid, hfee]

/-- The transactions of slices spend the coins of the slices. -/
theorem flatMap_coins {keys : PubkeyHash → Option PrivateKey} {destination : Destination}
    {feePerKb : Int} {params : ChainParams} {lockTime : Int} {slices : List (List Spendable)}
    {built : List BuiltTransaction}
    (h : List.Forall₂ (fun batch b =>
      buildSweepTransaction batch keys destination feePerKb params lockTime = .ok b) slices built) :
    built.flatMap BuiltTransaction.coins = slices.flatten := by
  induction h with
  | nil => rfl
  | cons hhead _ ih =>
    rw [List.flatMap_cons, List.flatten_cons, ih, (buildSweepTransaction_eq_ok hhead).1]

/-- A sweep that is built spends every coin once and pays the destination what they are worth but
the fees, in transactions of at most half a block; and the search finds the most inputs for every
budget. -/
theorem buildSweepTransactions_swept {coins : List Spendable}
    {keys : PubkeyHash → Option PrivateKey}
    {destination : Destination} {feePerKb : Int} {params : ChainParams} {lockTime : Int}
    {maxInputsPerTx : Option Int} {built : List BuiltTransaction}
    (hroom : estimateSize 1 1 ≤ params.maxBlockSize / 2)
    (h : buildSweepTransactions coins keys destination feePerKb params lockTime maxInputsPerTx =
      .ok built) :
    Swept coins destination feePerKb params maxInputsPerTx built ∧
      ∀ byteBudget m, 1 ≤ m →
      (estimateSize m 1 ≤ byteBudget ↔ m ≤ maxInputsForBudget byteBudget) := by
  refine ⟨?_, fun byteBudget m hm => maxInputsForBudget_iff byteBudget hm⟩
  obtain ⟨-, h⟩ := raiseIf_bind_eq_ok.mp h
  have hslices := mapM_eq_ok.mp h
  have hcoins : built.flatMap BuiltTransaction.coins = coins :=
    (flatMap_coins hslices).trans
      (batches_flatten (inputsPerTransaction_pos params maxInputsPerTx) (Nat.le_refl _))
  have heach : ∀ b ∈ built, SweptOnce destination feePerKb params maxInputsPerTx b := by
    intro b hb
    obtain ⟨batch, hbatch, hbuilt⟩ := exists_of_mem_mapM h hb
    exact buildSweepTransaction_sweptOnce hroom (length_le_of_mem_batches hbatch) hbuilt
  refine ⟨hcoins, ?_, heach⟩
  rw [← hcoins, List.map_flatMap]
  exact List.flatMap_congr fun b hb => (heach b hb).prevouts

end Building

section Instances

attribute [local instance] Sample.crypto Sample.curve

/-- A sweep of two coins to an address, with a cap. -/
def Sample.sweep (cap : Int) : Except PyError (List BuiltTransaction) :=
  buildSweepTransactions [Sample.spendable 0 70000, Sample.spendable 1 90000]
    (fun _ => some Sample.privateKey) (.address ⟨127, Sample.payload 2⟩) 1000 REGTEST 0 (some cap)

/-- It holds of a sweep in two transactions. -/
theorem buildSweepTransactions_swept_capped : ∃ built, Sample.sweep 1 = .ok built ∧
    Swept [Sample.spendable 0 70000,
      Sample.spendable 1 90000] (.address ⟨127, Sample.payload 2⟩) 1000 REGTEST (some 1) built := by
  have hrun : (Sample.sweep 1).toOption.isSome = true := by decide +kernel
  obtain ⟨built, hbuilt⟩ := Option.isSome_iff_exists.mp hrun
  have hok := toOption_eq_some.mp hbuilt
  exact ⟨built, hok, (buildSweepTransactions_swept (by decide) hok).1⟩

/-- With a cap of no inputs, the transactions of a sweep have an input all the same. -/
theorem not_swept_within_cap : ∃ built, Sample.sweep 0 = .ok built ∧
    ∃ b ∈ built, ¬ (b.transaction.inputs.length : Int) ≤ 0 := by
  have hrun : ((Sample.sweep 0).toOption.any fun built =>
      built.any fun b => decide (¬ (b.transaction.inputs.length : Int) ≤ 0)) = true := by
    decide +kernel
  obtain ⟨built, hbuilt, hany⟩ := (Option.any_eq_true _ _).mp hrun
  obtain ⟨b, hb, hinputs⟩ := List.any_eq_true.mp hany
  exact ⟨built, toOption_eq_some.mp hbuilt, b, hb, of_decide_eq_true hinputs⟩

end Instances

end ScarletCoin
