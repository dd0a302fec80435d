import ScarletCoin.Core.Validation
import ScarletCoin.Sample

/-!
# What the input checks accept

`SpendRules` states what `check_transaction_inputs` demands of a transaction: a coin for every input
that is mature, of a known type and, with signatures verified, opened by the witness; amounts within
the money limit; and no more paid out than came in. The function returns iff the rules hold, and
what it returns is the difference of the two amounts (`checkTransactionInputs_eq_ok`).

`Authorised` is what a coin commits to: whoever spends it reveals the key, or the script, whose
digest is the payload of the coin. The rules give it for coins paying a public-key hash
(`verifyInputSignature_eq_true`); for coins paying a script hash they give all of it except that the
script revealed is the one committed to (`verifyP2sh_eq_true`).
-/

set_option autoImplicit false

namespace ScarletCoin

open Toolkit

/-- The amount that the inputs of a transaction bring in. -/
def inputTotal (view : OutPoint → Option Coin) (inputs : List TxInput) : Nat :=
  (inputs.map fun txin => ((view txin.prevout).map Coin.value).getD 0).sum

theorem inputTotal_cons (view : OutPoint → Option Coin) (txin : TxInput) (inputs : List TxInput) :
    inputTotal view (txin :: inputs) =
      ((view txin.prevout).map Coin.value).getD 0 + inputTotal view inputs := by
  rw [inputTotal, List.map_cons, List.sum_cons]
  rfl

section Rules

variable [Crypto]

/-- What is demanded of one input of a transaction, given with its position. -/
structure InputRule (t : Transaction) (view : OutPoint → Option Coin) (height : Nat)
    (params : ChainParams) (verifySignatures : Bool) (entry : TxInput × Nat) (coin : Coin) :
    Prop where
  unspent : view entry.1.prevout = some coin
  mature : coin.isSpendableAt height params.coinbaseMaturity = true
  known : coin.outputType = OUTPUT_P2PKH ∨ coin.outputType = OUTPUT_P2SH
  opened : verifySignatures = true → verifyLock t entry.2 coin (SignatureHasher.start t) = .ok true

/-- What is demanded of a transaction. -/
structure SpendRules (t : Transaction) (view : OutPoint → Option Coin) (height : Nat)
    (params : ChainParams) (verifySignatures : Bool) : Prop where
  notCoinbase : t.isCoinbase = false
  inputs : ∀ entry ∈ t.inputs.zipIdx,
    ∃ coin, InputRule t view height params verifySignatures entry coin
  money : inputTotal view t.inputs ≤ MAX_MONEY
  covered : t.totalOutput ≤ inputTotal view t.inputs

/-- A round of the loop returns iff the rule of the input holds and the amount stays in bounds. -/
theorem checkInput_eq_ok {t : Transaction} {view : OutPoint → Option Coin} {height : Nat}
    {params : ChainParams} {verify : Bool} {totalIn totalIn' : Nat} {entry : TxInput × Nat} :
    checkInput t view height params verify totalIn entry = .ok totalIn' ↔
      ∃ coin, InputRule t view height params verify entry coin ∧
        totalIn + coin.value ≤ MAX_MONEY ∧ totalIn' = totalIn + coin.value := by
  unfold checkInput
  cases hview : view entry.1.prevout with
  | none =>
    constructor
    · intro h
      cases h
    · rintro ⟨coin, hrule, -⟩
      have hsome := hrule.unspent
      rw [hview] at hsome
      cases hsome
  | some coin =>
    have hcoin : ∀ coin', InputRule t view height params verify entry coin' → coin' = coin :=
      fun coin' hrule => Option.some.inj (hrule.unspent.symm.trans hview)
    -- the end of the loop body is the same whether the input is verified or not
    have hmoney : (do
          raiseIf (MAX_MONEY < totalIn + coin.value)
            (.validation "input values sum to more than the maximum money supply")
          pure (totalIn + coin.value) : Except PyError Nat) = .ok totalIn' ↔
        totalIn + coin.value ≤ MAX_MONEY ∧ totalIn' = totalIn + coin.value := by
      rw [raiseIf_bind_eq_ok, pure_eq_ok, not_lt]
      exact and_congr_right fun _ => eq_comm
    dsimp only
    rw [raiseIf_bind_eq_ok, raiseIf_bind_eq_ok, Bool.not_eq_false, not_not]
    cases verify with
    | false =>
      rw [if_neg Bool.false_ne_true]
      constructor
      · rintro ⟨hmature, hknown, hrest⟩
        exact ⟨coin, ⟨hview, hmature, hknown, fun h => Bool.noConfusion h⟩, hmoney.mp hrest⟩
      · rintro ⟨coin', hrule, hrest⟩
        obtain rfl := hcoin coin' hrule
        exact ⟨hrule.mature, hrule.known, hmoney.mpr hrest⟩
    | true =>
      rw [if_pos rfl]
      constructor
      · rintro ⟨hmature, hknown, hbody⟩
        obtain ⟨valid, hvalid, hrest⟩ := bind_eq_ok.mp hbody
        obtain ⟨htrue, hrest⟩ := raiseIf_bind_eq_ok.mp hrest
        rw [Bool.not_eq_false] at htrue
        subst htrue
        exact ⟨coin, ⟨hview, hmature, hknown, fun _ => hvalid⟩, hmoney.mp hrest⟩
      · rintro ⟨coin', hrule, hrest⟩
        obtain rfl := hcoin coin' hrule
        refine ⟨hrule.mature, hrule.known, bind_eq_ok.mpr ⟨true, hrule.opened rfl, ?_⟩⟩
        exact raiseIf_bind_eq_ok.mpr ⟨by simp, hmoney.mpr hrest⟩

/-- The loop returns iff every input passes and the amount stays in bounds. -/
theorem checkInputs_eq_ok {t : Transaction} {view : OutPoint → Option Coin} {height : Nat}
    {params : ChainParams} {verify : Bool} {inputs : List TxInput} {start totalIn totalIn' : Nat}
    (hin : totalIn ≤ MAX_MONEY) :
    (inputs.zipIdx start).foldlM (checkInput t view height params verify) totalIn = .ok totalIn' ↔
      (∀ entry ∈ inputs.zipIdx start, ∃ coin, InputRule t view height params verify entry coin) ∧
        totalIn + inputTotal view inputs ≤ MAX_MONEY ∧
        totalIn' = totalIn + inputTotal view inputs := by
  induction inputs generalizing start totalIn with
  | nil =>
    rw [List.zipIdx_nil, foldlM_nil_eq_ok]
    constructor
    · rintro rfl
      exact ⟨fun entry h => absurd h List.not_mem_nil, hin, rfl⟩
    · rintro ⟨-, -, h⟩
      exact h.symm
  | cons txin inputs ih =>
    rw [List.zipIdx_cons, foldlM_cons_eq_ok, List.forall_mem_cons, inputTotal_cons]
    constructor
    · rintro ⟨mid, hhead, htail⟩
      obtain ⟨coin, hrule, hmoney, rfl⟩ := checkInput_eq_ok.mp hhead
      obtain ⟨hrules, hle, heq⟩ := (ih hmoney).mp htail
      rw [hrule.unspent]
      exact ⟨⟨⟨coin, hrule⟩, hrules⟩, by rw [Option.map_some, Option.getD_some]; omega,
        by rw [Option.map_some, Option.getD_some]; omega⟩
    · rintro ⟨⟨⟨coin, hrule⟩, hrules⟩, hle, heq⟩
      rw [hrule.unspent, Option.map_some, Option.getD_some] at hle heq
      have hmoney : totalIn + coin.value ≤ MAX_MONEY := by omega
      refine ⟨totalIn + coin.value, checkInput_eq_ok.mpr ⟨coin, hrule, hmoney, rfl⟩, ?_⟩
      exact (ih hmoney).mpr ⟨hrules, by omega, by omega⟩

/-- The checks return iff the rules hold; the fee is what comes in and is not paid out. -/
theorem checkTransactionInputs_eq_ok {t : Transaction} {view : OutPoint → Option Coin}
    {height : Nat} {params : ChainParams} {verify : Bool} {fee : Nat} :
    checkTransactionInputs t view height params verify = .ok fee ↔
      SpendRules t view height params verify ∧
        fee = inputTotal view t.inputs - t.totalOutput := by
  unfold checkTransactionInputs
  rw [raiseIf_bind_eq_ok, bind_eq_ok]
  constructor
  · rintro ⟨hcoinbase, totalIn, hloop, hrest⟩
    obtain ⟨hcovered, hfee⟩ := raiseIf_bind_eq_ok.mp hrest
    obtain ⟨hinputs, hmoney, rfl⟩ := (checkInputs_eq_ok (Nat.zero_le _)).mp hloop
    rw [Nat.zero_add] at hmoney hcovered hfee
    exact ⟨⟨Bool.not_eq_true _ ▸ hcoinbase, hinputs, hmoney, Nat.not_lt.mp hcovered⟩,
      (pure_eq_ok.mp hfee).symm⟩
  · rintro ⟨hrules, rfl⟩
    refine ⟨by simp [hrules.notCoinbase], inputTotal view t.inputs, ?_, ?_⟩
    · exact (checkInputs_eq_ok (Nat.zero_le _)).mpr
        ⟨hrules.inputs, by rw [Nat.zero_add]; exact hrules.money, (Nat.zero_add _).symm⟩
    · exact raiseIf_bind_eq_ok.mpr ⟨Nat.not_lt.mpr hrules.covered, rfl⟩

/-! ## Authorisation -/

/-- The witness reveals the public key that the coin pays to, with its signature of the input. -/
def SignedFor (t : Transaction) (index : Nat) (txin : TxInput) (coin : Coin) : Prop :=
  ∃ (publicKey signature : Blob) (key : PublicKey) (digest : Bytes),
    txin.witness = [publicKey, signature] ∧
    PublicKey.fromBytes publicKey.val = .ok key ∧
    hash160 publicKey.val = coin.payload ∧
    (SignatureHasher.start t).digest index coin.value
      (Transaction.p2pkhScriptCode coin.payload) = .ok digest ∧
    key.verify digest signature.val = .ok true

/-- The witness starts with a script that succeeds on the rest of it. -/
def ScriptRuns (t : Transaction) (index : Nat) (txin : TxInput) (coin : Coin) : Prop :=
  ∃ (redeemScript : Blob) (arguments : List Blob) (digest : Bytes),
    txin.witness = redeemScript :: arguments ∧
    (SignatureHasher.start t).digest index coin.value redeemScript.val = .ok digest ∧
    evaluateScript redeemScript.val (arguments.map Subtype.val) digest = .ok true

/-- The first item of the witness is the script that the coin pays to. -/
def RevealsScript (txin : TxInput) (coin : Coin) : Prop :=
  ∃ redeemScript ∈ txin.witness.head?, hash160 redeemScript.val = coin.payload

/-- The input is made by somebody who reveals the key or the script that the coin commits to. -/
structure Authorised (t : Transaction) (index : Nat) (txin : TxInput) (coin : Coin) : Prop where
  p2pkh : coin.outputType = OUTPUT_P2PKH → SignedFor t index txin coin
  p2sh : coin.outputType = OUTPUT_P2SH → RevealsScript txin coin ∧ ScriptRuns t index txin coin

/-- A signature check that succeeds has seen the key that the coin pays to. -/
theorem verifyInputSignature_eq_true {t : Transaction} {index : Nat} {txin : TxInput} {coin : Coin}
    (hin : t.inputs[index]? = some txin)
    (h : t.verifyInputSignature index coin.value coin.payload (SignatureHasher.start t) =
      .ok true) : SignedFor t index txin coin := by
  unfold Transaction.verifyInputSignature at h
  rw [hin] at h
  dsimp only at h
  split at h
  · rename_i publicKey signature hwitness
    split at h
    · cases pure_eq_ok.mp h
    · split at h
      · split at h
        · cases pure_eq_ok.mp h
        · cases h
      · rename_i key hkey
        split at h
        · cases pure_eq_ok.mp h
        · rename_i hpayload
          obtain ⟨digest, hdigest, hverify⟩ := bind_eq_ok.mp h
          have hhash : hash160 publicKey.val = coin.payload := by
            rw [← PublicKey.fromBytes_eq_ok hkey]
            exact not_not.mp hpayload
          exact ⟨publicKey, signature, key, digest, hwitness, hkey, hhash, hdigest, hverify⟩
  · cases pure_eq_ok.mp h

/-- A script check that succeeds has run the script at the head of the witness. -/
theorem verifyP2sh_eq_true {t : Transaction} {index : Nat} {txin : TxInput} {coin : Coin}
    (hin : t.inputs[index]? = some txin)
    (h : verifyP2sh t index coin.value (SignatureHasher.start t) = .ok true) :
    ScriptRuns t index txin coin := by
  unfold verifyP2sh at h
  rw [hin] at h
  dsimp only at h
  split at h
  · cases pure_eq_ok.mp h
  · rename_i redeemScript arguments hwitness
    split at h
    · cases pure_eq_ok.mp h
    · obtain ⟨digest, hdigest, hrun⟩ := bind_eq_ok.mp h
      rcases rescue_eq_ok.mp hrun with hrun | ⟨e, -, hcaught⟩
      · exact ⟨redeemScript, arguments, digest, hwitness, hdigest, hrun⟩
      · split at hcaught
        · cases Option.some.inj hcaught
        · cases hcaught

/-- An input that passes is authorised, but for the binding of a script to its coin. -/
theorem InputRule.authorised_iff {t : Transaction} {view : OutPoint → Option Coin} {height : Nat}
    {params : ChainParams} {txin : TxInput} {index : Nat} {coin : Coin}
    (hrule : InputRule t view height params true (txin, index) coin)
    (hin : t.inputs[index]? = some txin) :
    Authorised t index txin coin ↔
      (coin.outputType = OUTPUT_P2SH → RevealsScript txin coin) := by
  have hopened := hrule.opened rfl
  unfold verifyLock at hopened
  constructor
  · intro hauth htype
    exact (hauth.p2sh htype).1
  · intro hreveal
    by_cases htype : coin.outputType = OUTPUT_P2PKH
    · rw [if_pos htype] at hopened
      refine ⟨fun _ => verifyInputSignature_eq_true hin hopened, fun hother => ?_⟩
      rw [htype] at hother
      cases hother
    · rw [if_neg htype] at hopened
      exact ⟨fun hother => absurd hother htype,
        fun hsh => ⟨hreveal hsh, verifyP2sh_eq_true hin hopened⟩⟩

/-- **Spending authorisation.** Whatever `check_transaction_inputs` accepts is authorised input by
input, exactly for the transactions that do not, while meeting every other rule, answer the script
hash of a coin with a different script. -/
theorem checkTransactionInputs_authorised_iff (t : Transaction) (view : OutPoint → Option Coin)
    (height : Nat) (params : ChainParams) :
    (∀ fee, checkTransactionInputs t view height params true = .ok fee →
      ∀ index txin coin, t.inputs[index]? = some txin → view txin.prevout = some coin →
        Authorised t index txin coin) ↔
    (SpendRules t view height params true →
      ∀ txin ∈ t.inputs, ∀ coin, view txin.prevout = some coin →
        coin.outputType = OUTPUT_P2SH → RevealsScript txin coin) := by
  have hrule : SpendRules t view height params true → ∀ index txin coin,
      t.inputs[index]? = some txin → view txin.prevout = some coin →
      InputRule t view height params true (txin, index) coin := by
    intro hrules index txin coin hin hview
    obtain ⟨coin', hrule⟩ := hrules.inputs (txin, index) (List.mem_zipIdx_iff_getElem?.mpr hin)
    obtain rfl : coin' = coin := Option.some.inj (hrule.unspent.symm.trans hview)
    exact hrule
  constructor
  · intro h hrules txin hmem coin hview
    obtain ⟨index, hin⟩ := List.mem_iff_getElem?.mp hmem
    have hauth := h _ (checkTransactionInputs_eq_ok.mpr ⟨hrules, rfl⟩) index txin coin hin hview
    exact ((hrule hrules index txin coin hin hview).authorised_iff hin).mp hauth
  · intro h fee hok index txin coin hin hview
    obtain ⟨hrules, -⟩ := checkTransactionInputs_eq_ok.mp hok
    refine ((hrule hrules index txin coin hin hview).authorised_iff hin).mpr ?_
    exact h hrules txin (List.mem_of_getElem? hin) coin hview

end Rules

section Stolen

attribute [local instance] Sample.crypto

/-- A coin paying the script hash of zeros, at an outpoint of the null transaction. -/
def stolenCoin : Coin := ⟨5, OUTPUT_P2SH, Sample.payload 0, 0, false⟩

/-- A spend of it that reveals the script `OP_1`, which is not the one committed to. -/
def theft : Transaction :=
  Sample.transfer ⟨nullHash, 0⟩ [⟨[0x51], by decide⟩]
    (Sample.payTo 5 (by decide)) (by decide)

/-- The checks accept a spend that nobody authorised. -/
theorem theft_accepted :
    ¬ ∀ fee, checkTransactionInputs theft (fun _ => some stolenCoin) 1 REGTEST true = .ok fee →
      ∀ index txin coin, theft.inputs[index]? = some txin →
        (fun _ => some stolenCoin) txin.prevout = some coin → Authorised theft index txin coin := by
  intro h
  have hok : checkTransactionInputs theft (fun _ => some stolenCoin) 1 REGTEST true = .ok 0 := by
    decide +kernel
  have hauth := h 0 hok 0 _ stolenCoin rfl rfl
  obtain ⟨redeemScript, hfirst, hhash⟩ := (hauth.p2sh rfl).1
  obtain rfl := Option.mem_some_iff.mp hfirst
  exact absurd hhash (by decide +kernel)

end Stolen

end ScarletCoin
