import ScarletCoin.Rules.MerkleCommitment
import ScarletCoin.Wallet.Builder

/-!
# What a signed transaction is made of

Signing attaches a public key and a signature to every input and changes nothing else. Keys have 33
bytes and signatures 64, so all inputs take the same number of bytes and the estimate that the fee
is computed from is the serialised size (`spends_of_signed`). The estimate and the fee grow with the
number of inputs and outputs (`estimateSize_mono`, `feeForSize_mono`).
-/

set_option autoImplicit false

namespace ScarletCoin

open Toolkit

/-! ## The estimate -/

theorem varintSize_mono {m n : Nat} (h : m ≤ n) : varintSize m ≤ varintSize n := by
  unfold varintSize
  split_ifs <;> omega

/-- The estimate grows with the inputs and the outputs. -/
theorem estimateSize_mono {m n j k : Nat} (hmn : m ≤ n) (hjk : j ≤ k) :
    estimateSize m j ≤ estimateSize n k := by
  have hinputs := varintSize_mono hmn
  have houtputs := varintSize_mono hjk
  have hbytes := Nat.mul_le_mul_right PER_INPUT_BYTES hmn
  have hbytes' := Nat.mul_le_mul_right PER_OUTPUT_BYTES hjk
  unfold estimateSize
  omega

/-- The fee grows with the size. -/
theorem feeForSize_mono {m n : Nat} (h : m ≤ n) (feePerKb : Int) :
    feeForSize m feePerKb ≤ feeForSize n feePerKb := by
  have hmul := Nat.mul_le_mul_right feePerKb.toNat h
  unfold feeForSize
  split
  · exact max_le_max (Nat.le_refl 1) (Nat.div_le_div_right (by omega))
  · exact Nat.le_refl 0

/-! ## Serialised sizes -/

theorem varint_length (n : Nat) : (Writer.varint n).length = varintSize n := by
  unfold Writer.varint varintSize
  split_ifs <;> simp

/-- Pieces of one size. -/
theorem length_flatMap_of_length {α : Type} {f : α → Bytes} {size : Nat} {xs : List α}
    (h : ∀ x ∈ xs, (f x).length = size) : (xs.flatMap f).length = xs.length * size := by
  induction xs with
  | nil => simp
  | cons x xs ih =>
    have htail := ih fun y hy => h y (List.mem_cons_of_mem x hy)
    rw [List.flatMap_cons, List.length_append, htail, h x List.mem_cons_self, List.length_cons,
      Nat.succ_mul, Nat.add_comm]

section Signing

variable [Crypto]

/-- The input carries a public key and a signature. -/
def TxInput.PaysKeyHash (txin : TxInput) : Prop :=
  ∃ key signature, txin.witness = (p2pkhWitness key signature).val

/-- The witness of a P2PKH input takes 100 bytes. -/
theorem TxInput.PaysKeyHash.witness_length {txin : TxInput} (h : txin.PaysKeyHash) :
    (serializeWitness txin.witness).length = 100 := by
  obtain ⟨key, signature, hwitness⟩ := h
  rw [hwitness, p2pkhWitness, serializeWitness]
  simp only [List.flatMap_cons, List.flatMap_nil, Writer.varbytes, List.length_append,
    varint_length, key.length, signature.property, List.length_cons, List.length_nil]
  rfl

/-- The estimate is exact for P2PKH inputs. -/
theorem Transaction.size_eq_estimate {t : Transaction}
    (hinputs : ∀ txin ∈ t.inputs, txin.PaysKeyHash)
    (hdata : t.coinbaseData.val = []) : t.size = estimateSize t.inputs.length t.outputs.length := by
  have hcores : (t.inputs.flatMap fun txin => InputCore.serialize txin.core).length =
      t.inputs.length * 40 :=
    length_flatMap_of_length fun txin _ => InputCore.serialize_length txin.core
  have houtputs : (t.outputs.flatMap TxOutput.serialize).length = t.outputs.length * 29 :=
    length_flatMap_of_length fun o _ => o.serialize_length
  have hwitnesses : (t.inputs.flatMap fun txin => serializeWitness txin.witness).length =
      t.inputs.length * 100 :=
    length_flatMap_of_length fun txin h => (hinputs txin h).witness_length
  have hempty : varintSize 0 = 1 := rfl
  rw [size, serialize, serializeBody, hdata]
  simp only [Writer.uint32, Writer.varbytes, List.length_append, leBytes_length,
    varint_length, hcores, houtputs, hwitnesses, List.length_nil, hempty]
  unfold estimateSize PER_INPUT_BYTES PER_OUTPUT_BYTES
  omega

/-! ## Signing -/

omit [Crypto] in
/-- Attaching one witness to each input keeps what the inputs spend. -/
theorem attachWitnesses_prevouts (inputs : List TxInput)
    (witnesses : List Transaction.SizedWitness) :
    (attachWitnesses inputs witnesses).map TxInput.prevout = inputs.map TxInput.prevout := by
  fun_induction attachWitnesses inputs witnesses with
  | case1 => rfl
  | case2 => rfl
  | case3 txin inputs w witnesses ih => rw [List.map_cons, ih, List.map_cons]

omit [Crypto] in
/-- As many witnesses as inputs reach every input. -/
theorem mem_attachWitnesses {inputs : List TxInput} {witnesses : List Transaction.SizedWitness}
    (hlength : witnesses.length = inputs.length) {txin : TxInput}
    (h : txin ∈ attachWitnesses inputs witnesses) : ∃ w ∈ witnesses, txin.witness = w.val := by
  fun_induction attachWitnesses inputs witnesses with
  | case1 => cases h
  | case2 => cases hlength
  | case3 first inputs w witnesses ih =>
    rcases List.mem_cons.mp h with rfl | h
    · exact ⟨w, List.mem_cons_self, rfl⟩
    · obtain ⟨v, hv, heq⟩ := ih (Nat.succ.inj hlength) h
      exact ⟨v, List.mem_cons_of_mem w hv, heq⟩

variable [Curve]

/-- Signing gives each coin the witness of a P2PKH input. -/
theorem signCoins_eq_ok {hasher : SignatureHasher} {keys : PubkeyHash → Option PrivateKey}
    {index : Nat} {coins : List Spendable} {witnesses : List Transaction.SizedWitness}
    (h : signCoins hasher keys index coins = .ok witnesses) :
    List.Forall₂ (fun _ w => ∃ key signature, w = p2pkhWitness key signature) coins witnesses := by
  induction coins generalizing index witnesses with
  | nil =>
    obtain rfl := Except.ok.inj h
    exact .nil
  | cons item rest ih =>
    obtain ⟨outpoint, coin⟩ := item
    unfold signCoins at h
    cases hkey : keys coin.payload with
    | none =>
      rw [hkey] at h
      cases h
    | some key =>
      simp only [hkey] at h
      obtain ⟨digest, -, h⟩ := bind_eq_ok.mp h
      obtain ⟨signature, -, h⟩ := bind_eq_ok.mp h
      obtain ⟨later, hlater, h⟩ := bind_eq_ok.mp h
      obtain rfl := pure_eq_ok.mp h
      exact .cons ⟨key.publicKey, signature, rfl⟩ (ih hlater)

/-- A signed transaction spends the coins in order and has the outputs, at the estimated size. -/
structure Spends (coins : List Spendable) (outputs : List TxOutput) (t : Transaction) : Prop where
  prevouts : t.inputs.map TxInput.prevout = coins.map Prod.fst
  outputs : t.outputs = outputs
  size : t.size = estimateSize t.inputs.length t.outputs.length

omit [Crypto] [Curve] in
theorem Spends.inputs_length {coins : List Spendable} {outputs : List TxOutput} {t : Transaction}
    (h : Spends coins outputs t) : t.inputs.length = coins.length := by
  have hlength := congrArg List.length h.prevouts
  rwa [List.length_map, List.length_map] at hlength

/-- Coins that are put into a transaction and signed are spent by it. -/
theorem spends_of_signed {coins : List Spendable} {outputs : List TxOutput} {lockTime : Int}
    {keys : PubkeyHash → Option PrivateKey} {unsigned signed : Transaction}
    (hunsigned : unsignedTransaction coins outputs lockTime = .ok unsigned)
    (hsigned : signInputs unsigned coins keys = .ok signed) : Spends coins outputs signed := by
  obtain ⟨-, hunsigned⟩ := raiseIf_bind_eq_ok.mp hunsigned
  split at hunsigned
  swap
  · cases hunsigned
  obtain rfl := pure_eq_ok.mp hunsigned
  obtain ⟨witnesses, hwitnesses, hsigned⟩ := bind_eq_ok.mp hsigned
  obtain rfl := pure_eq_ok.mp hsigned
  have hall := signCoins_eq_ok hwitnesses
  have hlength : witnesses.length = (coins.map unsignedInput).length := by
    rw [List.length_map, hall.length_eq]
  refine ⟨?_, rfl, Transaction.size_eq_estimate (fun txin htxin => ?_) rfl⟩
  · exact (attachWitnesses_prevouts _ _).trans List.map_map
  · obtain ⟨w, hw, heq⟩ := mem_attachWitnesses hlength htxin
    obtain ⟨i, hi, rfl⟩ := List.getElem_of_mem hw
    obtain ⟨key, signature, hkey⟩ := hall.get (hall.length_eq ▸ hi) hi
    exact ⟨key, signature, heq.trans (congrArg Subtype.val hkey)⟩

omit [Crypto] [Curve] in
/-- An output that is built pays the bytes it was given. -/
theorem p2pkhOutput_eq_ok {value : Nat} {payload : Bytes} {o : TxOutput}
    (h : p2pkhOutput value payload = .ok o) :
    o.type = OUTPUT_P2PKH ∧ o.value = value ∧ o.payload.val = payload := by
  obtain ⟨-, h⟩ := raiseIf_bind_eq_ok.mp h
  split at h
  · obtain ⟨htype, hvalue, hpayload⟩ := TxOutput.make_eq_ok h
    exact ⟨htype, hvalue, congrArg Subtype.val hpayload⟩
  · cases h

end Signing

/-! ## Keys to run -/

namespace Sample

attribute [local instance] Sample.crypto

theorem publicKey_compressed (key : PrivateKey) : isCompressedKey (2 :: key.secret) = true := by
  simp [isCompressedKey, key.length, PRIVATE_KEY_LENGTH, PUBLIC_KEY_LENGTH]

/-- A key pair that shares its bytes, and one signature for everything. -/
@[reducible] def curve : Curve where
  publicKey key := ⟨2 :: key.secret, publicKey_compressed key, rfl⟩
  ecdsaSign _ _ := (⟨1, by decide⟩, ⟨1, by decide⟩)

theorem privateKey_inRange : 1 ≤ beNat (List.replicate 32 7) ∧
    beNat (List.replicate 32 7) < CURVE_ORDER := by
  decide +kernel

/-- A private key of sevens. -/
def privateKey : PrivateKey := ⟨List.replicate 32 7, List.length_replicate, privateKey_inRange⟩

/-- A coin of some value. -/
def spendable (index : UInt32) (value : Nat) : Spendable :=
  (⟨nullHash, index⟩, ⟨value, OUTPUT_P2PKH, payload 1, 1, false⟩)

end Sample

end ScarletCoin
