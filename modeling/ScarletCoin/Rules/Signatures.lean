import ScarletCoin.Sample

/-!
# What a signature commits to

`SignatureHasher` hashes the tag, the body, the index of the input, the spent amount and the script
code one after another (`SignatureHasher.message`). The fields are self-delimiting, so the bytes
that are hashed determine all of them and everything of the transaction but its witnesses
(`SignatureHasher.message_injective`).
-/

set_option autoImplicit false

namespace ScarletCoin

open Toolkit

namespace SignatureHasher

/-- The bytes that are hashed for one input. -/
def message (hasher : SignatureHasher) (inputIndex prevoutValue : Nat) (scriptCode : Blob) :
    Except PyError Bytes := do
  raiseIf (2 ^ 32 ≤ inputIndex) (.struct "argument out of range")
  raiseIf (2 ^ 64 ≤ prevoutValue) (.struct "argument out of range")
  pure (hasher.state ++ (leBytes 4 inputIndex ++
    (Writer.uint64 prevoutValue ++ Writer.varbytes scriptCode.val)))

/-- The digest is that of the message. -/
theorem digest_eq_message [Crypto] (hasher : SignatureHasher) (i v : Nat) (code : Blob) :
    hasher.digest i v code.val = (hasher.message i v code).map fun m => (hash256 m).val := by
  unfold digest message raiseIf
  split
  · rfl
  · split <;> rfl

/-- A message that exists is the fields one after another, each within its width. -/
theorem message_eq_ok {hasher : SignatureHasher} {i v : Nat} {code : Blob} {m : Bytes}
    (h : hasher.message i v code = .ok m) : i < 2 ^ 32 ∧ v < 2 ^ 64 ∧
      m = hasher.state ++ (leBytes 4 i ++ (Writer.uint64 v ++ Writer.varbytes code.val)) := by
  obtain ⟨hi, h⟩ := raiseIf_bind_eq_ok.mp h
  obtain ⟨hv, h⟩ := raiseIf_bind_eq_ok.mp h
  exact ⟨Nat.not_le.mp hi, Nat.not_le.mp hv, (pure_eq_ok.mp h).symm⟩

/-- The bytes that are hashed determine everything of the transaction but its witnesses, and the
index, the amount and the script code. -/
theorem message_injective {t u : Transaction} {i j v w : Nat} {code code' : Blob} {m : Bytes}
    (ht : (start t).message i v code = .ok m) (hu : (start u).message j w code' = .ok m) :
    t.version = u.version ∧
      t.inputs.map (fun txin => (txin.prevout, txin.sequence)) =
        u.inputs.map (fun txin => (txin.prevout, txin.sequence)) ∧
      t.outputs = u.outputs ∧ t.lockTime = u.lockTime ∧ t.coinbaseData = u.coinbaseData ∧
      i = j ∧ v = w ∧ code = code' := by
  obtain ⟨hi, hv, hm⟩ := message_eq_ok ht
  obtain ⟨hj, hw, hm'⟩ := message_eq_ok hu
  have heq := hm.symm.trans hm'
  simp only [start, List.append_assoc] at heq
  have hbody := List.append_cancel_left heq
  obtain ⟨⟨hversion, hinputs, houtputs, hlock, hdata⟩, hrest⟩ :=
    Transaction.serializeBody_selfDelimiting hbody
  obtain ⟨hindex, hrest⟩ := append_split (by simp) hrest
  obtain ⟨hvalue, hrest⟩ := uint64_selfDelimiting _ _ _ _ hv hw hrest
  have hcode := varbytes_selfDelimiting.injective trivial trivial hrest
  exact ⟨hversion, hinputs, houtputs, hlock, hdata,
    leBytes_inj (by omega) (by omega) hindex, hvalue, hcode⟩

/-- Two transactions that differ in a witness have the same message, and agree in all else. -/
theorem message_injective_resigned : ∃ (t u : Transaction) (code code' : Blob) (m : Bytes), t ≠ u ∧
    (start t).message 0 7 code = .ok m ∧ (start u).message 0 7 code' = .ok m ∧
    t.version = u.version ∧
      t.inputs.map (fun txin => (txin.prevout, txin.sequence)) =
        u.inputs.map (fun txin => (txin.prevout, txin.sequence)) ∧
      t.outputs = u.outputs ∧ t.lockTime = u.lockTime ∧ t.coinbaseData = u.coinbaseData ∧
      0 = 0 ∧ 7 = 7 ∧ code = code' := by
  let t := Sample.coinbase 1 0 Sample.reward
  let u := { t with
    inputs := [⟨COINBASE_OUTPOINT, SEQUENCE_FINAL, [⟨[1], by decide⟩], by decide⟩]
    inputs_fit := by decide }
  have hmessage : ∃ m, (start t).message 0 7 ⟨[1], by decide⟩ = .ok m ∧
      (start u).message 0 7 ⟨[1], by decide⟩ = .ok m := ⟨_, rfl, rfl⟩
  obtain ⟨m, ht, hu⟩ := hmessage
  exact ⟨t, u, _, _, m, by decide +kernel, ht, hu, message_injective ht hu⟩

end SignatureHasher

end ScarletCoin
