import ScarletCoin.Core.Serialize

/-!
# Transactions

The transactions of `core/transaction.py`: outpoints, inputs with their witnesses, outputs, the
sanity checks, the wire format, the transaction id and the signature digests. The type of a value
carries what its constructor checks, so an output over the money limit or an outpoint with a short
id cannot be built.

The body of a transaction determines everything the id commits to
(`Transaction.serializeBody_selfDelimiting`), the wire format determines the whole transaction
(`Transaction.serialize_selfDelimiting`), and the parser accepts only the wire format
(`Transaction.read_canonical`).
-/

set_option autoImplicit false

namespace ScarletCoin

open Toolkit

/-- Domain separation tag of the signature hash: the text `ScarletCoin/sighash/2`. -/
def SIGHASH_TAG : Bytes :=
  [0x53, 0x63, 0x61, 0x72, 0x6C, 0x65, 0x74, 0x43, 0x6F, 0x69, 0x6E, 0x2F,
   0x73, 0x69, 0x67, 0x68, 0x61, 0x73, 0x68, 0x2F, 0x32]

/-- Output paying a public-key hash. -/
def OUTPUT_P2PKH : UInt8 := 0

/-- Output paying a script hash. -/
def OUTPUT_P2SH : UInt8 := 1

/-- Sequence number of a final input. -/
def SEQUENCE_FINAL : UInt32 := 0xFFFFFFFF

/-- Largest amount that may ever exist, in scar. -/
def MAX_MONEY : Nat := 21000000 * 100000000

/-- Longest data field of a coinbase. -/
def MAX_COINBASE_DATA : Nat := 100

/-- Most items of a witness. -/
def MAX_WITNESS_ITEMS : Nat := 100

/-- Longest item of a witness. -/
def MAX_WITNESS_ITEM_SIZE : Nat := 520

/-! ## Outpoints, inputs, outputs -/

/-- A reference to one output of an earlier transaction. -/
structure OutPoint where
  txid : Hash
  index : UInt32
  deriving DecidableEq

/-- The special outpoint of coinbase inputs. -/
def OutPoint.isNull (o : OutPoint) : Bool := o.txid == nullHash && o.index == 0xFFFFFFFF

/-- The outpoint every coinbase input references. -/
def COINBASE_OUTPOINT : OutPoint := ⟨nullHash, 0xFFFFFFFF⟩

/-- `str(outpoint)`. -/
def OutPoint.str (o : OutPoint) : String := hex o.txid.val ++ ":" ++ toString o.index

/-- One authorisation to spend a previous output. -/
structure TxInput where
  prevout : OutPoint
  sequence : UInt32
  witness : List Blob
  witness_fits : witness.length < 2 ^ 64
  deriving DecidableEq

/-- The input signals that it may be replaced. -/
def TxInput.isReplaceable (txin : TxInput) : Bool := decide (txin.sequence < SEQUENCE_FINAL - 1)

/-- Validate witness sizes. -/
def TxInput.checkWitnessShape (txin : TxInput) : Except PyError Unit := do
  raiseIf (MAX_WITNESS_ITEMS < txin.witness.length)
    (.transaction
      s!"witness has {txin.witness.length} items, the limit is {MAX_WITNESS_ITEMS}")
  forEach (fun item : Blob =>
    raiseIf (MAX_WITNESS_ITEM_SIZE < item.val.length)
      (.transaction
        s!"witness item is {item.val.length} bytes, the limit is {MAX_WITNESS_ITEM_SIZE}"))
    txin.witness

/-- An amount locked to a public-key hash or a script hash. -/
structure TxOutput where
  type : UInt8
  value : Nat
  payload : PubkeyHash
  type_known : type = OUTPUT_P2PKH ∨ type = OUTPUT_P2SH
  value_le : value ≤ MAX_MONEY
  deriving DecidableEq

/-- The checks of the output constructor. -/
def TxOutput.make (type : UInt8) (value : Nat) (payload : PubkeyHash) :
    Except PyError TxOutput :=
  if ht : type = OUTPUT_P2PKH ∨ type = OUTPUT_P2SH then
    if hv : value ≤ MAX_MONEY then
      .ok ⟨type, value, payload, ht, hv⟩
    else
      .error (.transaction "output value exceeds the maximum money supply")
  else
    .error (.transaction s!"unknown output type: {type}")

theorem TxOutput.make_eq_ok {type : UInt8} {value : Nat} {payload : PubkeyHash} {o : TxOutput}
    (h : TxOutput.make type value payload = .ok o) :
    o.type = type ∧ o.value = value ∧ o.payload = payload := by
  unfold TxOutput.make at h
  split at h
  · split at h
    · obtain rfl := Except.ok.inj h
      exact ⟨rfl, rfl, rfl⟩
    · cases h
  · cases h

/-! ## Transactions -/

/-- A signed transfer of value. An output is referred to by a 32-bit index, so a transaction has
fewer than `2 ^ 32` inputs and outputs. -/
structure Transaction where
  version : UInt32
  inputs : List TxInput
  outputs : List TxOutput
  lockTime : UInt32
  coinbaseData : Blob
  inputs_fit : inputs.length < 2 ^ 32
  outputs_fit : outputs.length < 2 ^ 32
  deriving DecidableEq

namespace Transaction

/-- The transaction mints the block reward: its only input spends the null outpoint. -/
def isCoinbase (t : Transaction) : Bool :=
  match t.inputs with
  | [txin] => txin.prevout.isNull
  | _ => false

/-- Whether a transaction is a coinbase depends on the outpoints it spends alone. -/
theorem isCoinbase_congr {t t' : Transaction}
    (h : t.inputs.map TxInput.prevout = t'.inputs.map TxInput.prevout) :
    t.isCoinbase = t'.isCoinbase := by
  unfold isCoinbase
  rcases hi : t.inputs with _ | ⟨a, _ | ⟨b, rest⟩⟩ <;>
    rcases hi' : t'.inputs with _ | ⟨a', _ | ⟨b', rest'⟩⟩ <;> rw [hi, hi'] at h <;> simp_all

/-- Every input may be replaced, and there is one. -/
def isReplaceable (t : Transaction) : Bool :=
  !t.inputs.isEmpty && t.inputs.all TxInput.isReplaceable

/-- Sum of all output values. -/
def totalOutput (t : Transaction) : Nat := (t.outputs.map TxOutput.value).sum

/-- The checks of one input of a transaction that is not a coinbase; `seen` are the outpoints of the
inputs before it. -/
def checkInputSanity (seen : List OutPoint) (txin : TxInput) : Except PyError (List OutPoint) := do
  raiseIf (txin.prevout.isNull = true)
    (.transaction "only the first input of a coinbase may be null")
  raiseIf (txin.prevout ∈ seen)
    (.transaction s!"input {txin.prevout.str} is spent twice in one transaction")
  txin.checkWitnessShape
  pure (txin.prevout :: seen)

/-- Validate everything that can be checked without the chain state. -/
def checkSanity (t : Transaction) (minOutputValue : Nat) : Except PyError Unit := do
  raiseIf (t.inputs = []) (.transaction "transaction has no inputs")
  raiseIf (t.outputs = []) (.transaction "transaction has no outputs")
  raiseIf (MAX_MONEY < t.totalOutput)
    (.transaction "total output value exceeds the maximum money supply")
  forEach (fun entry : TxOutput × Nat =>
    raiseIf (entry.1.value < minOutputValue)
      (.transaction (s!"output {entry.2} value {entry.1.value} is below the" ++
        s!" {minOutputValue} scar minimum")))
    t.outputs.zipIdx
  if t.isCoinbase then do
    raiseIf (MAX_COINBASE_DATA < t.coinbaseData.val.length)
      (.transaction s!"coinbase data must be at most {MAX_COINBASE_DATA} bytes")
    raiseIf ((t.inputs.head?.any fun txin => txin.witness ≠ []) = true)
      (.transaction "coinbase input must not carry a witness")
  else do
    raiseIf (t.coinbaseData.val ≠ [])
      (.transaction "only a coinbase transaction may carry coinbase data")
    let _ ← t.inputs.foldlM checkInputSanity []
    pure ()

end Transaction

/-! ## Serialisation -/

/-- What the body holds of an input: the outpoint and the sequence number. -/
abbrev InputCore := OutPoint × UInt32

/-- The part of an input that the transaction id commits to. -/
def TxInput.core (txin : TxInput) : InputCore := (txin.prevout, txin.sequence)

/-- An input in the body. -/
def InputCore.serialize (c : InputCore) : Bytes :=
  c.1.txid.val ++ (Writer.uint32 c.1.index ++ Writer.uint32 c.2)

/-- An output in the body. -/
def TxOutput.serialize (o : TxOutput) : Bytes :=
  [o.type] ++ (Writer.uint64 o.value ++ o.payload.val)

/-- The witness of an input, after the body. -/
def serializeWitness (witness : List Blob) : Bytes :=
  Writer.varint witness.length ++ witness.flatMap fun item => Writer.varbytes item.val

namespace Transaction

/-- Everything the transaction id commits to. -/
def serializeBody (t : Transaction) : Bytes :=
  Writer.uint32 t.version ++ (Writer.varint t.inputs.length ++
    (t.inputs.flatMap (fun txin => InputCore.serialize txin.core) ++
      (Writer.varint t.outputs.length ++ (t.outputs.flatMap TxOutput.serialize ++
        (Writer.uint32 t.lockTime ++ Writer.varbytes t.coinbaseData.val)))))

/-- The wire format: the body, then the witness of every input. -/
def serialize (t : Transaction) : Bytes :=
  t.serializeBody ++ t.inputs.flatMap fun txin => serializeWitness txin.witness

/-- Serialised size in bytes. -/
def size (t : Transaction) : Nat := t.serialize.length

/-- Parse an input of the body. -/
def readInputCore : Reader PyError InputCore := do
  let txid ← Reader.hash32
  let index ← Reader.uint32
  let sequence ← Reader.uint32
  pure (⟨txid, index⟩, sequence)

/-- Parse an output. -/
def readOutput : Reader PyError TxOutput := do
  let type ← Reader.uint8
  let value ← Reader.uint64
  let payload ← Reader.payload
  match TxOutput.make type value payload with
  | .ok output => pure output
  | .error e => Reader.fail e

/-- Parse a witness. -/
def readWitness : Reader PyError (List Blob) := do
  let count ← Reader.varint
  readMany (Reader.varbytes (some MAX_WITNESS_ITEM_SIZE)) count

/-- Parse a non-empty sequence whose items take at least `itemSize` bytes each. No process holds
`2 ^ 32` parsed items. -/
def readSequence {α : Type} (item : Reader PyError α) (itemSize : Nat) (none few : String) :
    Reader PyError (List α) := do
  let count ← Reader.varint
  if count = 0 then
    Reader.fail (.serialization none)
  else do
    let left ← Reader.remaining
    if left / itemSize + 1 < count then
      Reader.fail (.serialization few)
    else if 2 ^ 32 ≤ count then
      Reader.fail (.memory "")
    else
      readMany item count

end Transaction

/-! ## Properties of the readers -/

theorem inputCore_selfDelimiting : SelfDelimiting (fun _ => True) InputCore.serialize := by
  rintro ⟨⟨txid, index⟩, sequence⟩ ⟨⟨txid', index'⟩, sequence'⟩ x y _ _ heq
  simp only [InputCore.serialize, List.append_assoc] at heq
  obtain ⟨htxid, heq₁⟩ := hash_selfDelimiting _ _ _ _ trivial trivial heq
  obtain ⟨hindex, heq₂⟩ := uint32_selfDelimiting _ _ _ _ trivial trivial heq₁
  obtain ⟨hsequence, hxy⟩ := uint32_selfDelimiting _ _ _ _ trivial trivial heq₂
  exact ⟨by rw [htxid, hindex, hsequence], hxy⟩

theorem MAX_MONEY_lt : MAX_MONEY < 2 ^ 64 := by decide

theorem txOutput_selfDelimiting : SelfDelimiting (fun _ => True) TxOutput.serialize := by
  rintro ⟨type, value, payload, ht, hv⟩ ⟨type', value', payload', ht', hv'⟩ x y _ _ heq
  simp only [TxOutput.serialize, List.append_assoc, List.cons_append, List.nil_append] at heq
  obtain ⟨htype, heq₁⟩ := List.cons.inj heq
  have hlt : value < 2 ^ 64 := Nat.lt_of_le_of_lt hv MAX_MONEY_lt
  have hlt' : value' < 2 ^ 64 := Nat.lt_of_le_of_lt hv' MAX_MONEY_lt
  obtain ⟨hvalue, heq₂⟩ := uint64_selfDelimiting _ _ _ _ hlt hlt' heq₁
  obtain ⟨hpayload, hxy⟩ := pubkeyHash_selfDelimiting _ _ _ _ trivial trivial heq₂
  exact ⟨by simp only [htype, hvalue, hpayload], hxy⟩

theorem witness_selfDelimiting :
    SelfDelimiting (fun w : List Blob => w.length < 2 ^ 64) serializeWitness := by
  intro a b x y ha hb heq
  simp only [serializeWitness, List.append_assoc] at heq
  obtain ⟨hlen, heq⟩ := varint_selfDelimiting _ _ _ _ ha hb heq
  exact varbytes_selfDelimiting.flatMap hlen (fun _ _ => trivial) (fun _ _ => trivial) heq

namespace Transaction

/-- Two bodies followed by anything agree only if the transactions agree in everything but the
witnesses. -/
theorem serializeBody_selfDelimiting {a b : Transaction} {x y : Bytes}
    (heq : a.serializeBody ++ x = b.serializeBody ++ y) :
    (a.version = b.version ∧ a.inputs.map TxInput.core = b.inputs.map TxInput.core ∧
      a.outputs = b.outputs ∧ a.lockTime = b.lockTime ∧ a.coinbaseData = b.coinbaseData) ∧
    x = y := by
  have hwide : ∀ {n : Nat}, n < 2 ^ 32 → n < 2 ^ 64 := fun h => by omega
  simp only [serializeBody, List.append_assoc] at heq
  obtain ⟨hversion, heq⟩ := uint32_selfDelimiting _ _ _ _ trivial trivial heq
  obtain ⟨hilen, heq⟩ :=
    varint_selfDelimiting _ _ _ _ (hwide a.inputs_fit) (hwide b.inputs_fit) heq
  have hcores : ∀ t : Transaction, t.inputs.flatMap (fun txin => InputCore.serialize txin.core) =
      (t.inputs.map TxInput.core).flatMap InputCore.serialize := fun t => by rw [List.flatMap_map]
  rw [hcores a, hcores b] at heq
  obtain ⟨hinputs, heq⟩ := inputCore_selfDelimiting.flatMap (by simpa using hilen)
    (fun _ _ => trivial) (fun _ _ => trivial) heq
  obtain ⟨holen, heq⟩ :=
    varint_selfDelimiting _ _ _ _ (hwide a.outputs_fit) (hwide b.outputs_fit) heq
  obtain ⟨houtputs, heq⟩ := txOutput_selfDelimiting.flatMap holen
    (fun _ _ => trivial) (fun _ _ => trivial) heq
  obtain ⟨hlock, heq⟩ := uint32_selfDelimiting _ _ _ _ trivial trivial heq
  obtain ⟨hdata, hxy⟩ := varbytes_selfDelimiting _ _ _ _ trivial trivial heq
  exact ⟨⟨hversion, hinputs, houtputs, hlock, hdata⟩, hxy⟩

/-- Inputs with equal cores and equal encoded witnesses are equal. -/
theorem inputs_eq_of_cores {as bs : List TxInput} {x y : Bytes}
    (hcore : as.map TxInput.core = bs.map TxInput.core)
    (heq : as.flatMap (fun txin => serializeWitness txin.witness) ++ x =
      bs.flatMap (fun txin => serializeWitness txin.witness) ++ y) : as = bs ∧ x = y := by
  induction as generalizing bs with
  | nil =>
    cases bs with
    | nil => exact ⟨rfl, heq⟩
    | cons b bs => cases hcore
  | cons a as ih =>
    cases bs with
    | nil => cases hcore
    | cons b bs =>
      obtain ⟨hhead, htail⟩ := List.cons.inj hcore
      rw [List.flatMap_cons, List.flatMap_cons, List.append_assoc, List.append_assoc] at heq
      obtain ⟨hwitness, heq⟩ :=
        witness_selfDelimiting _ _ _ _ a.witness_fits b.witness_fits heq
      obtain ⟨hrest, hxy⟩ := ih htail heq
      obtain ⟨hprevout, hsequence⟩ := Prod.mk.inj hhead
      have hab : a = b := by
        cases a
        cases b
        simp_all
      exact ⟨by rw [hab, hrest], hxy⟩

/-- Two wire encodings followed by anything agree only if the transactions agree. -/
theorem serialize_selfDelimiting : SelfDelimiting (fun _ => True) Transaction.serialize := by
  intro a b x y _ _ heq
  simp only [serialize, List.append_assoc] at heq
  obtain ⟨⟨hversion, hcores, houtputs, hlock, hdata⟩, heq⟩ := serializeBody_selfDelimiting heq
  obtain ⟨hinputs, hxy⟩ := inputs_eq_of_cores hcores heq
  have hab : a = b := by
    cases a
    cases b
    simp_all
  exact ⟨hab, hxy⟩

theorem readInputCore_canonical : Canonical InputCore.serialize readInputCore := by
  intro bs c rest h
  obtain ⟨txid, s₁, htxid, h₁⟩ := reader_bind_eq_ok.mp h
  obtain ⟨index, s₂, hindex, h₂⟩ := reader_bind_eq_ok.mp h₁
  obtain ⟨sequence, s₃, hsequence, h₃⟩ := reader_bind_eq_ok.mp h₂
  obtain ⟨rfl, rfl⟩ := reader_pure_eq_ok.mp h₃
  rw [Reader.hash32_eq_ok.mp htxid, Reader.uint32_eq_ok.mp hindex,
    Reader.uint32_eq_ok.mp hsequence]
  simp only [InputCore.serialize, List.append_assoc]

theorem readOutput_canonical : Canonical TxOutput.serialize readOutput := by
  intro bs o rest h
  obtain ⟨type, s₁, htype, h₁⟩ := reader_bind_eq_ok.mp h
  obtain ⟨value, s₂, hvalue, h₂⟩ := reader_bind_eq_ok.mp h₁
  obtain ⟨payload, s₃, hpayload, h₃⟩ := reader_bind_eq_ok.mp h₂
  cases hmake : TxOutput.make type value payload with
  | error e =>
    rw [hmake] at h₃
    exact absurd h₃ Reader.fail_ne_ok
  | ok output =>
    rw [hmake] at h₃
    obtain ⟨rfl, rfl⟩ := reader_pure_eq_ok.mp h₃
    obtain ⟨hty, hva, hpa⟩ := TxOutput.make_eq_ok hmake
    rw [Reader.uint8_eq_ok.mp htype, (Reader.uint64_eq_ok.mp hvalue).2,
      Reader.payload_eq_ok.mp hpayload]
    simp only [TxOutput.serialize, Writer.uint64, List.append_assoc, List.cons_append,
      List.nil_append, hty, hva, hpa]

theorem readWitness_canonical : Canonical serializeWitness readWitness := by
  intro bs w rest h
  obtain ⟨count, mid, hcount, hitems⟩ := reader_bind_eq_ok.mp h
  obtain ⟨-, rfl⟩ := Reader.varint_eq_ok.mp hcount
  have hlen := readMany_length hitems
  have hcanon := (Reader.varbytes_canonical (some MAX_WITNESS_ITEM_SIZE)).readMany count
  rw [serializeWitness, List.append_assoc, hcanon _ _ _ hitems, hlen]

/-- A witness that the parser returns has a length that a compact-size integer spells. -/
theorem readWitness_fits {bs rest : Bytes} {w : List Blob}
    (h : readWitness bs = .ok (w, rest)) : w.length < 2 ^ 64 := by
  obtain ⟨count, mid, hcount, hitems⟩ := reader_bind_eq_ok.mp h
  rw [readMany_length hitems]
  exact (Reader.varint_eq_ok.mp hcount).1

theorem readSequence_eq_ok {α : Type} {item : Reader PyError α} {size : Nat} {none few : String}
    {bs rest : Bytes} {as : List α} (h : readSequence item size none few bs = .ok (as, rest)) :
    as ≠ [] ∧ as.length < 2 ^ 32 ∧ ∃ mid, bs = Writer.varint as.length ++ mid ∧
      readMany item as.length mid = .ok (as, rest) := by
  obtain ⟨count, mid, hcount, hbody⟩ := reader_bind_eq_ok.mp h
  obtain ⟨-, hbs⟩ := Reader.varint_eq_ok.mp hcount
  split at hbody
  · exact absurd hbody Reader.fail_ne_ok
  · rename_i hzero
    obtain ⟨left, mid', hleft, hitems⟩ := reader_bind_eq_ok.mp hbody
    obtain ⟨-, rfl⟩ := Reader.remaining_eq_ok.mp hleft
    split at hitems
    · exact absurd hitems Reader.fail_ne_ok
    · split at hitems
      · exact absurd hitems Reader.fail_ne_ok
      · rename_i hmem
        have hlen := readMany_length hitems
        refine ⟨?_, by omega, mid', by rw [hlen, hbs], by rw [hlen]; exact hitems⟩
        rintro rfl
        exact hzero hlen.symm

/-! ## The parser -/

/-- Parse the inputs of the body. -/
def readInputCores : Reader PyError { cores : List InputCore // cores.length < 2 ^ 32 } :=
  attach (readSequence readInputCore 40 "transaction has no inputs"
    "input count is larger than the remaining data") fun _ _ _ h => (readSequence_eq_ok h).2.1

/-- Parse the outputs. -/
def readOutputs : Reader PyError { outputs : List TxOutput // outputs.length < 2 ^ 32 } :=
  attach (readSequence readOutput 29 "transaction has no outputs"
    "output count is larger than the remaining data") fun _ _ _ h => (readSequence_eq_ok h).2.1

/-- A witness with the bound on its length. -/
abbrev SizedWitness := { w : List Blob // w.length < 2 ^ 64 }

/-- Parse a witness with the bound on its length. -/
def readSizedWitness : Reader PyError SizedWitness :=
  attach readWitness fun _ _ _ h => readWitness_fits h

/-- Put the parsed witnesses into the parsed inputs. -/
def joinInputs (cores : List InputCore) (witnesses : List SizedWitness) : List TxInput :=
  List.zipWith (fun c w => ⟨c.1, c.2, w.val, w.property⟩) cores witnesses

theorem joinInputs_length_le (cores : List InputCore) (witnesses : List SizedWitness) :
    (joinInputs cores witnesses).length ≤ cores.length := by
  unfold joinInputs
  rw [List.length_zipWith]
  exact Nat.min_le_left _ _

/-- Parse one transaction from a stream. -/
def read : Reader PyError Transaction := do
  let version ← Reader.uint32
  let cores ← readInputCores
  let outputs ← readOutputs
  let lockTime ← Reader.uint32
  let coinbaseData ← Reader.varbytes (some MAX_COINBASE_DATA)
  let witnesses ← readMany readSizedWitness cores.val.length
  pure ⟨version, joinInputs cores.val witnesses, outputs.val, lockTime, coinbaseData,
    Nat.lt_of_le_of_lt (joinInputs_length_le cores.val witnesses) cores.property,
    outputs.property⟩

/-- Parse a transaction that fills the whole byte string. -/
def deserialize (data : Bytes) : Except PyError Transaction :=
  match (do let t ← read; Reader.expectEnd; pure t : Reader PyError Transaction) data with
  | .ok (t, _) => .ok t
  | .error e => .error e

theorem joinInputs_core {cores : List InputCore} {witnesses : List SizedWitness}
    (h : witnesses.length = cores.length) :
    (joinInputs cores witnesses).map TxInput.core = cores := by
  induction cores generalizing witnesses with
  | nil => rfl
  | cons c cores ih =>
    cases witnesses with
    | nil => cases h
    | cons w witnesses =>
      have htail := @ih witnesses (by simpa using h)
      exact congrArg (c :: ·) htail

theorem joinInputs_witness {cores : List InputCore} {witnesses : List SizedWitness}
    (h : witnesses.length = cores.length) :
    (joinInputs cores witnesses).flatMap (fun txin => serializeWitness txin.witness) =
      witnesses.flatMap fun w => serializeWitness w.val := by
  induction cores generalizing witnesses with
  | nil =>
    cases witnesses with
    | nil => rfl
    | cons w witnesses => cases h
  | cons c cores ih =>
    cases witnesses with
    | nil => cases h
    | cons w witnesses =>
      have htail := @ih witnesses (by simpa using h)
      exact congrArg (serializeWitness w.val ++ ·) htail

/-- The parser accepts only the wire format. -/
theorem read_canonical : Canonical Transaction.serialize read := by
  intro bs t rest h
  obtain ⟨version, s₁, hversion, h⟩ := reader_bind_eq_ok.mp h
  obtain ⟨cores, s₂, hcores, h⟩ := reader_bind_eq_ok.mp h
  obtain ⟨outputs, s₃, houtputs, h⟩ := reader_bind_eq_ok.mp h
  obtain ⟨lockTime, s₄, hlock, h⟩ := reader_bind_eq_ok.mp h
  obtain ⟨data, s₅, hdata, h⟩ := reader_bind_eq_ok.mp h
  obtain ⟨witnesses, s₆, hwitnesses, h⟩ := reader_bind_eq_ok.mp h
  obtain ⟨rfl, rfl⟩ := reader_pure_eq_ok.mp h
  obtain ⟨-, -, mid, rfl, hmany⟩ := readSequence_eq_ok (attach_eq_ok.mp hcores)
  obtain ⟨-, -, mid', rfl, hmany'⟩ := readSequence_eq_ok (attach_eq_ok.mp houtputs)
  have hwlen := readMany_length hwitnesses
  have hicanon := readInputCore_canonical.readMany _ _ _ _ hmany
  have hocanon := readOutput_canonical.readMany _ _ _ _ hmany'
  have hwitness : Canonical (fun w : SizedWitness => serializeWitness w.val) readSizedWitness :=
    fun _ _ _ hw => readWitness_canonical _ _ _ (attach_eq_ok.mp hw)
  have hwcanon := hwitness.readMany _ _ _ _ hwitnesses
  have hdcanon := Reader.varbytes_canonical _ _ _ _ hdata
  have hjlen : (joinInputs cores.val witnesses).length = cores.val.length := by
    rw [joinInputs, List.length_zipWith, hwlen, Nat.min_self]
  have hjcore : (joinInputs cores.val witnesses).flatMap
      (fun txin => InputCore.serialize txin.core) = cores.val.flatMap InputCore.serialize := by
    rw [← joinInputs_core hwlen, List.flatMap_map, joinInputs_core hwlen]
  simp only [serialize, serializeBody, List.append_assoc]
  rw [joinInputs_witness hwlen, hwcanon, hdcanon, ← Reader.uint32_eq_ok.mp hlock, hocanon, hjlen,
    hjcore, hicanon, ← Reader.uint32_eq_ok.mp hversion]

/-- A parsed transaction is the one whose wire format was given. -/
theorem deserialize_canonical {data : Bytes} {t : Transaction} (h : deserialize data = .ok t) :
    t.serialize = data := by
  unfold deserialize at h
  split at h
  · rename_i t' rest hread
    obtain rfl := Except.ok.inj h
    obtain ⟨t'', mid, ht, hrest⟩ := reader_bind_eq_ok.mp hread
    obtain ⟨_, mid', hend, hpure⟩ := reader_bind_eq_ok.mp hrest
    obtain ⟨rfl, -⟩ := reader_pure_eq_ok.mp hpure
    have hcanon := read_canonical _ _ _ ht
    rwa [(Reader.expectEnd_eq_ok.mp hend).1, List.append_nil] at hcanon
  · cases h

end Transaction

/-! ## Hashes and signatures -/

variable [Crypto]

/-- The transaction id: double SHA-256 of the body. -/
def Transaction.txid (t : Transaction) : Hash := hash256 t.serializeBody

/-- The transaction id in display order. -/
def Transaction.txidHex (t : Transaction) : String := displayHex t.txid

/-- The shared part of the signature digests of one transaction: the tag and the body. -/
structure SignatureHasher where
  state : Bytes

/-- Start the digests of a transaction. -/
def SignatureHasher.start (t : Transaction) : SignatureHasher :=
  ⟨Writer.varbytes SIGHASH_TAG ++ t.serializeBody⟩

/-- The digest for one input. The index of an input and the spent amount are packed into 32 and 64
bits. -/
def SignatureHasher.digest (hasher : SignatureHasher) (inputIndex prevoutValue : Nat)
    (scriptCode : Bytes) : Except PyError Bytes := do
  raiseIf (2 ^ 32 ≤ inputIndex) (.struct "argument out of range")
  raiseIf (2 ^ 64 ≤ prevoutValue) (.struct "argument out of range")
  pure (hash256 (hasher.state ++ (leBytes 4 inputIndex ++
    (Writer.uint64 prevoutValue ++ Writer.varbytes scriptCode)))).val

/-- The script code of an output paying a public-key hash. -/
def Transaction.p2pkhScriptCode (pubkeyHash : PubkeyHash) : Bytes := OUTPUT_P2PKH :: pubkeyHash.val

/-- Check the signature of one input against the public key it reveals. -/
def Transaction.verifyInputSignature (t : Transaction) (inputIndex prevoutValue : Nat)
    (pubkeyHash : PubkeyHash) (hasher : SignatureHasher) : Except PyError Bool :=
  match t.inputs[inputIndex]? with
  | none => .error (.index "tuple index out of range")
  | some txin =>
      match txin.witness with
      | [publicKeyBytes, signature] =>
          if publicKeyBytes.val.length ≠ PUBLIC_KEY_LENGTH ∨
              signature.val.length ≠ SIGNATURE_LENGTH then
            pure false
          else
            match PublicKey.fromBytes publicKeyBytes.val with
            | .error e => if e.isValueError then pure false else .error e
            | .ok publicKey =>
                if publicKey.hash160 ≠ pubkeyHash then
                  pure false
                else do
                  let digest ← hasher.digest inputIndex prevoutValue (p2pkhScriptCode pubkeyHash)
                  publicKey.verify digest signature.val
      | _ => pure false

end ScarletCoin
