import ScarletCoin.Core.Block

/-!
# One encoding for each object

The parsers of transactions, merged-mining proofs and blocks are exact: each returns the objects
within its limits and nothing else, and each object from its own encoding alone
(`Transaction.read_exact`, `AuxPoW.read_exact`, `Block.deserialize_eq_ok`). So what is within the
limits goes back and forth unchanged, and whatever is accepted is the encoding of what it is parsed
to (`wire_format_exact`).

The limits are those that the parsers check: a transaction has inputs and outputs, and its data and
its witness items are short; a proof has short branches of 32-byte siblings, 32-bit indexes and a
short coinbase; a block has a transaction.
-/

set_option autoImplicit false

namespace ScarletCoin

open Toolkit

/-! ## Primitives -/

namespace Reader

theorem hash32_exact : Exact (fun _ => True) (fun h : Hash => h.val) hash32 := by
  intro bs h rest
  rw [hash32_eq_ok, true_and]

/-- A byte string that is not too long is read from what the writer produces for it. -/
theorem varbytes_exact (limit : Option Nat) : Exact (fun b : Blob => ∀ m ∈ limit, b.val.length ≤ m)
    (fun b => Writer.varbytes b.val) (varbytes limit) := by
  refine .of_canonical (varbytes_canonical limit) (fun bs b rest h => ?_) fun b rest hb => ?_
  · obtain ⟨n, mid, hread, hbody⟩ := reader_bind_eq_ok.mp (attach_eq_ok.mp h)
    rintro m rfl
    dsimp only at hbody
    split at hbody
    · exact absurd hbody fail_ne_ok
    · rename_i hle
      rw [(raw_eq_ok.mp hbody).1]
      exact Nat.not_lt.mp hle
  · refine attach_eq_ok.mpr (reader_bind_eq_ok.mpr ⟨b.val.length, b.val ++ rest, ?_, ?_⟩)
    · exact varint_eq_ok.mpr ⟨b.property, by rw [Writer.varbytes, List.append_assoc]⟩
    · cases limit with
      | none => exact raw_append b.val rest
      | some m =>
        have hle : ¬ m < b.val.length := Nat.not_lt.mpr (hb m rfl)
        dsimp only
        rw [if_neg hle]
        exact raw_append b.val rest

end Reader

/-! ## Transactions -/

/-- The constructor accepts the fields of an output. -/
theorem TxOutput.make_self (o : TxOutput) : TxOutput.make o.type o.value o.payload = .ok o := by
  unfold TxOutput.make
  rw [dif_pos o.type_known, dif_pos o.value_le]

namespace Transaction

/-- The limits of the parser of transactions. -/
structure WithinLimits (t : Transaction) : Prop where
  inputs : t.inputs ≠ []
  outputs : t.outputs ≠ []
  data : t.coinbaseData.val.length ≤ MAX_COINBASE_DATA
  items : ∀ txin ∈ t.inputs, ∀ item ∈ txin.witness, item.val.length ≤ MAX_WITNESS_ITEM_SIZE

theorem readInputCore_exact : Exact (fun _ => True) InputCore.serialize readInputCore := by
  refine .of_canonical readInputCore_canonical (fun _ _ _ _ => trivial) fun c rest _ => ?_
  simp only [InputCore.serialize, List.append_assoc, readInputCore, reader_bind_eq_ok]
  exact ⟨c.1.txid, _, Reader.hash32_eq_ok.mpr rfl, c.1.index, _,
    Reader.uint32_eq_ok.mpr rfl, c.2, _, Reader.uint32_eq_ok.mpr rfl, rfl⟩

theorem readOutput_exact : Exact (fun _ => True) TxOutput.serialize readOutput := by
  refine .of_canonical readOutput_canonical (fun _ _ _ _ => trivial) fun o rest _ => ?_
  have hvalue : o.value < 2 ^ 64 := Nat.lt_of_le_of_lt o.value_le MAX_MONEY_lt
  simp only [TxOutput.serialize, List.append_assoc, readOutput, reader_bind_eq_ok]
  refine ⟨o.type, _, Reader.uint8_eq_ok.mpr rfl, o.value, _, Reader.uint64_eq_ok.mpr ⟨hvalue, rfl⟩,
    o.payload, _, Reader.payload_eq_ok.mpr rfl, ?_⟩
  rw [TxOutput.make_self]
  rfl

/-- A witness of short items is read from its encoding. -/
theorem readSizedWitness_exact :
    Exact (fun w : SizedWitness => ∀ item ∈ w.val, item.val.length ≤ MAX_WITNESS_ITEM_SIZE)
      (fun w => serializeWitness w.val) readSizedWitness := by
  have hitem : Exact (fun b : Blob => b.val.length ≤ MAX_WITNESS_ITEM_SIZE)
      (fun b => Writer.varbytes b.val) (Reader.varbytes (some MAX_WITNESS_ITEM_SIZE)) := by
    intro bs b rest
    rw [Reader.varbytes_exact]
    simp
  intro bs w rest
  unfold readSizedWitness
  rw [attach_eq_ok]
  simp only [readWitness, reader_bind_eq_ok, Reader.varint_eq_ok, hitem.readMany_eq_ok]
  constructor
  · rintro ⟨count, mid, ⟨-, rfl⟩, rfl, hitems, rfl⟩
    exact ⟨hitems, by rw [serializeWitness, List.append_assoc]⟩
  · rintro ⟨hitems, rfl⟩
    exact ⟨w.val.length, _, ⟨w.property, by rw [serializeWitness, List.append_assoc]⟩, rfl, hitems,
      rfl⟩

/-- A sequence of items that take at least their size is read from its encoding. -/
theorem readSequence_exact {α : Type} {P : α → Prop} {w : α → Bytes} {item : Reader PyError α}
    (hitem : Exact P w item) {size : Nat} {none few : String} (hpos : 0 < size)
    (hsize : ∀ a, P a → size ≤ (w a).length) :
    Exact (fun as : List α => as ≠ [] ∧ as.length < 2 ^ 32 ∧ ∀ a ∈ as, P a)
      (fun as => Writer.varint as.length ++ as.flatMap w) (readSequence item size none few) := by
  intro bs as rest
  constructor
  · intro h
    obtain ⟨hne, hlt, mid, rfl, hmany⟩ := readSequence_eq_ok h
    obtain ⟨-, hP, rfl⟩ := hitem.readMany_eq_ok.mp hmany
    exact ⟨⟨hne, hlt, hP⟩, by rw [List.append_assoc]⟩
  · rintro ⟨⟨hne, hlt, hP⟩, rfl⟩
    have hlen : ∀ as : List α, (∀ a ∈ as, P a) → size * as.length ≤ (as.flatMap w).length := by
      intro as
      induction as with
      | nil => exact fun _ => Nat.zero_le _
      | cons a as ih =>
        intro hP
        have hhead := hsize a (hP a List.mem_cons_self)
        have htail := ih fun b hb => hP b (List.mem_cons_of_mem a hb)
        rw [List.flatMap_cons, List.length_append, List.length_cons, Nat.mul_succ]
        omega
    unfold readSequence
    rw [List.append_assoc]
    refine reader_bind_eq_ok.mpr ⟨as.length, as.flatMap w ++ rest,
      Reader.varint_eq_ok.mpr ⟨by omega, rfl⟩, ?_⟩
    rw [if_neg fun hzero => hne (List.length_eq_zero_iff.mp hzero)]
    refine reader_bind_eq_ok.mpr ⟨_, _, Reader.remaining_eq_ok.mpr ⟨rfl, rfl⟩, ?_⟩
    have hleft : as.length ≤ (as.flatMap w ++ rest).length / size := by
      rw [Nat.le_div_iff_mul_le hpos, Nat.mul_comm, List.length_append]
      exact (hlen as hP).trans (Nat.le_add_right _ _)
    rw [if_neg (by omega), if_neg (by omega)]
    exact hitem.readMany_eq_ok.mpr ⟨rfl, hP, rfl⟩

theorem inputCore_length (c : InputCore) : (InputCore.serialize c).length = 40 := by
  simp [InputCore.serialize, Writer.uint32, c.1.txid.property]

theorem output_length (o : TxOutput) : (TxOutput.serialize o).length = 29 := by
  simp [TxOutput.serialize, Writer.uint64, o.payload.property]

/-- Joining the cores of inputs with their witnesses gives the inputs. -/
theorem joinInputs_map (inputs : List TxInput) : joinInputs (inputs.map TxInput.core)
    (inputs.map fun txin => ⟨txin.witness, txin.witness_fits⟩) = inputs := by
  induction inputs with
  | nil => rfl
  | cons txin inputs ih => exact congrArg (txin :: ·) ih

/-- The witnesses that inputs are joined with are theirs. -/
theorem joinInputs_witnesses {cores : List InputCore} {witnesses : List SizedWitness}
    {txin : TxInput} (h : txin ∈ joinInputs cores witnesses) :
    ∃ w ∈ witnesses, w.val = txin.witness := by
  obtain ⟨i, hi, rfl⟩ := List.mem_iff_getElem.mp h
  have hlen : i < min cores.length witnesses.length := by
    rwa [joinInputs, List.length_zipWith] at hi
  refine ⟨witnesses[i], List.getElem_mem _, ?_⟩
  simp only [joinInputs, List.getElem_zipWith]

theorem readInputCores_exact : Exact (fun cores => cores.val ≠ [])
    (fun cores => Writer.varint cores.val.length ++ cores.val.flatMap InputCore.serialize)
    readInputCores := by
  intro bs cores rest
  unfold readInputCores
  rw [attach_eq_ok, readSequence_exact readInputCore_exact (by decide)
    fun c _ => (inputCore_length c).ge]
  exact and_congr_left' ⟨And.left, fun hne => ⟨hne, cores.property, fun _ _ => trivial⟩⟩

theorem readOutputs_exact : Exact (fun outputs => outputs.val ≠ [])
    (fun outputs => Writer.varint outputs.val.length ++ outputs.val.flatMap TxOutput.serialize)
    readOutputs := by
  intro bs outputs rest
  unfold readOutputs
  rw [attach_eq_ok, readSequence_exact readOutput_exact (by decide)
    fun o _ => (output_length o).ge]
  exact and_congr_left' ⟨And.left, fun hne => ⟨hne, outputs.property, fun _ _ => trivial⟩⟩

/-- What the parser of transactions returns is within its limits. -/
theorem read_withinLimits {bs rest : Bytes} {t : Transaction} (h : read bs = .ok (t, rest)) :
    t.WithinLimits := by
  obtain ⟨version, s₁, hversion, h⟩ := reader_bind_eq_ok.mp h
  obtain ⟨cores, s₂, hcores, h⟩ := reader_bind_eq_ok.mp h
  obtain ⟨outputs, s₃, houtputs, h⟩ := reader_bind_eq_ok.mp h
  obtain ⟨lockTime, s₄, hlock, h⟩ := reader_bind_eq_ok.mp h
  obtain ⟨data, s₅, hdata, h⟩ := reader_bind_eq_ok.mp h
  obtain ⟨witnesses, s₆, hwitnesses, h⟩ := reader_bind_eq_ok.mp h
  obtain ⟨rfl, rfl⟩ := reader_pure_eq_ok.mp h
  obtain ⟨hwlen, hitems, -⟩ := readSizedWitness_exact.readMany_eq_ok.mp hwitnesses
  have hne := ((readInputCores_exact _ _ _).mp hcores).1
  have hjlen : (joinInputs cores.val witnesses).length = cores.val.length := by
    rw [joinInputs, List.length_zipWith, hwlen, Nat.min_self]
  refine ⟨fun hnil => ?_, ((readOutputs_exact _ _ _).mp houtputs).1,
    ((Reader.varbytes_exact _ _ _ _).mp hdata).1 _ rfl, fun txin htxin => ?_⟩
  · have hzero := congrArg List.length hnil
    rw [show (joinInputs cores.val witnesses).length = _ from hjlen] at hzero
    exact hne (List.length_eq_zero_iff.mp hzero)
  · obtain ⟨w, hw, heq⟩ := joinInputs_witnesses htxin
    rw [← heq]
    exact hitems w hw

/-- The parser of transactions is exact. -/
theorem read_exact : Exact WithinLimits Transaction.serialize read := by
  refine .of_canonical read_canonical (fun _ _ _ h => read_withinLimits h) fun t rest ht => ?_
  let cores := t.inputs.map TxInput.core
  let witnesses : List SizedWitness := t.inputs.map fun txin => ⟨txin.witness, txin.witness_fits⟩
  have hlen : cores.length = t.inputs.length := List.length_map _
  have hcores : ∀ rest, readInputCores (Writer.varint t.inputs.length ++
      (t.inputs.flatMap (fun txin => InputCore.serialize txin.core) ++ rest)) =
        .ok (⟨cores, hlen ▸ t.inputs_fit⟩, rest) := by
    intro rest
    refine (readInputCores_exact _ _ _).mpr ⟨fun hnil =>
      ht.inputs (List.map_eq_nil_iff.mp hnil), ?_⟩
    show _ = (Writer.varint cores.length ++ cores.flatMap InputCore.serialize) ++ rest
    rw [List.append_assoc, hlen, List.flatMap_map]
  have houtputs : ∀ rest, readOutputs (Writer.varint t.outputs.length ++
      (t.outputs.flatMap TxOutput.serialize ++ rest)) = .ok (⟨t.outputs, t.outputs_fit⟩, rest) :=
    fun rest => (readOutputs_exact _ _ _).mpr ⟨ht.outputs, by rw [List.append_assoc]⟩
  have hdata : ∀ rest, Reader.varbytes (some MAX_COINBASE_DATA)
      (Writer.varbytes t.coinbaseData.val ++ rest) = .ok (t.coinbaseData, rest) :=
    fun rest => (Reader.varbytes_exact _ _ _ _).mpr ⟨fun m hm => Option.some.inj hm ▸ ht.data, rfl⟩
  have hwitnesses : readMany readSizedWitness cores.length
      (t.inputs.flatMap (fun txin => serializeWitness txin.witness) ++ rest) =
        .ok (witnesses, rest) := by
    refine readSizedWitness_exact.readMany_eq_ok.mpr ⟨?_, fun w hw => ?_, ?_⟩
    · rw [hlen, List.length_map]
    · obtain ⟨txin, htxin, rfl⟩ := List.mem_map.mp hw
      exact ht.items txin htxin
    · rw [List.flatMap_map]
  simp only [serialize, serializeBody, List.append_assoc]
  rw [read, reader_bind_of_ok (Reader.uint32_eq_ok.mpr rfl), reader_bind_of_ok (hcores _),
    reader_bind_of_ok (houtputs _), reader_bind_of_ok (Reader.uint32_eq_ok.mpr rfl),
    reader_bind_of_ok (hdata _), reader_bind_of_ok hwitnesses]
  refine reader_pure_eq_ok.mpr ⟨?_, rfl⟩
  have hjoin : joinInputs cores witnesses = t.inputs := joinInputs_map t.inputs
  cases t
  simp only [hjoin]

/-- A byte string parses to a transaction iff it is the encoding of a transaction within the
limits. -/
theorem deserialize_eq_ok {data : Bytes} {t : Transaction} :
    deserialize data = .ok t ↔ t.WithinLimits ∧ data = t.serialize := by
  constructor
  · intro h
    unfold deserialize at h
    split at h
    · rename_i t' rest hread
      obtain rfl := Except.ok.inj h
      obtain ⟨t'', mid, ht, hrest⟩ := reader_bind_eq_ok.mp hread
      obtain ⟨_, mid', hend, hpure⟩ := reader_bind_eq_ok.mp hrest
      obtain ⟨rfl, -⟩ := reader_pure_eq_ok.mp hpure
      obtain ⟨hlimits, hdata⟩ := (read_exact _ _ _).mp ht
      rw [(Reader.expectEnd_eq_ok.mp hend).1, List.append_nil] at hdata
      exact ⟨hlimits, hdata⟩
    · cases h
  · rintro ⟨ht, rfl⟩
    have hread : read t.serialize = .ok (t, []) :=
      (read_exact _ _ _).mpr ⟨ht, (List.append_nil _).symm⟩
    unfold deserialize
    rw [reader_bind_of_ok hread]
    rfl

end Transaction

/-! ## Merged-mining proofs -/

namespace ParentBlockHeader

theorem read_exact : Exact (fun _ => True) ParentBlockHeader.serialize read := by
  refine .of_canonical read_canonical (fun _ _ _ _ => trivial) fun h rest _ => ?_
  simp only [serialize, headerBytes, List.append_assoc, read, reader_bind_eq_ok]
  exact ⟨h.version, _, Reader.uint32_eq_ok.mpr rfl, h.prevHash, _, Reader.hash32_eq_ok.mpr rfl,
    h.merkleRoot, _, Reader.hash32_eq_ok.mpr rfl, h.timestamp, _, Reader.uint32_eq_ok.mpr rfl,
    h.bits, _, Reader.uint32_eq_ok.mpr rfl, h.nonce, _, Reader.uint32_eq_ok.mpr rfl, rfl⟩

end ParentBlockHeader

namespace AuxPoW

/-- The limits of the parser of proofs. -/
structure WithinLimits (a : AuxPoW) : Prop where
  coinbaseBranch : ∀ sibling ∈ a.coinbaseMerkleBranch, sibling.length = 32
  coinbaseDepth : a.coinbaseMerkleBranch.length ≤ MAX_MERKLE_BRANCH_DEPTH
  coinbaseIndex : a.coinbaseIndex < 2 ^ 32
  auxBranch : ∀ sibling ∈ a.auxMerkleBranch, sibling.length = 32
  auxDepth : a.auxMerkleBranch.length ≤ MAX_MERKLE_BRANCH_DEPTH
  auxIndex : a.auxChainIndex < 2 ^ 32
  coinbase : a.coinbaseTx.WithinLimits
  coinbaseSize : a.coinbaseTx.size ≤ MAX_COINBASE_DATA + 2000

theorem varint_length_le (n : Nat) : (Writer.varint n).length ≤ 9 := by
  unfold Writer.varint
  split
  · simp
  · split
    · simp
    · split <;> simp

theorem branch_length {branch : List Bytes} (h : ∀ sibling ∈ branch, sibling.length = 32) :
    (branch.flatMap id).length = 32 * branch.length := by
  induction branch with
  | nil => rfl
  | cons sibling branch ih =>
    have hhead := h sibling List.mem_cons_self
    have htail := ih fun s hs => h s (List.mem_cons_of_mem sibling hs)
    rw [List.flatMap_cons, List.length_append, id, hhead, htail, List.length_cons]
    omega

/-- A proof within the limits has a wire format. -/
theorem WithinLimits.serializable {a : AuxPoW} (h : a.WithinLimits) : a.Serializable := by
  have hdepth := h.coinbaseDepth
  have hdepth' := h.auxDepth
  have hsize := h.coinbaseSize
  have hcb := varint_length_le a.coinbaseMerkleBranch.length
  have haux := varint_length_le a.auxMerkleBranch.length
  have hcoinbase := varint_length_le a.coinbaseTx.serialize.length
  have hparent := headerBytes_length a.parentHeader.version a.parentHeader.prevHash
    a.parentHeader.merkleRoot a.parentHeader.timestamp a.parentHeader.bits a.parentHeader.nonce
  simp only [MAX_MERKLE_BRANCH_DEPTH, MAX_COINBASE_DATA, Transaction.size] at hdepth hdepth' hsize
  refine ⟨h.coinbaseBranch, by omega, h.coinbaseIndex, h.auxBranch, by omega, h.auxIndex, ?_⟩
  simp only [serialize, Writer.varbytes, ParentBlockHeader.serialize, List.length_append,
    leBytes_length, branch_length h.coinbaseBranch, branch_length h.auxBranch, hparent]
  omega

theorem readBranch_exact (which : String) :
    Exact (fun branch : List Hash => branch.length ≤ MAX_MERKLE_BRANCH_DEPTH)
      (fun branch => Writer.varint branch.length ++ branch.flatMap fun h => h.val)
      (readBranch which) := by
  intro bs branch rest
  unfold readBranch
  simp only [reader_bind_eq_ok, Reader.varint_eq_ok]
  constructor
  · rintro ⟨count, mid, ⟨-, rfl⟩, hbody⟩
    split at hbody
    · exact absurd hbody Reader.fail_ne_ok
    · rename_i hle
      obtain ⟨rfl, -, rfl⟩ := Reader.hash32_exact.readMany_eq_ok.mp hbody
      exact ⟨Nat.not_lt.mp hle, by rw [List.append_assoc]⟩
  · rintro ⟨hle, rfl⟩
    have hwide : branch.length < 2 ^ 64 := hle.trans_lt (by decide)
    refine ⟨branch.length, _, ⟨hwide, by rw [List.append_assoc]⟩, ?_⟩
    rw [if_neg (Nat.not_lt.mpr hle)]
    exact Reader.hash32_exact.readMany_eq_ok.mpr ⟨rfl, fun _ _ => trivial, rfl⟩

theorem readCoinbase_exact :
    Exact (fun t => t.WithinLimits ∧ t.size ≤ MAX_COINBASE_DATA + 2000)
      (fun t => Writer.varbytes t.serialize) readCoinbase := by
  intro bs t rest
  unfold readCoinbase
  simp only [reader_bind_eq_ok, Reader.varbytes_exact _ _ _ _]
  constructor
  · rintro ⟨bytes, mid, ⟨hle, rfl⟩, hbody⟩
    cases hparse : Transaction.deserialize bytes.val with
    | error e =>
      rw [hparse] at hbody
      exact absurd hbody Reader.fail_ne_ok
    | ok t' =>
      rw [hparse] at hbody
      obtain ⟨rfl, rfl⟩ := reader_pure_eq_ok.mp hbody
      obtain ⟨hlimits, hdata⟩ := Transaction.deserialize_eq_ok.mp hparse
      rw [hdata] at hle
      exact ⟨⟨hlimits, hle _ rfl⟩, by rw [hdata]⟩
  · rintro ⟨⟨hlimits, hsize⟩, rfl⟩
    have hwide : t.serialize.length < 2 ^ 64 := lt_of_le_of_lt hsize (by decide)
    refine ⟨⟨t.serialize, hwide⟩, rest, ⟨fun m hm => Option.some.inj hm ▸ hsize, rfl⟩, ?_⟩
    dsimp only
    rw [Transaction.deserialize_eq_ok.mpr ⟨hlimits, rfl⟩]
    rfl

/-- Siblings of 32 bytes are hashes. -/
theorem exists_hashes {branch : List Bytes} (h : ∀ sibling ∈ branch, sibling.length = 32) :
    ∃ hashes : List Hash, hashes.map Subtype.val = branch :=
  ⟨branch.pmap Subtype.mk h, by rw [List.map_pmap, List.pmap_eq_map, List.map_id']⟩

theorem flatMap_hashes (hashes : List Hash) :
    (hashes.map Subtype.val).flatMap id = hashes.flatMap fun h => h.val := List.flatMap_map _ _ _

/-- The parser of proofs is exact. -/
theorem read_exact : Exact WithinLimits serialize read := by
  intro bs a rest
  unfold read
  simp only [reader_bind_eq_ok, readBranch_exact _ _ _ _, Reader.uint32_eq_ok,
    readCoinbase_exact _ _ _, ParentBlockHeader.read_exact _ _ _, reader_pure_eq_ok]
  constructor
  · rintro ⟨cbBranch, _, ⟨hcb, rfl⟩, cbIndex, _, rfl, auxBranch, _, ⟨haux, rfl⟩, auxIndex, _, rfl,
      coinbase, _, ⟨⟨hlimits, hsize⟩, rfl⟩, header, _, ⟨-, rfl⟩, rfl, rfl⟩
    have h32 : ∀ hashes : List Hash, ∀ sibling ∈ hashes.map Subtype.val, sibling.length = 32 := by
      intro hashes sibling hmem
      obtain ⟨hash, -, rfl⟩ := List.mem_map.mp hmem
      exact hash.property
    refine ⟨⟨h32 cbBranch, by rwa [List.length_map], cbIndex.toNat_lt, h32 auxBranch,
      by rwa [List.length_map], auxIndex.toNat_lt, hlimits, hsize⟩, ?_⟩
    simp only [serialize, List.append_assoc, List.length_map, flatMap_hashes, Writer.uint32]
  · rintro ⟨h, rfl⟩
    obtain ⟨coinbase, cbBranch, cbIndex, auxBranch, auxIndex, header⟩ := a
    obtain ⟨hashes, rfl⟩ := exists_hashes h.coinbaseBranch
    obtain ⟨hashes', rfl⟩ := exists_hashes h.auxBranch
    have hdepth := h.coinbaseDepth
    have hdepth' := h.auxDepth
    rw [List.length_map] at hdepth hdepth'
    have hindex : (UInt32.ofNat cbIndex).toNat = cbIndex := by
      rw [UInt32.toNat_ofNat', Nat.mod_eq_of_lt h.coinbaseIndex]
    have hindex' : (UInt32.ofNat auxIndex).toNat = auxIndex := by
      rw [UInt32.toNat_ofNat', Nat.mod_eq_of_lt h.auxIndex]
    refine ⟨hashes, _, ⟨hdepth, ?_⟩, UInt32.ofNat cbIndex, _, rfl, hashes', _, ⟨hdepth', rfl⟩,
      UInt32.ofNat auxIndex, _, rfl, coinbase, _, ⟨⟨h.coinbase, h.coinbaseSize⟩, rfl⟩, header, rest,
      ⟨trivial, rfl⟩, by rw [hindex, hindex'], rfl⟩
    simp only [serialize, List.append_assoc, List.length_map, flatMap_hashes, Writer.uint32, hindex,
      hindex']

/-- A byte string parses to a proof iff it is the encoding of a proof within the limits. -/
theorem deserialize_eq_ok {data : Blob} {a : Wire} :
    deserialize data = .ok a ↔ a.val.WithinLimits ∧ data.val = a.val.serialize := by
  have hall : ∀ {rest : Bytes} {a : AuxPoW}, readAll data.val = .ok (a, rest) ↔
      (a.WithinLimits ∧ data.val = a.serialize) ∧ rest = [] := by
    intro rest a
    unfold readAll
    simp only [reader_bind_eq_ok, read_exact _ _ _, Reader.expectEnd_eq_ok, reader_pure_eq_ok]
    constructor
    · rintro ⟨a', _, ⟨hlimits, hdata⟩, _, _, ⟨rfl, rfl⟩, rfl, rfl⟩
      rw [List.append_nil] at hdata
      exact ⟨⟨hlimits, hdata⟩, rfl⟩
    · rintro ⟨⟨hlimits, hdata⟩, rfl⟩
      exact ⟨a, [], ⟨hlimits, by rw [hdata, List.append_nil]⟩, (), [], ⟨rfl, rfl⟩, rfl, rfl⟩
  constructor
  · intro h
    unfold deserialize at h
    split at h
    · rename_i a' rest hread
      obtain rfl := Except.ok.inj h
      exact (hall.mp hread).1
    · cases h
  · intro h
    have hok : readAll data.val = .ok (a.val, []) := hall.mpr ⟨h, rfl⟩
    cases hparse : deserialize data with
    | ok a' =>
      have hsame : a'.val.serialize = a.val.serialize :=
        (deserialize_canonical hparse).trans h.2
      rw [Subtype.ext (serialize_injective a'.property a.property hsame)]
    | error e =>
      unfold deserialize at hparse
      split at hparse
      · cases hparse
      · rename_i hread
        cases hread.symm.trans hok

end AuxPoW

/-! ## Blocks -/

namespace BlockHeader

theorem read_exact : Exact (fun _ => True) BlockHeader.serialize read := by
  refine .of_canonical read_canonical (fun _ _ _ _ => trivial) fun h rest _ => ?_
  simp only [serialize, headerBytes, List.append_assoc, read, reader_bind_eq_ok]
  exact ⟨h.version, _, Reader.uint32_eq_ok.mpr rfl, h.prevHash, _, Reader.hash32_eq_ok.mpr rfl,
    h.merkleRoot, _, Reader.hash32_eq_ok.mpr rfl, h.timestamp, _, Reader.uint32_eq_ok.mpr rfl,
    h.bits, _, Reader.uint32_eq_ok.mpr rfl, h.nonce, _, Reader.uint32_eq_ok.mpr rfl, rfl⟩

end BlockHeader

namespace Block

/-- The limits of the parser of blocks. -/
structure WithinLimits (b : Block) : Prop where
  transactions : b.transactions ≠ []
  within : ∀ t ∈ b.transactions, t.WithinLimits
  auxpow : ∀ a ∈ b.auxpow, a.val.WithinLimits

/-- A transaction takes at least a byte. -/
theorem transaction_length_pos (t : Transaction) : 1 ≤ t.serialize.length := by
  simp only [Transaction.serialize, Transaction.serializeBody, Writer.uint32, List.length_append,
    leBytes_length]
  omega

theorem readTransactions_exact : Exact (fun ts => ts.val ≠ [] ∧ ∀ t ∈ ts.val, t.WithinLimits)
    (fun ts => Writer.varint ts.val.length ++ ts.val.flatMap Transaction.serialize)
    readTransactions := by
  intro bs ts rest
  unfold readTransactions
  rw [attach_eq_ok]
  constructor
  · intro h
    obtain ⟨hne, -, hbs⟩ := readTransactionsRaw_eq_ok h
    refine ⟨⟨hne, ?_⟩, by rw [hbs, List.append_assoc]⟩
    obtain ⟨count, mid, hcount, hbody⟩ := reader_bind_eq_ok.mp h
    split at hbody
    · exact absurd hbody Reader.fail_ne_ok
    · obtain ⟨left, mid', -, hitems⟩ := reader_bind_eq_ok.mp hbody
      split at hitems
      · exact absurd hitems Reader.fail_ne_ok
      · exact (Transaction.read_exact.readMany_eq_ok.mp hitems).2.1
  · rintro ⟨⟨hne, hwithin⟩, rfl⟩
    have hlen : ∀ ts : List Transaction,
        ts.length ≤ (ts.flatMap Transaction.serialize).length := by
      intro ts
      induction ts with
      | nil => exact Nat.zero_le _
      | cons t ts ih =>
        have hhead := transaction_length_pos t
        rw [List.flatMap_cons, List.length_append, List.length_cons]
        omega
    have hleft := hlen ts.val
    unfold readTransactionsRaw
    refine reader_bind_eq_ok.mpr ⟨ts.val.length, _,
      Reader.varint_eq_ok.mpr ⟨ts.property, by rw [List.append_assoc]⟩, ?_⟩
    rw [if_neg fun hzero => hne (List.length_eq_zero_iff.mp hzero)]
    refine reader_bind_eq_ok.mpr ⟨_, _, Reader.remaining_eq_ok.mpr ⟨rfl, rfl⟩, ?_⟩
    rw [if_neg (by rw [List.length_append]; omega)]
    exact Transaction.read_exact.readMany_eq_ok.mpr ⟨rfl, hwithin, rfl⟩

/-- What follows the transactions is a proof or nothing. -/
theorem readAuxpow_end {bs : Bytes} {a : Option AuxPoW.Wire} :
    readAuxpow bs = .ok (a, []) ↔ (∀ w ∈ a, w.val.WithinLimits) ∧ bs = serializeAuxpow a := by
  constructor
  · intro h
    have hbs := readAuxpow_eq_ok h
    rw [List.append_nil] at hbs
    refine ⟨?_, hbs⟩
    rintro w rfl
    obtain ⟨left, mid, hleft, h₁⟩ := reader_bind_eq_ok.mp h
    split at h₁
    · obtain ⟨heq, -⟩ := reader_pure_eq_ok.mp h₁
      cases heq
    · obtain ⟨marker, mid', hmarker, h₂⟩ := reader_bind_eq_ok.mp h₁
      split at h₂
      · exact absurd h₂ Reader.fail_ne_ok
      · obtain ⟨data, mid'', hdata, h₃⟩ := reader_bind_eq_ok.mp h₂
        cases hparse : AuxPoW.deserialize data with
        | error e =>
          rw [hparse] at h₃
          exact absurd h₃ Reader.fail_ne_ok
        | ok a' =>
          rw [hparse] at h₃
          obtain ⟨heq, -⟩ := reader_pure_eq_ok.mp h₃
          obtain rfl := Option.some.inj heq
          exact (AuxPoW.deserialize_eq_ok.mp hparse).1
  · -- conversely the marker is read, then the proof behind its length
    rintro ⟨hwithin, rfl⟩
    cases a with
    | none => rfl
    | some w =>
      have hread : Reader.varbytes none (Writer.varbytes w.val.serialize) =
          .ok (⟨w.val.serialize, w.property.size⟩, []) :=
        (Reader.varbytes_exact none _ _ _).mpr ⟨nofun, (List.append_nil _).symm⟩
      have hparse : AuxPoW.deserialize ⟨w.val.serialize, w.property.size⟩ = .ok w :=
        AuxPoW.deserialize_eq_ok.mpr ⟨hwithin w rfl, rfl⟩
      have hbs : serializeAuxpow (some w) = 0x01 :: Writer.varbytes w.val.serialize := rfl
      unfold readAuxpow
      rw [hbs]
      refine reader_bind_eq_ok.mpr ⟨_, _, Reader.remaining_eq_ok.mpr ⟨rfl, rfl⟩, ?_⟩
      have hleft : ¬ (0x01 :: Writer.varbytes w.val.serialize).length = 0 := Nat.succ_ne_zero _
      rw [if_neg hleft]
      refine reader_bind_eq_ok.mpr ⟨0x01, _, Reader.uint8_eq_ok.mpr rfl, ?_⟩
      rw [if_neg (not_not.mpr rfl), reader_bind_of_ok hread, hparse]
      rfl

/-- A byte string parses to a block iff it is the encoding of a block within the limits. -/
theorem deserialize_eq_ok {data : Bytes} {b : Block} :
    deserialize data = .ok b ↔ b.WithinLimits ∧ data = b.serialize := by
  constructor
  · intro h
    obtain ⟨hne, hdata⟩ := deserialize_canonical h
    refine ⟨?_, hdata.symm⟩
    unfold deserialize at h
    split at h
    · rename_i b' rest hread
      obtain rfl := Except.ok.inj h
      obtain ⟨header, s₁, hh, h₁⟩ := reader_bind_eq_ok.mp hread
      obtain ⟨ts, s₂, hts, h₂⟩ := reader_bind_eq_ok.mp h₁
      obtain ⟨aux, s₃, haux, h₃⟩ := reader_bind_eq_ok.mp h₂
      obtain ⟨_, s₄, hend, h₄⟩ := reader_bind_eq_ok.mp h₃
      obtain ⟨rfl, rfl⟩ := reader_pure_eq_ok.mp h₄
      rw [(Reader.expectEnd_eq_ok.mp hend).1] at haux
      exact ⟨hne, ((readTransactions_exact _ _ _).mp hts).1.2, (readAuxpow_end.mp haux).1⟩
    · cases h
  · rintro ⟨hb, rfl⟩
    have hend : Reader.expectEnd [] = .ok ((), []) := Reader.expectEnd_eq_ok.mpr ⟨rfl, rfl⟩
    have hread : readAll b.serialize = .ok (b, []) := by
      unfold readAll serialize
      rw [reader_bind_of_ok ((BlockHeader.read_exact _ _ _).mpr ⟨trivial, rfl⟩)]
      refine reader_bind_eq_ok.mpr ⟨⟨b.transactions, b.transactions_fit⟩, serializeAuxpow b.auxpow,
        (readTransactions_exact _ _ _).mpr ⟨⟨hb.transactions, hb.within⟩, ?_⟩, ?_⟩
      · rw [List.append_assoc]
      · rw [reader_bind_of_ok (readAuxpow_end.mpr ⟨hb.auxpow, rfl⟩),
          reader_bind_of_ok hend]
        rfl
    unfold deserialize
    rw [hread]

end Block

/-- **One encoding for each object**: a byte string parses to a transaction, a block or a
merged-mining proof iff that is within the limits and the string is its encoding; and every proof
within the limits has an encoding. -/
theorem wire_format_exact :
    (∀ data t, Transaction.deserialize data = .ok t ↔ t.WithinLimits ∧ data = t.serialize) ∧
    (∀ data b, Block.deserialize data = .ok b ↔ b.WithinLimits ∧ data = b.serialize) ∧
    (∀ data a, AuxPoW.deserialize data = .ok a ↔
      a.val.WithinLimits ∧ data.val = a.val.serialize) ∧
    ∀ a : AuxPoW, a.WithinLimits → a.Serializable :=
  ⟨fun _ _ => Transaction.deserialize_eq_ok, fun _ _ => Block.deserialize_eq_ok,
    fun _ _ => AuxPoW.deserialize_eq_ok, fun _ h => h.serializable⟩

end ScarletCoin
