import ScarletCoin.Core.Template
import ScarletCoin.Core.WireFormat
import ScarletCoin.Rules.Admission

/-!
# What templates are made of

The blocks of templates and candidates against the checks of `add_block` that need no coins: an
assembled block carries the numbers it was given and commits to its transactions
(`Block.assemble_ok`), the coinbase of a template claims its height, pays its reward and passes its
sanity check iff the reward reaches the smallest output (`buildCoinbase_ok`), and a block within the
parser's limits is loaded unchanged (`Block.WithinLimits.of_clean`).
-/

set_option autoImplicit false

namespace ScarletCoin

open Toolkit

/-! ## Headers -/

theorem headerField_eq_ok {name : String} {value : Nat} {x : UInt32} :
    headerField name value = .ok x ↔ value < 2 ^ 32 ∧ x = UInt32.ofNat value := by
  unfold headerField
  by_cases h : 0xFFFFFFFF < value
  · rw [if_pos h]
    constructor
    · intro hok
      cases hok
    · rintro ⟨hlt, -⟩
      omega
  · rw [if_neg h, Except.ok.injEq]
    constructor
    · rintro rfl
      exact ⟨by omega, rfl⟩
    · rintro ⟨-, rfl⟩
      rfl

/-- A header is made of numbers of 32 bits. -/
theorem BlockHeader.make_ok {version : Nat} {prevHash merkleRoot : Hash}
    {timestamp bits nonce : Nat} {h : BlockHeader}
    (hmake : BlockHeader.make version prevHash merkleRoot timestamp bits nonce = .ok h) :
    h.prevHash = prevHash ∧ h.merkleRoot = merkleRoot ∧ h.timestamp.toNat = timestamp ∧
      h.bits.toNat = bits := by
  obtain ⟨v, -, h₁⟩ := bind_eq_ok.mp hmake
  obtain ⟨time, htime, h₂⟩ := bind_eq_ok.mp h₁
  obtain ⟨compact, hcompact, h₃⟩ := bind_eq_ok.mp h₂
  obtain ⟨n, -, h₄⟩ := bind_eq_ok.mp h₃
  obtain rfl := pure_eq_ok.mp h₄
  obtain ⟨htimeLt, rfl⟩ := headerField_eq_ok.mp htime
  obtain ⟨hbitsLt, rfl⟩ := headerField_eq_ok.mp hcompact
  refine ⟨rfl, rfl, ?_, ?_⟩
  · rw [UInt32.toNat_ofNat', Nat.mod_eq_of_lt htimeLt]
  · rw [UInt32.toNat_ofNat', Nat.mod_eq_of_lt hbitsLt]

/-! ## Coinbases -/

/-- What is known of a coinbase that was built. -/
structure Transaction.BuiltFor (height reward : Nat) (t : Transaction) : Prop where
  coinbase : t.isCoinbase = true
  claims : coinbaseHeight t = .ok height
  pays : t.totalOutput = reward
  unlocked : t.lockTime = 0
  sane : ∀ minOutputValue, t.checkSanity minOutputValue = .ok () ↔ minOutputValue ≤ reward
  size_le : t.size ≤ 213

theorem encodeCoinbaseData_ok {height : Nat} {extra : Bytes} {data : Blob}
    (h : encodeCoinbaseData height extra = .ok data) : height < 2 ^ 32 ∧
      data.val = leBytes HEIGHT_PREFIX_SIZE height ++ extra ∧
      data.val.length ≤ MAX_COINBASE_DATA := by
  unfold encodeCoinbaseData at h
  split at h
  · cases h
  · rename_i hheight
    dsimp only at h
    split at h
    · rename_i hlen
      obtain rfl := Except.ok.inj h
      exact ⟨by omega, rfl, hlen⟩
    · cases h

/-- A coinbase that was built claims its height and pays its reward. It passes its sanity check iff
the reward reaches the smallest output. -/
theorem buildCoinbase_ok {height reward : Nat} {pubkeyHash : PubkeyHash} {extra : Bytes}
    {t : Transaction} (h : buildCoinbase height reward pubkeyHash extra 0 = .ok t) :
    t.BuiltFor height reward := by
  obtain ⟨output, houtput, h₁⟩ := bind_eq_ok.mp h
  obtain ⟨data, hdata, h₂⟩ := bind_eq_ok.mp h₁
  have ht := pure_eq_ok.mp h₂
  obtain ⟨-, hvalue, -⟩ := TxOutput.make_eq_ok houtput
  obtain ⟨hheight, hbytes, hlen⟩ := encodeCoinbaseData_ok hdata
  have hprefix : (leBytes HEIGHT_PREFIX_SIZE height).length = HEIGHT_PREFIX_SIZE :=
    leBytes_length _ _
  have hcb : t.isCoinbase = true := ht ▸ rfl
  have hinputs : ∃ txin, t.inputs = [txin] ∧ txin.witness = [] := ht ▸ ⟨_, rfl, rfl⟩
  have houtputs : t.outputs = [output] := ht ▸ rfl
  have hfield : t.coinbaseData = data := ht ▸ rfl
  have htotal : t.totalOutput = reward := by
    rw [Transaction.totalOutput, houtputs, List.map_singleton, List.sum_singleton, hvalue]
  obtain ⟨txin, hinputs, hwitness⟩ := hinputs
  refine ⟨hcb, ?_, htotal, ht ▸ rfl, fun minOutputValue => ?_, ?_⟩
  · -- the height is read back from the data it begins with
    refine raiseIf_bind_eq_ok.mpr ⟨by rw [hcb]; exact Bool.noConfusion,
      raiseIf_bind_eq_ok.mpr ⟨?_, ?_⟩⟩
    · rw [hfield, hbytes, List.length_append, hprefix]
      omega
    · rw [pure_eq_ok, hfield, hbytes, List.take_left' hprefix, leNat_leBytes, Nat.mod_eq_of_lt]
      exact hheight
  · -- of the sanity check only the least output value depends on the arguments
    unfold Transaction.checkSanity
    rw [raiseIf_bind_eq_ok, raiseIf_bind_eq_ok, raiseIf_bind_eq_ok, bind_eq_ok, htotal, houtputs,
      hinputs, if_pos hcb]
    constructor
    · rintro ⟨-, -, -, ⟨⟩, hvalues, -⟩
      have hone := raiseIf_eq_ok.mp (forEach_eq_ok.mp hvalues (output, 0) List.mem_cons_self)
      rw [← hvalue]
      exact Nat.not_lt.mp hone
    · intro hle
      refine ⟨List.cons_ne_nil _ _, List.cons_ne_nil _ _, ?_, (), ?_,
        raiseIf_bind_eq_ok.mpr ⟨?_, ?_⟩⟩
      · rw [← hvalue]
        exact Nat.not_lt.mpr output.value_le
      · refine forEach_eq_ok.mpr fun entry hentry => raiseIf_eq_ok.mpr ?_
        obtain rfl := List.mem_singleton.mp hentry
        show ¬ output.value < minOutputValue
        omega
      · rw [hfield]
        exact Nat.not_lt.mpr hlen
      · exact raiseIf_eq_ok.mpr (by simp [hwitness])
  · -- the size is at most that of the longest data
    have hcount := AuxPoW.varint_length_le 1
    have hdataCount := AuxPoW.varint_length_le data.val.length
    have hitems := AuxPoW.varint_length_le 0
    have hinput := Transaction.inputCore_length txin.core
    have houtputLength := Transaction.output_length output
    simp only [MAX_COINBASE_DATA] at hlen
    simp only [Transaction.size, Transaction.serialize, Transaction.serializeBody, serializeWitness,
      hinputs, houtputs, hfield, hwitness, Writer.varbytes, Writer.uint32, List.length_append,
      List.length_singleton, List.length_nil, List.flatMap_cons, List.flatMap_nil, List.append_nil,
      leBytes_length, hinput, houtputLength]
    omega

/-! ## Blocks -/

/-- A transaction that passes its sanity check is within the limits of the parser. -/
theorem Transaction.WithinLimits.of_sane {t : Transaction} {minOutputValue : Nat}
    (h : t.checkSanity minOutputValue = .ok ()) : t.WithinLimits := by
  have hsane := Transaction.checkSanity_sane h
  unfold Transaction.checkSanity at h
  obtain ⟨-, h₁⟩ := raiseIf_bind_eq_ok.mp h
  obtain ⟨-, h₂⟩ := raiseIf_bind_eq_ok.mp h₁
  obtain ⟨-, h₃⟩ := raiseIf_bind_eq_ok.mp h₂
  obtain ⟨_, -, h₄⟩ := bind_eq_ok.mp h₃
  by_cases hcb : t.isCoinbase = true
  · rw [if_pos hcb] at h₄
    obtain ⟨hdata, h₅⟩ := raiseIf_bind_eq_ok.mp h₄
    have hwitness := raiseIf_eq_ok.mp h₅
    refine ⟨hsane.inputs, hsane.outputs, Nat.not_lt.mp hdata, fun txin htxin item hitem => ?_⟩
    -- a coinbase has one input, without a witness
    unfold Transaction.isCoinbase at hcb
    split at hcb
    · rename_i only hinputs
      rw [hinputs] at htxin hwitness
      obtain rfl := List.mem_singleton.mp htxin
      have hnil : txin.witness = [] := by simpa using hwitness
      rw [hnil] at hitem
      cases hitem
    · cases hcb
  · rw [if_neg hcb] at h₄
    obtain ⟨hdata, h₅⟩ := raiseIf_bind_eq_ok.mp h₄
    obtain ⟨seen, hseen, -⟩ := bind_eq_ok.mp h₅
    have hempty : t.coinbaseData.val = [] := not_not.mp hdata
    refine ⟨hsane.inputs, hsane.outputs, by simp [hempty], fun txin htxin item hitem => ?_⟩
    have hshape : ∀ (inputs : List TxInput) (seen seen' : List OutPoint),
        inputs.foldlM Transaction.checkInputSanity seen = .ok seen' → ∀ txin ∈ inputs,
          ∀ item ∈ txin.witness, item.val.length ≤ MAX_WITNESS_ITEM_SIZE := by
      intro inputs
      induction inputs with
      | nil => exact fun _ _ _ txin htxin => absurd htxin List.not_mem_nil
      | cons first inputs ih =>
        intro seen seen' hfold txin htxin item hitem
        obtain ⟨seen₁, hhead, htail⟩ := foldlM_cons_eq_ok.mp hfold
        rcases List.mem_cons.mp htxin with rfl | htxin
        · obtain ⟨-, h₆⟩ := raiseIf_bind_eq_ok.mp hhead
          obtain ⟨-, h₇⟩ := raiseIf_bind_eq_ok.mp h₆
          obtain ⟨_, hwitness, -⟩ := bind_eq_ok.mp h₇
          obtain ⟨-, hitems⟩ := raiseIf_bind_eq_ok.mp hwitness
          exact Nat.not_lt.mp (raiseIf_eq_ok.mp (forEach_eq_ok.mp hitems item hitem))
        · exact ih _ _ htail txin htxin item hitem
    exact hshape _ _ _ hseen txin htxin item hitem

variable [Crypto]

/-- What is known of an assembled block, with a proof or without one. -/
structure Block.Assembled (prevHash : Hash) (transactions : List Transaction) (bits timestamp : Nat)
    (b : Block) : Prop where
  transactions : b.transactions = transactions
  parent : b.header.prevHash = prevHash
  bits : b.header.bits.toNat = bits
  timestamp : b.header.timestamp.toNat = timestamp
  committed : merkleRoot b.txids = .ok b.header.merkleRoot

/-- An assembled block carries the numbers it was given and commits to its transactions. -/
theorem Block.assemble_ok {prevHash : Hash} {transactions : List Transaction}
    {bits timestamp version nonce : Nat} {b : Block}
    (h : Block.assemble prevHash transactions bits timestamp version nonce = .ok b) :
    b.Assembled prevHash transactions bits timestamp ∧ b.auxpow = none := by
  obtain ⟨-, h₁⟩ := raiseIf_bind_eq_ok.mp h
  obtain ⟨root, hroot, h₂⟩ := bind_eq_ok.mp h₁
  obtain ⟨header, hheader, h₃⟩ := bind_eq_ok.mp h₂
  obtain ⟨hparent, hcommits, htime, hbits⟩ := BlockHeader.make_ok hheader
  split at h₃
  · obtain rfl := Except.ok.inj h₃
    exact ⟨⟨rfl, hparent, hbits, htime, by rw [hcommits]; exact hroot⟩, rfl⟩
  · cases h₃

/-- A proof changes neither what a block carries nor its hash. -/
theorem Block.Assembled.withAuxpow {prevHash : Hash} {transactions : List Transaction}
    {bits timestamp : Nat} {b : Block} (h : b.Assembled prevHash transactions bits timestamp)
    (proof : AuxPoW.Wire) : (b.withAuxpow proof).Assembled prevHash transactions bits timestamp :=
  ⟨h.transactions, h.parent, h.bits, h.timestamp, h.committed⟩

/-- A block passes its sanity check iff it is small, meets its target unless a proof stands in for
it, starts with its only coinbase, has distinct transactions that pass theirs, and commits to
them. -/
theorem Block.checkSanity_eq_ok {b : Block} {powLimit maxBlockSize minOutputValue : Nat}
    {active : Bool} : b.checkSanity powLimit maxBlockSize minOutputValue active = .ok () ↔
      b.transactions ≠ [] ∧ b.size ≤ maxBlockSize ∧
      ((active = false ∨ b.hasAuxpow = false) → b.header.checkProofOfWork powLimit = true) ∧
      (∀ t ∈ b.transactions.head?, t.isCoinbase = true) ∧
      (∀ t ∈ b.transactions.tail, t.isCoinbase = false) ∧
      (∀ t ∈ b.transactions, t.checkSanity minOutputValue = .ok ()) ∧ b.txids.Nodup ∧
      merkleRoot b.txids = .ok b.header.merkleRoot := by
  unfold Block.checkSanity
  rw [raiseIf_bind_eq_ok, raiseIf_bind_eq_ok, raiseIf_bind_eq_ok, raiseIf_bind_eq_ok, bind_eq_ok]
  have hpow : ¬ ((active = false ∨ b.hasAuxpow = false) ∧
      b.header.checkProofOfWork powLimit = false) ↔
      ((active = false ∨ b.hasAuxpow = false) → b.header.checkProofOfWork powLimit = true) := by
    rw [not_and, Bool.not_eq_false]
  have hfirst : ¬ (b.transactions.head?.any fun t => !t.isCoinbase) = true ↔
      ∀ t ∈ b.transactions.head?, t.isCoinbase = true := by
    cases b.transactions.head? <;> simp
  rw [hpow, hfirst, Nat.not_lt]
  refine and_congr_right fun _ => and_congr_right fun _ => and_congr_right fun _ => and_congr_right
    fun _ => ?_
  constructor
  · rintro ⟨⟨⟩, hothers, h₁⟩
    obtain ⟨⟨⟩, hclean, h₂⟩ := bind_eq_ok.mp h₁
    obtain ⟨hnodup, h₃⟩ := raiseIf_bind_eq_ok.mp h₂
    obtain ⟨root, hroot, h₄⟩ := bind_eq_ok.mp h₃
    have heq : root = b.header.merkleRoot := not_not.mp (raiseIf_eq_ok.mp h₄)
    refine ⟨fun t ht => ?_, fun t ht => forEach_eq_ok.mp hclean t ht, not_not.mp hnodup,
      heq ▸ hroot⟩
    exact Bool.not_eq_true _ ▸ raiseIf_eq_ok.mp (forEach_eq_ok.mp hothers t ht)
  · rintro ⟨hothers, hclean, hnodup, hroot⟩
    refine ⟨(), forEach_eq_ok.mpr fun t ht => raiseIf_eq_ok.mpr (by simp [hothers t ht]),
      bind_eq_ok.mpr ⟨(), forEach_eq_ok.mpr hclean, raiseIf_bind_eq_ok.mpr ⟨not_not.mpr hnodup,
        bind_eq_ok.mpr ⟨_, hroot, raiseIf_eq_ok.mpr (not_not.mpr rfl)⟩⟩⟩⟩

omit [Crypto] in
/-- A block of transactions that pass their sanity check, with a proof within the limits if it has
one, is within the limits of the parser. -/
theorem Block.WithinLimits.of_clean {b : Block} {minOutputValue : Nat} (hne : b.transactions ≠ [])
    (hclean : ∀ t ∈ b.transactions, t.checkSanity minOutputValue = .ok ())
    (hproof : ∀ a ∈ b.auxpow, a.val.WithinLimits) : b.WithinLimits :=
  ⟨hne, fun t ht => .of_sane (hclean t ht), hproof⟩

omit [Crypto] in
/-- The size of a block is at most the sum of its parts. -/
theorem Block.size_le (b : Block) :
    b.size ≤ 89 + (b.transactions.map Transaction.size).sum +
    (Block.serializeAuxpow b.auxpow).length := by
  have hheader : b.header.serialize.length = 80 := headerBytes_length _ _ _ _ _ _
  have hcount := AuxPoW.varint_length_le b.transactions.length
  have hsum : (b.transactions.flatMap Transaction.serialize).length =
      (b.transactions.map Transaction.size).sum := by
    rw [List.length_flatMap]
    rfl
  simp only [Block.size, Block.serialize, List.length_append, hheader, hsum]
  omega

omit [Crypto] in
/-- The check against the parent returns if the bits are those required, the time is between the
median and the clock, and the coinbase claims the height. -/
theorem checkContext_ok [ScanOrder Hash] {params : ChainParams} {s : Storage} {now : Nat}
    {b : Block} {parent : BlockIndexEntry} {height : Nat} {coinbase : Transaction}
    (hbits : nextBitsAfter params s parent b.header.timestamp.toNat = .ok b.header.bits.toNat)
    (hmedian : medianTimePast params s parent < b.header.timestamp.toNat)
    (hclock : b.header.timestamp.toNat ≤ now + params.maxFutureTime)
    (hcoinbase : b.coinbase = .ok coinbase) (hclaims : coinbaseHeight coinbase = .ok height) :
    checkContext params s now b parent height = .ok () := by
  refine bind_eq_ok.mpr ⟨_, hbits, raiseIf_bind_eq_ok.mpr ⟨not_not.mpr rfl,
    raiseIf_bind_eq_ok.mpr ⟨Nat.not_le.mpr hmedian, raiseIf_bind_eq_ok.mpr ⟨Nat.not_lt.mpr hclock,
      bind_eq_ok.mpr ⟨height,
        rescue_eq_ok.mpr (.inl (bind_eq_ok.mpr ⟨coinbase, hcoinbase, hclaims⟩)),
        raiseIf_eq_ok.mpr (not_not.mpr rfl)⟩⟩⟩⟩⟩

/-! ## Templates -/

variable [ScanOrder Hash] {params : ChainParams} {c : Blockchain} {mempool : Option Mempool}
    {now : Nat}

/-- What a template says of the tip and of the pool. -/
structure BlockTemplate.FilledFrom (params : ChainParams) (c : Blockchain)
    (mempool : Option Mempool) (t : BlockTemplate) : Prop where
  height : t.height = c.tip.height + 1
  parent : t.prevHash = c.tip.hash
  minTime : t.minTime = medianTimePast params c.storage c.tip
  later : t.minTime + 1 ≤ t.currentTime
  bits : nextBitsAfter params c.storage c.tip t.currentTime = .ok t.bits
  filled : ∃ fees, collectFor params mempool t.height = .ok (t.transactions, fees) ∧
    t.coinbaseValue = params.subsidy t.height + fees

omit [Crypto] in
theorem createBlockTemplate_ok {t : BlockTemplate}
    (h : createBlockTemplate params c mempool now = .ok t) : t.FilledFrom params c mempool := by
  obtain ⟨bits, hbits, h₁⟩ := bind_eq_ok.mp h
  obtain ⟨⟨transactions, fees⟩, hcollect, h₂⟩ := bind_eq_ok.mp h₁
  obtain rfl := pure_eq_ok.mp h₂
  exact ⟨rfl, rfl, rfl, Nat.le_max_right _ _, hbits, fees, hcollect, rfl⟩

omit [ScanOrder Hash] in
/-- A block of a template starts with a coinbase for the reward, and its time is after the
median. -/
theorem BlockTemplate.buildBlock_ok {t : BlockTemplate} {pubkeyHash : PubkeyHash} {extra : Bytes}
    {timestamp : Option Nat} {nonce : Nat} {b : Block}
    (h : t.buildBlock pubkeyHash extra timestamp nonce = .ok b) :
    ∃ coinbase, coinbase.BuiltFor t.height t.coinbaseValue ∧
      b.Assembled t.prevHash (coinbase :: t.transactions) t.bits
        (max (timestamp.getD t.currentTime) (t.minTime + 1)) ∧ b.auxpow = none := by
  obtain ⟨coinbase, hcoinbase, h₁⟩ := bind_eq_ok.mp h
  exact ⟨coinbase, buildCoinbase_ok hcoinbase, Block.assemble_ok h₁⟩

/-- A candidate is a template that has been filled in: its block can be built again, and has the
hash that the candidate advertises. -/
theorem createAuxBlock_template {pubkeyHash : PubkeyHash} {commitmentNonce : UInt32}
    {a : AuxBlockCandidate}
    (h : createAuxBlock params c mempool pubkeyHash now commitmentNonce = .ok a) :
    ∃ t b, createBlockTemplate params c mempool now = .ok t ∧
      t.buildBlock pubkeyHash AUXPOW_EXTRA none 0 = .ok b ∧ a.buildBlock = .ok b ∧
      b.hash = a.auxBlockHash ∧ a.coinbaseValue = t.coinbaseValue ∧
      a.chainId = params.auxpowChainId ∧ bitsToTarget b.header.bits.toNat = .ok a.target := by
  obtain ⟨-, h₁⟩ := raiseIf_bind_eq_ok.mp h
  obtain ⟨bits, hbits, h₂⟩ := bind_eq_ok.mp h₁
  obtain ⟨⟨transactions, fees⟩, hcollect, h₃⟩ := bind_eq_ok.mp h₂
  obtain ⟨coinbase, hcoinbase, h₄⟩ := bind_eq_ok.mp h₃
  obtain ⟨b, hb, h₅⟩ := bind_eq_ok.mp h₄
  obtain ⟨target, htarget, h₆⟩ := bind_eq_ok.mp h₅
  obtain rfl := pure_eq_ok.mp h₆
  refine ⟨_, b, bind_eq_ok.mpr ⟨bits, hbits, bind_eq_ok.mpr ⟨_, hcollect, rfl⟩⟩,
    bind_eq_ok.mpr ⟨coinbase, hcoinbase, ?_⟩, bind_eq_ok.mpr ⟨coinbase, hcoinbase, hb⟩, rfl, rfl,
    rfl, ?_⟩
  · -- the time is after the median already
    dsimp only [Option.getD_none]
    rw [Nat.max_eq_left (Nat.le_max_right _ _)]
    exact hb
  · rw [(Block.assemble_ok hb).1.bits]
    exact htarget

end ScarletCoin
