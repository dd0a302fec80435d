import ScarletCoin.Core.Block

/-!
# Coinbases and network parameters

The height commitment of `core/coinbase.py` and the parameters of `core/params.py` with their
derived values: the proof-of-work limit, the subsidy schedule and the genesis block. The parameters
of a network are a structure whose fields carry the positivity that its divisions rely on, so
parameters with an empty retargeting period or a zero halving interval cannot be built.
-/

set_option autoImplicit false

namespace ScarletCoin

open Toolkit

/-! ## Coinbases -/

/-- Length of the height at the start of the data field of a coinbase. -/
def HEIGHT_PREFIX_SIZE : Nat := 4

/-- The data field of a coinbase: the height, then free space. -/
def encodeCoinbaseData (height : Nat) (extra : Bytes) : Except PyError Blob :=
  if 0xFFFFFFFF < height then
    .error (.transaction s!"block height out of range: {height}")
  else
    let data := leBytes HEIGHT_PREFIX_SIZE height ++ extra
    if h : data.length ≤ MAX_COINBASE_DATA then
      .ok ⟨data, Nat.lt_of_le_of_lt h (by decide)⟩
    else
      .error (.transaction
        s!"coinbase data is {data.length} bytes, the limit is {MAX_COINBASE_DATA}")

/-- The height a coinbase commits to. -/
def coinbaseHeight (t : Transaction) : Except PyError Nat := do
  raiseIf (t.isCoinbase = false) (.transaction "transaction is not a coinbase")
  raiseIf (t.coinbaseData.val.length < HEIGHT_PREFIX_SIZE)
    (.transaction "coinbase data does not start with a block height")
  pure (leNat (t.coinbaseData.val.take HEIGHT_PREFIX_SIZE))

/-- Build a coinbase paying `reward` to `pubkeyHash`. -/
def buildCoinbase (height reward : Nat) (pubkeyHash : PubkeyHash) (extra : Bytes)
    (lockTime : UInt32) : Except PyError Transaction := do
  let output ← TxOutput.make OUTPUT_P2PKH reward pubkeyHash
  let data ← encodeCoinbaseData height extra
  pure ⟨1, [⟨COINBASE_OUTPOINT, SEQUENCE_FINAL, [], by decide⟩], [output], lockTime, data,
    Nat.one_lt_two_pow (by decide), Nat.one_lt_two_pow (by decide)⟩

/-- A height that a coinbase commits to fits 32 bits. -/
theorem coinbaseHeight_lt {t : Transaction} {height : Nat} (h : coinbaseHeight t = .ok height) :
    height < 2 ^ 32 := by
  unfold coinbaseHeight at h
  obtain ⟨-, h₁⟩ := raiseIf_bind_eq_ok.mp h
  obtain ⟨-, h₂⟩ := raiseIf_bind_eq_ok.mp h₁
  rw [← pure_eq_ok.mp h₂]
  have hlt := leNat_lt (t.coinbaseData.val.take HEIGHT_PREFIX_SIZE)
  have hlen : (t.coinbaseData.val.take HEIGHT_PREFIX_SIZE).length ≤ 4 := List.length_take_le _ _
  exact Nat.lt_of_lt_of_le hlt (Nat.pow_le_pow_right (by decide) hlen)

/-- Coinbases with the same data field commit to the same height. -/
theorem coinbaseHeight_congr {t t' : Transaction} {height height' : Nat}
    (hdata : t.coinbaseData = t'.coinbaseData) (h : coinbaseHeight t = .ok height)
    (h' : coinbaseHeight t' = .ok height') : height = height' := by
  unfold coinbaseHeight at h h'
  obtain ⟨-, h₁⟩ := raiseIf_bind_eq_ok.mp h
  obtain ⟨-, h₂⟩ := raiseIf_bind_eq_ok.mp h₁
  obtain ⟨-, h₁'⟩ := raiseIf_bind_eq_ok.mp h'
  obtain ⟨-, h₂'⟩ := raiseIf_bind_eq_ok.mp h₁'
  rw [← pure_eq_ok.mp h₂, ← pure_eq_ok.mp h₂', hdata]

theorem coinbaseHeight_isCoinbase {t : Transaction} {height : Nat}
    (h : coinbaseHeight t = .ok height) : t.isCoinbase = true := by
  obtain ⟨hcb, -⟩ := raiseIf_bind_eq_ok.mp h
  exact Bool.not_eq_false _ ▸ hcb

/-! ## Parameters -/

/-- Smallest units in one ScarletCoin. -/
def COIN : Nat := 100000000

/-- The name of a network. -/
inductive Network where
  | mainnet
  | testnet
  | regtest
  deriving DecidableEq, Repr

/-- The name of a network as text. -/
def Network.text : Network → String
  | .mainnet => "mainnet"
  | .testnet => "testnet"
  | .regtest => "regtest"

/-- Consensus constants of a network. -/
structure ChainParams where
  name : Network
  targetSpacing : Nat
  retargetInterval : Nat
  powLimitBits : Nat
  maxAdjustmentFactor : Nat := 4
  perBlockRetarget : Bool := false
  retargetForkHeight : Nat := 0
  retargetMeasureForkHeight : Nat := 0
  initialSubsidy : Nat := 50 * COIN
  halvingInterval : Nat := 210000
  coinbaseMaturity : Nat := 100
  maxBlockSize : Nat := 1000000
  maxFutureTime : Nat := 2 * 60 * 60
  medianTimeBlocks : Nat := 11
  minRelayFeePerKb : Nat := 1000
  minOutputValue : Nat := 1
  auxpowChainId : Nat := 0
  auxpowActivationHeight : Option Nat := none
  checkpoints : List (Nat × String) := []
  genesisTimestamp : UInt32
  genesisBits : UInt32
  genesisNonce : UInt32
  genesisMessage : Bytes
  targetSpacing_pos : 0 < targetSpacing := by decide
  retargetInterval_pos : 0 < retargetInterval := by decide
  maxAdjustmentFactor_pos : 0 < maxAdjustmentFactor := by decide
  halvingInterval_pos : 0 < halvingInterval := by decide
  medianTimeBlocks_pos : 0 < medianTimeBlocks := by decide
  powLimitBits_decodes : (bitsToTarget powLimitBits).isOk = true := by decide

namespace ChainParams

/-- The easiest allowed target. -/
def powLimit (p : ChainParams) : Nat :=
  match bitsToTarget p.powLimitBits with
  | .ok target => target
  | .error _ => 0

/-- Expected duration of one retargeting period, in seconds. -/
def targetTimespan (p : ChainParams) : Nat := p.targetSpacing * p.retargetInterval

/-- The block subsidy at `height`. -/
def subsidy (p : ChainParams) (height : Nat) : Nat :=
  let halvings := height / p.halvingInterval
  if 64 ≤ halvings then 0 else p.initialSubsidy >>> halvings

theorem bitsToTarget_powLimitBits (p : ChainParams) :
    bitsToTarget p.powLimitBits = .ok p.powLimit := by
  have hok := p.powLimitBits_decodes
  unfold powLimit
  cases h : bitsToTarget p.powLimitBits with
  | ok target => rfl
  | error e =>
    rw [h] at hok
    cases hok

theorem powLimit_lt (p : ChainParams) : p.powLimit < 2 ^ 255 :=
  bitsToTarget_lt p.bitsToTarget_powLimitBits

theorem targetTimespan_ne_zero (p : ChainParams) : p.targetTimespan ≠ 0 :=
  (Nat.mul_pos p.targetSpacing_pos p.retargetInterval_pos).ne'

end ChainParams

/-- Text of the genesis coinbase of every network: `ScarletCoin: a small chain, honestly built`. -/
def GENESIS_MESSAGE : Bytes :=
  [0x53, 0x63, 0x61, 0x72, 0x6C, 0x65, 0x74, 0x43, 0x6F, 0x69, 0x6E, 0x3A, 0x20, 0x61, 0x20,
   0x73, 0x6D, 0x61, 0x6C, 0x6C, 0x20, 0x63, 0x68, 0x61, 0x69, 0x6E, 0x2C, 0x20, 0x68, 0x6F,
   0x6E, 0x65, 0x73, 0x74, 0x6C, 0x79, 0x20, 0x62, 0x75, 0x69, 0x6C, 0x74]

/-- The real chain. -/
def MAINNET : ChainParams where
  name := .mainnet
  targetSpacing := 60
  retargetInterval := 60
  powLimitBits := 0x1E0FFFFF
  perBlockRetarget := true
  retargetForkHeight := 10496
  retargetMeasureForkHeight := 10563
  genesisTimestamp := 1700000000
  genesisBits := 0x1E0FFFFF
  genesisNonce := 816317
  genesisMessage := GENESIS_MESSAGE
  auxpowChainId := 1
  auxpowActivationHeight := some 47000

/-- Same rules, separate genesis; the message ends in ` (testnet)`. -/
def TESTNET : ChainParams where
  name := .testnet
  targetSpacing := 60
  retargetInterval := 60
  powLimitBits := 0x1E0FFFFF
  perBlockRetarget := true
  coinbaseMaturity := 20
  genesisTimestamp := 1700000001
  genesisBits := 0x1E0FFFFF
  genesisNonce := 154650
  genesisMessage := GENESIS_MESSAGE ++
    [0x20, 0x28, 0x74, 0x65, 0x73, 0x74, 0x6E, 0x65, 0x74, 0x29]
  auxpowChainId := 2

/-- A local network with an easy proof of work; the message ends in ` (regtest)`. -/
def REGTEST : ChainParams where
  name := .regtest
  targetSpacing := 10
  retargetInterval := 20
  powLimitBits := 0x207FFFFF
  coinbaseMaturity := 2
  genesisTimestamp := 1700000002
  genesisBits := 0x207FFFFF
  genesisNonce := 5
  genesisMessage := GENESIS_MESSAGE ++
    [0x20, 0x28, 0x72, 0x65, 0x67, 0x74, 0x65, 0x73, 0x74, 0x29]
  auxpowChainId := 3
  auxpowActivationHeight := some 0

/-- Every known network. -/
def NETWORKS : List ChainParams := [MAINNET, TESTNET, REGTEST]

/-! ## The genesis block -/

/-- Genesis outputs pay this hash: nobody owns the genesis coins. -/
def UNSPENDABLE_HASH : PubkeyHash := ⟨List.replicate 20 0, List.length_replicate⟩

variable [Crypto]

/-- The coinbase of the genesis block. -/
def ChainParams.genesisCoinbase (p : ChainParams) : Except PyError Transaction :=
  buildCoinbase 0 (p.subsidy 0) UNSPENDABLE_HASH p.genesisMessage 0

/-- The hard-coded first block of the chain. -/
def ChainParams.genesisBlock (p : ChainParams) : Except PyError Block := do
  let coinbase ← p.genesisCoinbase
  Block.create nullHash [coinbase] p.genesisBits p.genesisTimestamp 1 p.genesisNonce none
    (Nat.one_lt_two_pow (by decide))

/-- The genesis block holds one coinbase and has no parent. -/
theorem ChainParams.genesisBlock_eq_ok {p : ChainParams} {g : Block}
    (h : p.genesisBlock = .ok g) :
    ∃ coinbase, p.genesisCoinbase = .ok coinbase ∧ g.transactions = [coinbase] ∧
      g.header.prevHash = nullHash ∧ g.header.bits = p.genesisBits ∧
      g.header.timestamp = p.genesisTimestamp := by
  obtain ⟨coinbase, hcb, h₁⟩ := bind_eq_ok.mp h
  obtain ⟨-, h₂⟩ := raiseIf_bind_eq_ok.mp h₁
  obtain ⟨root, -, h₃⟩ := bind_eq_ok.mp h₂
  obtain rfl := pure_eq_ok.mp h₃
  exact ⟨coinbase, hcb, rfl, rfl, rfl, rfl⟩

end ScarletCoin
