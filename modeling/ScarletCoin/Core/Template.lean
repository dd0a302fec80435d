import ScarletCoin.Core.Mempool

/-!
# Block templates

The templates of `core/template.py`: what a miner needs to build the next block
(`createBlockTemplate`, `BlockTemplate.buildBlock`), and the frozen candidates of merged mining
(`createAuxBlock`, `AuxBlockCandidate.buildBlock`), which commit to one block before its proof
exists.

The clock is read once per call and is an argument, as are the random bytes of a candidate.
-/

set_option autoImplicit false

namespace ScarletCoin

open Toolkit

/-- Bytes reserved in every block for the coinbase transaction. -/
def COINBASE_RESERVE : Nat := 1000

/-- The extra nonce of the coinbases of candidates: the text `auxpow`. -/
def AUXPOW_EXTRA : Bytes := [0x61, 0x75, 0x78, 0x70, 0x6F, 0x77]

/-! ## Headers and blocks from numbers -/

/-- A number of a header must fit 32 bits. -/
def headerField (name : String) (value : Nat) : Except PyError UInt32 :=
  if 0xFFFFFFFF < value then
    .error (.block s!"header field {name} must be a uint32, got {value}")
  else .ok (UInt32.ofNat value)

/-- The constructor of headers. -/
def BlockHeader.make (version : Nat) (prevHash merkleRoot : Hash) (timestamp bits nonce : Nat) :
    Except PyError BlockHeader := do
  let version ← headerField "version" version
  let timestamp ← headerField "timestamp" timestamp
  let bits ← headerField "bits" bits
  let nonce ← headerField "nonce" nonce
  pure ⟨version, prevHash, merkleRoot, timestamp, bits, nonce⟩

variable [Crypto]

/-- Assemble a block from the numbers of its header. No process holds `2 ^ 64` transactions. -/
def Block.assemble (prevHash : Hash) (transactions : List Transaction)
    (bits timestamp version nonce : Nat) : Except PyError Block := do
  raiseIf (transactions = []) (.block "a block must contain at least the coinbase transaction")
  let root ← merkleRoot (transactions.map Transaction.txid)
  let header ← BlockHeader.make version prevHash root timestamp bits nonce
  if h : transactions.length < 2 ^ 64 then .ok ⟨header, transactions, none, h⟩
  else .error (.memory "")

/-- A copy of the block carrying a proof. -/
def Block.withAuxpow (b : Block) (proof : AuxPoW.Wire) : Block := { b with auxpow := some proof }

/-! ## Templates -/

/-- Instructions for building the next block. -/
structure BlockTemplate where
  height : Nat
  prevHash : Hash
  bits : Nat
  minTime : Nat
  currentTime : Nat
  coinbaseValue : Nat
  transactions : List Transaction
  version : Nat := 1

/-- Assemble a block paying the reward to `pubkeyHash`. -/
def BlockTemplate.buildBlock (t : BlockTemplate) (pubkeyHash : PubkeyHash) (extra : Bytes)
    (timestamp : Option Nat) (nonce : Nat) : Except PyError Block := do
  let coinbase ← buildCoinbase t.height t.coinbaseValue pubkeyHash extra 0
  let chosen := timestamp.getD t.currentTime
  Block.assemble t.prevHash (coinbase :: t.transactions) t.bits (max chosen (t.minTime + 1))
    t.version nonce

variable [ScanOrder Hash]

/-- What a pool offers for a block at `height`, with the fees; nothing without a pool. -/
def collectFor (params : ChainParams) (mempool : Option Mempool) (height : Nat) :
    Except PyError (List Transaction × Nat) :=
  match mempool with
  | none => .ok ([], 0)
  | some p =>
      match p.collect ((params.maxBlockSize : Int) - (COINBASE_RESERVE : Int)) height with
      | none => .error .unending
      | some collected => .ok collected

/-- Build a template for the block that would extend the tip. -/
def createBlockTemplate (params : ChainParams) (c : Blockchain) (mempool : Option Mempool)
    (now : Nat) : Except PyError BlockTemplate := do
  let height := c.tip.height + 1
  let minTime := medianTimePast params c.storage c.tip
  let currentTime := max now (minTime + 1)
  let bits ← nextBitsAfter params c.storage c.tip currentTime
  let (transactions, fees) ← collectFor params mempool height
  pure { height := height, prevHash := c.tip.hash, bits := bits, minTime := minTime
         currentTime := currentTime, coinbaseValue := params.subsidy height + fees
         transactions := transactions }

/-! ## Candidates of merged mining -/

/-- A frozen template: the block it stands for is fixed down to its hash. -/
structure AuxBlockCandidate where
  height : Nat
  prevHash : Hash
  bits : Nat
  coinbaseValue : Nat
  coinbaseHash : Hash
  auxBlockHash : Hash
  chainId : Nat
  target : Nat
  commitmentNonce : UInt32
  timestamp : Nat
  pubkeyHash : PubkeyHash
  transactions : List Transaction

omit [ScanOrder Hash] in
/-- The block of a candidate, without its proof. -/
def AuxBlockCandidate.buildBlock (a : AuxBlockCandidate) : Except PyError Block := do
  let coinbase ← buildCoinbase a.height a.coinbaseValue a.pubkeyHash AUXPOW_EXTRA 0
  Block.assemble a.prevHash (coinbase :: a.transactions) a.bits a.timestamp 1 0

/-- Create a frozen candidate on the tip. It is filled as a template is. -/
def createAuxBlock (params : ChainParams) (c : Blockchain) (mempool : Option Mempool)
    (pubkeyHash : PubkeyHash) (now : Nat) (commitmentNonce : UInt32) :
    Except PyError AuxBlockCandidate := do
  raiseIf (params.auxpowChainId = 0)
    (.value s!"AuxPoW is not configured for network {params.name.text}")
  let height := c.tip.height + 1
  let minTime := medianTimePast params c.storage c.tip
  let currentTime := max now (minTime + 1)
  let bits ← nextBitsAfter params c.storage c.tip currentTime
  let (transactions, fees) ← collectFor params mempool height
  let coinbase ← buildCoinbase height (params.subsidy height + fees) pubkeyHash AUXPOW_EXTRA 0
  let block ← Block.assemble c.tip.hash (coinbase :: transactions) bits currentTime 1 0
  let target ← bitsToTarget bits
  pure
    { height := height
      prevHash := c.tip.hash
      bits := bits
      coinbaseValue := params.subsidy height + fees
      coinbaseHash := coinbase.txid
      auxBlockHash := block.hash
      chainId := params.auxpowChainId
      target := target
      commitmentNonce := commitmentNonce
      timestamp := currentTime
      pubkeyHash := pubkeyHash
      transactions := transactions }

end ScarletCoin
