import ScarletCoin.Core.Chain

/-!
# A model to run

Everything above the digests holds for any hash function, any signature scheme and any scan order.
This module gives one of each that the kernel can compute with, so that the model runs on concrete
blocks: `Sample.crypto` hashes with a polynomial modulo a prime below the proof-of-work limits of
the networks, and `Sample.order` scans tables by increasing key. With them, `Sample.block` puts
transactions under a header that commits to them, and `Sample.chainAfter` is the regtest chain that
calls lead to.
-/

set_option autoImplicit false

namespace ScarletCoin.Sample

open Toolkit

/-! ## Parameters of the model -/

/-- A prime below `2 ^ 221`. -/
def modulus : Nat := 2 ^ 221 - 3

/-- The polynomial with the bytes as coefficients, modulo the prime. -/
def digest (data : Bytes) : Nat := data.foldl (fun acc b => (acc * 257 + b.toNat + 1) % modulus) 1

/-- A hash function whose digests meet every target of the networks, and a signature scheme whose
signatures repeat the digest. -/
@[reducible] def crypto : Crypto where
  sha256 data := ⟨leBytes 32 (digest data), leBytes_length 32 _⟩
  onCurve _ := true
  ecdsaVerify _ r _ d := r == leNat d % HALF_ORDER

/-- Digests in the order of the numbers they spell. -/
def hashLe (a b : Hash) : Bool := decide (leNat a.val ≤ leNat b.val)

/-- Tables keyed by digests are scanned by increasing key. -/
@[reducible] def order : ScanOrder Hash :=
  Table.sortedOrder hashLe
    (fun a b c hab hbc => by
      simp only [hashLe, decide_eq_true_eq] at *
      omega)
    (fun a b => by
      simp only [hashLe, decide_eq_true_eq]
      omega)
    (fun a b hab hba => by
      simp only [hashLe, decide_eq_true_eq] at hab hba
      have hval : leNat a.val = leNat b.val := Nat.le_antisymm hab hba
      have hbytes := congrArg (leBytes 32) hval
      have ha := leBytes_leNat a.val
      have hb := leBytes_leNat b.val
      rw [a.property] at ha
      rw [b.property] at hb
      rw [ha, hb] at hbytes
      exact Subtype.ext hbytes)

/-! ## Transactions and blocks -/

theorem noItems_fit : ([] : List Blob).length < 2 ^ 64 := by decide

theorem alone_fits (t : Transaction) : [t].length < 2 ^ 64 := by simp

theorem pair_fits (t u : Transaction) : [t, u].length < 2 ^ 64 := by simp

/-- A payload of equal bytes. -/
def payload (b : UInt8) : PubkeyHash := ⟨List.replicate 20 b, List.length_replicate⟩

/-- An output that pays a public key hash of ones. -/
def payTo (value : Nat) (h : value ≤ MAX_MONEY) : TxOutput :=
  ⟨OUTPUT_P2PKH, value, payload 1, .inl rfl, h⟩

/-- A coinbase for a block at `height`; `tag` tells coinbases of one height apart. -/
def coinbase (height : Nat) (tag : UInt8) (output : TxOutput) : Transaction where
  version := 1
  inputs := [⟨COINBASE_OUTPOINT, SEQUENCE_FINAL, [], noItems_fit⟩]
  outputs := [output]
  lockTime := 0
  coinbaseData := ⟨leBytes HEIGHT_PREFIX_SIZE height ++ [tag], by simp [HEIGHT_PREFIX_SIZE]⟩
  inputs_fit := by decide
  outputs_fit := by simp

/-- A transaction that moves the coin at an outpoint to an output. -/
def transfer (prevout : OutPoint) (witness : List Blob) (output : TxOutput)
    (h : witness.length < 2 ^ 64) : Transaction where
  version := 1
  inputs := [⟨prevout, SEQUENCE_FINAL, witness, h⟩]
  outputs := [output]
  lockTime := 0
  coinbaseData := ⟨[], by decide⟩
  inputs_fit := by simp
  outputs_fit := by simp

attribute [local instance] crypto order

/-- A block on top of `prev` that holds the transactions. -/
def block (prev : Hash) (bits timestamp : UInt32) (transactions : List Transaction)
    (h : transactions.length < 2 ^ 64) : Block where
  header :=
    { version := 1
      prevHash := prev
      merkleRoot := (merkleRoot (transactions.map Transaction.txid)).toOption.getD nullHash
      timestamp := timestamp
      bits := bits
      nonce := 0 }
  transactions := transactions
  auxpow := none
  transactions_fit := h

/-! ## A regtest chain -/

/-- An output of fifty coins. -/
def reward : TxOutput := payTo (50 * COIN) (by decide)

/-- The hash of the regtest genesis block. -/
def genesisHash : Hash :=
  match REGTEST.genesisBlock with
  | .ok genesis => genesis.hash
  | .error _ => nullHash

/-- A regtest block with a coinbase alone. -/
def regtestBlock (prev : Hash) (height : Nat) (tag : UInt8) : Block :=
  block prev 0x207FFFFF (UInt32.ofNat (1700000002 + 10 * height)) [coinbase height tag reward]
    (by simp)

/-- Submit a block, a thousand seconds after it could have been mined. -/
def submit (b : Block) : Call := .addBlock 100 (b.header.timestamp.toNat + 1000) b

/-- The regtest chain that calls lead to. -/
def chainAfter (ops : List Call) : Option Blockchain :=
  (Blockchain.create REGTEST).toOption.bind fun c => runCalls REGTEST c ops

theorem chainAfter_start {ops : List Call} {c : Blockchain} (h : chainAfter ops = some c) :
    ∃ start, Blockchain.create REGTEST = .ok start ∧ runCalls REGTEST start ops = some c := by
  obtain ⟨start, hstart, hrun⟩ := Option.bind_eq_some_iff.mp h
  exact ⟨start, toOption_eq_some.mp hstart, hrun⟩

theorem chainAfter_reachable {ops : List Call} {c : Blockchain} (h : chainAfter ops = some c) :
    Reachable REGTEST c := by
  obtain ⟨start, hcreate, hrun⟩ := chainAfter_start h
  exact (Reachable.create hcreate).of_runCalls hrun

/-- Two blocks on genesis, and three on a side branch that takes over with the third of them. -/
def overtaken : List Call :=
  let a₁ := regtestBlock genesisHash 1 0
  let a₂ := regtestBlock a₁.hash 2 0
  let b₁ := regtestBlock genesisHash 1 1
  let b₂ := regtestBlock b₁.hash 2 1
  let b₃ := regtestBlock b₂.hash 3 1
  [submit a₁, submit a₂, submit b₁, submit b₂, submit b₃]

end ScarletCoin.Sample

namespace ScarletCoin

open Toolkit

/-! ## Coins that a script opens -/

attribute [local instance] Sample.crypto Sample.order

/-- An output of an amount that the script `OP_1` opens. -/
def Sample.open (value : Nat) (h : value ≤ MAX_MONEY) : TxOutput :=
  ⟨OUTPUT_P2SH, value, hash160 [0x51], .inr rfl, h⟩

theorem Sample.opener_fits : ([0x51] : Bytes).length < 2 ^ 64 := by decide

theorem Sample.noData_fits : ([] : Bytes).length < 2 ^ 64 := by decide

theorem Sample.single_fits (output : TxOutput) : [output].length < 2 ^ 32 := by simp

/-- A replaceable transaction that spends such outputs into one. -/
def Sample.move (prevouts : List OutPoint) (output : TxOutput) (h : prevouts.length < 2 ^ 32) :
    Transaction where
  version := 1
  inputs := prevouts.map fun o => ⟨o, 0, [⟨[0x51], Sample.opener_fits⟩], by simp⟩
  outputs := [output]
  lockTime := 0
  coinbaseData := ⟨[], Sample.noData_fits⟩
  inputs_fit := by rwa [List.length_map]
  outputs_fit := Sample.single_fits output

theorem Sample.fifty_fits : 50 * COIN ≤ MAX_MONEY := by decide

theorem Sample.nearly_fits {n : Nat} (h : n ≤ 50) : n * COIN ≤ MAX_MONEY :=
  (Nat.mul_le_mul_right COIN h).trans Sample.fifty_fits

theorem Sample.one_fits (o : OutPoint) : [o].length < 2 ^ 32 := by simp

theorem Sample.two_fit (o o' : OutPoint) : [o, o'].length < 2 ^ 32 := by simp

theorem Sample.le_fifty : 49 ≤ 50 ∧ 48 ≤ 50 ∧ 47 ≤ 50 := by decide

/-- A coinbase whose output the script opens. -/
def Sample.purse : Transaction := Sample.coinbase 1 7 (Sample.open (50 * COIN) Sample.fifty_fits)

/-- A spend of the coin. -/
def Sample.cheap : Transaction :=
  Sample.move [⟨Sample.purse.txid, 0⟩] (Sample.open (49 * COIN)
    (Sample.nearly_fits Sample.le_fifty.1)) (Sample.one_fits _)

end ScarletCoin
