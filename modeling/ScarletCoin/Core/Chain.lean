import ScarletCoin.Core.Connect
import ScarletCoin.Core.Difficulty
import ScarletCoin.Toolkit.Loop

/-!
# The blockchain

The state machine of `core/chain.py`: the state of a node's chain (`Blockchain`), the acceptance of
a block (`addBlock`) and of a header (`addHeader`), the activation of the best chain and pruning.

`addBlock` first admits a block: the checks that need the parent at most end in an answer, in an
exception, or with the block stored. Storing is followed by the activation loop, whose rounds are
`activateRound`. The loop may fail to end, so `addBlock` takes the number of rounds one waits for it
and says nothing when they do not suffice. The clock is read once per call.

`Reachable` are the states that calls lead to from a new chain.
-/

set_option autoImplicit false

namespace ScarletCoin

open Toolkit

/-- How many of the best entries a round of the activation looks at. -/
def MAX_CANDIDATES : Nat := 64

/-- How many invalid hashes are remembered. -/
def MAX_REMEMBERED_INVALID : Nat := 5000

/-- Fewest recent blocks a pruned node keeps. -/
def MIN_PRUNE_KEEP : Nat := 2880

/-- Outcome of submitting a block. -/
inductive BlockStatus where
  | connected
  | sideBranch
  | duplicate
  | orphan
  | premature
  | invalid
  deriving DecidableEq, Repr

/-- What happened to a submitted block. -/
structure AddBlockResult where
  status : BlockStatus
  blockHash : Hash
  height : Option Nat
  reason : String
  reorganised : Bool
  deriving DecidableEq

/-- The block was stored. -/
def AddBlockResult.accepted (r : AddBlockResult) : Bool :=
  r.status == .connected || r.status == .sideBranch

/-- The validated block tree and the active chain: the database, the tip in memory, the remembered
invalid hashes with their reasons (oldest first) and what the listeners were told. -/
structure Blockchain where
  storage : Storage
  tip : BlockIndexEntry
  invalid : List (Hash × String)
  notified : List Event

namespace Blockchain

/-! ## Queries -/

/-- The height of the tip. -/
def height (c : Blockchain) : Nat := c.tip.height

/-- The unspent coin at an outpoint. -/
def getCoin (c : Blockchain) (outpoint : OutPoint) : Option Coin := c.storage.getCoin outpoint

/-- Look up a confirmed transaction by its id. -/
def getTransaction [Crypto] (c : Blockchain) (txid : Hash) :
    Except PyError (Option (Transaction × TxLocation)) :=
  match c.storage.txLocation.lookup txid with
  | none => .ok none
  | some location => do
      let block ← c.storage.getBlock location.blockHash
      pure (block.bind fun b => (b.transactions[location.position]?).map fun t => (t, location))

/-! ## The remembered invalid hashes -/

/-- `block_hash in self._invalid`. -/
def isInvalid (c : Blockchain) (h : Hash) : Bool := c.invalid.any fun p => p.1 == h

/-- `self._invalid[block_hash]`. -/
def invalidReason (c : Blockchain) (h : Hash) : String := (c.invalid.lookup h).getD ""

/-- `self._invalid[block_hash] = reason`: a new key goes to the end. -/
def setInvalid (invalid : List (Hash × String)) (h : Hash) (reason : String) :
    List (Hash × String) :=
  if invalid.any fun p => p.1 == h then
    invalid.map fun p => if p.1 == h then (h, reason) else p
  else
    invalid ++ [(h, reason)]

/-- Remember a hash. -/
def remember (c : Blockchain) (h : Hash) (reason : String) : Blockchain :=
  { c with invalid := setInvalid c.invalid h reason }

/-- Pop the oldest entries until there is room for one more. -/
def evictOldest (invalid : List (Hash × String)) : List (Hash × String) :=
  invalid.drop (invalid.length + 1 - MAX_REMEMBERED_INVALID)

variable [ScanOrder Hash]

/-- The search of `_invalidate` over the descendants; the stack of pending hashes has its top first.
Every round takes a hash off the stack, and a stored block is put on it once, by its parent. -/
def invalidateFrom (s : Storage) :
    Nat → List (Hash × String) → List (Hash × String) → List (Hash × String)
  | 0, _, invalid => invalid
  | _ + 1, [], invalid => invalid
  | rounds + 1, (current, why) :: pending, invalid =>
      if invalid.any fun p => p.1 == current then
        invalidateFrom s rounds pending invalid
      else
        let children := (s.childrenOf current).map fun child =>
          (child.hash, s!"builds on an invalid block: {why}")
        invalidateFrom s rounds (children.reverse ++ pending) (setInvalid invalid current why)

/-- Mark a block and everything built on top of it as unusable. -/
def invalidate (c : Blockchain) (h : Hash) (reason : String) : Blockchain :=
  { c with
    invalid := invalidateFrom c.storage (c.storage.blockCount + 2) [(h, reason)]
      (evictOldest c.invalid) }

/-! ## Activation -/

/-- The first of the best entries that beats the tip and is not remembered as invalid. -/
def firstCandidate (c : Blockchain) : List BlockIndexEntry → Option BlockIndexEntry
  | [] => none
  | entry :: entries =>
      if entry.chainwork ≤ c.tip.chainwork then none
      else if c.isInvalid entry.hash then firstCandidate c entries
      else some entry

/-- The stored block with the most work, if it beats the current tip. -/
def bestCandidate (c : Blockchain) : Option BlockIndexEntry :=
  c.firstCandidate (c.storage.bestEntries MAX_CANDIDATES)

end Blockchain

/-- The state of the activation loop. -/
structure Activation where
  chain : Blockchain
  reorganised : Bool

variable [Crypto] [ScanOrder Hash]

/-- One round of `_activate_best_chain`. The answer is the chain with whether it was reorganised, or
with the exception that leaves the loop. -/
def activateRound (params : ChainParams) (a : Activation) :
    Round Activation (Blockchain × Except PyError Bool) :=
  match a.chain.bestCandidate with
  | none => .halt (a.chain, .ok a.reorganised)
  | some candidate =>
      match switchTo params a.chain.storage a.chain.isInvalid a.chain.tip candidate with
      | .ok (storage, tip, events) =>
          .next ⟨⟨storage, tip, a.chain.invalid, a.chain.notified ++ events⟩,
            a.reorganised || events.any fun e => e.kind == .disconnect⟩
      | .error (.connect h message) => .next { a with chain := a.chain.invalidate h message }
      | .error e => .halt (a.chain, .error e)

/-! ## Acceptance -/

/-- Whether merged mining is active at `height`. -/
def auxpowActiveAt (params : ChainParams) (height : Nat) : Bool :=
  if params.auxpowChainId = 0 then false
  else
    match params.auxpowActivationHeight with
    | none => false
    | some activation => decide (activation ≤ height)

/-- Validate a block against its parent: difficulty, time and height. -/
def checkContext (params : ChainParams) (s : Storage) (now : Nat) (block : Block)
    (parent : BlockIndexEntry) (height : Nat) : Except PyError Unit := do
  let expected ← nextBitsAfter params s parent block.header.timestamp.toNat
  raiseIf (block.header.bits.toNat ≠ expected)
    (.validation (s!"wrong difficulty: header says {hexBits block.header.bits.toNat}," ++
      s!" the chain requires {hexBits expected}"))
  let median := medianTimePast params s parent
  raiseIf (block.header.timestamp.toNat ≤ median)
    (.validation (s!"timestamp {block.header.timestamp} is not newer than the median" ++
      s!" of the last {params.medianTimeBlocks} blocks ({median})"))
  raiseIf (now + params.maxFutureTime < block.header.timestamp.toNat)
    (.prematureBlock (s!"timestamp {block.header.timestamp} is more than" ++
      s!" {params.maxFutureTime / 3600}h ahead of this machine's clock" ++
      s!" (now {now}); check the clock on this machine"))
  let claimed ← rescue (do let coinbase ← block.coinbase; coinbaseHeight coinbase) fun e =>
    match e with
    | .transaction m => some (.error (.validation m))
    | .block m => some (.error (.validation m))
    | _ => none
  raiseIf (claimed ≠ height)
    (.validation s!"coinbase claims height {claimed} but the block is at height {height}")

/-- Validate the merged-mining proof of a block. -/
def validateBlockAuxpow (params : ChainParams) (block : Block) (auxpow : AuxPoW) :
    Except PyError Unit := do
  let auxTarget ← bitsToTarget block.header.bits.toNat
  rescue (validateAuxpow auxpow block.hash.val auxTarget params.auxpowChainId) fun e =>
    match e with
    | .auxPoW m => some (.error (.validation s!"AuxPoW invalid: {m}"))
    | _ => none

/-- What the part of `add_block` before the activation does: answer, or store the block. -/
inductive Admission where
  | answered (chain : Blockchain) (result : AddBlockResult)
  | stored (chain : Blockchain) (height : Nat)

namespace Blockchain

/-- Answer `INVALID` and remember the hash. -/
def reject (c : Blockchain) (h : Hash) (height : Option Nat) (reason : String) : Admission :=
  .answered (c.remember h reason) ⟨.invalid, h, height, reason, false⟩

/-- The merged-mining proof is checked when there is one. -/
def checkAuxpow (params : ChainParams) (block : Block) : Except PyError Unit :=
  match block.auxpow with
  | none => .ok ()
  | some auxpow => validateBlockAuxpow params block auxpow.val

/-- The part of `add_block` after the context check: the proof, then storing. -/
def storeBlock (params : ChainParams) (c : Blockchain) (block : Block) (parent : BlockIndexEntry)
    (height : Nat) : Except PyError Admission :=
  match checkAuxpow params block with
  | .error e =>
      if e.isValidationError then .ok (c.reject block.hash (some height) e.message) else .error e
  | .ok () => do
      let work ← blockWork block.header.bits.toNat
      let (storage, _) ← c.storage.putBlock block height (parent.chainwork + work) false
      pure (.stored { c with storage := storage } height)

/-- The part of `add_block` after the sanity check: the parent, the checkpoint and the context. -/
def judgeBlock (params : ChainParams) (now : Nat) (c : Blockchain) (block : Block)
    (parent : BlockIndexEntry) (height : Nat) : Except PyError Admission :=
  if c.isInvalid parent.hash then
    .ok (c.reject block.hash none "the parent block is invalid")
  else if (params.checkpoints.lookup height).any (· ≠ block.hashHex) then
    .ok (c.reject block.hash (some height)
      s!"block does not match the checkpoint at height {height}")
  else
    match checkContext params c.storage now block parent height with
    | .error (.prematureBlock m) =>
        .ok (.answered c ⟨.premature, block.hash, some height, m, false⟩)
    | .error e =>
        if e.isValidationError then .ok (c.reject block.hash (some height) e.message) else .error e
    | .ok () => storeBlock params c block parent height

/-- `add_block` up to the activation of the best chain. -/
def admitBlock (params : ChainParams) (now : Nat) (c : Blockchain) (block : Block) :
    Except PyError Admission :=
  if c.isInvalid block.hash then
    .ok (.answered c ⟨.invalid, block.hash, none, c.invalidReason block.hash, false⟩)
  else if c.storage.hasBlock block.hash then
    .ok (.answered c ⟨.duplicate, block.hash,
      (c.storage.getEntry block.hash).map BlockIndexEntry.height, "", false⟩)
  else
    match c.storage.getEntry block.header.prevHash with
    | none => .ok (.answered c ⟨.orphan, block.hash, none, "parent block is unknown", false⟩)
    | some parent =>
        let height := parent.height + 1
        let auxpowActive := auxpowActiveAt params height
        if block.hasAuxpow = true ∧ auxpowActive = false then
          .ok (c.reject block.hash (some height) s!"AuxPoW is not active at height {height}")
        else
          match block.checkSanity params.powLimit params.maxBlockSize params.minOutputValue
              auxpowActive with
          | .error (.block m) => .ok (c.reject block.hash none m)
          | .error (.transaction m) => .ok (c.reject block.hash none m)
          | .error e => .error e
          | .ok () => judgeBlock params now c block parent height

/-- The answer of `add_block` after the activation. -/
def answer (c : Blockchain) (h : Hash) (height : Nat) (reorganised : Bool) : AddBlockResult :=
  if c.isInvalid h then
    ⟨.invalid, h, some height, c.invalidReason h, false⟩
  else
    ⟨if (c.storage.getEntry h).any BlockIndexEntry.inChain then .connected else .sideBranch,
      h, some height, "", reorganised⟩

/-- Validate and store a block, activating the best chain afterwards. The outcome is the chain and
the answer, or the exception that escaped; there is none if the activation needs more than `rounds`
rounds. -/
def addBlock (params : ChainParams) (rounds now : Nat) (c : Blockchain) (block : Block) :
    Option (Blockchain × Except PyError AddBlockResult) :=
  match c.admitBlock params now block with
  | .error e => some (c, .error e)
  | .ok (.answered c' result) => some (c', .ok result)
  | .ok (.stored c' height) =>
      (loop (activateRound params) rounds ⟨c', false⟩).map fun outcome =>
        (outcome.1, outcome.2.map fun reorganised =>
          outcome.1.answer block.hash height reorganised)

/-- Validate and store a block header. The answer is an error text or `None`. -/
def addHeader (params : ChainParams) (c : Blockchain) (header : BlockHeader) :
    Except PyError (Blockchain × Option String) :=
  if c.storage.hasBlock header.hash || c.storage.hasHeader header.hash then
    .ok (c, none)
  else
    let parent := c.storage.node header.prevHash
    let auxpowActive := (parent.map fun p => auxpowActiveAt params (p.height + 1)).getD false
    if auxpowActive = false ∧ header.checkProofOfWork params.powLimit = false then
      .ok (c, some "header proof of work is invalid")
    else
      match parent with
      | none => .ok (c, none)
      | some parent => do
          let height := parent.height + 1
          let expected ← nextBitsForNode params c.storage parent height header.timestamp.toNat
          if header.bits.toNat ≠ expected then
            pure (c, some (s!"wrong difficulty: header says {hexBits header.bits.toNat}," ++
              s!" expected {hexBits expected}"))
          else do
            let work ← blockWork header.bits.toNat
            let storage ← c.storage.putHeader header height (parent.chainwork + work)
            pure ({ c with storage := storage }, none)

/-! ## Pruning -/

/-- Fewest recent blocks this network allows a pruned node to keep. -/
def minPruneKeep (params : ChainParams) : Nat :=
  if params.name = .regtest then max 2 params.coinbaseMaturity else MIN_PRUNE_KEEP

/-- Throw away the bodies of all but the last `keepBlocks` blocks. -/
def prune (params : ChainParams) (c : Blockchain) (keepBlocks : Int) : Blockchain × PruneResult :=
  let keep : Int := max (minPruneKeep params : Int) keepBlocks
  let horizon : Int := (c.tip.height : Int) - keep
  if horizon < 1 then
    (c, ⟨0, 0, 0, c.storage.pruneHeight⟩)
  else
    let (storage, result) := c.storage.pruneTo horizon.toNat
    ({ c with storage := storage }, result)

/-! ## A new chain -/

/-- The chain of an empty database: the genesis block is checked, stored and applied. -/
def create (params : ChainParams) : Except PyError Blockchain := do
  let genesis ← params.genesisBlock
  genesis.checkSanity params.powLimit params.maxBlockSize 0 false
  let work ← blockWork genesis.header.bits.toNat
  let (storage, entry) ← Storage.empty.putBlock genesis 0 work true
  let storage := applyBlockState storage genesis 0 ∅
  let storage ← storage.putUndo genesis.hash []
  pure ⟨storage.setTip genesis.hash, entry, [], []⟩

end Blockchain

/-! ## Reachable states -/

/-- A call on a chain. -/
inductive Call where
  | addBlock (rounds now : Nat) (block : Block)
  | addHeader (header : BlockHeader)
  | prune (keepBlocks : Int)

/-- The chain after a call that returns or raises; there is none if the call does not come back. -/
def Call.run (params : ChainParams) (c : Blockchain) : Call → Option Blockchain
  | .addBlock rounds now block => (c.addBlock params rounds now block).map Prod.fst
  | .addHeader header =>
      match c.addHeader params header with
      | .ok (c', _) => some c'
      | .error _ => some c
  | .prune keepBlocks => some (c.prune params keepBlocks).1

/-- The chain after calls that all come back. -/
def runCalls (params : ChainParams) : Blockchain → List Call → Option Blockchain
  | c, [] => some c
  | c, op :: ops => (op.run params c).bind fun c' => runCalls params c' ops

/-- The states that calls lead to from a new chain. -/
inductive Reachable (params : ChainParams) : Blockchain → Prop where
  | create {c : Blockchain} : Blockchain.create params = .ok c → Reachable params c
  | call {c c' : Blockchain} (op : Call) :
      Reachable params c → op.run params c = some c' → Reachable params c'

theorem Reachable.of_runCalls {params : ChainParams} {c c' : Blockchain} {ops : List Call}
    (h : Reachable params c) (hops : runCalls params c ops = some c') :
    Reachable params c' := by
  induction ops generalizing c with
  | nil =>
    obtain rfl := Option.some.inj hops
    exact h
  | cons op ops ih =>
    obtain ⟨c₁, hop, hrest⟩ := Option.bind_eq_some_iff.mp hops
    exact ih (.call op h hop) hrest

end ScarletCoin
