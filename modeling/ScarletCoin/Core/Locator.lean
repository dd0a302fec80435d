import ScarletCoin.Core.HeaderSync

/-!
# Locators

`locator` and `header_locator` of `core/chain.py`: how a node describes its chain to a peer. A
locator lists recent hashes and then exponentially sparser ones. A loop that follows parents is
given more rounds than a storage has nodes, and raises if they do not suffice.
-/

set_option autoImplicit false

namespace ScarletCoin

open Toolkit

/-- `params.genesis_hash`. -/
def ChainParams.genesisHash [Crypto] (p : ChainParams) : Except PyError Hash := do
  let genesis ← p.genesisBlock
  pure genesis.hash

/-- The end of both locators: the genesis hash, unless it is the last one already. -/
def endLocator (genesisHash : Hash) (hashes : List Hash) : List Hash :=
  if hashes.getLast? = some genesisHash then hashes else hashes ++ [genesisHash]

/-- The header of a block or of a stored header. -/
def Storage.headerOf (s : Storage) (blockHash : Hash) : Option BlockHeader :=
  match s.getEntry blockHash with
  | some entry => some entry.header
  | none => (s.headerEntry blockHash).map HeaderRow.header

/-- The loop of `locator`, from `height` down; every round goes down by at least one. -/
def locatorLoop [ScanOrder Hash] (s : Storage) : Nat → Int → Nat → List Hash → List Hash
  | 0, _, _, hashes => hashes
  | rounds + 1, height, step, hashes =>
      if height < 0 then hashes
      else
        let listed := hashes ++ ((s.getChainEntry height.toNat).map BlockIndexEntry.hash).toList
        let next := if 10 ≤ listed.length then step * 2 else step
        locatorLoop s rounds (height - next) next listed

/-- The loop of `header_locator`. -/
def headerLocatorLoop (s : Storage) :
    Nat → Option ChainNode → Nat → Nat → List Hash → Except PyError (List Hash)
  | _, none, _, _, hashes => .ok hashes
  | 0, some _, _, _, _ => .error .unending
  | rounds + 1, some node, step, distance, hashes =>
      let listed := if distance = 0 then hashes ++ [node.hash] else hashes
      let next := if distance = 0 ∧ 10 ≤ listed.length then step * 2 else step
      headerLocatorLoop s rounds (if node.prevHash ≠ nullHash then s.node node.prevHash else none)
        next (if next ≤ distance + 1 then 0 else distance + 1) listed

namespace Blockchain

variable [ScanOrder Hash] [Crypto]

/-- The block locator: hashes of the active chain. -/
def locator (params : ChainParams) (c : Blockchain) : Except PyError (List Hash) := do
  let genesisHash ← params.genesisHash
  pure (endLocator genesisHash (locatorLoop c.storage (c.height + 1) c.height 1 []))

/-- A locator of the best header chain. -/
def headerLocator (params : ChainParams) (c : Blockchain) : Except PyError (List Hash) :=
  match c.headerTip with
  | none => c.locator params
  | some tip =>
      if tip.height ≤ c.height then c.locator params
      else do
        let hashes ← headerLocatorLoop c.storage c.storage.nodeRounds (some tip) 1 0 []
        let genesisHash ← params.genesisHash
        pure (endLocator genesisHash hashes)

end Blockchain

end ScarletCoin
