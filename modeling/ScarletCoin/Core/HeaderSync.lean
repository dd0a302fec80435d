import ScarletCoin.Core.Chain

/-!
# The header frontier

`header_tip` and `headers_to_download` of `core/chain.py`, with the query for the best header. The
header chain and the block chain are the same chain: the frontier is the heavier of the best header
and the tip, and what is downloaded are the blocks that are missing below it.
-/

set_option autoImplicit false

namespace ScarletCoin

open Toolkit

/-- More work, or as much work and at least the height. -/
def moreHeaderWork (a b : Hash × HeaderRow) : Prop :=
  b.2.chainwork < a.2.chainwork ∨ (b.2.chainwork = a.2.chainwork ∧ b.2.height ≤ a.2.height)

instance (a b : Hash × HeaderRow) : Decidable (moreHeaderWork a b) :=
  inferInstanceAs (Decidable (_ ∨ _))

/-- The stored header with the most cumulative work, with its hash. -/
def Storage.bestHeader [ScanOrder Hash] (s : Storage) : Option (Hash × HeaderRow) :=
  ((scan s.headers).insertionSort moreHeaderWork).head?

/-- The loop of `headers_to_download`: the hashes from a node down to the first block that is
stored, at most `limit` of them. -/
def missingBelow (s : Storage) : Nat → Option ChainNode → List Hash
  | 0, _ => []
  | _ + 1, none => []
  | limit + 1, some node =>
      if s.hasBlock node.hash then []
      else node.hash :: missingBelow s limit (s.node node.prevHash)

namespace Blockchain

variable [ScanOrder Hash]

/-- The best known header, block or otherwise, if any. -/
def headerTip (c : Blockchain) : Option ChainNode :=
  let headerNode := c.storage.bestHeader.bind fun p => c.storage.node p.1
  let blockNode := c.storage.node c.tip.hash
  match headerNode, blockNode with
  | none, _ => blockNode
  | some header, none => some header
  | some header, some block =>
      if block.chainwork < header.chainwork then some header else some block

/-- The hashes of the best header chain whose blocks are still missing, in ascending order. -/
def headersToDownload (c : Blockchain) (limit : Nat) : List Hash :=
  match c.headerTip with
  | none => []
  | some tip => (missingBelow c.storage limit (some tip)).reverse

end Blockchain

end ScarletCoin
