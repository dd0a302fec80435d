import ScarletCoin.Core.Params
import ScarletCoin.Core.Storage

/-!
# Difficulty and time along a branch

The consensus context of `core/chain.py`: the median time past of a block, its ancestors, and the
bits required of a child, once computed from index entries (`nextBitsAfter`, used for blocks) and
once from nodes that may be blocks or bare headers (`nextBitsForNode`, used for headers).

A walk along parents makes at most one step for each stored row before it repeats itself, so the
number of rows, plus one, bounds its rounds; a walk that is not over by then never ends
(`PyError.unending`).
-/

set_option autoImplicit false

namespace ScarletCoin

open Toolkit

/-! ## Median time -/

/-- The timestamps of a block and its most recent ancestors, at most as many as the first
argument. -/
def recentTimestamps (s : Storage) : Nat → Option BlockIndexEntry → List Nat
  | 0, _ => []
  | _ + 1, none => []
  | n + 1, some walker => walker.timestamp :: recentTimestamps s n (s.getEntry walker.prevHash)

/-- `statistics.median_low`. -/
def medianLow (xs : List Nat) : Option Nat := (xs.insertionSort (· ≤ ·))[(xs.length - 1) / 2]?

/-- Median timestamp of a block and its most recent ancestors. The list is never empty. -/
def medianTimePast (params : ChainParams) (s : Storage) (entry : BlockIndexEntry) : Nat :=
  (medianLow (recentTimestamps s params.medianTimeBlocks (some entry))).getD 0

/-! ## Ancestors of entries -/

variable [ScanOrder Hash]

/-- The loop of `ancestor_at`: walk back to `height`, or to the active chain. -/
def ancestorWalk (s : Storage) (height : Nat) :
    Nat → BlockIndexEntry → Except PyError (Option BlockIndexEntry)
  | rounds, walker =>
      if walker.height ≤ height then .ok (some walker)
      else if walker.inChain then .ok (s.getChainEntry height)
      else
        match rounds with
        | 0 => .error .unending
        | rounds + 1 =>
            match s.getEntry walker.prevHash with
            | none => .ok none
            | some parent => ancestorWalk s height rounds parent

/-- The ancestor of `entry` at `height`, or `entry` itself. -/
def ancestorAt (s : Storage) (entry : BlockIndexEntry) (height : Int) :
    Except PyError (Option BlockIndexEntry) :=
  if (entry.height : Int) < height ∨ height < 0 then .ok none
  else if entry.inChain then .ok (s.getChainEntry height.toNat)
  else ancestorWalk s height.toNat (s.blockCount + 1) entry

/-! ## Required bits, from entries -/

/-- The loop of `_window_work`: the oldest ancestor that is still inside the window. -/
def windowStart (s : Storage) (cutoff : Int) :
    Nat → BlockIndexEntry → Except PyError BlockIndexEntry
  | rounds, start =>
      if start.height = 0 then .ok start
      else
        match rounds with
        | 0 => .error .unending
        | rounds + 1 => do
            match ← ancestorAt s start ((start.height : Int) - 1) with
            | none => pure start
            | some prev =>
                if (prev.timestamp : Int) < cutoff then pure start
                else windowStart s cutoff rounds prev

/-- The chainwork of the blocks mined in the trailing window, and the time since the first of
them. -/
def windowWork (params : ChainParams) (s : Storage) (parent : BlockIndexEntry)
    (childTimestamp : Nat) : Except PyError (Int × Int) := do
  let duration := params.targetSpacing * params.retargetInterval
  let cutoff : Int := (parent.timestamp : Int) - (duration : Int)
  let start ← windowStart s cutoff (s.blockCount + 1) parent
  let before ← ancestorAt s start ((start.height : Int) - 1)
  let base := (before.map BlockIndexEntry.chainwork).getD 0
  pure ((parent.chainwork : Int) - (base : Int), (childTimestamp : Int) - (start.timestamp : Int))

/-- Per-block target from a time ratio against a fixed lookback. -/
def nextBitsTimeRatio (params : ChainParams) (s : Storage) (parent : BlockIndexEntry)
    (height childTimestamp : Nat) : Except PyError Nat := do
  let lookback := min height params.retargetInterval
  match ← ancestorAt s parent ((height : Int) - (lookback : Int)) with
  | none => pure parent.bits
  | some first =>
      nextBits parent.bits ((childTimestamp : Int) - (first.timestamp : Int))
        (params.targetSpacing * lookback) params.powLimit params.maxAdjustmentFactor

/-- Per-block target from the work observed over the trailing window. -/
def nextBitsFromWork (params : ChainParams) (s : Storage) (parent : BlockIndexEntry)
    (childTimestamp : Nat) : Except PyError Nat := do
  let (work, elapsed) ← windowWork params s parent childTimestamp
  bitsFromWork work elapsed params.targetSpacing params.powLimit parent.bits
    params.maxAdjustmentFactor

/-- The compact target required for a child of `parent`. -/
def nextBitsAfter (params : ChainParams) (s : Storage) (parent : BlockIndexEntry)
    (childTimestamp : Nat) : Except PyError Nat :=
  let height := parent.height + 1
  let interval := params.retargetInterval
  if params.perBlockRetarget = false ∨ height < params.retargetForkHeight then
    if height % interval ≠ 0 then pure parent.bits
    else do
      match ← ancestorAt s parent ((height : Int) - (interval : Int)) with
      | none => pure parent.bits
      | some first =>
          nextBits parent.bits ((parent.timestamp : Int) - (first.timestamp : Int))
            params.targetTimespan params.powLimit params.maxAdjustmentFactor
  else if (params.maxFutureTime : Int) < (childTimestamp : Int) - (parent.timestamp : Int) then
    pure params.powLimitBits
  else if height < params.retargetMeasureForkHeight then
    nextBitsTimeRatio params s parent height childTimestamp
  else
    nextBitsFromWork params s parent childTimestamp

/-! ## Required bits, from nodes -/

/-- A block or a header on either chain. -/
structure ChainNode where
  hash : Hash
  height : Nat
  prevHash : Hash
  chainwork : Nat
  bits : Nat
  timestamp : Nat
  deriving DecidableEq

/-- The node of an index entry. -/
def BlockIndexEntry.node (e : BlockIndexEntry) : ChainNode :=
  ⟨e.hash, e.height, e.prevHash, e.chainwork, e.bits, e.timestamp⟩

/-- The node of a stored header. -/
def HeaderRow.node (h : Hash) (r : HeaderRow) : ChainNode :=
  ⟨h, r.height, r.header.prevHash, r.chainwork, r.header.bits.toNat, r.header.timestamp.toNat⟩

/-- `_node`: the node of a block or header. -/
def Storage.node (s : Storage) (blockHash : Hash) : Option ChainNode :=
  match s.getEntry blockHash with
  | some entry => some entry.node
  | none => (s.headerEntry blockHash).map (HeaderRow.node blockHash)

/-- The number of nodes a walk can visit before it repeats itself, plus one. -/
def Storage.nodeRounds (s : Storage) : Nat := s.blocks.keys.card + s.headers.keys.card + 1

/-- The loop of `_node_at_height`. -/
def nodeWalk (s : Storage) (height : Nat) :
    Nat → Option ChainNode → Except PyError (Option ChainNode)
  | _, none => .ok none
  | rounds, some node =>
      if node.height ≤ height then .ok (some node)
      else
        match rounds with
        | 0 => .error .unending
        | rounds + 1 => nodeWalk s height rounds (s.node node.prevHash)

/-- Walk back from a block or header to `height`. -/
def nodeAtHeight (s : Storage) (blockHash : Hash) (height : Nat) :
    Except PyError (Option ChainNode) :=
  nodeWalk s height s.nodeRounds (s.node blockHash)

/-- The window loop of `_next_bits_for_node`. -/
def nodeWindowStart (s : Storage) (cutoff : Int) : Nat → ChainNode → Except PyError ChainNode
  | rounds, start =>
      if start.height = 0 then .ok start
      else
        match s.node start.prevHash with
        | none => .ok start
        | some prev =>
            if (prev.timestamp : Int) < cutoff then .ok start
            else
              match rounds with
              | 0 => .error .unending
              | rounds + 1 => nodeWindowStart s cutoff rounds prev

/-- The time-ratio target for a child of `parent`, from nodes. -/
def nextBitsForNodeTimeRatio (params : ChainParams) (s : Storage) (parent : ChainNode)
    (height childTimestamp : Nat) : Except PyError Nat := do
  let lookback := min height params.retargetInterval
  match ← nodeAtHeight s parent.prevHash (height - lookback) with
  | none => pure parent.bits
  | some first =>
      nextBits parent.bits ((childTimestamp : Int) - (first.timestamp : Int))
        (params.targetSpacing * lookback) params.powLimit params.maxAdjustmentFactor

/-- The compact target required for a child of `parent` at `height`, from nodes. -/
def nextBitsForNode (params : ChainParams) (s : Storage) (parent : ChainNode)
    (height childTimestamp : Nat) : Except PyError Nat :=
  let interval := params.retargetInterval
  if params.perBlockRetarget = false ∨ height < params.retargetForkHeight then
    if height % interval ≠ 0 then pure parent.bits
    else do
      match ← nodeAtHeight s parent.prevHash (height - interval) with
      | none => pure parent.bits
      | some first =>
          nextBits parent.bits ((parent.timestamp : Int) - (first.timestamp : Int))
            params.targetTimespan params.powLimit params.maxAdjustmentFactor
  else if (params.maxFutureTime : Int) < (childTimestamp : Int) - (parent.timestamp : Int) then
    pure params.powLimitBits
  else if height < params.retargetMeasureForkHeight then
    nextBitsForNodeTimeRatio params s parent height childTimestamp
  else do
    let duration := params.targetSpacing * interval
    let cutoff : Int := (parent.timestamp : Int) - (duration : Int)
    let start ← nodeWindowStart s cutoff s.nodeRounds parent
    let base := ((s.node start.prevHash).map ChainNode.chainwork).getD 0
    bitsFromWork ((parent.chainwork : Int) - (base : Int))
      ((childTimestamp : Int) - (start.timestamp : Int))
      params.targetSpacing params.powLimit parent.bits params.maxAdjustmentFactor

end ScarletCoin
