import ScarletCoin.Core.Block
import ScarletCoin.Core.Utxo

/-!
# Storage

The tables of `core/storage.py` and the queries and updates on them. A table is a finite map from
its primary key to the other columns; the order in which a query without a complete `ORDER BY`
returns rows is the parameter `ScanOrder`.

The row of a block keeps the block that was written (`BlockRow.body`) also after its body has been
dropped, so that statements can speak about the content a pruned block had. What the database holds
is `BlockRow.raw`, and `Storage.getBlock` parses that.

An update made inside `Storage.write` and followed by an exception is rolled back: a computation
that raises returns no storage, so its caller goes on with the one it had.
-/

set_option autoImplicit false

namespace ScarletCoin

open Toolkit

/-- How many blocks of undo records to keep. -/
def UNDO_KEEP_BLOCKS : Nat := 2000

/-- A row of `blocks`. -/
structure BlockRow where
  height : Nat
  chainwork : Nat
  inChain : Bool
  pruned : Bool
  body : Block
  txCount : Nat

namespace BlockRow

/-- The column `prev_hash`. -/
def prevHash (r : BlockRow) : Hash := r.body.header.prevHash

/-- The column `raw`: the wire format, or the header alone once the block has been pruned. -/
def raw (r : BlockRow) : Bytes :=
  if r.pruned then r.body.header.serialize else r.body.serialize

end BlockRow

/-- Metadata about a known block. -/
structure BlockIndexEntry where
  hash : Hash
  height : Nat
  prevHash : Hash
  chainwork : Nat
  inChain : Bool
  header : BlockHeader
  pruned : Bool
  deriving DecidableEq

namespace BlockIndexEntry

/-- The timestamp of the block. -/
def timestamp (e : BlockIndexEntry) : Nat := e.header.timestamp.toNat

/-- The compact target of the block. -/
def bits (e : BlockIndexEntry) : Nat := e.header.bits.toNat

end BlockIndexEntry

/-- `Storage._entry`: the index entry of a row. -/
def BlockRow.entry (h : Hash) (r : BlockRow) : BlockIndexEntry :=
  ⟨h, r.height, r.prevHash, r.chainwork, r.inChain, r.body.header, r.pruned⟩

/-- A row of `headers`. -/
structure HeaderRow where
  height : Nat
  chainwork : Nat
  header : BlockHeader

/-- Where a confirmed transaction lives. -/
structure TxLocation where
  blockHash : Hash
  position : Nat
  height : Nat
  deriving DecidableEq

/-- A row of `address_history`, whose key is a payload and a transaction id. -/
structure HistoryRow where
  height : Nat
  received : Nat
  sent : Nat
  coinbase : Bool
  deriving DecidableEq

/-- What a call to `prune_to` did. -/
structure PruneResult where
  blocks : Nat
  transactions : Nat
  freedBytes : Nat
  pruneHeight : Nat
  deriving DecidableEq

/-- The database. -/
structure Storage where
  blocks : Table Hash BlockRow
  headers : Table Hash HeaderRow
  utxo : Table OutPoint Coin
  undo : Table Hash Bytes
  txLocation : Table Hash TxLocation
  addressHistory : Table (PubkeyHash × Hash) HistoryRow
  tipHash : Option Hash
  pruneMark : Option Nat

namespace Storage

/-- A database without rows. -/
def empty : Storage := ⟨∅, ∅, ∅, ∅, ∅, ∅, none, none⟩

/-! ## Block index -/

/-- Record the active tip. -/
def setTip (s : Storage) (blockHash : Hash) : Storage := { s with tipHash := some blockHash }

/-- Whether the block is stored. -/
def hasBlock (s : Storage) (blockHash : Hash) : Bool := (s.blocks.lookup blockHash).isSome

/-- The index entry of a block. -/
def getEntry (s : Storage) (blockHash : Hash) : Option BlockIndexEntry :=
  (s.blocks.lookup blockHash).map (BlockRow.entry blockHash)

/-- A stored block, or `None` if it is unknown or pruned. -/
def getBlock (s : Storage) (blockHash : Hash) : Except PyError (Option Block) :=
  match s.blocks.lookup blockHash with
  | none => .ok none
  | some row =>
      if row.pruned then .ok none
      else do
        let block ← Block.deserialize row.raw
        pure (some block)

/-- Mark a block as being on or off the active chain. -/
def setInChain (s : Storage) (blockHash : Hash) (inChain : Bool) : Storage :=
  { s with blocks := s.blocks.modify blockHash fun row => { row with inChain := inChain } }

/-- Number of stored blocks. -/
def blockCount (s : Storage) : Nat := s.blocks.keys.card

/-- Number of confirmed transactions at the heights `startHeight` to `endHeight`. -/
def countTransactions (s : Storage) (startHeight endHeight : Int) : Nat :=
  if endHeight < startHeight then 0
  else
    Table.total (fun row => if row.inChain ∧ startHeight ≤ row.height ∧ row.height ≤ endHeight
      then row.txCount else 0) s.blocks

/-! ## Headers -/

/-- Whether the header is stored. -/
def hasHeader (s : Storage) (blockHash : Hash) : Bool := (s.headers.lookup blockHash).isSome

/-- The row of a stored header. -/
def headerEntry (s : Storage) (blockHash : Hash) : Option HeaderRow := s.headers.lookup blockHash

/-! ## Unspent outputs -/

/-- The unspent output at an outpoint. -/
def getCoin (s : Storage) (outpoint : OutPoint) : Option Coin := s.utxo.lookup outpoint

/-- Delete unspent outputs. -/
def removeCoins (s : Storage) (outpoints : List OutPoint) : Storage :=
  { s with utxo := Table.eraseAll outpoints s.utxo }

/-- Insert unspent outputs, in the order given. -/
def addCoins (s : Storage) (coins : List (OutPoint × Coin)) : Storage :=
  { s with utxo := Table.insertAll coins s.utxo }

/-- Write the pending changes of an overlay: first what it spent, then what it added. -/
def writeOverlay (s : Storage) (overlay : CoinOverlay) : Storage :=
  { s with utxo := overlay.flush s.utxo }

/-! ## Undo records -/

/-- Store the coins consumed by a block. -/
def putUndo (s : Storage) (blockHash : Hash) (spent : List UndoEntry) : Except PyError Storage := do
  let data ← encodeUndo spent
  pure { s with undo := s.undo.insert blockHash data }

/-- The coins consumed by a block. -/
def getUndo (s : Storage) (blockHash : Hash) : Except PyError (List UndoEntry) :=
  match s.undo.lookup blockHash with
  | none => .error (.storage s!"missing undo data for block {displayHex blockHash}")
  | some data => decodeUndo data

/-- Drop the undo record of a block. -/
def deleteUndo (s : Storage) (blockHash : Hash) : Storage :=
  { s with undo := s.undo.erase blockHash }

/-! ## Indexes -/

/-- Record where a confirmed transaction lives and which addresses it touches. -/
def indexTransaction (s : Storage) (txid : Hash) (coinbase : Bool) (location : TxLocation)
    (deltas : List (PubkeyHash × Nat × Nat)) : Storage :=
  { s with
    txLocation := s.txLocation.insert txid location
    addressHistory := Table.insertAll
      (deltas.map fun d => ((d.1, txid), ⟨location.height, d.2.1, d.2.2, coinbase⟩))
      s.addressHistory }

/-- Forget transactions. -/
def unindexTransactions (s : Storage) (txids : List Hash) : Storage :=
  { s with
    txLocation := Table.eraseAll txids s.txLocation
    addressHistory := s.addressHistory.keepIf fun key _ => decide (key.2 ∉ txids) }

/-! ## Queries that scan -/

variable [ScanOrder Hash]

/-- The rows of `blocks` in the order of a scan. -/
def blockRows (s : Storage) : List (Hash × BlockRow) := scan s.blocks

/-- The active-chain block at `height`. -/
def getChainEntry (s : Storage) (height : Nat) : Option BlockIndexEntry :=
  (s.blockRows.find? fun p => p.2.inChain && p.2.height == height).map fun p => p.2.entry p.1

/-- Every stored block whose parent is `blockHash`. -/
def childrenOf (s : Storage) (blockHash : Hash) : List BlockIndexEntry :=
  (s.blockRows.filter fun p => p.2.prevHash == blockHash).map fun p => p.2.entry p.1

/-- More work, or as much work and at least the height. -/
def moreWork (a b : BlockIndexEntry) : Prop :=
  b.chainwork < a.chainwork ∨ (b.chainwork = a.chainwork ∧ b.height ≤ a.height)

instance (a b : BlockIndexEntry) : Decidable (moreWork a b) :=
  inferInstanceAs (Decidable (_ ∨ _))

/-- The stored blocks with the most cumulative work, best first. -/
def bestEntries (s : Storage) (limit : Nat) : List BlockIndexEntry :=
  ((s.blockRows.map fun p => p.2.entry p.1).insertionSort moreWork).take limit

/-- Drop the undo record of the active block at `height`. -/
def pruneUndoAtHeight (s : Storage) (height : Int) : Storage :=
  if height < 0 then s
  else
    match s.getChainEntry height.toNat with
    | none => s
    | some entry => s.deleteUndo entry.hash

/-! ## Pruning -/

omit [ScanOrder Hash] in
/-- Highest pruned height. -/
def pruneHeight (s : Storage) : Nat := s.pruneMark.getD 0

/-- Stored blocks above genesis and at or below `height` that still have a body, lowest first. -/
def prunableBlocks (s : Storage) (height : Nat) : List Hash :=
  ((s.blockRows.filter fun p => !p.2.pruned && decide (1 ≤ p.2.height ∧ p.2.height ≤ height)
    ).insertionSort fun a b => a.2.height ≤ b.2.height).map Prod.fst

end Storage

variable [Crypto]

namespace Storage

/-- Store a validated block. -/
def putBlock (s : Storage) (block : Block) (height chainwork : Nat) (inChain : Bool) :
    Except PyError (Storage × BlockIndexEntry) := do
  raiseIf (2 ^ 256 ≤ chainwork) (.overflow "int too big to convert")
  let row : BlockRow := ⟨height, chainwork, inChain, false, block, block.transactions.length⟩
  pure ({ s with blocks := s.blocks.insert block.hash row }, row.entry block.hash)

/-- Store a validated header. -/
def putHeader (s : Storage) (header : BlockHeader) (height chainwork : Nat) :
    Except PyError Storage := do
  raiseIf (2 ^ 256 ≤ chainwork) (.overflow "int too big to convert")
  pure { s with headers := s.headers.insert header.hash ⟨height, chainwork, header⟩ }

/-- One round of `prune_to`: drop the body, the index rows and the undo record of a block. A block
that does not parse is skipped. -/
def pruneBlock (acc : Storage × Nat × Nat) (blockHash : Hash) : Storage × Nat × Nat :=
  match acc.1.blocks.lookup blockHash with
  | none => acc
  | some row =>
      match Block.deserialize row.raw with
      | .error _ => acc
      | .ok block =>
          let s := acc.1.unindexTransactions block.txids
          let undoSize := ((s.undo.lookup blockHash).map List.length).getD 0
          let s := s.deleteUndo blockHash
          ({ s with blocks := s.blocks.insert blockHash { row with pruned := true } },
            acc.2.1 + block.transactions.length,
            acc.2.2 + (row.raw.length - 80 + undoSize))

/-- Drop the bodies of every block at or below `height`. -/
def pruneTo [ScanOrder Hash] (s : Storage) (height : Nat) : Storage × PruneResult :=
  let candidates := s.prunableBlocks height
  let (pruned, transactions, freed) := candidates.foldl pruneBlock (s, 0, 0)
  let marker := s.pruneHeight
  if candidates = [] then
    (pruned, ⟨0, transactions, freed, marker⟩)
  else
    ({ pruned with pruneMark := some (max height marker) },
      ⟨candidates.length, transactions, freed, max height marker⟩)

end Storage

end ScarletCoin
