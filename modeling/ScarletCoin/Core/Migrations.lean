import ScarletCoin.Core.Chain

/-!
# Schema migrations

How `core/storage.py` brings a database of an older schema up to date (`Storage._migrate`), and how
`core/chain.py` loads the chain of a database that has a tip.

A database of an older schema is a `Storage` as well; what stands in a column that its schema does
not have is never read. The columns that a table does have are a parameter, as `PRAGMA table_info`
lists them.
-/

set_option autoImplicit false

namespace ScarletCoin

open Toolkit

namespace Storage

variable [ScanOrder Hash]

/-! ## From schema 4 to schema 5 -/

omit [ScanOrder Hash] in
/-- `ALTER TABLE blocks ADD COLUMN tx_count INTEGER NOT NULL DEFAULT 0`. -/
def addTxCount (s : Storage) : Storage :=
  { s with blocks := Table.mapRows (fun _ row => { row with txCount := 0 }) s.blocks }

omit [ScanOrder Hash] in
/-- The number of rows of `tx_location` at a height. -/
def locationsAt (s : Storage) (height : Nat) : Nat :=
  Table.total (fun loc => if loc.height = height then 1 else 0) s.txLocation

omit [ScanOrder Hash] in
/-- Count the transactions of the active blocks by their locations. -/
def backfillTxCount (s : Storage) : Storage :=
  { s with
    blocks := Table.mapRows (fun _ row =>
      if row.inChain then { row with txCount := s.locationsAt row.height } else row) s.blocks }

/-- `SELECT COALESCE(MAX(height), 0) FROM blocks WHERE in_chain = 1`. -/
def maxActiveHeight (s : Storage) : Nat :=
  ((s.blockRows.filter fun p => p.2.inChain).map fun p => p.2.height).foldl max 0

omit [ScanOrder Hash] in
/-- The block is active and below `cutoff`. -/
def activeBelow (s : Storage) (cutoff : Int) (blockHash : Hash) : Bool :=
  (s.blocks.lookup blockHash).any fun row => row.inChain && decide ((row.height : Int) < cutoff)

omit [ScanOrder Hash] in
/-- Drop the undo records of the active blocks below `cutoff`. -/
def boundUndo (s : Storage) (cutoff : Int) : Storage :=
  if 0 < cutoff then { s with undo := s.undo.keepIf fun h _ => !s.activeBelow cutoff h } else s

/-- Add `blocks.tx_count` and bound undo. The two indexes that are dropped hold no data. -/
def migrateV4ToV5 (columns : List String) (s : Storage) : Storage :=
  let s := if columns.contains "tx_count" then s else s.addTxCount
  let s := s.backfillTxCount
  s.boundUndo ((s.maxActiveHeight : Int) - (UNDO_KEEP_BLOCKS : Int))

/-! ## From schema 3 to schema 4 -/

omit [ScanOrder Hash] in
/-- Add the columns `received`, `sent` and `coinbase` where they are missing. -/
def addHistoryColumns (columns : List String) (s : Storage) : Storage :=
  { s with
    addressHistory := Table.mapRows (fun _ row => { row with
      received := if columns.contains "received" then row.received else 0
      sent := if columns.contains "sent" then row.sent else 0
      coinbase := columns.contains "coinbase" && row.coinbase }) s.addressHistory }

omit [ScanOrder Hash] in
/-- The coins a block consumed, or none if it has no undo record. -/
def undoCoins (s : Storage) (blockHash : Hash) : Except PyError (List UndoEntry) :=
  rescue (s.getUndo blockHash) fun e =>
    match e with
    | .storage _ => some (.ok [])
    | _ => none

/-- The hashes of the active blocks that still have a body, lowest first. -/
def unprunedActive (s : Storage) : List Hash :=
  ((s.blockRows.filter fun p => p.2.inChain && !p.2.pruned).insertionSort
    fun a b => a.2.height ≤ b.2.height).map Prod.fst

end Storage

/-- The payload and the value of what an input spends: the undo record of the block lists the coin,
or the block itself created it. -/
def resolveSpent (spent : Table OutPoint Coin) (created : Table OutPoint (PubkeyHash × Nat))
    (txin : TxInput) : Option (PubkeyHash × Nat) :=
  if txin.prevout.isNull then none
  else
    match spent.lookup txin.prevout with
    | some coin => some (coin.payload, coin.value)
    | none => created.lookup txin.prevout

/-- The amounts each touched payload received and sent in a transaction, as the migration adds them
up. -/
def Transaction.replayedDeltas (t : Transaction) (spent : Table OutPoint Coin)
    (created : Table OutPoint (PubkeyHash × Nat)) : List (PubkeyHash × Nat × Nat) :=
  let taken := t.inputs.filterMap (resolveSpent spent created)
  (t.outputs.map TxOutput.payload ++ taken.map Prod.fst).dedup.map fun payload =>
    (payload, ((t.outputs.filter fun o => o.payload = payload).map TxOutput.value).sum,
      ((taken.filter fun c => c.1 = payload).map Prod.snd).sum)

variable [Crypto]

/-- The outputs of a transaction with what the migration remembers of them. -/
def Transaction.payments (t : Transaction) : List (OutPoint × PubkeyHash × Nat) :=
  t.outputs.zipIdx.map fun entry =>
    (⟨t.txid, UInt32.ofNat entry.2⟩, entry.1.payload, entry.1.value)

/-- One round over the transactions of a block: update the rows of the transaction, then remember
its outputs. -/
def backfillTransaction (spent : Table OutPoint Coin)
    (acc : Table (PubkeyHash × Hash) HistoryRow × Table OutPoint (PubkeyHash × Nat))
    (t : Transaction) : Table (PubkeyHash × Hash) HistoryRow × Table OutPoint (PubkeyHash × Nat) :=
  ((t.replayedDeltas spent acc.2).foldl (fun rows d => rows.modify (d.1, t.txid) fun row =>
      { row with received := d.2.1, sent := d.2.2, coinbase := t.isCoinbase }) acc.1,
    Table.insertAll t.payments acc.2)

namespace Storage

/-- One round over the blocks. -/
def backfillBlock (s : Storage) (blockHash : Hash) : Except PyError Storage := do
  match ← s.getBlock blockHash with
  | none => pure s
  | some block => do
      let spent ← s.undoCoins blockHash
      pure { s with
        addressHistory := (block.transactions.foldl
          (backfillTransaction (Table.insertAll spent ∅)) (s.addressHistory, ∅)).1 }

variable [ScanOrder Hash]

/-- Recompute `received`, `sent` and `coinbase` for every indexed transaction. -/
def backfillAddressHistory (s : Storage) : Except PyError Storage :=
  s.unprunedActive.foldlM backfillBlock s

/-- Add precomputed `received`, `sent` and `coinbase` to `address_history`. -/
def migrateV3ToV4 (columns : List String) (s : Storage) : Except PyError Storage :=
  (s.addHistoryColumns columns).backfillAddressHistory

/-! ## Every schema -/

/-- Bring an older database up to date. Before schema 3 every table but the headers is dropped. -/
def migrate (blockColumns historyColumns : List String) (s : Storage) (fromVersion : Nat) :
    Except PyError Storage :=
  if fromVersion < 3 then pure { empty with headers := s.headers }
  else if fromVersion = 3 then do
    let s ← s.migrateV3ToV4 historyColumns
    pure (s.migrateV4ToV5 blockColumns)
  else if fromVersion = 4 then pure (s.migrateV4ToV5 blockColumns)
  else pure s

end Storage

/-! ## Loading a chain -/

/-- What `_load_or_create_genesis` does with a database that records the tip `tipHash`. -/
def Blockchain.load [ScanOrder Hash] (params : ChainParams) (s : Storage) (tipHash : Hash) :
    Except PyError Blockchain :=
  match s.getEntry tipHash with
  | none => .error (.validation "database records a tip that is not stored")
  | some entry =>
      let foreign : PyError :=
        .validation s!"this database belongs to a different network than {params.name.text}"
      match s.getChainEntry 0 with
      | none => .error foreign
      | some genesis => do
          let block ← params.genesisBlock
          raiseIf (genesis.hash ≠ block.hash) foreign
          pure ⟨s, entry, [], []⟩

end ScarletCoin
