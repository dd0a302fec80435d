import ScarletCoin.Core.Validation
import ScarletCoin.Core.Storage

/-!
# Connecting and disconnecting blocks

`Blockchain._connect_block`, `_disconnect_block`, `_index_block`, `_apply_block_state` and
`_switch_to` of `core/chain.py`. Connecting validates the transactions of a block in order against
an overlay of the stored coins and, when all pass, writes the overlay, the undo record, the indexes
and the mark. Disconnecting removes the outputs of the block and restores the coins its undo record
lists. A switch rolls the active chain back to the fork and connects the new branch.
-/

set_option autoImplicit false

namespace ScarletCoin

open Toolkit

/-- What happened to a block on the active chain. -/
inductive EventKind where
  | connect
  | disconnect
  deriving DecidableEq, Repr

/-- A change of the active chain, as listeners are told of it. -/
structure Event where
  kind : EventKind
  block : Block
  height : Nat

variable [Crypto]

/-! ## Indexing -/

/-- The coins of `spent` that the inputs of a transaction consumed. -/
def Transaction.spentCoins (t : Transaction) (spent : Table OutPoint Coin) : List Coin :=
  t.inputs.filterMap fun txin => spent.lookup txin.prevout

/-- The amounts each touched payload received and sent in a transaction. -/
def Transaction.deltas (t : Transaction) (spent : Table OutPoint Coin) :
    List (PubkeyHash × Nat × Nat) :=
  let coins := t.spentCoins spent
  (t.outputs.map TxOutput.payload ++ coins.map Coin.payload).dedup.map fun payload =>
    (payload, ((t.outputs.filter fun o => o.payload = payload).map TxOutput.value).sum,
      ((coins.filter fun c => c.payload = payload).map Coin.value).sum)

/-- Update the transaction and address indexes for a connected block. -/
def indexBlock (s : Storage) (block : Block) (height : Nat) (spent : Table OutPoint Coin) :
    Storage :=
  block.transactions.zipIdx.foldl (fun s entry =>
    s.indexTransaction entry.1.txid entry.1.isCoinbase ⟨block.hash, entry.2, height⟩
      (entry.1.deltas spent)) s

/-- Add every output of a block and index it; the genesis path. -/
def applyBlockState (s : Storage) (block : Block) (height : Nat)
    (spent : Table OutPoint Coin) : Storage :=
  indexBlock (s.addCoins (block.transactions.flatMap fun t => t.coins height)) block height spent

/-! ## Connecting -/

/-- The local variables of `_connect_block`. -/
structure ConnectState where
  overlay : CoinOverlay
  spent : Table OutPoint Coin
  undo : List UndoEntry
  created : List OutPoint
  fees : Nat

/-- The local variables before the first transaction. -/
def ConnectState.start (s : Storage) : ConnectState :=
  ⟨CoinOverlay.start s.getCoin, ∅, [], [], 0⟩

/-- Spend the coin of one input. A coin created in the same block is left out of the undo record. -/
def spendInput (st : ConnectState) (txin : TxInput) : Except PyError ConnectState := do
  let (coin, overlay) ← st.overlay.spend txin.prevout
  pure { st with
    overlay := overlay
    spent := st.spent.insert txin.prevout coin
    undo := if txin.prevout ∈ st.created then st.undo else st.undo ++ [(txin.prevout, coin)] }

/-- The handler around the input checks: a broken rule is blamed on the block. -/
def blameBlock (blockHash : Hash) (t : Transaction) (e : PyError) :
    Option (Except PyError Nat) :=
  if e.isValidationError then
    some (.error (.connect blockHash s!"transaction {t.txidHex}: {e.message}"))
  else
    none

/-- Record the outputs of a transaction. -/
def createOutputs (height : Nat) (t : Transaction) (st : ConnectState) : ConnectState :=
  { st with
    created := t.outpoints ++ st.created
    overlay := st.overlay.addTransaction t height }

/-- One round of the loop over the transactions of a block. -/
def connectTransaction (params : ChainParams) (entry : BlockIndexEntry) (st : ConnectState)
    (t : Transaction) : Except PyError ConnectState := do
  raiseIf (checkTransactionFinal t entry.height = false)
    (.connect entry.hash s!"transaction {t.txidHex} is locked until height {t.lockTime}")
  if t.isCoinbase then
    pure (createOutputs entry.height t st)
  else do
    let fee ← rescue (checkTransactionInputs t st.overlay.getCoin entry.height params true)
      (blameBlock entry.hash t)
    let st ← t.inputs.foldlM spendInput { st with fees := st.fees + fee }
    pure (createOutputs entry.height t st)

variable [ScanOrder Hash]

/-- Validate a block against the current coins and apply it. -/
def connectBlock (params : ChainParams) (s : Storage) (block : Block) (entry : BlockIndexEntry) :
    Except PyError Storage := do
  let st ← block.transactions.foldlM (connectTransaction params entry) (ConnectState.start s)
  let subsidy := params.subsidy entry.height
  let coinbase ← block.coinbase
  let reward := coinbase.totalOutput
  raiseIf (subsidy + st.fees < reward)
    (.connect entry.hash (s!"coinbase pays {reward} scar but only {subsidy + st.fees} is" ++
      s!" available (subsidy {subsidy} + fees {st.fees})"))
  let s ← (s.writeOverlay st.overlay).putUndo entry.hash st.undo
  let s := (indexBlock s block entry.height st.spent).setInChain entry.hash true
  pure (s.pruneUndoAtHeight ((entry.height : Int) - (UNDO_KEEP_BLOCKS : Int)))

/-! ## Disconnecting -/

omit [ScanOrder Hash] in
/-- Remove a block from the active chain and restore the coins it spent. -/
def disconnectBlock (s : Storage) (entry : BlockIndexEntry) :
    Except PyError (Storage × Block) := do
  match ← s.getBlock entry.hash with
  | none => .error (.connect entry.hash "cannot disconnect a block whose data is missing")
  | some block => do
      let s := s.removeCoins (block.transactions.flatMap Transaction.outpoints)
      let s := s.unindexTransactions block.txids
      let undo ← s.getUndo entry.hash
      pure ((s.addCoins undo).setInChain entry.hash false, block)

/-! ## Switching -/

omit [Crypto] [ScanOrder Hash] in
/-- The first loop of `_switch_to`: walk from the candidate to the active chain. Returns the branch,
lowest block first, and the fork. -/
def collectBranch (s : Storage) (invalid : Hash → Bool) :
    Nat → BlockIndexEntry → List BlockIndexEntry →
      Except PyError (List BlockIndexEntry × BlockIndexEntry)
  | rounds, walker, branch =>
      if walker.inChain then .ok (branch, walker)
      else if invalid walker.hash then
        .error (.connect walker.hash "branch contains an invalid block")
      else
        match s.getEntry walker.prevHash with
        | none => .error (.connect walker.hash "branch is missing its parent")
        | some parent =>
            match rounds with
            | 0 => .error .unending
            | rounds + 1 => collectBranch s invalid rounds parent (walker :: branch)

omit [ScanOrder Hash] in
/-- The second loop of `_switch_to`: disconnect from the tip down to the fork. -/
def rollBack (forkHash : Hash) :
    Nat → Storage → BlockIndexEntry → List Event →
      Except PyError (Storage × BlockIndexEntry × List Event)
  | rounds, s, tip, events =>
      if tip.hash = forkHash then .ok (s, tip, events)
      else do
        let (s, block) ← disconnectBlock s tip
        match s.getEntry tip.prevHash with
        | none => .error (.connect tip.hash "active chain is missing a parent block")
        | some parent =>
            match rounds with
            | 0 => .error .unending
            | rounds + 1 =>
                rollBack forkHash rounds s parent (events ++ [⟨.disconnect, block, tip.height⟩])

/-- One round of the third loop of `_switch_to`: load and connect a block of the new branch. -/
def connectEntry (params : ChainParams) (acc : Storage × List Event) (entry : BlockIndexEntry) :
    Except PyError (Storage × List Event) := do
  match ← acc.1.getBlock entry.hash with
  | none => .error (.connect entry.hash "block data is missing")
  | some block => do
      let s ← connectBlock params acc.1 block entry
      pure (s, acc.2 ++ [⟨.connect, block, entry.height⟩])

/-- The tip after a switch: the last block of the branch, or where the roll back ended. -/
def newTip (tip : BlockIndexEntry) (branch : List BlockIndexEntry) : BlockIndexEntry :=
  match branch.getLast? with
  | none => tip
  | some entry => { entry with inChain := true }

/-- Make `candidate` the tip, rolling back the active chain if needed. -/
def switchTo (params : ChainParams) (s : Storage) (invalid : Hash → Bool) (tip candidate :
    BlockIndexEntry) : Except PyError (Storage × BlockIndexEntry × List Event) := do
  let (branch, fork) ← collectBranch s invalid (s.blockCount + 1) candidate []
  let (s, tip, events) ← rollBack fork.hash (s.blockCount + 1) s tip []
  let (s, events) ← branch.foldlM (connectEntry params) (s, events)
  let tip := newTip tip branch
  pure (s.setTip tip.hash, tip, events)

end ScarletCoin
