import ScarletCoin.Core.Chain
import ScarletCoin.Toolkit.Cascade

/-!
# The memory pool

The pool of unconfirmed transactions of `core/mempool.py`: its indexes, the view of the coins that a
newcomer is checked against, admission with replacement by fee, removal with descendants, eviction,
the selection for a block, and the two notifications with which it follows the chain.

A method that changes the pool and may raise returns the pool together with its answer, since what
it changed before it raised stays changed. The chain, its parameters and the readings of the clock
are arguments. The dictionary `_by_txid` and the list `_order` are always written together, so
`order` is also the order of the dictionary.
-/

set_option autoImplicit false

namespace ScarletCoin

open Toolkit

/-- How many verified transaction ids to remember before the cache is dropped. -/
def MAX_VERIFIED_CACHE : Nat := 100000

/-- The quotient of two integers as a float: the nearest number with 53 binary digits, ties to
even. -/
def trueDivide (n d : Nat) : ℚ :=
  if n = 0 then 0
  else
    let lead : Int := (n.log2 : Int) - (d.log2 : Int)
    let lead := if d * 2 ^ n.log2 ≤ n * 2 ^ d.log2 then lead else lead - 1
    let exponent : Int := lead - 52
    let num := n * 2 ^ (-exponent).toNat
    let den := d * 2 ^ exponent.toNat
    let digits := num / den
    let left := num % den
    let digits := if den < 2 * left ∨ (2 * left = den ∧ digits % 2 = 1) then digits + 1 else digits
    mkRat (digits * 2 ^ exponent.toNat : Nat) (2 ^ (-exponent).toNat)

/-- A transaction waiting to be mined. `received` is the reading of the clock when it came. -/
structure MempoolEntry where
  transaction : Transaction
  txid : Hash
  fee : Nat
  size : Nat
  received : Nat
  deriving DecidableEq

/-- Fee in scar per kilobyte. -/
def MempoolEntry.feeRate (e : MempoolEntry) : ℚ :=
  if e.size = 0 then 0 else trueDivide (e.fee * 1000) e.size

/-- The pool. -/
structure Mempool where
  maxBytes : Nat
  byTxid : Table Hash MempoolEntry
  spentBy : Table OutPoint Hash
  order : List Hash
  totalBytes : Int
  verified : Finset Hash

namespace Mempool

/-- A pool without transactions. -/
def create (maxBytes : Nat) : Mempool := ⟨maxBytes, ∅, ∅, [], 0, ∅⟩

/-! ## Queries -/

/-- The entries in the order in which they came. -/
def values (p : Mempool) : List MempoolEntry := p.order.filterMap p.byTxid.lookup

/-- The coin at an outpoint, as the chain and the pool's own outputs have it. Outpoints that the
pool spends are unavailable, but for those in `ignored`. -/
def coinView (p : Mempool) (c : Blockchain) (height : Nat) (ignored : List OutPoint)
    (outpoint : OutPoint) : Option Coin :=
  if (p.spentBy.lookup outpoint).isSome = true ∧ outpoint ∉ ignored then none
  else
    match p.byTxid.lookup outpoint.txid with
    | some entry =>
        (entry.transaction.outputs[outpoint.index.toNat]?).map fun output =>
          ⟨output.value, output.type, output.payload, height, false⟩
    | none => c.getCoin outpoint

/-- The smallest fee the node relays a transaction of a size for. -/
def minimumFee (params : ChainParams) (size : Nat) : Nat :=
  max 1 ⌈trueDivide (size * params.minRelayFeePerKb) 1000⌉₊

/-! ## Removal -/

/-- Delete the marks of spent outpoints that belong to a transaction. -/
def unspend (spentBy : Table OutPoint Hash) (txid : Hash) (inputs : List TxInput) :
    Table OutPoint Hash :=
  inputs.foldl (fun spentBy txin =>
    if spentBy.lookup txin.prevout = some txid then spentBy.erase txin.prevout else spentBy) spentBy

/-- Take one transaction out of the pool. -/
def takeOut (p : Mempool) (txid : Hash) (entry : MempoolEntry) : Mempool :=
  { p with
    byTxid := p.byTxid.erase txid
    spentBy := unspend p.spentBy txid entry.transaction.inputs
    order := p.order.erase txid
    totalBytes := p.totalBytes - entry.size }

/-- The pooled transactions that spend outputs of a transaction, output by output. -/
def spenders (p : Mempool) (txid : Hash) (t : Transaction) : List Hash :=
  (List.range t.outputs.length).filterMap fun index =>
    p.spentBy.lookup ⟨txid, UInt32.ofNat index⟩

/-- One round of the loop of `remove`: the pool without a transaction, and what goes on the
stack. -/
def removeOne (withDescendants : Bool) (p : Mempool) (txid : Hash) :
    Option (Mempool × List Hash) :=
  (p.byTxid.lookup txid).map fun entry =>
    let p := p.takeOut txid entry
    (p, if withDescendants then (p.spenders txid entry.transaction).reverse else [])

/-- The number of outputs in the pool. Every round of the loop of `remove` takes a transaction with
its outputs away or puts nothing on the stack. -/
def outputCount (p : Mempool) : Nat :=
  Table.total (fun entry => entry.transaction.outputs.length) p.byTxid

/-- Remove a transaction, by default with everything that spends it. The answer are the ids that
were removed. -/
def remove (p : Mempool) (txid : Hash) (withDescendants : Bool := true) : Mempool × List Hash :=
  cascade (removeOne withDescendants) (p.outputCount + 1) [txid] p []

/-- Remove some transactions with everything that spends them. -/
def removeAll (p : Mempool) (txids : List Hash) : Mempool :=
  txids.foldl (fun p txid => (p.remove txid).1) p

/-- Drop every transaction; the verified ids stay. -/
def clear (p : Mempool) : Mempool :=
  { p with byTxid := ∅, spentBy := ∅, order := [], totalBytes := 0 }

/-- The order of eviction: the lowest fee rate first and, of one fee rate, the newest first. -/
def cheaper (a b : MempoolEntry) : Prop :=
  a.feeRate < b.feeRate ∨ (a.feeRate = b.feeRate ∧ b.received ≤ a.received)

instance (a b : MempoolEntry) : Decidable (cheaper a b) := inferInstanceAs (Decidable (_ ∨ _))

/-- Drop the cheapest transactions until the pool fits. -/
def evictIfNeeded (p : Mempool) : Mempool :=
  if p.totalBytes ≤ p.maxBytes then p
  else
    (p.values.insertionSort cheaper).foldl (fun p entry =>
      if p.totalBytes ≤ p.maxBytes then p else (p.remove entry.txid).1) p

/-! ## Block template -/

/-- The order of `entries`: the highest fee rate first, of one fee rate the oldest, then by id. -/
def dearer (a b : MempoolEntry) : Prop :=
  b.feeRate < a.feeRate ∨ (a.feeRate = b.feeRate ∧ (a.received < b.received ∨
    (a.received = b.received ∧ a.txid.val ≤ b.txid.val)))

instance (a b : MempoolEntry) : Decidable (dearer a b) := inferInstanceAs (Decidable (_ ∨ _))

/-- All entries, highest fee rate first. -/
def entries (p : Mempool) : List MempoolEntry := p.values.insertionSort dearer

/-- What `collect` has selected so far, and what is left to look at. -/
structure Selection where
  selected : List Transaction
  selectedIds : List Hash
  totalFee : Nat
  used : Nat
  candidates : List MempoolEntry
  progressed : Bool

/-- The pooled transactions that a transaction spends from. -/
def parents (p : Mempool) (t : Transaction) : List Hash :=
  (t.inputs.map fun txin => txin.prevout.txid).filter fun txid => (p.byTxid.lookup txid).isSome

/-- The body of the inner loop of `collect`. -/
def consider (p : Mempool) (maxBytes : Int) (height : Nat) (s : Selection) (entry : MempoolEntry) :
    Selection :=
  if maxBytes < ((s.used + entry.size : Nat) : Int) then s
  else if checkTransactionFinal entry.transaction height = false then
    { s with candidates := s.candidates.erase entry }
  else if ¬ (p.parents entry.transaction).all s.selectedIds.contains then s
  else
    { selected := s.selected ++ [entry.transaction]
      selectedIds := s.selectedIds ++ [entry.txid]
      totalFee := s.totalFee + entry.fee
      used := s.used + entry.size
      candidates := s.candidates.erase entry
      progressed := true }

/-- One round of the outer loop of `collect`: every candidate once. -/
def collectRound (p : Mempool) (maxBytes : Int) (height : Nat) (s : Selection) :
    Round Selection (List Transaction × Nat) :=
  let s := s.candidates.foldl (p.consider maxBytes height) { s with progressed := false }
  if s.progressed then .next s else .halt (s.selected, s.totalFee)

/-- Pick transactions for a new block at `height`, in dependency order, with the total fee. Every
round but the last one takes a candidate, which bounds the rounds. -/
def collect (p : Mempool) (maxBytes : Int) (height : Nat) : Option (List Transaction × Nat) :=
  loop (p.collectRound maxBytes height) (p.entries.length + 1) ⟨[], [], 0, 0, p.entries, false⟩

/-! ## Admission -/

/-- Remember that the signatures of a transaction have been checked. -/
def rememberVerified (p : Mempool) (txid : Hash) : Mempool :=
  { p with
    verified := insert txid (if MAX_VERIFIED_CACHE ≤ p.verified.card then ∅ else p.verified) }

/-- Put an entry into the pool. -/
def insertEntry (p : Mempool) (entry : MempoolEntry) : Mempool :=
  { p with
    byTxid := p.byTxid.insert entry.txid entry
    spentBy := Table.insertAll (entry.transaction.inputs.map fun txin => (txin.prevout, entry.txid))
      p.spentBy
    order := p.order ++ [entry.txid]
    totalBytes := p.totalBytes + entry.size }

variable [Crypto]

/-- The checks of `add` before the inputs are looked at. -/
def screen (p : Mempool) (params : ChainParams) (c : Blockchain) (t : Transaction) :
    Except PyError Unit := do
  raiseIf ((p.byTxid.lookup t.txid).isSome = true)
    (.mempool "transaction is already in the mempool")
  rescue (t.checkSanity params.minOutputValue) fun e =>
    match e with
    | .transaction m => some (.error (.mempool m))
    | _ => none
  raiseIf (t.isCoinbase = true) (.mempool "a coinbase transaction cannot be relayed on its own")
  let found ← c.getTransaction t.txid
  raiseIf (found.isSome = true) (.mempool "transaction is already in a block")
  raiseIf (checkTransactionFinal t (c.height + 1) = false)
    (.mempool s!"transaction is locked until height {t.lockTime}")
  raiseIf (params.maxBlockSize / 2 < t.size) (.mempool "transaction is too large to be relayed")

variable [ScanOrder Hash]

omit [Crypto] in
/-- The pooled transactions that spend what a transaction spends, each once. -/
def conflicts (p : Mempool) (t : Transaction) : List Hash :=
  (scan (Table.insertAll
    ((t.inputs.filterMap fun txin => p.spentBy.lookup txin.prevout).map fun txid => (txid, ()))
    (∅ : Table Hash Unit))).map Prod.fst

omit [Crypto] in
/-- What a replacement would have to be: replaceable, for transactions that are, at a higher fee
rate. -/
def checkReplacement (p : Mempool) (t : Transaction) (fee : Nat) (size : Nat)
    (conflicts : List Hash) : Except PyError Unit := do
  let owner := (conflicts.head?.map displayHex).getD ""
  raiseIf (t.isReplaceable = false)
    (.mempool (s!"output is already spent by mempool transaction {owner};" ++
      " it is not replaceable"))
  forEach (fun txid =>
    match p.byTxid.lookup txid with
    | none => .error (.key (displayHex txid))
    | some old => do
        raiseIf (old.transaction.isReplaceable = false)
          (.mempool (s!"output is already spent by mempool transaction {displayHex txid};" ++
            " it is not replaceable"))
        raiseIf (fee * old.size ≤ old.fee * size)
          (.mempool s!"replacement pays a lower fee rate than {displayHex txid}"))
    conflicts

/-- The fee of a newcomer. What the pool spends is available to it when it conflicts with the
pool. -/
def price (p : Mempool) (params : ChainParams) (c : Blockchain) (t : Transaction)
    (checkSignatures : Bool) : Except PyError Nat :=
  let ignored := if p.conflicts t = [] then [] else t.inputs.map TxInput.prevout
  checkTransactionInputs t (p.coinView c (c.height + 1) ignored) (c.height + 1) params
    checkSignatures

/-- `add` up to the point where it changes the pool: the fee of a transaction that may enter, if the
fee is not too low. -/
def judge (p : Mempool) (params : ChainParams) (c : Blockchain) (t : Transaction)
    (verifySignatures : Bool) : Except PyError Nat := do
  p.screen params c t
  let fee ← p.price params c t (verifySignatures && decide (t.txid ∉ p.verified))
  if p.conflicts t = [] then pure fee
  else do
    p.checkReplacement t fee t.size (p.conflicts t)
    pure fee

/-- Validate a transaction and add it to the pool. `now` is the reading of the clock. -/
def add (p : Mempool) (params : ChainParams) (c : Blockchain) (now : Nat) (t : Transaction)
    (verifySignatures : Bool := true) : Mempool × Except PyError MempoolEntry :=
  match p.judge params c t verifySignatures with
  | .error e => (p, .error e)
  | .ok fee =>
      -- the transactions it replaces are gone even if the fee then turns out too low
      let p := p.removeAll (p.conflicts t)
      let minimum := minimumFee params t.size
      if fee < minimum then
        (p, .error (.mempool
          s!"fee of {fee} scar is below the {minimum} scar minimum for {t.size} bytes"))
      else
        let entry : MempoolEntry := ⟨t, t.txid, fee, t.size, now⟩
        (((p.rememberVerified t.txid).insertEntry entry).evictIfNeeded, .ok entry)

/-! ## Following the chain -/

/-- Add transactions one after the other, passing over those that are refused; `now` gives the
readings of the clock. Signatures are checked unless the id is remembered. -/
def addAll (params : ChainParams) (c : Blockchain) :
    (Nat → Nat) → Mempool → List Transaction → Mempool × Except PyError Unit
  | _, p, [] => (p, .ok ())
  | now, p, t :: ts =>
      match p.add params c (now 0) t (decide (t.txid ∉ p.verified)) with
      | (p, .ok _) => addAll params c (fun i => now (i + 1)) p ts
      | (p, .error e) =>
          if e.isValidationError then addAll params c (fun i => now (i + 1)) p ts
          else (p, .error e)

/-- Check every pooled transaction against the chain once more, in the order in which they came. -/
def revalidate (p : Mempool) (params : ChainParams) (c : Blockchain) (now : Nat → Nat) :
    Mempool × Except PyError Unit :=
  if p.byTxid.keys = ∅ then (p, .ok ())
  else addAll params c now p.clear (p.values.map MempoolEntry.transaction)

omit [Crypto] [ScanOrder Hash] in
/-- Drop the pooled transaction that spends an outpoint, if there is one. -/
def dropSpender (p : Mempool) (outpoint : OutPoint) : Mempool :=
  match p.spentBy.lookup outpoint with
  | none => p
  | some conflict => (p.remove conflict).1

omit [ScanOrder Hash] in
/-- Drop what one transaction of a block confirms or invalidates. -/
def dropConfirmed (p : Mempool) (t : Transaction) : Mempool :=
  t.inputs.foldl (fun p txin => p.dropSpender txin.prevout) (p.remove t.txid false).1

/-- A block has been connected. -/
def blockConnected (p : Mempool) (params : ChainParams) (c : Blockchain) (now : Nat → Nat)
    (block : Block) : Mempool × Except PyError Unit :=
  (block.transactions.foldl dropConfirmed p).revalidate params c now

/-- A block has been disconnected: its transactions return to the pool, but for the coinbase. -/
def blockDisconnected (p : Mempool) (params : ChainParams) (c : Blockchain) (now : Nat → Nat)
    (block : Block) : Mempool × Except PyError Unit :=
  match p.addAll params c now block.transactions.tail with
  | (p, .error e) => (p, .error e)
  | (p, .ok _) => p.revalidate params c fun i => now (block.transactions.length + i)

/-- What the pool does when it is told of an event. -/
def onEvent (p : Mempool) (params : ChainParams) (c : Blockchain) (now : Nat → Nat)
    (event : Event) : Mempool × Except PyError Unit :=
  match event.kind with
  | .connect => p.blockConnected params c now event.block
  | .disconnect => p.blockDisconnected params c now event.block

end Mempool

end ScarletCoin
