import ScarletCoin.Core.HeaderSync
import ScarletCoin.Net.Protocol
import Mathlib.Data.Finset.Union
import Mathlib.Data.Rat.Defs

/-!
# Downloading blocks

The part of `net/node.py` that asks peers for blocks: `_on_inv`, `_request_blocks`,
`_queue_missing_blocks` and what `_handle_message` and `_on_block` do to the queues of a peer. A
handler runs on the thread of one peer; an exception of `send` leaves it, and that peer is dropped,
whichever peer the message was for.

Every event is a step of its own, so that whatever else happens to the chain and to the peers may
come in between. A step is atomic, which is an assumption: `node.py` runs the handlers of each peer
on a thread of its own, without a lock over the queues. The texts of the messages, relaying and the
counters are left out.
-/

set_option autoImplicit false

namespace ScarletCoin

open Toolkit

/-- Blocks requested from a single peer at a time. -/
def BLOCKS_IN_FLIGHT : Nat := 64

/-- A request that is older is forgotten, so that another peer may pick it up. -/
def BLOCK_STALL_TIMEOUT : ℚ := 30

/-- How many missing blocks are handed out at once. -/
def DOWNLOAD_WINDOW : Nat := 2000

/-! ## A peer -/

/-- What a node keeps of a peer for the download. -/
structure SyncPeer where
  id : Nat
  handshakeDone : Bool := false
  closed : Bool := false
  pendingBlocks : List Hash := []
  requestedBlocks : Finset Hash := ∅
  blockRequestedAt : List (Hash × ℚ) := []
  lastGetdataAt : Option ℚ := none

/-- `times[block_hash] = now`: a new key goes to the end. -/
def setTime (now : ℚ) (times : List (Hash × ℚ)) (blockHash : Hash) : List (Hash × ℚ) :=
  if times.any fun e => e.1 == blockHash then
    times.map fun e => if e.1 == blockHash then (blockHash, now) else e
  else times ++ [(blockHash, now)]

/-- The hash of the block that a block builds on, if it is known. -/
def Blockchain.blockParent (c : Blockchain) (blockHash : Hash) : Option Hash :=
  match c.storage.headerEntry blockHash with
  | some row => some row.header.prevHash
  | none => (c.storage.getEntry blockHash).map BlockIndexEntry.prevHash

/-- The loop of `_request_blocks` over the queue: what is requested next, and what is left of the
queue. -/
def nextBatch (c : Blockchain) : List Hash → Finset Hash → List Hash × List Hash
  | [], _ => ([], [])
  | blockHash :: rest, queued =>
      if BLOCKS_IN_FLIGHT ≤ queued.card then ([], blockHash :: rest)
      else if (c.blockParent blockHash).any fun parent =>
          !c.storage.hasBlock parent && !decide (parent ∈ queued) then
        -- the parent has not been downloaded yet
        ([], blockHash :: rest)
      else if c.storage.hasBlock blockHash then nextBatch c rest queued
      else
        let (batch, left) := nextBatch c rest (insert blockHash queued)
        (blockHash :: batch, left)

namespace SyncPeer

/-- The block is no longer in flight. -/
def forget (p : SyncPeer) (blockHash : Hash) : SyncPeer :=
  { p with
    requestedBlocks := p.requestedBlocks.erase blockHash
    blockRequestedAt := p.blockRequestedAt.filter fun e => !(e.1 == blockHash) }

/-- A block is announced. `orphans` and `premature` are the hashes of the blocks held back. -/
def announce (c : Blockchain) (orphans premature : List Hash) (p : SyncPeer) (blockHash : Hash) :
    SyncPeer :=
  if c.storage.hasBlock blockHash ∨ orphans.contains blockHash ∨ premature.contains blockHash then p
  else if blockHash ∈ p.requestedBlocks ∨ p.pendingBlocks.contains blockHash then p
  else { p with pendingBlocks := p.pendingBlocks ++ [blockHash] }

/-- Move the next batch from the queue into flight. -/
def requestBlocks (c : Blockchain) (now : ℚ) (p : SyncPeer) : SyncPeer :=
  let (batch, left) := nextBatch c p.pendingBlocks p.requestedBlocks
  { p with
    pendingBlocks := left
    requestedBlocks := p.requestedBlocks ∪ batch.toFinset
    blockRequestedAt := batch.foldl (setTime now) p.blockRequestedAt }

/-- Requests that have been in flight for too long. -/
def stale (now : ℚ) (p : SyncPeer) : List Hash :=
  (p.blockRequestedAt.filter fun e => decide (BLOCK_STALL_TIMEOUT < now - e.2)).map Prod.fst

/-- Release the stale requests: they are queued again. -/
def release (now : ℚ) (p : SyncPeer) : SyncPeer :=
  (p.stale now).foldl (fun p blockHash =>
    { p.forget blockHash with pendingBlocks := p.pendingBlocks ++ [blockHash] }) p

/-- Rebuild the queue: the run of missing blocks handed to the peer, and what it announced that is
not missing below a header. -/
def requeue (missing run : List Hash) (p : SyncPeer) : SyncPeer :=
  { p with
    pendingBlocks := (run.filter fun blockHash => !decide (blockHash ∈ p.requestedBlocks)) ++
      p.pendingBlocks.filter fun blockHash =>
        !missing.contains blockHash && !decide (blockHash ∈ p.requestedBlocks) }

end SyncPeer

/-- Hand the missing blocks to the peers that are ready, one run of `width` after the other. -/
def handOut (missing : List Hash) (width : Nat) : Nat → List SyncPeer → List SyncPeer
  | _, [] => []
  | index, p :: rest =>
      if p.handshakeDone then
        p.requeue missing ((missing.drop (index * width)).take width) ::
          handOut missing width (index + 1) rest
      else p :: handOut missing width index rest

/-! ## The node -/

/-- A request for blocks, with the chain and what was in flight from the peer when it was sent. -/
structure Asked where
  peer : Nat
  inFlight : Finset Hash
  chain : Blockchain
  batch : List Hash

/-- The chain of a node, the hashes of the blocks held back, the peers in the order they were
registered, and the requests made so far, with the newest first. Nothing in the node reads the
requests. -/
structure Download where
  chain : Blockchain
  orphans : List Hash
  premature : List Hash
  peers : List SyncPeer
  nextId : Nat
  asked : List Asked

/-- What a handler leaves behind, and whether it returned or raised. -/
structure Handled where
  state : Download
  returned : Bool

namespace Download

/-- Change what is kept of one peer. -/
def update (d : Download) (id : Nat) (f : SyncPeer → SyncPeer) : Download :=
  { d with peers := d.peers.map fun p => if p.id == id then f p else p }

/-- What is kept of one peer. -/
def peer (d : Download) (id : Nat) : Option SyncPeer := d.peers.find? fun p => p.id == id

/-- `_unregister`. -/
def unregister (d : Download) (id : Nat) : Download :=
  { d with peers := d.peers.filter fun p => !(p.id == id) }

/-- Send a message to a peer. `works` says which sockets still take data; if one does not, the peer
is closed. -/
def send (works : Nat → Bool) (d : Download) (id : Nat) : Handled :=
  if (d.peer id).any fun p => !p.closed && works id then ⟨d, true⟩
  else ⟨d.update id fun p => { p with closed := true }, false⟩

/-- `_request_blocks`. -/
def requestBlocks (works : Nat → Bool) (now : ℚ) (d : Download) (id : Nat) : Handled :=
  match d.peer id with
  | none => ⟨d, true⟩
  | some p =>
      let batch := (nextBatch d.chain p.pendingBlocks p.requestedBlocks).1
      let d' := d.update id (SyncPeer.requestBlocks d.chain now)
      if batch = [] then ⟨d', true⟩
      else
        let asked := { d' with asked := ⟨id, p.requestedBlocks, d.chain, batch⟩ :: d'.asked }
        match asked.send works id with
        | ⟨d, true⟩ => ⟨d.update id fun p => { p with lastGetdataAt := some now }, true⟩
        | raised => raised

/-- The last loop of `_queue_missing_blocks`. -/
def requestAll (works : Nat → Bool) (now : ℚ) : Download → List Nat → Handled
  | d, [] => ⟨d, true⟩
  | d, id :: ids =>
      match d.requestBlocks works now id with
      | ⟨d, true⟩ => requestAll works now d ids
      | raised => raised

/-- `_maybe_sync` for a peer that is asked whatever its height: headers are requested unless the
peer still has blocks to deliver. -/
def maybeSync (works : Nat → Bool) (d : Download) (id : Nat) : Handled :=
  if (d.peer id).any fun p =>
      !p.closed && decide (p.requestedBlocks = ∅) && p.pendingBlocks.isEmpty then d.send works id
  else ⟨d, true⟩

/-- `_on_inv`. `holds` says which transactions are pooled or confirmed. -/
def onInv (works : Nat → Bool) (holds : Hash → Bool) (now : ℚ) (d : Download) (id : Nat)
    (items : List InvItem) : Handled :=
  let blocks := (items.filter fun item => decide (item.type = .block)).map InvItem.hash
  let wanted := items.filter fun item => decide (item.type = .tx) && !holds item.hash
  let d := d.update id fun p => blocks.foldl (SyncPeer.announce d.chain d.orphans d.premature) p
  if wanted = [] then d.requestBlocks works now id
  else
    match d.send works id with
    | ⟨d, true⟩ => d.requestBlocks works now id
    | raised => raised

variable [ScanOrder Hash]

/-- Release what is stale and hand out what is missing. -/
def rebuildQueues (now : ℚ) (d : Download) (missing : List Hash) : Download :=
  let ready := d.peers.filter SyncPeer.handshakeDone
  -- `math.ceil(len(missing) / len(peers))`
  let width := (missing.length + ready.length - 1) / ready.length
  { d with
    peers := handOut missing width 0
      (d.peers.map fun p => if p.handshakeDone then p.release now else p) }

/-- `_queue_missing_blocks`. -/
def queueMissingBlocks (works : Nat → Bool) (now : ℚ) (d : Download) : Handled :=
  let missing := d.chain.headersToDownload DOWNLOAD_WINDOW
  let ready := d.peers.filter SyncPeer.handshakeDone
  if missing = [] ∨ ready = [] then ⟨d, true⟩
  else requestAll works now (d.rebuildQueues now missing) (ready.map SyncPeer.id)

/-- `_on_block` after the block has been submitted. -/
def afterBlock (works : Nat → Bool) (now : ℚ) (d : Download) (id : Nat) (status : BlockStatus) :
    Handled :=
  if status = .premature then ⟨d, true⟩
  else
    match (if status = .orphan then d.maybeSync works id else ⟨d, true⟩) with
    | ⟨d, true⟩ =>
        let busy := (d.peer id).any fun p =>
          !(decide (p.requestedBlocks = ∅) && p.pendingBlocks.isEmpty)
        match (if busy then d.requestBlocks works now id else d.maybeSync works id) with
        | ⟨d, true⟩ => d.queueMissingBlocks works now
        | raised => raised
    | raised => raised

end Download

/-- What happens to a node: peers come and go, their messages are handled, and whatever else changes
the chain and the blocks held back. A block is taken off the queues and given to the chain in one
step; the rest of its handler is another. -/
inductive DownloadEvent where
  | register
  | handshake (id : Nat)
  | close (id : Nat)
  | unregister (id : Nat)
  | inv (works : Nat → Bool) (holds : Hash → Bool) (now : ℚ) (id : Nat) (items : List InvItem)
  | notFound (id : Nat) (items : List InvItem)
  | block (rounds clock : Nat) (id : Nat) (block : Block)
  | afterBlock (works : Nat → Bool) (now : ℚ) (id : Nat) (status : BlockStatus)
  | queue (works : Nat → Bool) (now : ℚ) (id : Nat)
  | chain (call : Call)
  | pools (orphans premature : List Hash)

namespace Download

/-- An exception ends the loop of the peer whose message was handled. -/
def settled (handled : Handled) (id : Nat) : Download :=
  if handled.returned then handled.state else handled.state.unregister id

variable [Crypto] [ScanOrder Hash]

/-- One step; there is none if a call of the chain does not come back. -/
def step (params : ChainParams) (d : Download) : DownloadEvent → Option Download
  | .register => some { d with peers := d.peers ++ [{ id := d.nextId }], nextId := d.nextId + 1 }
  | .handshake id => some (d.update id fun p => { p with handshakeDone := true })
  | .close id => some (d.update id fun p => { p with closed := true })
  | .unregister id => some (d.unregister id)
  | .inv works holds now id items => some (settled (d.onInv works holds now id items) id)
  | .notFound id items => some (d.update id fun p =>
      items.foldl (fun p item => p.forget item.hash) p)
  | .block rounds clock id block =>
      (Call.run params d.chain (.addBlock rounds clock block)).map fun c =>
        { d.update id fun p => p.forget block.hash with chain := c }
  | .afterBlock works now id status => some (settled (d.afterBlock works now id status) id)
  | .queue works now id => some (settled (d.queueMissingBlocks works now) id)
  | .chain call => (Call.run params d.chain call).map fun c => { d with chain := c }
  | .pools orphans premature => some { d with orphans := orphans, premature := premature }

omit [Crypto] [ScanOrder Hash] in
/-- A node without peers. -/
def start (c : Blockchain) : Download := ⟨c, [], [], [], 0, []⟩

/-- The states that allowed events lead to, from a node without peers on a reachable chain. -/
inductive Runs (params : ChainParams) (allowed : Download → DownloadEvent → Prop) :
    Download → Prop where
  | start {c : Blockchain} : Reachable params c → Runs params allowed (start c)
  | step {d d' : Download} (event : DownloadEvent) : Runs params allowed d → allowed d event →
      d.step params event = some d' → Runs params allowed d'

end Download

end ScarletCoin
