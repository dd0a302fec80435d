import ScarletCoin.Rules.Answers
import Mathlib.Data.Rat.Floor

/-!
# Orphans and deferred blocks

The part of `net/node.py` that a block goes through: `submit_block`, `_connect_orphans_of` and
`_retry_premature`, with the two pools of blocks that wait for their parent or for the clock. The
loops of the last two are steps of a machine whose `Task` says where it is, so that the clock may
change, and housekeeping come, between any two calls of `add_block`. Relaying, the counters and the
log texts are left out.
-/

set_option autoImplicit false

namespace ScarletCoin

open Toolkit

/-! ## Pools -/

/-- Orphan blocks kept while waiting for their parents; as many blocks are deferred. -/
def MAX_ORPHANS : Nat := 200

/-- A block that waits, under its hash, with the time it came. -/
structure Waiting where
  hash : Hash
  block : Block
  since : ℚ

/-- `pool[block.hash()] = (block, time.time())`: a new key goes to the end. -/
def putWaiting (pool : List Waiting) (entry : Waiting) : List Waiting :=
  if pool.any fun e => e.hash == entry.hash then
    pool.map fun e => if e.hash == entry.hash then entry else e
  else
    pool ++ [entry]

/-- `pool.pop(block_hash, None)`. -/
def popWaiting (pool : List Waiting) (hash : Hash) : List Waiting :=
  pool.filter fun e => !(e.hash == hash)

/-- How many of the oldest entries are too many. -/
def excess (pool : List Waiting) : Nat := pool.length - MAX_ORPHANS

/-! ## The machine -/

/-- What a node is doing. -/
inductive Task where
  /-- Nothing with blocks. -/
  | idle
  /-- In `_connect_orphans_of`, with children still to offer and parents whose children are still to
  be found; then the deferred blocks of a retry go on. -/
  | connecting (children : List Block) (pending : List Hash) (rest : List Waiting)
  /-- In `_retry_premature`, with deferred blocks still to offer. -/
  | retrying (waiting : List Waiting)

/-- The orphan that is offered next. -/
def Task.offered : Task → Option Block
  | .connecting (block :: _) _ _ => some block
  | _ => none

/-- What happened to a block. Nothing in the node reads it. -/
inductive PoolEvent where
  | answered (hash : Hash) (status : BlockStatus)
  | expired (hash : Hash)
  | evicted (hash : Hash)
  deriving DecidableEq

/-- The chain of a node and its pools; what happened stands with the newest first. -/
structure Node where
  chain : Blockchain
  orphans : List Waiting
  premature : List Waiting
  task : Task
  events : List PoolEvent

/-- `int(time.time())`. -/
def wholeSeconds (now : ℚ) : Nat := now.floor.toNat

namespace Node

variable [Crypto]

/-- Remember an orphan. -/
def rememberOrphan (n : Node) (block : Block) (now : ℚ) : Node :=
  let orphans := putWaiting n.orphans ⟨block.hash, block, now⟩
  { n with orphans := orphans.drop (excess orphans) }

/-- Keep a block that is ahead of the clock, to try again shortly. -/
def deferPremature (n : Node) (block : Block) (now : ℚ) : Node :=
  let premature := putWaiting n.premature ⟨block.hash, block, now⟩
  { n with
    premature := premature.drop (excess premature)
    events := (premature.take (excess premature)).map (fun entry => .evicted entry.hash) ++
      n.events }

omit [Crypto] in
/-- Start to connect the orphans that wait for a block. -/
def connectOrphansOf (n : Node) (hash : Hash) (rest : List Waiting) : Node :=
  { n with task := .connecting [] [hash] rest }

/-- Take the orphans that wait for `current` out of the pool. -/
def takeChildren (n : Node) (current : Hash) (pending : List Hash) (rest : List Waiting) : Node :=
  let children := (n.orphans.map Waiting.block).filter fun block => block.header.prevHash == current
  { n with
    orphans := children.foldl (fun pool block => popWaiting pool block.hash) n.orphans
    task := .connecting children pending rest }

omit [Crypto] in
/-- What a retry does with a deferred block that was answered. -/
def settle (n : Node) (entry : Waiting) (result : AddBlockResult) (now : ℚ)
    (waiting : List Waiting) : Node :=
  let expired := 1800 < now - entry.since
  let n := { n with
    premature :=
      if result.status ≠ BlockStatus.premature ∨ expired then popWaiting n.premature entry.hash
        else n.premature
    events := if expired then .expired entry.hash :: n.events else n.events }
  if result.accepted = true then n.connectOrphansOf entry.hash waiting
  else { n with task := .retrying waiting }

variable [ScanOrder Hash]

/-- Offer a block to the chain; there is no outcome if `add_block` does not come back. -/
def offer (params : ChainParams) (rounds : Nat) (now : ℚ) (n : Node) (block : Block) :
    Option (Node × Except PyError AddBlockResult) :=
  (n.chain.addBlock params rounds (wholeSeconds now) block).map fun outcome =>
    match outcome.2 with
    | .ok result =>
        ({ n with chain := outcome.1, events := .answered block.hash result.status :: n.events },
          .ok result)
    | .error e => ({ n with chain := outcome.1 }, .error e)

/-- Validate a block and store it; its orphans are connected next. The second reading of the clock
is that of the pools. -/
def submitBlock (params : ChainParams) (rounds : Nat) (now later : ℚ) (n : Node) (block : Block) :
    Option Node :=
  (n.offer params rounds now block).map fun outcome =>
    match outcome with
    | (n, .error _) => n
    | (n, .ok result) =>
        match result.status with
        | .orphan => n.rememberOrphan block later
        | .premature => n.deferPremature block later
        | .invalid => n
        | .connected | .sideBranch | .duplicate => n.connectOrphansOf block.hash []

/-- Offer the next child. An exception leaves both loops. -/
def connectChild (params : ChainParams) (rounds : Nat) (now : ℚ) (n : Node) (block : Block)
    (children : List Block) (pending : List Hash) (rest : List Waiting) : Option Node :=
  (n.offer params rounds now block).map fun outcome =>
    match outcome with
    | (n, .error _) => { n with task := .idle }
    | (n, .ok result) =>
        let pending := if result.accepted = true then block.hash :: pending else pending
        { n with task := .connecting children pending rest }

/-- Offer the next deferred block. -/
def retryOne (params : ChainParams) (rounds : Nat) (now later : ℚ) (n : Node) (entry : Waiting)
    (waiting : List Waiting) : Option Node :=
  (n.offer params rounds now entry.block).map fun outcome =>
    match outcome with
    | (n, .error _) => { n with task := .idle }
    | (n, .ok result) => n.settle entry result later waiting

/-- The next step of what the node is doing. -/
def advance (params : ChainParams) (rounds : Nat) (now later : ℚ) (n : Node) : Option Node :=
  match n.task with
  | .idle => none
  | .connecting (block :: children) pending rest =>
      n.connectChild params rounds now block children pending rest
  | .connecting [] (current :: pending) rest => some (n.takeChildren current pending rest)
  | .connecting [] [] rest => some { n with task := .retrying rest }
  | .retrying [] => some { n with task := .idle }
  | .retrying (entry :: waiting) => n.retryOne params rounds now later entry waiting

end Node

/-- What happens to a node: a block is submitted, the deferred blocks are retried, the call that is
running goes on, old orphans are dropped, and the chain learns a header or is pruned. -/
inductive NodeOp where
  | submit (rounds : Nat) (now later : ℚ) (block : Block)
  | retry
  | advance (rounds : Nat) (now later : ℚ)
  | dropOrphans (now : ℚ)
  | addHeader (header : BlockHeader)
  | prune (keepBlocks : Int)

namespace Node

variable [Crypto] [ScanOrder Hash]

/-- One step of a node; there is none if a call is still running. -/
def step (params : ChainParams) (n : Node) : NodeOp → Option Node
  | .submit rounds now later block =>
      match n.task with
      | .idle => n.submitBlock params rounds now later block
      | _ => none
  | .retry =>
      match n.task with
      | .idle => some { n with task := .retrying n.premature }
      | _ => none
  | .advance rounds now later => n.advance params rounds now later
  | .dropOrphans now =>
      some { n with orphans := n.orphans.filter fun entry => !decide (600 < now - entry.since) }
  | .addHeader header =>
      (Call.run params n.chain (.addHeader header)).map fun c => { n with chain := c }
  | .prune keepBlocks =>
      (Call.run params n.chain (.prune keepBlocks)).map fun c => { n with chain := c }

omit [Crypto] [ScanOrder Hash] in
/-- A node with empty pools. -/
def start (c : Blockchain) : Node := ⟨c, [], [], .idle, []⟩

/-- Steps that a check lets through. -/
def follow (params : ChainParams) (check : Node → NodeOp → Bool) : Node → List NodeOp → Option Node
  | n, [] => some n
  | n, op :: ops =>
      if check n op then (n.step params op).bind fun n' => follow params check n' ops else none

/-- The states that allowed steps lead to, from a node with empty pools on a reachable chain. -/
inductive Runs (params : ChainParams) (allowed : Node → NodeOp → Prop) : Node → Prop where
  | start {c : Blockchain} : Reachable params c → Runs params allowed (start c)
  | step {n n' : Node} (op : NodeOp) : Runs params allowed n → allowed n op →
      n.step params op = some n' → Runs params allowed n'

theorem Runs.follow {params : ChainParams} {allowed : Node → NodeOp → Prop}
    {check : Node → NodeOp → Bool}
    (hcheck : ∀ n op, check n op = true → allowed n op) {n n' : Node} (h : Runs params allowed n)
    {ops : List NodeOp} (hops : n.follow params check ops = some n') : Runs params allowed n' := by
  induction ops generalizing n with
  | nil => exact Option.some.inj hops ▸ h
  | cons op ops ih =>
    rw [Node.follow] at hops
    split at hops
    · rename_i hop
      obtain ⟨n₁, hstep, hrest⟩ := Option.bind_eq_some_iff.mp hops
      exact ih (.step op h (hcheck n op hop) hstep) hrest
    · cases hops

end Node

/-! ## What a node owes -/

namespace PoolEvent

/-- A block is done with: it is stored or found invalid, it has waited too long, or the pool is
full. -/
def Settles (h : Hash) : PoolEvent → Prop
  | .answered hash .connected | .answered hash .sideBranch | .answered hash .duplicate
  | .answered hash .invalid => hash = h
  | .answered _ .premature | .answered _ .orphan => False
  | .expired hash | .evicted hash => hash = h

/-- A block was answered `PREMATURE`, and nothing since is done with it. -/
def Owed (h : Hash) : List PoolEvent → Prop
  | [] => False
  | event :: events => event = .answered h .premature ∨ (¬ event.Settles h ∧ Owed h events)

end PoolEvent

namespace Node

/-- Every block that is owed another attempt is deferred. -/
def NoneLost (n : Node) : Prop :=
  ∀ h, PoolEvent.Owed h n.events → ∃ entry ∈ n.premature, entry.hash = h

variable [Crypto]

/-- An orphan that is offered is not ahead of the clock, or it is deferred already. -/
def Timely (params : ChainParams) (n : Node) : NodeOp → Prop
  | .advance _ now _ => ∀ block ∈ n.task.offered,
      ¬ block.AheadOf params (wholeSeconds now) ∨ ∃ entry ∈ n.premature, entry.hash = block.hash
  | .submit _ _ _ _ | .retry | .dropOrphans _ | .addHeader _ | .prune _ => True

instance (params : ChainParams) (n : Node) : DecidablePred (n.Timely params)
  | .advance _ now _ => inferInstanceAs (Decidable (∀ block ∈ n.task.offered,
      ¬ block.AheadOf params (wholeSeconds now) ∨ ∃ entry ∈ n.premature, entry.hash = block.hash))
  | .submit _ _ _ _ | .retry | .dropOrphans _ | .addHeader _ | .prune _ => isTrue trivial

end Node

end ScarletCoin
