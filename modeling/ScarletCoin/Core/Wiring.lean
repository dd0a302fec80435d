import ScarletCoin.Core.Mempool

/-!
# A chain with its pool

A node registers its pool as a listener of its chain (`Blockchain.add_listener`). When the active
chain has moved, `_notify` tells the listener of the disconnected blocks, the tip first, and then of
the connected ones, the lowest first; by then the chain stands at its new tip. The calls of
`Wired.run` are the operations on the pool, which may come at any time, the notifications one by
one, and the steps of the chain, which wait until the notifications of the step before are over,
since they hold its lock.
-/

set_option autoImplicit false

namespace ScarletCoin

open Toolkit

/-- A chain, the pool that listens to it and the notifications still to come. The pool is stale when
the chain has moved and no notification has come back since. -/
structure Wired where
  chain : Blockchain
  pool : Mempool
  pending : List Event
  stale : Bool

/-- What happens to a chain with its pool. -/
inductive WiredCall where
  | add (now : Nat) (t : Transaction) (verifySignatures : Bool)
  | remove (txid : Hash) (withDescendants : Bool)
  | notify (now : Nat → Nat)
  | submit (now : Nat) (block : Block)
  | round
  | addHeader (header : BlockHeader)
  | prune (keepBlocks : Int)

namespace Wired

variable [Crypto] [ScanOrder Hash]

omit [Crypto] [ScanOrder Hash] in
/-- The chain has changed; what the listeners were told since is to be delivered. -/
def move (w : Wired) (c : Blockchain) : Wired :=
  let events := c.notified.drop w.chain.notified.length
  ⟨c, w.pool, events, w.stale || !events.isEmpty⟩

/-- The first notification that is pending. An exception of the listener leaves `_notify`, and the
rest is not delivered. -/
def deliver (params : ChainParams) (w : Wired) (now : Nat → Nat) : Wired :=
  match w.pending with
  | [] => w
  | event :: events =>
      match w.pool.onEvent params w.chain now event with
      | (pool, .ok _) => ⟨w.chain, pool, events, false⟩
      | (pool, .error _) => ⟨w.chain, pool, [], true⟩

/-- The part of a call that concerns the chain: the first half of `add_block`, a round of the second
half, a header or pruning. -/
def stepChain (params : ChainParams) (c : Blockchain) : WiredCall → Blockchain
  | .submit now block =>
      match c.admitBlock params now block with
      | .ok (.answered c' _) => c'
      | .ok (.stored c' _) => c'
      | .error _ => c
  | .round =>
      match activateRound params ⟨c, false⟩ with
      | .next a => a.chain
      | .halt (c', _) => c'
  | .addHeader header =>
      match c.addHeader params header with
      | .ok (c', _) => c'
      | .error _ => c
  | .prune keepBlocks => (c.prune params keepBlocks).1
  | _ => c

/-- The chain and the pool after a call; there is none if the call has to wait. -/
def run (params : ChainParams) (w : Wired) (call : WiredCall) : Option Wired :=
  match call with
  | .add now t verify => some { w with pool := (w.pool.add params w.chain now t verify).1 }
  | .remove txid withDescendants => some { w with pool := (w.pool.remove txid withDescendants).1 }
  | .notify now => some (w.deliver params now)
  | call => if w.pending = [] then some (w.move (stepChain params w.chain call)) else none

/-- The chain and the pool after calls that a check lets through and none of which has to wait. -/
def follow (params : ChainParams) (check : Wired → WiredCall → Bool) :
    Wired → List WiredCall → Option Wired
  | w, [] => some w
  | w, call :: calls =>
      if check w call then (w.run params call).bind fun w' => follow params check w' calls else none

/-- A chain with a new pool. -/
def start (c : Blockchain) (maxBytes : Nat) : Wired := ⟨c, Mempool.create maxBytes, [], false⟩

/-- The states that allowed calls lead to, from a reachable chain with a new pool. -/
inductive Runs (params : ChainParams) (allowed : Wired → WiredCall → Prop) : Wired → Prop where
  | start {c : Blockchain} (maxBytes : Nat) : Reachable params c →
      Runs params allowed (start c maxBytes)
  | call {w w' : Wired} (call : WiredCall) : Runs params allowed w → allowed w call →
      w.run params call = some w' → Runs params allowed w'

/-- What a call does: an operation on the pool, a notification that comes back or raises, or a step
of the chain. -/
theorem run_cases {params : ChainParams} {w w' : Wired} {call : WiredCall}
    (h : w.run params call = some w') :
    (∃ now t verify, call = .add now t verify ∧
      w' = { w with pool := (w.pool.add params w.chain now t verify).1 }) ∨
    (∃ txid withDescendants, call = .remove txid withDescendants ∧
      w' = { w with pool := (w.pool.remove txid withDescendants).1 }) ∨
    (∃ now, call = .notify now ∧ w.pending = [] ∧ w' = w) ∨
    (∃ now event events, call = .notify now ∧ w.pending = event :: events ∧
      (((w.pool.onEvent params w.chain now event).2 = .ok () ∧
          w' = ⟨w.chain, (w.pool.onEvent params w.chain now event).1, events, false⟩) ∨
        (∃ e, (w.pool.onEvent params w.chain now event).2 = .error e ∧
          w' = ⟨w.chain, (w.pool.onEvent params w.chain now event).1, [], true⟩))) ∨
    (w.pending = [] ∧ w' = w.move (stepChain params w.chain call)) := by
  unfold run at h
  split at h
  · rename_i now t verify
    exact .inl ⟨now, t, verify, rfl, (Option.some.inj h).symm⟩
  · rename_i txid d
    exact .inr (.inl ⟨txid, d, rfl, (Option.some.inj h).symm⟩)
  · rename_i now
    obtain rfl := Option.some.inj h
    unfold deliver
    cases hpending : w.pending with
    | nil => exact .inr (.inr (.inl ⟨now, rfl, rfl, rfl⟩))
    | cons event events =>
      refine .inr (.inr (.inr (.inl ⟨now, event, events, rfl, rfl, ?_⟩)))
      dsimp only
      cases hon : w.pool.onEvent params w.chain now event with
      | mk pool answer =>
        cases answer with
        | ok u => exact .inl ⟨rfl, rfl⟩
        | error e => exact .inr ⟨e, rfl, rfl⟩
  · split at h
    · rename_i hpending
      exact .inr (.inr (.inr (.inr ⟨hpending, (Option.some.inj h).symm⟩)))
    · cases h

theorem Runs.follow {params : ChainParams} {allowed : Wired → WiredCall → Prop}
    {check : Wired → WiredCall → Bool} (hcheck : ∀ w call, check w call = true → allowed w call)
    {w w' : Wired} {calls : List WiredCall} (h : Runs params allowed w)
    (hcalls : w.follow params check calls = some w') : Runs params allowed w' := by
  induction calls generalizing w with
  | nil =>
    obtain rfl := Option.some.inj hcalls
    exact h
  | cons call calls ih =>
    unfold Wired.follow at hcalls
    split at hcalls
    · rename_i hok
      obtain ⟨w₁, hrun, hrest⟩ := Option.bind_eq_some_iff.mp hcalls
      exact ih (.call call h (hcheck w call hok) hrun) hrest
    · cases hcalls

end Wired

end ScarletCoin
