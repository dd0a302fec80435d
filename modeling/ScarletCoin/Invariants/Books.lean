import ScarletCoin.Invariants.Eviction

/-!
# The books of the pool over runs

Whatever methods of the pool are called in whatever order, its indexes describe the same
transactions, and after a successful `add` these fit into the pool (`Mempool.books_kept`). The chain
that the pool looks at may be another one in every call.
-/

set_option autoImplicit false

namespace ScarletCoin

open Toolkit

section Books

variable [Crypto] [ScanOrder Hash]

/-- A call of a method that changes the pool. -/
inductive PoolCall where
  | add (chain : Blockchain) (now : Nat) (t : Transaction) (verifySignatures : Bool)
  | remove (txid : Hash) (withDescendants : Bool)
  | evictIfNeeded
  | clear
  | blockConnected (chain : Blockchain) (now : Nat → Nat) (block : Block)
  | blockDisconnected (chain : Blockchain) (now : Nat → Nat) (block : Block)

/-- The pool after a call that returns or raises. -/
def PoolCall.run (params : ChainParams) (p : Mempool) : PoolCall → Mempool
  | .add c now t verify => (p.add params c now t verify).1
  | .remove txid d => (p.remove txid d).1
  | .evictIfNeeded => p.evictIfNeeded
  | .clear => p.clear
  | .blockConnected c now b => (p.blockConnected params c now b).1
  | .blockDisconnected c now b => (p.blockDisconnected params c now b).1

namespace Mempool

variable {params : ChainParams} {p : Mempool}

omit [ScanOrder Hash] in
/-- Eviction leaves no more than the pool may hold. -/
theorem evictIfNeeded_fits (hp : p.Wf) : p.evictIfNeeded.totalBytes ≤ p.maxBytes := by
  have hprunes := evictIfNeeded_prunes p
  rw [(hprunes.wf hp).totalBytes_eq, Nat.cast_le, evictIfNeeded_values hp]
  exact sum_evict_le fun e he => (List.mem_insertionSort cheaper).mpr he

/-- The indexes agree, and the capacity is what it was. -/
structure Books (maxBytes : Nat) (p : Mempool) : Prop extends Wf p where
  limit : p.maxBytes = maxBytes

variable {maxBytes : Nat}

omit [ScanOrder Hash] in
theorem Books.prunes {q : Mempool} (hp : p.Books maxBytes) (h : Prunes p q) : q.Books maxBytes :=
  ⟨h.wf hp.toWf, (h.within hp.toWf).limit.trans hp.limit⟩

omit [ScanOrder Hash] in
theorem Books.remove (hp : p.Books maxBytes) (txid : Hash) (d : Bool) :
    (p.remove txid d).1.Books maxBytes := by
  have hrem := remove_removal hp.toWf txid d
  exact ⟨hrem.wf, hrem.within.limit.trans hp.limit⟩

/-- `add` keeps the books, and after it returned the pool fits. -/
theorem Books.add (hp : p.Books maxBytes) (c : Blockchain) (now : Nat) (t : Transaction)
    (verify : Bool) : (p.add params c now t verify).1.Books maxBytes ∧
      ∀ entry, (p.add params c now t verify).2 = .ok entry →
        (p.add params c now t verify).1.totalBytes ≤ maxBytes := by
  rcases p.add_cases params c now t verify with ⟨hsame, e, -, herror⟩ |
    ⟨fee, hjudge, ⟨-, hdropped, m, herror⟩ | ⟨-, hentered, -⟩⟩
  · rw [hsame, herror]
    exact ⟨hp, fun entry h => nomatch h⟩
  · rw [hdropped, herror]
    exact ⟨hp.prunes (p.removeAll_prunes (p.conflicts t)), fun entry h => nomatch h⟩
  · obtain ⟨-, hwf⟩ := hp.enter (judge_eq_ok.mp hjudge).1.absent fee now
    have hbooks :
        Books maxBytes (((p.removeAll (p.conflicts t)).rememberVerified t.txid).insertEntry
        (newcomer t fee now)) := ⟨hwf, (hp.prunes (p.removeAll_prunes (p.conflicts t))).limit⟩
    have hfits := evictIfNeeded_fits hwf
    rw [hentered]
    rw [hbooks.limit] at hfits
    exact ⟨hbooks.prunes (evictIfNeeded_prunes _), fun _ _ => hfits⟩

omit [ScanOrder Hash] in
theorem Books.clear (hp : p.Books maxBytes) : p.clear.Books maxBytes := ⟨clear_wf p, hp.limit⟩

/-- Every call keeps the books. -/
theorem Books.run (hp : p.Books maxBytes) (call : PoolCall) :
    (call.run params p).Books maxBytes := by
  have hevent : ∀ c now event, (p.onEvent params c now event).1.Books maxBytes := fun c now event =>
    onEvent_rule (Books maxBytes) (fun _ t now verify hq => (hq.add c now t verify).1)
      (fun _ txid d hq => hq.remove txid d) (fun _ hq => hq.clear) hp now event
  cases call with
  | add c now t verify => exact (hp.add c now t verify).1
  | remove txid d => exact hp.remove txid d
  | evictIfNeeded => exact hp.prunes (evictIfNeeded_prunes p)
  | clear => exact hp.clear
  | blockConnected c now b => exact hevent c now ⟨.connect, b, 0⟩
  | blockDisconnected c now b => exact hevent c now ⟨.disconnect, b, 0⟩

theorem Books.runs (hp : p.Books maxBytes) (calls : List PoolCall) :
    (calls.foldl (PoolCall.run params) p).Books maxBytes :=
  List.foldlRecOn calls (PoolCall.run params) hp fun _ hq call _ => hq.run call

/-- After every sequence of calls the indexes of the pool agree, and after an `add` that returns
they do and the pool fits. -/
theorem books_kept (params : ChainParams) (maxBytes : Nat) (calls : List PoolCall) :
    (calls.foldl (PoolCall.run params) (create maxBytes)).Wf ∧
    ∀ c now t verify q entry,
      (calls.foldl (PoolCall.run params) (create maxBytes)).add params c now t verify =
        (q, .ok entry) → q.Wf ∧ q.totalBytes ≤ maxBytes := by
  have hstart : (create maxBytes).Books maxBytes := ⟨create_wf maxBytes, rfl⟩
  have hbooks : (calls.foldl (PoolCall.run params) (create maxBytes)).Books maxBytes :=
    hstart.runs calls
  refine ⟨hbooks.toWf, fun c now t verify q entry hadd => ?_⟩
  have hafter : (Mempool.add _ params c now t verify).1.Books maxBytes ∧ _ :=
    hbooks.add c now t verify
  rw [hadd] at hafter
  exact ⟨hafter.1.toWf, hafter.2 entry rfl⟩

end Mempool

end Books

section Instances

attribute [local instance] Sample.crypto Sample.order

/-- A second transaction comes to a pool that has room for one. -/
theorem Mempool.books_kept_crowded : ∃ c q entry, Sample.chainAfter Sample.funded = some c ∧
    (Sample.crowded c).add REGTEST c 1 Sample.child true = (q, .ok entry) ∧ q.Wf ∧
    q.totalBytes ≤ 100 := by
  have hrun : ((Sample.chainAfter Sample.funded).any fun c =>
      ((Sample.crowded c).add REGTEST c 1 Sample.child true).2.toOption.isSome) = true := by
    decide +kernel
  obtain ⟨c, hc, hadded⟩ := (Option.any_eq_true _ _).mp hrun
  obtain ⟨entry, hentry⟩ := Option.isSome_iff_exists.mp hadded
  cases hadd : (Sample.crowded c).add REGTEST c 1 Sample.child true with
  | mk q answer =>
    rw [hadd] at hentry
    obtain rfl : answer = .ok entry := toOption_eq_some.mp hentry
    obtain ⟨-, hkept⟩ := Mempool.books_kept REGTEST 100 [.add c 0 Sample.dear true]
    obtain ⟨hwf, hfits⟩ := hkept c 1 Sample.child true q entry hadd
    exact ⟨c, q, entry, hc, hadd, hwf, hfits⟩

end Instances

end ScarletCoin
