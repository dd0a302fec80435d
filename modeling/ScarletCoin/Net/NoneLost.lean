import ScarletCoin.Invariants.Runs
import ScarletCoin.Net.Deferred
import ScarletCoin.Sample

/-!
# No deferred block is lost

A block that is answered `PREMATURE` is owed another attempt until it is stored or found invalid,
has waited too long, or is evicted (`PoolEvent.Owed`). Submitting and retrying keep what is owed in
the pool: the parent of a deferred block is stored and stays so, hence a retry never answers
`ORPHAN` (`Node.Kept`). Connecting orphans does not defer a block that turns out to be ahead of the
clock; as long as none does, nothing is lost (`Node.Runs.noBlockLost`).
-/

set_option autoImplicit false

namespace ScarletCoin

open Toolkit

/-! ## Pools -/

section Pools

variable {pool : List Waiting} {entry e : Waiting} {h : Hash}

theorem mem_putWaiting (he : e ∈ putWaiting pool entry) : e = entry ∨ e ∈ pool := by
  unfold putWaiting at he
  split at he
  · obtain ⟨old, hold, rfl⟩ := List.mem_map.mp he
    split
    · exact .inl rfl
    · exact .inr hold
  · rcases List.mem_append.mp he with hold | hlast
    · exact .inr hold
    · exact .inl (List.mem_singleton.mp hlast)

/-- The hashes of a pool with a new entry. -/
theorem putWaiting_hashes (pool : List Waiting) (entry : Waiting) :
    (putWaiting pool entry).map Waiting.hash =
      if entry.hash ∈ pool.map Waiting.hash then pool.map Waiting.hash
      else pool.map Waiting.hash ++ [entry.hash] := by
  have hany : (pool.any fun e => e.hash == entry.hash) = true ↔
      entry.hash ∈ pool.map Waiting.hash := by
    simp only [List.any_eq_true, List.mem_map, beq_iff_eq]
  unfold putWaiting
  by_cases hmem : entry.hash ∈ pool.map Waiting.hash
  · rw [if_pos hmem, if_pos (hany.mpr hmem), List.map_map]
    refine List.map_congr_left fun e _ => ?_
    rw [Function.comp_apply]
    split
    · rename_i heq
      exact (beq_iff_eq.mp heq).symm
    · rfl
  · rw [if_neg hmem, if_neg (mt hany.mp hmem), List.map_append, List.map_singleton]

theorem putWaiting_nodup (hpool : (pool.map Waiting.hash).Nodup) :
    ((putWaiting pool entry).map Waiting.hash).Nodup := by
  rw [putWaiting_hashes]
  split
  · exact hpool
  · rename_i hnew
    exact List.nodup_append_comm.mp (List.nodup_cons.mpr ⟨hnew, hpool⟩)

theorem mem_putWaiting_hashes : h ∈ (putWaiting pool entry).map Waiting.hash ↔
    h = entry.hash ∨ h ∈ pool.map Waiting.hash := by
  rw [putWaiting_hashes]
  split
  · rename_i hold
    exact ⟨.inr, fun hh => hh.elim (fun heq => heq ▸ hold) id⟩
  · rw [List.mem_append, List.mem_singleton, or_comm]

theorem mem_popWaiting : e ∈ popWaiting pool h ↔ e ∈ pool ∧ e.hash ≠ h := by
  rw [popWaiting, List.mem_filter, Bool.not_eq_true', beq_eq_false_iff_ne]

end Pools

/-! ## What is owed -/

namespace PoolEvent

/-- What an answer leaves owed. -/
theorem owed_answered {h k : Hash} {status : BlockStatus} {events : List PoolEvent}
    (howed : Owed h (.answered k status :: events)) :
    (h = k ∧ status = .premature) ∨
    (Owed h events ∧ (h ≠ k ∨ status = .premature ∨ status = .orphan)) := by
  rcases howed with heq | ⟨hopen, howed⟩
  · injection heq with hk hstatus
    exact .inl ⟨hk.symm, hstatus⟩
  · refine .inr ⟨howed, ?_⟩
    by_cases hk : h = k
    · subst hk
      cases status with
      | premature => exact .inr (.inl rfl)
      | orphan => exact .inr (.inr rfl)
      | connected | sideBranch | duplicate | invalid => exact absurd rfl hopen
    · exact .inl hk

theorem owed_expired {h k : Hash} {events : List PoolEvent}
    (howed : Owed h (.expired k :: events)) : h ≠ k ∧ Owed h events := by
  rcases howed with heq | ⟨hopen, howed⟩
  · cases heq
  · exact ⟨fun hk => hopen hk.symm, howed⟩

theorem owed_evicted {h : Hash} {gone : List Waiting} {events : List PoolEvent}
    (howed : Owed h (gone.map (fun entry => .evicted entry.hash) ++ events)) :
    h ∉ gone.map Waiting.hash ∧ Owed h events := by
  induction gone with
  | nil => exact ⟨List.not_mem_nil, howed⟩
  | cons entry gone ih =>
    rcases howed with heq | ⟨hopen, howed⟩
    · cases heq
    · obtain ⟨hrest, howed⟩ := ih howed
      refine ⟨fun hmem => ?_, howed⟩
      rcases List.mem_cons.mp hmem with hk | hmem
      · exact hopen hk.symm
      · exact hrest hmem

end PoolEvent

/-! ## The invariant -/

/-- The deferred blocks that a call still goes through. -/
def Task.waiting : Task → List Waiting
  | .idle => []
  | .connecting _ _ rest => rest
  | .retrying waiting => waiting

section Runs

variable [Crypto] [ScanOrder Hash] {params : ChainParams}

/-- A stored block stays stored. -/
theorem Reachable.hasBlock_run {c c' : Blockchain} (h : Reachable params c) {op : Call}
    (hop : op.run params c = some c') {hash : Hash} (hstored : c.storage.hasBlock hash = true) :
    c'.storage.hasBlock hash = true := by
  obtain ⟨_, _, bs, -, -, hs⟩ := h.run
  obtain ⟨bs', htrace, -⟩ := Call.run_standing hs hop
  obtain ⟨n, hn⟩ := Storage.hasBlock_iff.mp hstored
  exact Storage.hasBlock_iff.mpr ⟨n, htrace.tree_mono hn⟩

namespace Node

/-- Deferred blocks stand under their own hashes, once each, on stored parents; a call goes through
blocks that are deferred, in the order of the pool; and what is owed is deferred. -/
structure Kept (params : ChainParams) (n : Node) : Prop where
  reachable : Reachable params n.chain
  keyed : ∀ entry ∈ n.premature, entry.hash = entry.block.hash ∧
    n.chain.storage.hasBlock entry.block.header.prevHash = true
  nodup : (n.premature.map Waiting.hash).Nodup
  waiting : n.task.waiting.Sublist n.premature
  noneLost : n.NoneLost

theorem Kept.start {c : Blockchain} (h : Reachable params c) : Kept params (Node.start c) where
  reachable := h
  keyed _ hentry := absurd hentry List.not_mem_nil
  nodup := List.nodup_nil
  waiting := List.Sublist.refl _
  noneLost _ howed := False.elim howed

/-- Steps that touch neither the deferred blocks nor what happened keep a node. -/
theorem Kept.of_call {n : Node} (h : n.Kept params) {c : Blockchain} {op : Call}
    (hop : op.run params n.chain = some c) {orphans : List Waiting} {task : Task}
    (htask : task.waiting.Sublist n.premature) :
    Kept params ⟨c, orphans, n.premature, task, n.events⟩ where
  reachable := .call op h.reachable hop
  keyed entry hentry :=
    have ⟨hhash, hparent⟩ := h.keyed entry hentry
    ⟨hhash, h.reachable.hasBlock_run hop hparent⟩
  nodup := h.nodup
  waiting := htask
  noneLost := h.noneLost

/-- Steps that touch the orphans and the task alone keep a node. -/
theorem Kept.of_task {n : Node} (h : n.Kept params) {orphans : List Waiting} {task : Task}
    (htask : task.waiting.Sublist n.premature) :
    Kept params ⟨n.chain, orphans, n.premature, task, n.events⟩ where
  reachable := h.reachable
  keyed := h.keyed
  nodup := h.nodup
  waiting := htask
  noneLost := h.noneLost

/-- What offering a block does. -/
theorem offer_cases {rounds : Nat} {now : ℚ} {n n' : Node} {block : Block}
    {answer : Except PyError AddBlockResult}
    (h : n.offer params rounds now block = some (n', answer)) :
    ∃ c, Call.run params n.chain (.addBlock rounds (wholeSeconds now) block) = some c ∧
      ((∃ result, answer = .ok result ∧
          n.chain.Tells params (wholeSeconds now) block result.status ∧
          n' = ⟨c, n.orphans, n.premature, n.task,
            .answered block.hash result.status :: n.events⟩) ∨
        (∃ e, answer = .error e ∧ n' = ⟨c, n.orphans, n.premature, n.task, n.events⟩)) := by
  obtain ⟨⟨c, outcome⟩, hadd, heq⟩ := Option.map_eq_some_iff.mp h
  refine ⟨c, Option.map_eq_some_iff.mpr ⟨_, hadd, rfl⟩, ?_⟩
  cases outcome with
  | ok result =>
    obtain ⟨rfl, rfl⟩ := Prod.mk.inj heq
    exact .inl ⟨result, rfl, Blockchain.addBlock_tells hadd, rfl⟩
  | error e =>
    obtain ⟨rfl, rfl⟩ := Prod.mk.inj heq
    exact .inr ⟨e, rfl, rfl⟩

/-- An answer that defers nothing keeps a node, unless the block would have to be deferred. -/
theorem Kept.answered {n : Node} (h : n.Kept params) {c : Blockchain} {op : Call}
    (hop : op.run params n.chain = some c) {hash : Hash} {status : BlockStatus}
    (hstatus : status ≠ .premature ∨ ∃ entry ∈ n.premature, entry.hash = hash)
    {orphans : List Waiting} {task : Task} (htask : task.waiting.Sublist n.premature) :
    Kept params ⟨c, orphans, n.premature, task, .answered hash status :: n.events⟩ :=
  have hcalled : Kept params ⟨c, orphans, n.premature, task, n.events⟩ := h.of_call hop htask
  { hcalled with
    noneLost := by
      intro k howed
      rcases PoolEvent.owed_answered howed with ⟨rfl, rfl⟩ | ⟨howed, -⟩
      · exact hstatus.resolve_left fun hne => hne rfl
      · exact h.noneLost k howed }

/-- An answer `PREMATURE` to a block that is then deferred keeps a node. -/
theorem Kept.deferred {n : Node} (h : n.Kept params) {c : Blockchain} {op : Call}
    (hop : op.run params n.chain = some c) {block : Block}
    (hparent : n.chain.storage.hasBlock block.header.prevHash = true) (hidle : n.task = .idle)
    (now : ℚ) : Kept params (deferPremature ⟨c, n.orphans, n.premature, n.task,
      .answered block.hash .premature :: n.events⟩ block now) := by
  unfold deferPremature
  dsimp only
  generalize excess (putWaiting n.premature ⟨block.hash, block, now⟩) = gone
  have hhashes : ∀ k, k ∈ (putWaiting n.premature ⟨block.hash, block, now⟩).map Waiting.hash ↔
      k = block.hash ∨ k ∈ n.premature.map Waiting.hash := fun k => mem_putWaiting_hashes
  exact {
    reachable := .call op h.reachable hop
    keyed := by
      intro entry hentry
      rcases mem_putWaiting (List.mem_of_mem_drop hentry) with rfl | hold
      · exact ⟨rfl, h.reachable.hasBlock_run hop hparent⟩
      · obtain ⟨hhash, hold⟩ := h.keyed entry hold
        exact ⟨hhash, h.reachable.hasBlock_run hop hold⟩
    nodup := ((List.drop_sublist _ _).map _).nodup (putWaiting_nodup h.nodup)
    waiting := by
      rw [hidle]
      exact List.nil_sublist _
    noneLost := by
      intro k howed
      obtain ⟨hkept, howed⟩ := PoolEvent.owed_evicted howed
      have hmem := (hhashes k).mpr <| by
        rcases PoolEvent.owed_answered howed with ⟨hk, -⟩ | ⟨howed, -⟩
        · exact .inl hk
        · exact .inr (List.mem_map.mpr (h.noneLost k howed))
      rw [← List.take_append_drop gone (putWaiting n.premature _), List.map_append] at hmem
      exact List.mem_map.mp ((List.mem_append.mp hmem).resolve_left hkept) }

/-- A retried block that is done with leaves the pool. -/
theorem Kept.popped {n : Node} (h : n.Kept params) {c : Blockchain} {op : Call}
    (hop : op.run params n.chain = some c) {entry : Waiting} {waiting : List Waiting} {task : Task}
    (htask : n.task.waiting = entry :: waiting) (hnext : task.waiting = waiting)
    {events : List PoolEvent}
    (hevents : ∀ k, PoolEvent.Owed k events → k ≠ entry.hash ∧ PoolEvent.Owed k n.events) :
    Kept params ⟨c, n.orphans, popWaiting n.premature entry.hash, task, events⟩ where
  reachable := .call op h.reachable hop
  keyed e he :=
    have ⟨hhash, hparent⟩ := h.keyed e (mem_popWaiting.mp he).1
    ⟨hhash, h.reachable.hasBlock_run hop hparent⟩
  nodup := (List.filter_sublist.map _).nodup h.nodup
  waiting := by
    have hsub := h.waiting
    rw [htask] at hsub
    have hnodup := (hsub.map Waiting.hash).nodup h.nodup
    -- the other blocks of the round have other hashes
    have hrest : (entry :: waiting).filter (fun e => !(e.hash == entry.hash)) = waiting := by
      rw [List.filter_cons_of_neg (by simp)]
      refine List.filter_eq_self.mpr fun e he => ?_
      have hne : e.hash ≠ entry.hash := fun heq =>
        (List.nodup_cons.mp hnodup).1 (heq ▸ List.mem_map_of_mem he)
      rw [Bool.not_eq_true', beq_eq_false_iff_ne]
      exact hne
    have hfiltered := hsub.filter fun e => !(e.hash == entry.hash)
    rw [hrest] at hfiltered
    rw [hnext]
    exact hfiltered
  noneLost := by
    intro k howed
    obtain ⟨hne, howed⟩ := hevents k howed
    obtain ⟨e, he, rfl⟩ := h.noneLost k howed
    exact ⟨e, mem_popWaiting.mpr ⟨he, hne⟩, rfl⟩

/-! ## Steps -/

theorem Kept.submitBlock {n n' : Node} (h : n.Kept params) (hidle : n.task = .idle) {rounds : Nat}
    {now later : ℚ} {block : Block}
    (hstep : n.submitBlock params rounds now later block = some n') : n'.Kept params := by
  obtain ⟨⟨n₁, answer⟩, hoffer, rfl⟩ := Option.map_eq_some_iff.mp hstep
  obtain ⟨c, hop, ⟨result, rfl, htells, rfl⟩ | ⟨e, rfl, rfl⟩⟩ := offer_cases hoffer
  · dsimp only
    cases hstatus : result.status with
    | orphan => exact h.answered hop (.inl BlockStatus.noConfusion) h.waiting
    | premature =>
      rw [hstatus] at htells
      have hparent := htells.1
      rw [Storage.getEntry, Option.isSome_map] at hparent
      exact h.deferred hop hparent hidle later
    | invalid => exact h.answered hop (.inl BlockStatus.noConfusion) h.waiting
    | connected | sideBranch | duplicate =>
      exact h.answered hop (.inl BlockStatus.noConfusion) (List.nil_sublist _)
  · exact h.of_call hop h.waiting

/-- Connecting an orphan keeps a node if the orphan is not ahead of the clock. -/
theorem Kept.connectChild {n n' : Node} (h : n.Kept params) {rounds : Nat} {now : ℚ} {block : Block}
    {children : List Block} {pending : List Hash} {rest : List Waiting}
    (hrest : rest.Sublist n.premature)
    (htimely : ¬ block.AheadOf params (wholeSeconds now) ∨ ∃ entry ∈ n.premature,
      entry.hash = block.hash)
    (hstep : n.connectChild params rounds now block children pending rest = some n') :
    n'.Kept params := by
  obtain ⟨⟨n₁, answer⟩, hoffer, rfl⟩ := Option.map_eq_some_iff.mp hstep
  obtain ⟨c, hop, ⟨result, rfl, htells, rfl⟩ | ⟨e, rfl, rfl⟩⟩ := offer_cases hoffer
  · refine h.answered hop (htimely.imp_left fun htime hstatus => ?_) hrest
    rw [hstatus] at htells
    exact htime htells.2
  · exact h.of_call hop (List.nil_sublist _)

/-- What a retry does with an answer keeps a node. -/
theorem Kept.settle {n : Node} (h : n.Kept params) {c : Blockchain} {op : Call}
    (hop : op.run params n.chain = some c) {entry : Waiting} {waiting : List Waiting}
    (htask : n.task.waiting = entry :: waiting) (hmem : entry ∈ n.premature)
    (hhash : entry.hash = entry.block.hash) {result : AddBlockResult}
    (horphan : result.status ≠ .orphan) (later : ℚ) :
    Kept params (settle ⟨c, n.orphans, n.premature, n.task,
      .answered entry.block.hash result.status :: n.events⟩ entry result later waiting) := by
  have hsub := h.waiting
  rw [htask] at hsub
  have hrest : waiting.Sublist n.premature := (List.sublist_cons_self entry waiting).trans hsub
  have hafter : ∀ task : Task, task.waiting = waiting → Kept params ⟨c, n.orphans,
      if result.status ≠ .premature ∨
      1800 < later - entry.since then popWaiting n.premature entry.hash else n.premature, task,
      if 1800 < later - entry.since then
        .expired entry.hash :: .answered entry.block.hash result.status :: n.events
      else .answered entry.block.hash result.status :: n.events⟩ := by
    intro task hnext
    -- too old: popped, and its loss is noted
    by_cases hexpired : 1800 < later - entry.since
    · rw [if_pos (.inr hexpired), if_pos hexpired]
      refine h.popped hop htask hnext fun k howed => ?_
      obtain ⟨hne, howed⟩ := PoolEvent.owed_expired howed
      rcases PoolEvent.owed_answered howed with ⟨hk, -⟩ | ⟨howed, -⟩
      · exact absurd (hk.trans hhash.symm) hne
      · exact ⟨hne, howed⟩
    rw [if_neg hexpired]
    -- still premature: it stays; any other answer but `ORPHAN` settles it
    by_cases hpremature : result.status = .premature
    · rw [if_neg (by simp [hpremature, hexpired])]
      exact h.answered hop (.inr ⟨entry, hmem, hhash⟩) (hnext ▸ hrest)
    · rw [if_pos (.inl hpremature)]
      refine h.popped hop htask hnext fun k howed => ?_
      rcases PoolEvent.owed_answered howed with ⟨-, hstatus⟩ | ⟨howed, hne | hstatus | hstatus⟩
      · exact absurd hstatus hpremature
      · exact ⟨hhash ▸ hne, howed⟩
      · exact absurd hstatus hpremature
      · exact absurd hstatus horphan
  unfold Node.settle
  dsimp only
  split
  · exact hafter (.connecting [] [entry.hash] waiting) rfl
  · exact hafter (.retrying waiting) rfl

/-- Retrying a deferred block keeps a node: its parent is stored, so it is not answered `ORPHAN`. -/
theorem Kept.retryOne {n n' : Node} (h : n.Kept params) {rounds : Nat} {now later : ℚ}
    {entry : Waiting} {waiting : List Waiting} (htask : n.task.waiting = entry :: waiting)
    (hstep : n.retryOne params rounds now later entry waiting = some n') : n'.Kept params := by
  have hsub := h.waiting
  rw [htask] at hsub
  have hmem : entry ∈ n.premature := hsub.subset List.mem_cons_self
  obtain ⟨hhash, hparent⟩ := h.keyed entry hmem
  obtain ⟨⟨n₁, answer⟩, hoffer, rfl⟩ := Option.map_eq_some_iff.mp hstep
  obtain ⟨c, hop, ⟨result, rfl, htells, rfl⟩ | ⟨e, rfl, rfl⟩⟩ := offer_cases hoffer
  · have horphan : result.status ≠ .orphan := by
      intro hstatus
      rw [hstatus] at htells
      have hnone : n.chain.storage.getEntry entry.block.header.prevHash = none := htells
      rw [Storage.getEntry, Option.map_eq_none_iff] at hnone
      rw [Storage.hasBlock, hnone] at hparent
      cases hparent
    exact h.settle hop htask hmem hhash horphan later
  · exact h.of_call hop (List.nil_sublist _)

theorem Kept.advance {n n' : Node} (h : n.Kept params) {rounds : Nat} {now later : ℚ}
    (htimely : n.Timely params (.advance rounds now later))
    (hstep : n.advance params rounds now later = some n') : n'.Kept params := by
  have hsub := h.waiting
  unfold Node.advance at hstep
  cases htask : n.task with
  | idle =>
    rw [htask] at hstep
    cases hstep
  | connecting children pending rest =>
    rw [htask] at hstep hsub
    cases children with
    | cons block children =>
      exact h.connectChild hsub (htimely block (by rw [htask]; rfl)) hstep
    | nil =>
      cases pending with
      | cons current pending =>
        obtain rfl := Option.some.inj hstep
        exact h.of_task hsub
      | nil =>
        obtain rfl := Option.some.inj hstep
        exact h.of_task hsub
  | retrying waiting =>
    rw [htask] at hstep
    cases waiting with
    | nil =>
      obtain rfl := Option.some.inj hstep
      exact h.of_task (List.nil_sublist _)
    | cons entry waiting => exact h.retryOne (congrArg Task.waiting htask) hstep

/-- A timely step keeps a node. -/
theorem Kept.step {n n' : Node} (h : n.Kept params) {op : NodeOp} (htimely : n.Timely params op)
    (hstep : n.step params op = some n') : n'.Kept params := by
  cases op with
  | submit rounds now later block =>
    unfold Node.step at hstep
    cases htask : n.task with
    | idle =>
      rw [htask] at hstep
      exact h.submitBlock htask hstep
    | connecting | retrying =>
      rw [htask] at hstep
      cases hstep
  | retry =>
    unfold Node.step at hstep
    cases htask : n.task with
    | idle =>
      rw [htask] at hstep
      obtain rfl := Option.some.inj hstep
      exact h.of_task (List.Sublist.refl _)
    | connecting | retrying =>
      rw [htask] at hstep
      cases hstep
  | advance rounds now later => exact h.advance htimely hstep
  | dropOrphans now =>
    obtain rfl := Option.some.inj hstep
    exact h.of_task h.waiting
  | addHeader header =>
    obtain ⟨c, hop, rfl⟩ := Option.map_eq_some_iff.mp hstep
    exact h.of_call hop h.waiting
  | prune keepBlocks =>
    obtain rfl := Option.some.inj hstep
    have hop : Call.run params n.chain (.prune keepBlocks) =
      some (n.chain.prune params keepBlocks).1 := rfl
    exact h.of_call hop h.waiting

theorem Runs.kept {n : Node} (h : Runs params (Timely params) n) : n.Kept params := by
  induction h with
  | start hc => exact .start hc
  | step op _ htimely hstep ih => exact ih.step htimely hstep

/-- As long as no orphan that is offered is ahead of the clock, no deferred block is lost. -/
theorem Runs.noBlockLost {n : Node} (h : Runs params (Timely params) n) : n.NoneLost :=
  h.kept.noneLost

end Node

end Runs

/-! ## A block and its child -/

section Instances

attribute [local instance] Sample.crypto Sample.order

/-- A block on genesis. -/
def Sample.lowerBlock : Block := Sample.regtestBlock Sample.genesisHash 1 0

/-- A block on top of it, ten seconds later. -/
def Sample.upperBlock : Block := Sample.regtestBlock Sample.lowerBlock.hash 2 0

/-- The first moment at which the parent is not ahead of the clock. -/
def Sample.justInTime : ℚ := 1700000012 - 7200

/-- The node that checked steps lead to. -/
def Sample.nodeAfter (check : Node → NodeOp → Bool) (ops : List NodeOp) : Option Node :=
  (Blockchain.create REGTEST).toOption.bind fun c => (Node.start c).follow REGTEST check ops

theorem Sample.nodeAfter_runs {check : Node → NodeOp → Bool} {allowed : Node → NodeOp → Prop}
    (hcheck : ∀ n op, check n op = true → allowed n op) {ops : List NodeOp} {n : Node}
    (h : Sample.nodeAfter check ops = some n) : Node.Runs REGTEST allowed n := by
  obtain ⟨c, hcreate, hops⟩ := Option.bind_eq_some_iff.mp h
  exact (Node.Runs.start (.create (toOption_eq_some.mp hcreate))).follow hcheck hops

/-- The parent is deferred for a second; its child is connected after it. -/
theorem Node.noBlockLost_retried : ∃ n, Node.Runs REGTEST (Node.Timely REGTEST) n ∧
    PoolEvent.answered Sample.lowerBlock.hash .premature ∈ n.events ∧ n.NoneLost := by
  let ops : List NodeOp := [.submit 100 (Sample.justInTime - 1) Sample.justInTime Sample.lowerBlock,
    .submit 100 Sample.justInTime Sample.justInTime Sample.upperBlock, .retry,
    .advance 100 (Sample.justInTime + 10) (Sample.justInTime + 10),
    .advance 100 (Sample.justInTime + 10) (Sample.justInTime + 10),
    .advance 100 (Sample.justInTime + 10) (Sample.justInTime + 10)]
  have hrun : ((Sample.nodeAfter (fun n op => decide (n.Timely REGTEST op)) ops).any fun n =>
      decide (PoolEvent.answered Sample.lowerBlock.hash .premature ∈ n.events)) = true := by
    decide +kernel
  obtain ⟨n, hn, hanswered⟩ := (Option.any_eq_true _ _).mp hrun
  have hruns := Sample.nodeAfter_runs (fun _ _ => of_decide_eq_true) hn
  exact ⟨n, hruns, of_decide_eq_true hanswered, hruns.noBlockLost⟩

/-- The child waits as an orphan and is ahead of the clock when its parent comes: it is dropped. -/
theorem Node.not_noneLost_orphan : ∃ n, Node.Runs REGTEST (fun _ _ => True) n ∧ ¬ n.NoneLost := by
  let ops : List NodeOp := [.submit 100 Sample.justInTime Sample.justInTime Sample.upperBlock,
    .submit 100 Sample.justInTime Sample.justInTime Sample.lowerBlock,
    .advance 100 Sample.justInTime Sample.justInTime,
    .advance 100 Sample.justInTime Sample.justInTime]
  have hrun : ((Sample.nodeAfter (fun _ _ => true) ops).any fun n =>
      decide (n.events.head? = some (.answered Sample.upperBlock.hash .premature) ∧
        n.premature.length = 0)) = true := by
    decide +kernel
  obtain ⟨n, hn, hlost⟩ := (Option.any_eq_true _ _).mp hrun
  obtain ⟨hlast, hempty⟩ := of_decide_eq_true hlost
  refine ⟨n, Sample.nodeAfter_runs (fun _ _ _ => trivial) hn, fun hnone => ?_⟩
  obtain ⟨events, hevents⟩ := List.head?_eq_some_iff.mp hlast
  have howed : PoolEvent.Owed Sample.upperBlock.hash n.events := hevents ▸ .inl rfl
  obtain ⟨entry, hentry, -⟩ := hnone _ howed
  rw [List.length_eq_zero_iff.mp hempty] at hentry
  exact List.not_mem_nil hentry

end Instances

end ScarletCoin
