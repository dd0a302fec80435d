import ScarletCoin.Invariants.Headers
import ScarletCoin.Net.Download

/-!
# The queues of a peer

What is kept of the queues of a peer (`SyncPeer.Wf`): the times of requests are kept for what is in
flight and nothing else, at most `BLOCKS_IN_FLIGHT` blocks are, and what is queued is queued once
and not in flight. Each operation on the queues keeps it, and the batch that is taken out of a queue
is in order (`Asked.InOrder`).

The blocks that are handed out are the nodes on the way down from the best header
(`Reachable.download_cases`).
-/

set_option autoImplicit false

namespace ScarletCoin

open Toolkit

/-! ## A batch -/

section Batch

variable {c : Blockchain}

/-- What a batch out of a queue is made of. -/
structure Batched (c : Blockchain) (pending : List Hash) (queued : Finset Hash)
    (batch left : List Hash) : Prop where
  sublist : (batch ++ left).Sublist pending
  kept : ∀ h ∈ pending, h ∈ batch ∨ h ∈ left ∨ c.storage.hasBlock h = true
  missing : ∀ h ∈ batch, c.storage.hasBlock h = false
  room : queued.card ≤ BLOCKS_IN_FLIGHT → (queued ∪ batch.toFinset).card ≤ BLOCKS_IN_FLIGHT
  parents : ∀ before h after, batch = before ++ h :: after →
    ∀ parent, c.blockParent h = some parent →
    c.storage.hasBlock parent = true ∨ parent ∈ queued ∨ parent ∈ before

/-- Nothing is taken. -/
theorem Batched.rest (pending : List Hash) (queued : Finset Hash) :
    Batched c pending queued [] pending where
  sublist := List.Sublist.refl _
  kept := fun _ hh => .inr (.inl hh)
  missing := fun _ hh => absurd hh List.not_mem_nil
  room := fun hle => by simpa using hle
  parents := fun before h after heq => by simp at heq

/-- A stored block is passed over. -/
theorem Batched.skip {pending batch left : List Hash} {queued : Finset Hash} {blockHash : Hash}
    (h : Batched c pending queued batch left) (hstored : c.storage.hasBlock blockHash = true) :
    Batched c (blockHash :: pending) queued batch left where
  sublist := h.sublist.cons _
  kept := by
    intro k hk
    rcases List.mem_cons.mp hk with rfl | hk
    · exact .inr (.inr hstored)
    · exact h.kept k hk
  missing := h.missing
  room := h.room
  parents := h.parents

/-- A missing block is taken if its parent allows it. -/
theorem Batched.take {pending batch left : List Hash} {queued : Finset Hash} {blockHash : Hash}
    (h : Batched c pending (insert blockHash queued) batch left)
    (hroom : queued.card < BLOCKS_IN_FLIGHT) (hmissing : c.storage.hasBlock blockHash = false)
    (hparent : ∀ parent, c.blockParent blockHash = some parent →
      c.storage.hasBlock parent = true ∨ parent ∈ queued) :
    Batched c (blockHash :: pending) queued (blockHash :: batch) left where
  sublist := h.sublist.cons_cons _
  kept := by
    intro k hk
    rcases List.mem_cons.mp hk with rfl | hk
    · exact .inl List.mem_cons_self
    · exact (h.kept k hk).imp_left (List.mem_cons_of_mem _)
  missing := List.forall_mem_cons.mpr ⟨hmissing, h.missing⟩
  room := by
    intro _
    have hle := h.room (Nat.le_trans (Finset.card_insert_le _ _) hroom)
    rwa [List.toFinset_cons, Finset.union_insert, ← Finset.insert_union]
  parents := by
    intro before k after heq parent hp
    cases before with
    | nil =>
      obtain ⟨rfl, -⟩ := List.cons.inj heq
      exact (hparent parent hp).imp_right .inl
    | cons first before =>
      obtain ⟨rfl, htail⟩ := List.cons.inj heq
      rcases h.parents before k after htail parent hp with hstored | hqueued | hbefore
      · exact .inl hstored
      · rcases Finset.mem_insert.mp hqueued with rfl | hqueued
        · exact .inr (.inr List.mem_cons_self)
        · exact .inr (.inl hqueued)
      · exact .inr (.inr (List.mem_cons_of_mem _ hbefore))

/-- The loop makes a batch. -/
theorem nextBatch_batched (pending : List Hash) (queued : Finset Hash) :
    Batched c pending queued (nextBatch c pending queued).1 (nextBatch c pending queued).2 := by
  -- what is taken counts as queued for the rest of the loop
  induction pending generalizing queued with
  | nil => exact .rest [] queued
  | cons blockHash rest ih =>
    rw [nextBatch]
    split
    · exact .rest _ queued
    · rename_i hroom
      split
      · exact .rest _ queued
      · rename_i hparent
        split
        · rename_i hstored
          exact (ih queued).skip hstored
        · rename_i hmissing
          refine (ih (insert blockHash queued)).take (Nat.not_le.mp hroom)
            (Bool.not_eq_true _ ▸ hmissing) fun parent hp => ?_
          rw [hp, Option.any_some, Bool.and_eq_true, not_and_or] at hparent
          rcases hparent with hstored | hqueued
          · exact .inl (by simpa using hstored)
          · exact .inr (by simpa using hqueued)

end Batch

/-- A request is made once, for blocks that are neither stored nor in flight, within the limit; and
each block whose parent is known comes after it, unless the parent is stored or in flight from the
same peer. -/
structure Asked.InOrder (a : Asked) : Prop where
  nodup : a.batch.Nodup
  new : ∀ h ∈ a.batch, h ∉ a.inFlight ∧ a.chain.storage.hasBlock h = false
  room : a.inFlight.card + a.batch.length ≤ BLOCKS_IN_FLIGHT
  parents : ∀ before h after, a.batch = before ++ h :: after →
    ∀ parent, a.chain.blockParent h = some parent →
      a.chain.storage.hasBlock parent = true ∨ parent ∈ a.inFlight ∨ parent ∈ before

/-! ## A peer -/

namespace SyncPeer

variable {c : Blockchain} {p : SyncPeer}

/-- What is kept of a peer: the times are those of the requests in flight, of which there are few,
and what is queued is queued once and not in flight. -/
structure Wf (p : SyncPeer) : Prop where
  timed : ∀ h, h ∈ p.blockRequestedAt.map Prod.fst ↔ h ∈ p.requestedBlocks
  timedOnce : (p.blockRequestedAt.map Prod.fst).Nodup
  bounded : p.requestedBlocks.card ≤ BLOCKS_IN_FLIGHT
  apart : ∀ h ∈ p.pendingBlocks, h ∉ p.requestedBlocks
  once : p.pendingBlocks.Nodup

/-- A new peer. -/
theorem wf_new (id : Nat) : ({ id := id } : SyncPeer).Wf where
  timed := fun h => by simp
  timedOnce := List.nodup_nil
  bounded := Nat.zero_le _
  apart := fun h hh => absurd hh List.not_mem_nil
  once := List.nodup_nil

/-- The other fields do not matter. -/
theorem Wf.of_queues {p' : SyncPeer} (hp : p.Wf) (hpending : p'.pendingBlocks = p.pendingBlocks)
    (hrequested : p'.requestedBlocks = p.requestedBlocks)
    (htimes : p'.blockRequestedAt = p.blockRequestedAt) : p'.Wf where
  timed := by rw [htimes, hrequested]; exact hp.timed
  timedOnce := by rw [htimes]; exact hp.timedOnce
  bounded := by rw [hrequested]; exact hp.bounded
  apart := by rw [hpending, hrequested]; exact hp.apart
  once := by rw [hpending]; exact hp.once

theorem mem_forget_times {h k : Hash} :
    k ∈ (p.forget h).blockRequestedAt.map Prod.fst ↔
    k ∈ p.blockRequestedAt.map Prod.fst ∧ k ≠ h := by
  simp only [forget, List.mem_map, List.mem_filter, Bool.not_eq_true', beq_eq_false_iff_ne]
  constructor
  · rintro ⟨e, ⟨he, hne⟩, rfl⟩
    exact ⟨⟨e, he, rfl⟩, hne⟩
  · rintro ⟨⟨e, he, rfl⟩, hne⟩
    exact ⟨e, ⟨he, hne⟩, rfl⟩

theorem Wf.forget (hp : p.Wf) (h : Hash) : (p.forget h).Wf where
  timed := fun k => by
    rw [mem_forget_times, hp.timed, SyncPeer.forget, Finset.mem_erase, and_comm]
  timedOnce := hp.timedOnce.sublist (List.filter_sublist.map _)
  bounded := Nat.le_trans (Finset.card_le_card (Finset.erase_subset _ _)) hp.bounded
  apart := fun k hk hmem => hp.apart k hk (Finset.mem_of_mem_erase hmem)
  once := hp.once

theorem Wf.announce (hp : p.Wf) (orphans premature : List Hash) (h : Hash) :
    (p.announce c orphans premature h).Wf := by
  unfold SyncPeer.announce
  split
  · exact hp
  · split
    · exact hp
    · rename_i hnew
      obtain ⟨hflight, hqueued⟩ := not_or.mp hnew
      have hnot : h ∉ p.pendingBlocks := fun hmem => hqueued (List.contains_iff_mem.mpr hmem)
      refine ⟨hp.timed, hp.timedOnce, hp.bounded, fun k hk => ?_, ?_⟩
      · rcases List.mem_append.mp hk with hk | hk
        · exact hp.apart k hk
        · rw [List.mem_singleton.mp hk]
          exact hflight
      · rw [← List.concat_eq_append]
        exact List.Nodup.concat hnot hp.once

/-- The keys after a time was noted down: a new key goes to the end. -/
theorem setTime_keys (now : ℚ) (times : List (Hash × ℚ)) (h : Hash) :
    (setTime now times h).map Prod.fst =
      if h ∈ times.map Prod.fst then times.map Prod.fst else times.map Prod.fst ++ [h] := by
  have hknown : (times.any fun e => e.1 == h) = true ↔ h ∈ times.map Prod.fst := by
    rw [List.any_eq_true, List.mem_map]
    exact exists_congr fun e => and_congr_right fun _ => beq_iff_eq
  unfold setTime
  by_cases hmem : h ∈ times.map Prod.fst
  · rw [if_pos (hknown.mpr hmem), if_pos hmem, List.map_map]
    refine List.map_congr_left fun e _ => ?_
    by_cases heq : (e.1 == h) = true
    · rw [Function.comp_apply, if_pos heq]
      exact (beq_iff_eq.mp heq).symm
    · rw [Function.comp_apply, if_neg heq]
  · rw [if_neg (fun hany => hmem (hknown.mp hany)), if_neg hmem, List.map_append,
      List.map_singleton]

theorem mem_setTime {now : ℚ} {times : List (Hash × ℚ)} {h k : Hash} :
    k ∈ (setTime now times h).map Prod.fst ↔ k ∈ times.map Prod.fst ∨ k = h := by
  rw [setTime_keys]
  split
  · rename_i hmem
    exact ⟨.inl, fun hor => hor.elim (fun hk => hk) fun heq => heq ▸ hmem⟩
  · rw [List.mem_append, List.mem_singleton]

theorem setTime_nodup {now : ℚ} {times : List (Hash × ℚ)} {h : Hash}
    (hnodup : (times.map Prod.fst).Nodup) : ((setTime now times h).map Prod.fst).Nodup := by
  rw [setTime_keys]
  split
  · exact hnodup
  · rename_i hnew
    rw [← List.concat_eq_append]
    exact List.Nodup.concat hnew hnodup

theorem mem_foldl_setTime {now : ℚ} {batch : List Hash} {times : List (Hash × ℚ)} {k : Hash} :
    k ∈ (batch.foldl (setTime now) times).map Prod.fst ↔ k ∈ times.map Prod.fst ∨ k ∈ batch := by
  induction batch generalizing times with
  | nil => simp
  | cons h batch ih => rw [List.foldl_cons, ih, mem_setTime, List.mem_cons, or_assoc]

theorem foldl_setTime_nodup {now : ℚ} {batch : List Hash} {times : List (Hash × ℚ)}
    (hnodup : (times.map Prod.fst).Nodup) :
    ((batch.foldl (setTime now) times).map Prod.fst).Nodup := by
  induction batch generalizing times with
  | nil => exact hnodup
  | cons h batch ih => exact ih (setTime_nodup hnodup)

/-- Requesting the next batch keeps the queues. -/
theorem Wf.requestBlocks (hp : p.Wf) (now : ℚ) : (p.requestBlocks c now).Wf := by
  have hb : Batched c p.pendingBlocks p.requestedBlocks _ _ := nextBatch_batched _ _
  have hnodup := hp.once.sublist hb.sublist
  obtain ⟨-, hleft, hapart⟩ := List.nodup_append.mp hnodup
  refine ⟨fun h => ?_, foldl_setTime_nodup hp.timedOnce, hb.room hp.bounded,
    fun h hh hmem => ?_, hleft⟩
  · rw [SyncPeer.requestBlocks, mem_foldl_setTime, hp.timed, Finset.mem_union, List.mem_toFinset]
  · rcases Finset.mem_union.mp hmem with hold | hnew
    · exact hp.apart h (hb.sublist.mem (List.mem_append_right _ hh)) hold
    · exact hapart h (List.mem_toFinset.mp hnew) h hh rfl

/-- A request for blocks that is made for the next batch is in order. -/
theorem Wf.inOrder (hp : p.Wf) : (⟨p.id, p.requestedBlocks, c,
    (nextBatch c p.pendingBlocks p.requestedBlocks).1⟩ : Asked).InOrder := by
  have hb : Batched c p.pendingBlocks p.requestedBlocks _ _ := nextBatch_batched _ _
  have hnodup := (List.nodup_append.mp (hp.once.sublist hb.sublist)).1
  have hnew : ∀ h ∈ (nextBatch c p.pendingBlocks p.requestedBlocks).1, h ∉ p.requestedBlocks :=
    fun h hh => hp.apart h (hb.sublist.mem (List.mem_append_left _ hh))
  refine ⟨hnodup, fun h hh => ⟨hnew h hh, hb.missing h hh⟩, ?_, hb.parents⟩
  have hroom := hb.room hp.bounded
  rw [Finset.card_union_of_disjoint, List.toFinset_card_of_nodup hnodup] at hroom
  · exact hroom
  · exact Finset.disjoint_right.mpr fun h hh => hnew h (List.mem_toFinset.mp hh)

/-- Releasing a request keeps the queues. -/
theorem Wf.requeued (hp : p.Wf) {h : Hash} (hh : h ∈ p.requestedBlocks) :
    ({ p.forget h with pendingBlocks := p.pendingBlocks ++ [h] } : SyncPeer).Wf := by
  have hnot : h ∉ p.pendingBlocks := fun hmem => hp.apart h hmem hh
  have hforget := hp.forget h
  refine ⟨hforget.timed, hforget.timedOnce, hforget.bounded, fun k hk => ?_, ?_⟩
  · rcases List.mem_append.mp hk with hk | hk
    · exact hforget.apart k hk
    · rw [List.mem_singleton.mp hk]
      exact Finset.notMem_erase h _
  · rw [← List.concat_eq_append]
    exact List.Nodup.concat hnot hp.once

/-- What is kept of a peer when no block goes into flight. -/
structure Kept (p p' : SyncPeer) : Prop where
  wf : p.Wf → p'.Wf
  id : p'.id = p.id
  fewer : p'.requestedBlocks ⊆ p.requestedBlocks

theorem Kept.of_queues {p' : SyncPeer} (hid : p'.id = p.id)
    (hpending : p'.pendingBlocks = p.pendingBlocks)
    (hrequested : p'.requestedBlocks = p.requestedBlocks)
    (htimes : p'.blockRequestedAt = p.blockRequestedAt) : p.Kept p' where
  wf := fun hp => hp.of_queues hpending hrequested htimes
  id := hid
  fewer := by rw [hrequested]

theorem forget_kept (p : SyncPeer) (h : Hash) : p.Kept (p.forget h) where
  wf := fun hp => hp.forget h
  id := rfl
  fewer := Finset.erase_subset _ _

theorem announce_kept (c : Blockchain) (orphans premature : List Hash) (p : SyncPeer) (h : Hash) :
    p.Kept (p.announce c orphans premature h) := by
  have hflight : (p.announce c orphans premature h).id = p.id ∧
      (p.announce c orphans premature h).requestedBlocks = p.requestedBlocks := by
    rw [SyncPeer.announce]
    split
    · exact ⟨rfl, rfl⟩
    · split
      · exact ⟨rfl, rfl⟩
      · exact ⟨rfl, rfl⟩
  refine ⟨fun hp => hp.announce orphans premature h, hflight.1, ?_⟩
  rw [hflight.2]

/-- One item after the other. -/
theorem Kept.foldl {α : Type} {f : SyncPeer → α → SyncPeer}
    (hf : ∀ (p : SyncPeer) a, p.Kept (f p a))
    (items : List α) (p : SyncPeer) : p.Kept (items.foldl f p) := by
  induction items generalizing p with
  | nil => exact .of_queues rfl rfl rfl rfl
  | cons a items ih =>
    have hfirst := hf p a
    have hrest := ih (f p a)
    exact ⟨fun hp => hrest.wf (hfirst.wf hp), hrest.id.trans hfirst.id,
      hrest.fewer.trans hfirst.fewer⟩

/-- What releasing the stale requests does to a peer. -/
structure Released (now : ℚ) (p p' : SyncPeer) : Prop where
  wf : p'.Wf
  handshake : p'.handshakeDone = p.handshakeDone
  id : p'.id = p.id
  fewer : p'.requestedBlocks ⊆ p.requestedBlocks
  fresh : ∀ e ∈ p'.blockRequestedAt, now - e.2 ≤ BLOCK_STALL_TIMEOUT
  kept : ∀ h, h ∈ p.pendingBlocks ∨ h ∈ p.requestedBlocks → h ∈ p'.pendingBlocks ∨
    h ∈ p'.requestedBlocks

theorem Wf.release (hp : p.Wf) (now : ℚ) : Released now p (p.release now) := by
  -- the list of stale requests is made before the loop, which ends when no other is stale
  have hfold : ∀ (stale : List Hash) (q : SyncPeer), stale.Nodup → q.Wf →
      (∀ h ∈ stale, h ∈ q.requestedBlocks) →
      (∀ e ∈ q.blockRequestedAt, BLOCK_STALL_TIMEOUT < now - e.2 → e.1 ∈ stale) →
      Released now q (stale.foldl (fun q h =>
        { q.forget h with pendingBlocks := q.pendingBlocks ++ [h] }) q) := by
    intro stale
    induction stale with
    | nil =>
      intro q _ hq _ hstale
      exact ⟨hq, rfl, rfl, Finset.Subset.refl _,
        fun e he => not_lt.mp fun hlt => List.not_mem_nil (hstale e he hlt), fun h hh => hh⟩
    | cons h stale ih =>
      intro q hnodup hq hin hstale
      obtain ⟨hnot, hnodup⟩ := List.nodup_cons.mp hnodup
      have hr := ih _ hnodup (hq.requeued (hin h List.mem_cons_self)) (fun k hk =>
        Finset.mem_erase.mpr ⟨fun heq => hnot (heq ▸ hk), hin k (List.mem_cons_of_mem _ hk)⟩)
        fun e he hlt => by
          obtain ⟨he, hne⟩ := List.mem_filter.mp he
          have hmem := hstale e he hlt
          rcases List.mem_cons.mp hmem with heq | hmem
          · rw [heq, beq_self_eq_true] at hne
            cases hne
          · exact hmem
      refine ⟨hr.wf, hr.handshake, hr.id,
        fun k hk => Finset.mem_of_mem_erase (hr.fewer hk), hr.fresh, fun k hk => hr.kept k ?_⟩
      rcases hk with hk | hk
      · exact .inl (List.mem_append_left _ hk)
      · by_cases heq : k = h
        · exact .inl (List.mem_append_right _ (List.mem_singleton.mpr heq))
        · exact .inr (Finset.mem_erase.mpr ⟨heq, hk⟩)
  refine hfold (p.stale now) p (hp.timedOnce.sublist (List.filter_sublist.map _)) hp
    (fun h hh => ?_)
    fun e he hlt => List.mem_map.mpr ⟨e, List.mem_filter.mpr ⟨he, decide_eq_true hlt⟩, rfl⟩
  rw [← hp.timed]
  exact (List.filter_sublist.map _).mem hh

/-- Rebuilding a queue keeps the queues. -/
theorem Wf.requeue (hp : p.Wf) {missing run : List Hash} (hmissing : missing.Nodup)
    (hrun : run.Sublist missing) : (p.requeue missing run).Wf := by
  refine ⟨hp.timed, hp.timedOnce, hp.bounded, fun h hh => ?_, List.nodup_append.mpr
    ⟨(hmissing.sublist hrun).filter _, hp.once.filter _, ?_⟩⟩
  · rcases List.mem_append.mp hh with hh | hh
    · have hout : h ∉ p.requestedBlocks := by simpa using (List.mem_filter.mp hh).2
      exact hout
    · exact hp.apart h (List.mem_filter.mp hh).1
  · rintro a ha b hb rfl
    have hin := hrun.mem (List.mem_filter.mp ha).1
    have hout := (Bool.and_eq_true _ _).mp (List.mem_filter.mp hb).2
    rw [List.contains_iff_mem.mpr hin] at hout
    cases hout.1

end SyncPeer

/-! ## What is missing -/

section Missing

/-- The nodes on the way down to the first stored block have distinct hashes. -/
theorem Descent.hashes_nodup {s : Storage} {ns : List ChainNode} (h : Descent s ns) :
    (ns.map ChainNode.hash).Nodup := by
  -- a node is determined by its hash, and the heights fall on the way down
  have hlower : ∀ {ns : List ChainNode}, Descent s ns → ∀ n ∈ ns.head?, ∀ m ∈ ns.tail,
      m.height < n.height := by
    intro ns h
    induction h with
    | last _ _ _ _ => exact fun n _ m hm => absurd hm List.not_mem_nil
    | @step n m rest hrest _ _ _ hheight ih =>
      intro n' hn' k hk
      obtain rfl := Option.some.inj hn'
      rcases List.mem_cons.mp hk with rfl | hk
      · omega
      · have hlt := ih m rfl k hk
        omega
  induction h with
  | last _ _ _ _ => exact List.nodup_singleton _
  | @step n m rest hrest hn hmissing hprev hheight ih =>
    refine List.nodup_cons.mpr ⟨fun hmem => ?_, ih⟩
    obtain ⟨k, hk, heq⟩ := List.mem_map.mp hmem
    have hnode := (hrest.missing k hk).1
    rw [heq, hn] at hnode
    obtain rfl := Option.some.inj hnode
    exact Nat.lt_irrefl _ (hlower (.step hrest hn hmissing hprev hheight) n rfl n hk)

variable [Crypto] [ScanOrder Hash] {params : ChainParams} {c : Blockchain}

/-- What is to be downloaded: nothing, or what lies on the way down from the best header. -/
theorem Reachable.download_cases (h : Reachable params c) (limit : Nat) :
    c.headersToDownload limit = [] ∨ ∃ tip rest, c.headerTip = some tip ∧
      Descent c.storage (tip :: rest) ∧
      c.headersToDownload limit = (((tip :: rest).take limit).reverse).map ChainNode.hash := by
  obtain ⟨_, _, bs, -, -, hs⟩ := h.run
  obtain ⟨tip, htip⟩ := hs.headerTip
  cases hstored : c.storage.hasBlock tip.hash with
  | true =>
    left
    unfold Blockchain.headersToDownload
    rw [htip]
    cases limit with
    | zero => rfl
    | succ limit =>
      show (missingBelow c.storage (limit + 1) (some tip)).reverse = []
      rw [missingBelow, if_pos hstored, List.reverse_nil]
  | false =>
    obtain ⟨rest, hway, -⟩ :=
      Descent.exists_of_linked h.headersLinked (Blockchain.headerTip_node htip) hstored
    exact .inr ⟨tip, rest, htip, hway, Blockchain.headersToDownload_eq htip hway limit⟩

theorem Reachable.download_nodup (h : Reachable params c) (limit : Nat) :
    (c.headersToDownload limit).Nodup := by
  rcases h.download_cases limit with heq | ⟨tip, rest, -, hway, heq⟩
  · rw [heq]
    exact List.nodup_nil
  · rw [heq, List.map_reverse, List.nodup_reverse]
    exact hway.hashes_nodup.sublist ((List.take_sublist _ _).map _)

end Missing

end ScarletCoin
