import ScarletCoin.Net.NoneLost
import ScarletCoin.Net.Queues

/-!
# What is in flight

What requesting blocks does to the peers (`Download.Moved`), and what a pass over the missing blocks
hands out (`Download.Rebuilt`). So in every run each request is made once, for blocks that are not
stored, and in the order in which the blocks build on one another (`Download.Runs.asked_inOrder`):
from a peer that answers in that order, no block comes before its parent
(`Download.Runs.parent_first`). And a pass over the missing blocks forgets none of them, leaves no
stale request, and asks for the lowest one unless the peer is busy (`Download.Runs.pass_covers`).
-/

set_option autoImplicit false

namespace ScarletCoin

open Toolkit

/-! ## How a peer moves on -/

namespace SyncPeer

variable {c : Blockchain} {now : ℚ} {p p' p'' : SyncPeer}

/-- No request of the peer is older than the timeout. -/
def Fresh (now : ℚ) (p : SyncPeer) : Prop :=
  ∀ e ∈ p.blockRequestedAt, now - e.2 ≤ BLOCK_STALL_TIMEOUT

/-- The peer has shaken hands, and the block is queued for it or in flight from it. -/
def Carries (p : SyncPeer) (h : Hash) : Prop :=
  p.handshakeDone = true ∧ (h ∈ p.pendingBlocks ∨ h ∈ p.requestedBlocks)

/-- What requesting blocks does to a peer: blocks move from the queue into flight. -/
structure Moved (c : Blockchain) (now : ℚ) (p p' : SyncPeer) : Prop where
  wf : p.Wf → p'.Wf
  id : p'.id = p.id
  handshake : p'.handshakeDone = p.handshakeDone
  requested : p.requestedBlocks ⊆ p'.requestedBlocks
  kept : ∀ h ∈ p.pendingBlocks, h ∈ p'.pendingBlocks ∨ h ∈ p'.requestedBlocks ∨
    c.storage.hasBlock h = true
  fresh : p.Fresh now → p'.Fresh now

/-- The other fields do not matter. -/
theorem Moved.of_queues (hid : p'.id = p.id) (hhandshake : p'.handshakeDone = p.handshakeDone)
    (hpending : p'.pendingBlocks = p.pendingBlocks)
    (hrequested : p'.requestedBlocks = p.requestedBlocks)
    (htimes : p'.blockRequestedAt = p.blockRequestedAt) : p.Moved c now p' where
  wf := fun hp => hp.of_queues hpending hrequested htimes
  id := hid
  handshake := hhandshake
  requested := by rw [hrequested]
  kept := fun h hh => .inl (hpending ▸ hh)
  fresh := fun hfresh => by rw [Fresh, htimes]; exact hfresh

theorem Moved.trans (h : p.Moved c now p') (h' : p'.Moved c now p'') : p.Moved c now p'' where
  wf := fun hp => h'.wf (h.wf hp)
  id := h'.id.trans h.id
  handshake := h'.handshake.trans h.handshake
  requested := h.requested.trans h'.requested
  kept := by
    intro k hk
    rcases h.kept k hk with hqueued | hflight | hstored
    · exact h'.kept k hqueued
    · exact .inr (.inl (h'.requested hflight))
    · exact .inr (.inr hstored)
  fresh := fun hfresh => h'.fresh (h.fresh hfresh)

theorem mem_setTime_cases {times : List (Hash × ℚ)} {h : Hash} {e : Hash × ℚ}
    (he : e ∈ setTime now times h) : e ∈ times ∨ e = (h, now) := by
  unfold setTime at he
  split at he
  · obtain ⟨e', he', rfl⟩ := List.mem_map.mp he
    split
    · exact .inr rfl
    · exact .inl he'
  · exact (List.mem_append.mp he).imp_right List.mem_singleton.mp

theorem requestBlocks_fresh (hfresh : p.Fresh now) : (p.requestBlocks c now).Fresh now := by
  have hfold : ∀ (batch : List Hash) (times : List (Hash × ℚ)),
      (∀ e ∈ times, now - e.2 ≤ BLOCK_STALL_TIMEOUT) →
      ∀ e ∈ batch.foldl (setTime now) times, now - e.2 ≤ BLOCK_STALL_TIMEOUT := by
    intro batch
    induction batch with
    | nil => exact fun times htimes => htimes
    | cons h batch ih =>
      intro times htimes
      refine ih _ fun e he => ?_
      rcases mem_setTime_cases he with he | rfl
      · exact htimes e he
      · rw [sub_self, BLOCK_STALL_TIMEOUT]
        norm_num
  exact hfold _ _ hfresh

theorem requestBlocks_moved (c : Blockchain) (now : ℚ) (p : SyncPeer) :
    p.Moved c now (p.requestBlocks c now) where
  wf := fun hp => hp.requestBlocks now
  id := rfl
  handshake := rfl
  requested := Finset.subset_union_left
  kept := by
    intro h hh
    rcases (nextBatch_batched (c := c) p.pendingBlocks p.requestedBlocks).kept h hh with
      htaken | hleft | hstored
    · exact .inr (.inl (Finset.mem_union_right _ (List.mem_toFinset.mpr htaken)))
    · exact .inl hleft
    · exact .inr (.inr hstored)
  fresh := requestBlocks_fresh

end SyncPeer

/-! ## What every event keeps -/

namespace Download

/-- What was asked of a peer, the oldest request first: each block with its parent, if that was
known. -/
def requestsOf (id : Nat) : List Asked → List (Hash × Option Hash)
  | [] => []
  | a :: older => requestsOf id older ++
      if a.peer = id then a.batch.map fun h => (h, a.chain.blockParent h) else []

/-- What was in flight from a peer when it was asked for more had been asked of it before. -/
def Linked : List Asked → Prop
  | [] => True
  | a :: older => (∀ h ∈ a.inFlight, h ∈ (requestsOf a.peer older).map Prod.fst) ∧ Linked older

/-- The requests made so far are those of the blocks in flight, and the chain has only grown
since. -/
structure Logged (d : Download) : Prop where
  ids : (d.peers.map SyncPeer.id).Nodup
  fresh : ∀ p ∈ d.peers, p.id < d.nextId
  flight : ∀ p ∈ d.peers, ∀ h ∈ p.requestedBlocks, h ∈ (requestsOf p.id d.asked).map Prod.fst
  linked : Linked d.asked
  older : ∀ a ∈ d.asked, ∀ h, a.chain.storage.hasBlock h = true → d.chain.storage.hasBlock h = true

section Log

variable {d d' : Download}

/-- Peers may go, and blocks be taken out of flight. -/
theorem Logged.of_peers (h : d.Logged) (hchain : d'.chain = d.chain) (hasked : d'.asked = d.asked)
    (hnext : d'.nextId = d.nextId)
    (hids : (d'.peers.map SyncPeer.id).Sublist (d.peers.map SyncPeer.id))
    (hpeers : ∀ p' ∈ d'.peers, ∃ p ∈ d.peers, p'.id = p.id ∧
      p'.requestedBlocks ⊆ p.requestedBlocks) :
    d'.Logged where
  ids := h.ids.sublist hids
  fresh := by
    intro p' hp'
    obtain ⟨p, hp, hid, -⟩ := hpeers p' hp'
    rw [hid, hnext]
    exact h.fresh p hp
  flight := by
    intro p' hp' k hk
    obtain ⟨p, hp, hid, hfewer⟩ := hpeers p' hp'
    rw [hid, hasked]
    exact h.flight p hp k (hfewer hk)
  linked := by rw [hasked]; exact h.linked
  older := by rw [hasked, hchain]; exact h.older

theorem update_ids {f : SyncPeer → SyncPeer} (hf : ∀ p, (f p).id = p.id) (d : Download) (id : Nat) :
    (d.update id f).peers.map SyncPeer.id = d.peers.map SyncPeer.id := by
  rw [Download.update, List.map_map]
  refine List.map_congr_left fun p _ => ?_
  rw [Function.comp_apply]
  split
  · exact hf p
  · rfl

theorem Logged.update (h : d.Logged) {f : SyncPeer → SyncPeer} (hid : ∀ p, (f p).id = p.id)
    (hfewer : ∀ p, (f p).requestedBlocks ⊆ p.requestedBlocks) (id : Nat) :
    (d.update id f).Logged := by
  refine h.of_peers rfl rfl rfl (by rw [update_ids hid]) fun p' hp' => ?_
  obtain ⟨p, hp, rfl⟩ := List.mem_map.mp hp'
  refine ⟨p, hp, ?_⟩
  split
  · exact ⟨hid p, hfewer p⟩
  · exact ⟨rfl, Finset.Subset.refl _⟩

/-- A request that is sent is noted down, with what goes into flight. -/
theorem Logged.noted (h : d.Logged) {p : SyncPeer} (hp : p ∈ d.peers) (now : ℚ) {asked : List Asked}
    (hasked : (asked = d.asked ∧ (nextBatch d.chain p.pendingBlocks p.requestedBlocks).1 = []) ∨
      asked = ⟨p.id, p.requestedBlocks, d.chain,
        (nextBatch d.chain p.pendingBlocks p.requestedBlocks).1⟩ :: d.asked) :
    Logged { d.update p.id (SyncPeer.requestBlocks d.chain now) with asked := asked } := by
  have hold : ∀ {id k}, k ∈ (requestsOf id d.asked).map Prod.fst →
      k ∈ (requestsOf id asked).map Prod.fst := by
    intro id k hk
    rcases hasked with ⟨rfl, -⟩ | rfl
    · exact hk
    · rw [requestsOf, List.map_append]
      exact List.mem_append_left _ hk
  have hnew : ∀ k ∈ (nextBatch d.chain p.pendingBlocks p.requestedBlocks).1,
      k ∈ (requestsOf p.id asked).map Prod.fst := by
    intro k hk
    rcases hasked with ⟨-, hnil⟩ | rfl
    · rw [hnil] at hk
      cases hk
    · rw [requestsOf, if_pos rfl, List.map_append, List.map_map]
      exact List.mem_append_right _ (List.mem_map.mpr ⟨k, hk, rfl⟩)
  refine ⟨?_, fun q' hq' => ?_, fun q' hq' k hk => ?_, ?_, ?_⟩
  · show ((d.update p.id (SyncPeer.requestBlocks d.chain now)).peers.map SyncPeer.id).Nodup
    rw [update_ids (f := SyncPeer.requestBlocks d.chain now) fun _ => rfl]
    exact h.ids
  · obtain ⟨q, hq, rfl⟩ := List.mem_map.mp hq'
    split
    · exact h.fresh q hq
    · exact h.fresh q hq
  · obtain ⟨q, hq, rfl⟩ := List.mem_map.mp hq'
    split at hk
    · rename_i hid
      -- the identities are distinct, so this is the peer that is asked
      obtain rfl := List.inj_on_of_nodup_map h.ids hq hp (beq_iff_eq.mp hid)
      rw [if_pos hid]
      rcases Finset.mem_union.mp hk with hk | hk
      · exact hold (h.flight q hq k hk)
      · exact hnew k (List.mem_toFinset.mp hk)
    · rename_i hid
      rw [if_neg hid]
      exact hold (h.flight q hq k hk)
  · rcases hasked with ⟨rfl, -⟩ | rfl
    · exact h.linked
    · exact ⟨h.flight p hp, h.linked⟩
  · rcases hasked with ⟨rfl, -⟩ | rfl
    · exact h.older
    · exact List.forall_mem_cons.mpr ⟨fun k hk => hk, h.older⟩

/-- A new peer has an identity of its own. -/
theorem Logged.register (h : d.Logged) :
    Logged { d with peers := d.peers ++ [{ id := d.nextId }], nextId := d.nextId + 1 } where
  ids := by
    rw [List.map_append, List.map_singleton, ← List.concat_eq_append]
    refine List.Nodup.concat (fun hmem => ?_) h.ids
    obtain ⟨p, hp, hid⟩ := List.mem_map.mp hmem
    exact Nat.lt_irrefl _ (hid ▸ h.fresh p hp)
  fresh := by
    intro p hp
    rcases List.mem_append.mp hp with hp | hp
    · exact Nat.lt_succ_of_lt (h.fresh p hp)
    · rw [List.mem_singleton.mp hp]
      exact Nat.lt_succ_self _
  flight := by
    intro p hp
    rcases List.mem_append.mp hp with hp | hp
    · exact h.flight p hp
    · rw [List.mem_singleton.mp hp]
      exact fun k hk => absurd hk (Finset.notMem_empty k)
  linked := h.linked
  older := h.older

/-- A block was asked for after its parent, unless that is stored by now. -/
theorem Logged.parent_before (h : d.Logged) (hasked : ∀ a ∈ d.asked, a.InOrder) {id : Nat}
    {before after : List (Hash × Option Hash)} {block parent : Hash}
    (hsplit : requestsOf id d.asked = before ++ (block, some parent) :: after) :
    d.chain.storage.hasBlock parent = true ∨ parent ∈ before.map Prod.fst := by
  -- by induction on the requests, from the newest to the oldest
  have hlinked := h.linked
  have holder := h.older
  generalize d.asked = asked at hasked hsplit hlinked holder
  induction asked generalizing after with
  | nil => exact absurd (congrArg List.length hsplit) (by simp [requestsOf])
  | cons a older ih =>
    obtain ⟨hinorder, hasked⟩ := List.forall_mem_cons.mp hasked
    obtain ⟨hgrown, holder⟩ := List.forall_mem_cons.mp holder
    rw [requestsOf] at hsplit
    have hnewest : ∀ within, before = requestsOf id older ++ within →
        (if a.peer = id then a.batch.map fun h => (h, a.chain.blockParent h) else []) =
          within ++ (block, some parent) :: after →
        d.chain.storage.hasBlock parent = true ∨ parent ∈ before.map Prod.fst := by
      rintro within rfl hnew
      rw [List.map_append, List.mem_append]
      split at hnew
      · rename_i hid
        obtain ⟨first, others, hbatch, rfl, hothers⟩ := List.map_eq_append_iff.mp hnew
        obtain ⟨k, last, rfl, hk, -⟩ := List.map_eq_cons_iff.mp hothers
        obtain ⟨rfl, hparent⟩ := Prod.mk.inj hk
        rcases hinorder.parents first k last hbatch parent hparent with hstored | hflight | hfirst
        · exact .inl (hgrown parent hstored)
        · exact .inr (.inl (hid ▸ hlinked.1 parent hflight))
        · refine .inr (.inr ?_)
          rw [List.map_map]
          exact List.mem_map.mpr ⟨parent, hfirst, rfl⟩
      · exact absurd (congrArg List.length hnew) (by simp)
    rcases List.append_eq_append_iff.mp hsplit with ⟨within, hbefore, hnew⟩ | ⟨rest, hold, hrest⟩
    · exact hnewest within hbefore hnew
    · cases rest with
      | nil => exact hnewest [] (by rw [List.append_nil, hold, List.append_nil]) hrest.symm
      | cons e rest =>
        obtain ⟨rfl, -⟩ := List.cons.inj hrest
        exact ih hasked hold hlinked.2 holder

end Log

/-- What requesting blocks does to a node. -/
structure Moved (now : ℚ) (d d' : Download) : Prop where
  chain : d'.chain = d.chain
  forth : ∀ p ∈ d.peers, ∃ p' ∈ d'.peers, p.Moved d.chain now p'
  back : ∀ p' ∈ d'.peers, ∃ p ∈ d.peers, p.Moved d.chain now p'
  asked : (∀ p ∈ d.peers, p.Wf) → (∀ a ∈ d.asked, a.InOrder) → ∀ a ∈ d'.asked, a.InOrder
  logged : d.Logged → d'.Logged

section Moves

variable {d d' d'' : Download} {now : ℚ}

theorem Moved.refl (now : ℚ) (d : Download) : Moved now d d where
  chain := rfl
  forth := fun p hp => ⟨p, hp, .of_queues rfl rfl rfl rfl rfl⟩
  back := fun p hp => ⟨p, hp, .of_queues rfl rfl rfl rfl rfl⟩
  asked := fun _ h => h
  logged := fun h => h

theorem Moved.wf (h : Moved now d d') (hwf : ∀ p ∈ d.peers, p.Wf) : ∀ p ∈ d'.peers, p.Wf := by
  intro p' hp'
  obtain ⟨p, hp, hmoved⟩ := h.back p' hp'
  exact hmoved.wf (hwf p hp)

theorem Moved.trans (h : Moved now d d') (h' : Moved now d' d'') : Moved now d d'' where
  chain := h'.chain.trans h.chain
  forth := by
    intro p hp
    obtain ⟨p', hp', hmoved⟩ := h.forth p hp
    obtain ⟨p'', hp'', hmoved'⟩ := h'.forth p' hp'
    rw [h.chain] at hmoved'
    exact ⟨p'', hp'', hmoved.trans hmoved'⟩
  back := by
    intro p'' hp''
    obtain ⟨p', hp', hmoved'⟩ := h'.back p'' hp''
    obtain ⟨p, hp, hmoved⟩ := h.back p' hp'
    rw [h.chain] at hmoved'
    exact ⟨p, hp, hmoved.trans hmoved'⟩
  asked := fun hwf hasked => h'.asked (h.wf hwf) (h.asked hwf hasked)
  logged := fun hlogged => h'.logged (h.logged hlogged)

theorem update_forth {f : SyncPeer → SyncPeer} (hf : ∀ p : SyncPeer, p.Moved d.chain now (f p))
    (id : Nat) : ∀ p ∈ d.peers, ∃ p' ∈ (d.update id f).peers, p.Moved d.chain now p' := by
  intro p hp
  refine ⟨_, List.mem_map_of_mem hp, ?_⟩
  split
  · exact hf p
  · exact .of_queues rfl rfl rfl rfl rfl

theorem update_back {f : SyncPeer → SyncPeer} (hf : ∀ p : SyncPeer, p.Moved d.chain now (f p))
    (id : Nat) : ∀ p' ∈ (d.update id f).peers, ∃ p ∈ d.peers, p.Moved d.chain now p' := by
  intro p' hp'
  obtain ⟨p, hp, rfl⟩ := List.mem_map.mp hp'
  refine ⟨p, hp, ?_⟩
  split
  · exact hf p
  · exact .of_queues rfl rfl rfl rfl rfl

/-- A change that leaves the queues alone. -/
theorem Moved.update {f : SyncPeer → SyncPeer} (hf : ∀ p : SyncPeer, p.Moved d.chain now (f p))
    (hflight : ∀ p, (f p).requestedBlocks = p.requestedBlocks) (id : Nat) :
    Moved now d (d.update id f) where
  chain := rfl
  forth := update_forth hf id
  back := update_back hf id
  asked := fun _ h => h
  logged := fun h => h.update (fun p => (hf p).id) (fun p => by rw [hflight p]) id

theorem send_moved (works : Nat → Bool) (now : ℚ) (d : Download) (id : Nat) :
    Moved now d (d.send works id).state := by
  unfold Download.send
  split
  · exact .refl now d
  · refine .update (fun p => ?_) (fun p => ?_) id
    · exact .of_queues rfl rfl rfl rfl rfl
    · rfl

theorem mem_of_peer {id : Nat} {p : SyncPeer} (hp : d.peer id = some p) : p ∈ d.peers ∧ p.id = id :=
  ⟨List.mem_of_find?_eq_some hp, by simpa using List.find?_some hp⟩

/-- Requesting blocks moves the next batch into flight, and notes the request down if there is
one. -/
theorem requestBlocks_after (works : Nat → Bool) (now : ℚ) {id : Nat} {p : SyncPeer}
    (hp : d.peer id = some p) :
    ∃ asked, ((asked = d.asked ∧ (nextBatch d.chain p.pendingBlocks p.requestedBlocks).1 = []) ∨
        asked = ⟨p.id, p.requestedBlocks, d.chain,
          (nextBatch d.chain p.pendingBlocks p.requestedBlocks).1⟩ :: d.asked) ∧
      Moved now { d.update p.id (SyncPeer.requestBlocks d.chain now) with asked := asked }
        (d.requestBlocks works now id).state := by
  obtain ⟨-, rfl⟩ := mem_of_peer hp
  unfold Download.requestBlocks
  rw [hp]
  dsimp only
  split
  · rename_i hnil
    exact ⟨d.asked, .inl ⟨rfl, hnil⟩, .refl now _⟩
  · -- the blocks are in flight before the message is sent, so they are if sending raises
    refine ⟨_, .inr rfl, ?_⟩
    generalize (⟨p.id, p.requestedBlocks, d.chain,
      (nextBatch d.chain p.pendingBlocks p.requestedBlocks).1⟩ : Asked) = a
    have hsent := send_moved works now { d.update p.id (SyncPeer.requestBlocks d.chain now) with
      asked := a :: d.asked } p.id
    generalize hhandled : Download.send works _ p.id = handled at hsent
    rw [show (d.update p.id (SyncPeer.requestBlocks d.chain now)).asked = d.asked from rfl,
      hhandled]
    obtain ⟨d', returned⟩ := handled
    cases returned with
    | true =>
      refine hsent.trans (.update (fun q => ?_) (fun q => ?_) p.id)
      · exact .of_queues rfl rfl rfl rfl rfl
      · rfl
    | false => exact hsent

theorem requestBlocks_moved (works : Nat → Bool) (now : ℚ) (d : Download) (id : Nat) :
    Moved now d (d.requestBlocks works now id).state := by
  cases hp : d.peer id with
  | none =>
    rw [Download.requestBlocks, hp]
    exact .refl now d
  | some p =>
    obtain ⟨asked, hasked, hmoved⟩ := requestBlocks_after works now hp
    have hmem := (mem_of_peer hp).1
    have hbatch := SyncPeer.requestBlocks_moved d.chain now
    have hnoted : Moved now d
        { d.update p.id (SyncPeer.requestBlocks d.chain now) with asked := asked } := by
      refine ⟨rfl, update_forth hbatch p.id, update_back hbatch p.id, fun hwf hold => ?_,
        fun hlogged => hlogged.noted hmem now hasked⟩
      rcases hasked with ⟨rfl, -⟩ | rfl
      · exact hold
      · exact List.forall_mem_cons.mpr ⟨(hwf p hmem).inOrder, hold⟩
    exact hnoted.trans hmoved

theorem requestAll_moved (works : Nat → Bool) (now : ℚ) (d : Download) (ids : List Nat) :
    Moved now d (d.requestAll works now ids).state := by
  induction ids generalizing d with
  | nil => exact .refl now d
  | cons id ids ih =>
    rw [requestAll]
    have hfirst := requestBlocks_moved works now d id
    generalize d.requestBlocks works now id = handled at hfirst ⊢
    obtain ⟨d', returned⟩ := handled
    cases returned with
    | true => exact hfirst.trans (ih d')
    | false => exact hfirst

theorem maybeSync_moved (works : Nat → Bool) (now : ℚ) (d : Download) (id : Nat) :
    Moved now d (d.maybeSync works id).state := by
  unfold Download.maybeSync
  split
  · exact send_moved works now d id
  · exact .refl now d

end Moves

/-! ## A pass over the missing blocks -/

end Download

section Rebuild

variable {missing : List Hash} {width : Nat} {now : ℚ}

theorem SyncPeer.release_keeps (now : ℚ) (p : SyncPeer) :
    (p.release now).handshakeDone = p.handshakeDone ∧ (p.release now).id = p.id := by
  unfold release
  generalize p.stale now = stale
  induction stale generalizing p with
  | nil => exact ⟨rfl, rfl⟩
  | cons h stale ih => exact ih _

/-- A peer that is handed a run of blocks carries it, and what it carried is carried or missing. -/
theorem SyncPeer.requeue_carries {p : SyncPeer} (hready : p.handshakeDone = true) {run : List Hash}
    {h : Hash}
    (hh : h ∈ run ∨ (h ∉ missing ∧ p.Carries h)) : (p.requeue missing run).Carries h := by
  refine ⟨hready, ?_⟩
  by_cases hflight : h ∈ p.requestedBlocks
  · exact .inr hflight
  · refine .inl (List.mem_append.mpr ?_)
    rcases hh with hrun | ⟨hnew, -, hqueued | hflight'⟩
    · exact .inl (List.mem_filter.mpr ⟨hrun, by simpa using hflight⟩)
    · exact .inr (List.mem_filter.mpr ⟨hqueued, by simp [hnew, hflight]⟩)
    · exact absurd hflight' hflight

/-- Each peer that is ready is handed a run of the missing blocks, and the others are left as they
are. -/
theorem mem_handOut {p' : SyncPeer} {peers : List SyncPeer} {index : Nat}
    (hp' : p' ∈ handOut missing width index peers) :
    ∃ p ∈ peers, (p.handshakeDone = false ∧ p' = p) ∨
      ∃ run, p.handshakeDone = true ∧ run.Sublist missing ∧ p' = p.requeue missing run := by
  induction peers generalizing index with
  | nil => cases hp'
  | cons p peers ih =>
    rw [handOut] at hp'
    split at hp'
    · rename_i hready
      rcases List.mem_cons.mp hp' with rfl | hp'
      · exact ⟨p, List.mem_cons_self, .inr ⟨_, hready,
          (List.take_sublist _ _).trans (List.drop_sublist _ _), rfl⟩⟩
      · obtain ⟨q, hq, hcases⟩ := ih hp'
        exact ⟨q, List.mem_cons_of_mem _ hq, hcases⟩
    · rename_i hnot
      rcases List.mem_cons.mp hp' with rfl | hp'
      · exact ⟨p', List.mem_cons_self, .inl ⟨Bool.not_eq_true _ ▸ hnot, rfl⟩⟩
      · obtain ⟨q, hq, hcases⟩ := ih hp'
        exact ⟨q, List.mem_cons_of_mem _ hq, hcases⟩

theorem handOut_ready (missing : List Hash) (width : Nat) {p : SyncPeer} {peers : List SyncPeer}
    (hp : p ∈ peers) (hready : p.handshakeDone = true) (index : Nat) :
    ∃ run, p.requeue missing run ∈ handOut missing width index peers := by
  induction peers generalizing index with
  | nil => cases hp
  | cons q peers ih =>
    rw [handOut]
    rcases List.mem_cons.mp hp with rfl | hp
    · rw [if_pos hready]
      exact ⟨_, List.mem_cons_self⟩
    · split
      · obtain ⟨run, hrun⟩ := ih hp (index + 1)
        exact ⟨run, List.mem_cons_of_mem _ hrun⟩
      · obtain ⟨run, hrun⟩ := ih hp index
        exact ⟨run, List.mem_cons_of_mem _ hrun⟩

theorem handOut_ids (peers : List SyncPeer) (index : Nat) :
    (handOut missing width index peers).map SyncPeer.id = peers.map SyncPeer.id := by
  induction peers generalizing index with
  | nil => rfl
  | cons p peers ih =>
    rw [handOut]
    split
    · rw [List.map_cons, List.map_cons, ih]
      rfl
    · rw [List.map_cons, List.map_cons, ih]

/-- The runs of the ready peers cover what is missing. -/
theorem handOut_covers {peers : List SyncPeer} {index : Nat} {h : Hash}
    (hlength : missing.length ≤ (index + (peers.filter SyncPeer.handshakeDone).length) * width)
    (hh : h ∈ missing.drop (index * width)) :
    ∃ p ∈ handOut missing width index peers, p.Carries h := by
  -- the first peer that is ready takes a run, and what is left after it is for the others
  induction peers generalizing index with
  | nil =>
    rw [List.filter_nil, List.length_nil, Nat.add_zero] at hlength
    rw [List.drop_of_length_le hlength] at hh
    cases hh
  | cons p peers ih =>
    rw [handOut]
    split
    · rename_i hready
      rw [List.filter_cons_of_pos hready, List.length_cons] at hlength
      rw [← List.take_append_drop width (missing.drop (index * width)), List.mem_append] at hh
      rcases hh with hh | hh
      · exact ⟨_, List.mem_cons_self, SyncPeer.requeue_carries hready (.inl hh)⟩
      · rw [List.drop_drop, ← Nat.succ_mul] at hh
        obtain ⟨q, hq, hcarries⟩ := ih (by rwa [Nat.succ_add, ← Nat.add_succ]) hh
        exact ⟨q, List.mem_cons_of_mem _ hq, hcarries⟩
    · rename_i hnot
      rw [List.filter_cons_of_neg hnot] at hlength
      obtain ⟨q, hq, hcarries⟩ := ih hlength hh
      exact ⟨q, List.mem_cons_of_mem _ hq, hcarries⟩

/-- The first peer that is ready is handed the lowest run. -/
theorem handOut_first {p : SyncPeer} {peers : List SyncPeer}
    (hp : peers.find? SyncPeer.handshakeDone = some p) (index : Nat) :
    p.requeue missing ((missing.drop (index * width)).take width) ∈ handOut missing width
    index peers := by
  induction peers with
  | nil => cases hp
  | cons q peers ih =>
    rw [handOut]
    by_cases hready : q.handshakeDone = true
    · rw [List.find?_cons_of_pos hready] at hp
      obtain rfl := Option.some.inj hp
      rw [if_pos hready]
      exact List.mem_cons_self
    · rw [List.find?_cons_of_neg hready] at hp
      rw [if_neg hready]
      exact List.mem_cons_of_mem _ (ih hp)

/-- A peer as the pass finds it once the stale requests are released. -/
theorem released_find (now : ℚ) (peers : List SyncPeer) :
    ((peers.map fun p => if p.handshakeDone then p.release now
      else p).find? SyncPeer.handshakeDone) =
      (peers.find? SyncPeer.handshakeDone).map (SyncPeer.release now) ∧
    ((peers.map fun p => if p.handshakeDone then p.release now
      else p).filter SyncPeer.handshakeDone).length =
      (peers.filter SyncPeer.handshakeDone).length := by
  induction peers with
  | nil => exact ⟨rfl, rfl⟩
  | cons p peers ih =>
    rw [List.map_cons]
    by_cases hready : p.handshakeDone = true
    · have hreleased := (SyncPeer.release_keeps now p).1.trans hready
      rw [if_pos hready, List.find?_cons_of_pos hreleased, List.find?_cons_of_pos hready,
        List.filter_cons_of_pos hreleased, List.filter_cons_of_pos hready, List.length_cons,
        List.length_cons, ih.2]
      exact ⟨rfl, rfl⟩
    · rw [if_neg hready, List.find?_cons_of_neg hready, List.find?_cons_of_neg hready,
        List.filter_cons_of_neg hready, List.filter_cons_of_neg hready]
      exact ih

end Rebuild

namespace Download

section Pass

variable {d : Download} {now : ℚ} {missing : List Hash}

/-- What the peers carry once the queues are rebuilt. -/
structure Rebuilt (now : ℚ) (missing : List Hash) (d d' : Download) : Prop where
  chain : d'.chain = d.chain
  asked : d'.asked = d.asked
  logged : d.Logged → d'.Logged
  peers : ∀ p ∈ d'.peers, p.Wf ∧ (p.handshakeDone = true → p.Fresh now)
  covers : ∀ h ∈ missing, ∃ p ∈ d'.peers, p.Carries h
  kept : ∀ p ∈ d.peers, ∀ h, p.Carries h → ∃ p' ∈ d'.peers, p'.Carries h
  first : ∀ p, d.peers.find? SyncPeer.handshakeDone = some p → ∀ lowest more,
    missing = lowest :: more →
    ∃ p' ∈ d'.peers, p'.id = p.id ∧
    (lowest ∈ p'.requestedBlocks ∨ ∃ rest, p'.pendingBlocks = lowest :: rest)

/-- What a peer is after its stale requests were released, if it is ready. -/
theorem of_released (hwf : ∀ p ∈ d.peers, p.Wf) {p' : SyncPeer}
    (hp' : p' ∈ d.peers.map fun p => if p.handshakeDone then p.release now else p) :
    p'.Wf ∧ (p'.handshakeDone = true → p'.Fresh now) ∧
      ∃ p ∈ d.peers, p'.id = p.id ∧ p'.requestedBlocks ⊆ p.requestedBlocks := by
  obtain ⟨p, hp, rfl⟩ := List.mem_map.mp hp'
  split
  · have hreleased := (hwf p hp).release now
    exact ⟨hreleased.wf, fun _ => hreleased.fresh, p, hp, hreleased.id, hreleased.fewer⟩
  · rename_i hnot
    exact ⟨hwf p hp, fun hready => absurd hready hnot, p, hp, rfl, Finset.Subset.refl _⟩

/-- Rebuilding the queues leaves what was asked as it is. -/
theorem Logged.handOut (h : d.Logged) (hwf : ∀ p ∈ d.peers, p.Wf) (now : ℚ) (missing : List Hash)
    (width : Nat) : Logged { d with
      peers := ScarletCoin.handOut missing width 0
        (d.peers.map fun p => if p.handshakeDone then p.release now else p) } := by
  refine h.of_peers rfl rfl rfl ?_ fun p' hp' => ?_
  · have hids :
        (d.peers.map fun p => if p.handshakeDone then p.release now else p).map SyncPeer.id =
        d.peers.map SyncPeer.id := by
      rw [List.map_map]
      refine List.map_congr_left fun p _ => ?_
      rw [Function.comp_apply]
      split
      · exact (SyncPeer.release_keeps now p).2
      · rfl
    rw [handOut_ids, hids]
  · obtain ⟨q, hq, ⟨-, rfl⟩ | ⟨run, -, -, rfl⟩⟩ := mem_handOut hp'
    · exact (of_released hwf hq).2.2
    · exact (of_released hwf hq).2.2

/-- Rebuilding the queues hands out everything that is missing and forgets nothing. -/
theorem rebuildQueues_rebuilt (hwf : ∀ p ∈ d.peers, p.Wf) (hnodup : missing.Nodup)
    (hready : d.peers.filter SyncPeer.handshakeDone ≠ []) (hmissing : missing ≠ []) :
    Rebuilt now missing d (d.rebuildQueues now missing) := by
  obtain ⟨hfind, hlength⟩ := released_find now d.peers
  have hn : 0 < (d.peers.filter SyncPeer.handshakeDone).length := List.length_pos_iff.mpr hready
  have hm : 0 < missing.length := List.length_pos_iff.mpr hmissing
  unfold Download.rebuildQueues
  dsimp only
  generalize (d.peers.filter SyncPeer.handshakeDone).length = n at hn hlength ⊢
  -- the runs are long enough to reach the end of the list, and none of them is empty
  have hreach : missing.length ≤ n * ((missing.length + n - 1) / n) := by
    have hdiv := Nat.div_add_mod (missing.length + n - 1) n
    have hmod := Nat.mod_lt (missing.length + n - 1) hn
    omega
  have hwidth : 0 < (missing.length + n - 1) / n := Nat.div_pos (by omega) hn
  generalize (missing.length + n - 1) / n = width at hreach hwidth ⊢
  have hcovers : ∀ h ∈ missing, ∃ p ∈ handOut missing width 0
      (d.peers.map fun p => if p.handshakeDone then p.release now else p), p.Carries h := by
    intro h hh
    refine handOut_covers (by rwa [hlength, Nat.zero_add]) ?_
    rwa [Nat.zero_mul, List.drop_zero]
  refine ⟨rfl, rfl, fun hlogged => hlogged.handOut hwf now missing width, fun p' hp' => ?_, hcovers,
    fun p hp h hh => ?_, fun p hp lowest more heq => ?_⟩
  · obtain ⟨p, hp, ⟨-, rfl⟩ | ⟨run, hdone, hrun, rfl⟩⟩ := mem_handOut hp'
    · obtain ⟨hp, hfresh, -⟩ := of_released hwf hp
      exact ⟨hp, hfresh⟩
    · obtain ⟨hp, hfresh, -⟩ := of_released hwf hp
      exact ⟨hp.requeue hnodup hrun, fun _ => hfresh hdone⟩
  · -- a missing block may have moved to another peer
    by_cases hmem : h ∈ missing
    · exact hcovers h hmem
    · have hreleased := (hwf p hp).release now
      have hdone := hreleased.handshake.trans hh.1
      have hfound : p.release now ∈ d.peers.map fun p => if p.handshakeDone then p.release now
          else p :=
        List.mem_map.mpr ⟨p, hp, if_pos hh.1⟩
      obtain ⟨run, hrun⟩ := handOut_ready missing width hfound hdone 0
      exact ⟨_, hrun, SyncPeer.requeue_carries hdone (.inr ⟨hmem, hdone, hreleased.kept h hh.2⟩)⟩
  · rw [hp] at hfind
    have hp := List.mem_of_find?_eq_some hp
    have hreleased := (hwf p hp).release now
    refine ⟨_, handOut_first hfind 0, hreleased.id, ?_⟩
    by_cases hflight : lowest ∈ (p.release now).requestedBlocks
    · exact .inl hflight
    · obtain ⟨k, rfl⟩ := Nat.exists_eq_add_of_lt hwidth
      have hrun : ((missing.drop (0 * (0 + k + 1))).take (0 + k + 1)).filter
          (fun b => !decide (b ∈ (p.release now).requestedBlocks)) =
          lowest :: (more.take (0 + k)).filter (fun b =>
            !decide (b ∈ (p.release now).requestedBlocks)) := by
        rw [Nat.zero_mul, List.drop_zero, heq, List.take_succ_cons,
          List.filter_cons_of_pos (by simpa using hflight)]
      exact .inr ⟨_, congrArg (fun run => run ++ _) hrun⟩

end Pass

variable [Crypto] [ScanOrder Hash] {params : ChainParams} {d d' : Download} {now : ℚ}

/-- What every event keeps: the chain is a reachable one, and so are the queues of the peers and the
requests as they should be. -/
structure Good (params : ChainParams) (d : Download) : Prop where
  reach : Reachable params d.chain
  peers : ∀ p ∈ d.peers, p.Wf
  asked : ∀ a ∈ d.asked, a.InOrder
  logged : d.Logged

theorem Good.moved (h : d.Good params) (hmoved : Moved now d d') : d'.Good params where
  reach := hmoved.chain ▸ h.reach
  peers := hmoved.wf h.peers
  asked := hmoved.asked h.peers h.asked
  logged := hmoved.logged h.logged

theorem Good.update (h : d.Good params) {f : SyncPeer → SyncPeer}
    (hf : ∀ p : SyncPeer, p.Kept (f p)) (id : Nat) : (d.update id f).Good params where
  reach := h.reach
  peers := by
    intro p' hp'
    obtain ⟨p, hp, rfl⟩ := List.mem_map.mp hp'
    split
    · exact (hf p).wf (h.peers p hp)
    · exact h.peers p hp
  asked := h.asked
  logged := h.logged.update (fun p => (hf p).id) (fun p => (hf p).fewer) id

theorem Good.unregister (h : d.Good params) (id : Nat) : (d.unregister id).Good params where
  reach := h.reach
  peers := fun p hp => h.peers p (List.mem_filter.mp hp).1
  asked := h.asked
  logged := h.logged.of_peers rfl rfl rfl (List.filter_sublist.map _)
    fun p hp => ⟨p, (List.mem_filter.mp hp).1, rfl, Finset.Subset.refl _⟩

/-- The chain moves on. -/
theorem Good.call (h : d.Good params) {op : Call} {c : Blockchain}
    (hc : op.run params d.chain = some c) : Good params { d with chain := c } where
  reach := h.reach.call op hc
  peers := h.peers
  asked := h.asked
  logged := ⟨h.logged.ids, h.logged.fresh, h.logged.flight, h.logged.linked,
    fun a ha k hk => h.reach.hasBlock_run hc (h.logged.older a ha k hk)⟩

theorem Good.settled {handled : Handled} (h : handled.state.Good params) (id : Nat) :
    (settled handled id).Good params := by
  unfold Download.settled
  split
  · exact h
  · exact h.unregister id

theorem Good.onInv (h : d.Good params) (works : Nat → Bool) (holds : Hash → Bool) (now : ℚ)
    (id : Nat) (items : List InvItem) : (d.onInv works holds now id items).state.Good params := by
  unfold Download.onInv
  dsimp only
  have hgood := h.update (SyncPeer.Kept.foldl (SyncPeer.announce_kept d.chain d.orphans d.premature)
    ((items.filter fun item => decide (item.type = .block)).map InvItem.hash)) id
  generalize d.update id _ = d₁ at hgood ⊢
  split
  · exact hgood.moved (requestBlocks_moved works now d₁ id)
  · have hsent := hgood.moved (send_moved works now d₁ id)
    generalize d₁.send works id = handled at hsent ⊢
    obtain ⟨d₂, returned⟩ := handled
    cases returned with
    | true => exact hsent.moved (requestBlocks_moved works now d₂ id)
    | false => exact hsent

/-- A pass rebuilds the queues and asks the peers that are ready one after the other. -/
theorem Good.pass (h : d.Good params) (now : ℚ)
    (hmissing : d.chain.headersToDownload DOWNLOAD_WINDOW ≠ [])
    (hready : d.peers.filter SyncPeer.handshakeDone ≠ []) :
    ∃ d', Rebuilt now (d.chain.headersToDownload DOWNLOAD_WINDOW) d d' ∧ ∀ works,
      d.queueMissingBlocks works now =
        d'.requestAll works now ((d.peers.filter SyncPeer.handshakeDone).map SyncPeer.id) :=
  ⟨_, rebuildQueues_rebuilt h.peers (h.reach.download_nodup _) hready hmissing, fun works => by
    rw [queueMissingBlocks]
    exact if_neg (not_or.mpr ⟨hmissing, hready⟩)⟩

theorem Good.queueMissingBlocks (h : d.Good params) (works : Nat → Bool) (now : ℚ) :
    (d.queueMissingBlocks works now).state.Good params := by
  by_cases hidle : d.chain.headersToDownload DOWNLOAD_WINDOW = [] ∨
    d.peers.filter SyncPeer.handshakeDone = []
  · rw [Download.queueMissingBlocks, if_pos hidle]
    exact h
  · obtain ⟨hmissing, hready⟩ := not_or.mp hidle
    obtain ⟨d', hrebuilt, heq⟩ := h.pass now hmissing hready
    have hgood : d'.Good params :=
      ⟨hrebuilt.chain ▸ h.reach, fun p hp => (hrebuilt.peers p hp).1, hrebuilt.asked ▸ h.asked,
        hrebuilt.logged h.logged⟩
    rw [heq works]
    exact hgood.moved (requestAll_moved works now d' _)

theorem Good.afterBlock (h : d.Good params) (works : Nat → Bool) (now : ℚ) (id : Nat)
    (status : BlockStatus) : (d.afterBlock works now id status).state.Good params := by
  unfold Download.afterBlock
  split
  · exact h
  · have hfirst :
        (if status = .orphan then d.maybeSync works id else ⟨d, true⟩).state.Good params := by
      split
      · exact h.moved (maybeSync_moved works now d id)
      · exact h
    generalize (if status = .orphan then d.maybeSync works id else ⟨d, true⟩) = handled at hfirst ⊢
    obtain ⟨d₁, returned⟩ := handled
    cases returned with
    | false => exact hfirst
    | true =>
      dsimp only
      generalize ((d₁.peer id).any fun p =>
        !(decide (p.requestedBlocks = ∅) && p.pendingBlocks.isEmpty)) = busy
      have hsecond : (if busy = true then d₁.requestBlocks works now id
          else d₁.maybeSync works id).state.Good params := by
        split
        · exact hfirst.moved (requestBlocks_moved works now d₁ id)
        · exact hfirst.moved (maybeSync_moved works now d₁ id)
      generalize (if busy = true then d₁.requestBlocks works now id else d₁.maybeSync works id) =
        handled at hsecond ⊢
      obtain ⟨d₂, returned⟩ := handled
      cases returned with
      | true => exact hsecond.queueMissingBlocks works now
      | false => exact hsecond

/-- One step keeps it. -/
theorem Good.step (h : d.Good params) {event : DownloadEvent}
    (hstep : d.step params event = some d') : d'.Good params := by
  cases event with
  | register =>
    obtain rfl := Option.some.inj hstep
    refine ⟨h.reach, fun p hp => ?_, h.asked, ?_⟩
    · rcases List.mem_append.mp hp with hp | hp
      · exact h.peers p hp
      · rw [List.mem_singleton.mp hp]
        exact SyncPeer.wf_new _
    · exact h.logged.register
  | handshake id =>
    obtain rfl := Option.some.inj hstep
    refine h.update (fun p => ?_) id
    exact .of_queues rfl rfl rfl rfl
  | close id =>
    obtain rfl := Option.some.inj hstep
    refine h.update (fun p => ?_) id
    exact .of_queues rfl rfl rfl rfl
  | unregister id =>
    obtain rfl := Option.some.inj hstep
    exact h.unregister id
  | inv works holds now id items =>
    obtain rfl := Option.some.inj hstep
    exact (h.onInv works holds now id items).settled id
  | notFound id items =>
    obtain rfl := Option.some.inj hstep
    exact h.update (SyncPeer.Kept.foldl (fun p item => p.forget_kept item.hash) items) id
  | block rounds clock id block =>
    obtain ⟨c, hc, rfl⟩ := Option.map_eq_some_iff.mp hstep
    exact (h.call hc).update (fun p => p.forget_kept block.hash) id
  | afterBlock works now id status =>
    obtain rfl := Option.some.inj hstep
    exact (h.afterBlock works now id status).settled id
  | queue works now id =>
    obtain rfl := Option.some.inj hstep
    exact (h.queueMissingBlocks works now).settled id
  | chain call =>
    obtain ⟨c, hc, rfl⟩ := Option.map_eq_some_iff.mp hstep
    exact h.call hc
  | pools orphans premature =>
    obtain rfl := Option.some.inj hstep
    exact ⟨h.reach, h.peers, h.asked, h.logged.of_peers rfl rfl rfl (List.Sublist.refl _)
      fun p hp => ⟨p, hp, rfl, Finset.Subset.refl _⟩⟩

/-- So every run keeps it. -/
theorem Runs.good {allowed : Download → DownloadEvent → Prop} (h : Runs params allowed d) :
    d.Good params := by
  induction h with
  | start hc =>
    exact ⟨hc, fun p hp => absurd hp List.not_mem_nil, fun a ha => absurd ha List.not_mem_nil,
      List.nodup_nil, fun p hp => absurd hp List.not_mem_nil,
      fun p hp => absurd hp List.not_mem_nil, trivial, fun a ha => absurd ha List.not_mem_nil⟩
  | step event _ _ hstep ih => exact ih.step hstep

/-- **Requests are in order.** Whatever messages arrive, in whatever order, and whatever happens to
the chain in between: every request was for blocks that were neither stored nor in flight from the
peer, each of them once and not before its parent, and no peer was ever asked for more than
`BLOCKS_IN_FLIGHT` blocks at a time. -/
theorem Runs.asked_inOrder {allowed : Download → DownloadEvent → Prop} (h : Runs params allowed d) :
    (∀ a ∈ d.asked, a.InOrder) ∧ ∀ p ∈ d.peers, p.Wf :=
  ⟨h.good.asked, h.good.peers⟩

/-- **Blocks come after their parents.** If a peer has answered what was asked of it up to some
block, in the order it was asked, and all of that is stored, then so is the parent of the block, if
it was known when the block was asked for. -/
theorem Runs.parent_first {allowed : Download → DownloadEvent → Prop} (h : Runs params allowed d)
    {id : Nat} {before after : List (Hash × Option Hash)} {block parent : Hash}
    (hsplit : requestsOf id d.asked = before ++ (block, some parent) :: after)
    (hanswered : ∀ k ∈ before.map Prod.fst, d.chain.storage.hasBlock k = true) :
    d.chain.storage.hasBlock parent = true := by
  rcases h.good.logged.parent_before h.good.asked hsplit with hstored | hbefore
  · exact hstored
  · exact hanswered parent hbefore

/-- What a pass over the missing blocks leaves behind: every missing block is queued for a peer that
is ready or in flight from it, no missing block that was is forgotten, no request of a peer that is
ready is stale, and if the pass reaches down to a stored block, the lowest missing block is in
flight from the first peer that is ready, unless it is busy. Of a peer that has not shaken hands
nothing is said: the pass skips it. -/
structure Covered (now : ℚ) (d d' : Download) : Prop where
  missing : ∀ h ∈ d.chain.headersToDownload DOWNLOAD_WINDOW, ∃ p ∈ d'.peers, p.Carries h
  kept : ∀ p ∈ d.peers, ∀ h, p.Carries h → d.chain.storage.hasBlock h = false → ∃ p' ∈ d'.peers,
    p'.Carries h
  fresh : ∀ p ∈ d'.peers, p.handshakeDone = true → p.Fresh now
  lowest : d.chain.StoredWithin DOWNLOAD_WINDOW →
    ∀ h, (d.chain.headersToDownload DOWNLOAD_WINDOW).head? = some h →
    ∀ p, d.peers.find? SyncPeer.handshakeDone = some p →
    ∃ p' ∈ d'.peers, p'.id = p.id ∧
    (h ∈ p'.requestedBlocks ∨ p'.requestedBlocks.card = BLOCKS_IN_FLIGHT)

end Download

section Instances

attribute [local instance] Sample.crypto Sample.order

/-- The runs of a node on a regtest chain whose headers are announced. -/
def Sample.downloadAfter (events : List DownloadEvent) : Option Download :=
  (Sample.chainAfter announced).bind fun c =>
    events.foldlM (fun d event => d.step REGTEST event) (Download.start c)

theorem Sample.downloadAfter_runs {events : List DownloadEvent} {d : Download}
    (h : Sample.downloadAfter events = some d) : d.Runs REGTEST fun _ _ => True := by
  obtain ⟨c, hc, hrun⟩ := Option.bind_eq_some_iff.mp h
  have hfold : ∀ (events : List DownloadEvent) (d₀ : Download), d₀.Runs REGTEST (fun _ _ => True) →
      events.foldlM (fun d event => d.step REGTEST event) d₀ = some d →
      d.Runs REGTEST fun _ _ => True := by
    intro events
    induction events with
    | nil =>
      intro d₀ h₀ hd
      obtain rfl := Option.some.inj hd
      exact h₀
    | cons event events ih =>
      intro d₀ h₀ hd
      obtain ⟨d₁, hd₁, hrest⟩ := Option.bind_eq_some_iff.mp hd
      exact ih d₁ (.step event h₀ trivial hd₁) hrest
  exact hfold events _ (.start (Sample.chainAfter_reachable hc)) hrun

/-- Two peers, of which the second announces the lowest of three missing blocks. -/
def Sample.twoPeers : List DownloadEvent :=
  [.register, .register, .handshake 0, .handshake 1,
    .inv (fun _ => true) (fun _ => false) 0 1 [⟨.block, announcedBlocks.1.hash⟩]]

/-- The second peer does not answer in time, and the first one is asked. -/
theorem Download.Runs.asked_inOrder_twice :
    ∃ d, Sample.downloadAfter (Sample.twoPeers ++ [.queue (fun _ => true) 60 0]) = some d ∧
      d.asked.length = 2 ∧ (∀ a ∈ d.asked, a.InOrder) ∧ ∀ p ∈ d.peers, p.Wf := by
  have hrun : ((Sample.downloadAfter (Sample.twoPeers ++ [.queue (fun _ => true) 60 0])).any
      fun d =>
      decide (d.asked.length = 2)) = true := by
    decide +kernel
  obtain ⟨d, hd, h⟩ := (Option.any_eq_true _ _).mp hrun
  exact ⟨d, hd, of_decide_eq_true h, (Sample.downloadAfter_runs hd).asked_inOrder⟩

/-- The first peer delivers the lowest block, which the second one builds on. -/
theorem Download.Runs.parent_first_delivered :
    ∃ d, Sample.downloadAfter (Sample.twoPeers ++ [.queue (fun _ => true) 60 0,
        .block 100 1800000000 0 announcedBlocks.1]) = some d ∧
      d.chain.storage.hasBlock announcedBlocks.1.hash = true := by
  have hrun : ((Sample.downloadAfter (Sample.twoPeers ++ [.queue (fun _ => true) 60 0,
      .block 100 1800000000 0 announcedBlocks.1])).any fun d =>
      decide (Download.requestsOf 0 d.asked = [(announcedBlocks.1.hash, some Sample.genesisHash)] ++
        (announcedBlocks.2.1.hash, some announcedBlocks.1.hash) :: []) &&
      d.chain.storage.hasBlock announcedBlocks.1.hash) = true := by
    decide +kernel
  obtain ⟨d, hd, h⟩ := (Option.any_eq_true _ _).mp hrun
  simp only [Bool.and_eq_true, decide_eq_true_eq] at h
  exact ⟨d, hd, (Sample.downloadAfter_runs hd).parent_first h.1 (List.forall_mem_singleton.mpr h.2)⟩

end Instances

end ScarletCoin
