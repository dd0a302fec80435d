import ScarletCoin.Invariants.Unspent

/-!
# The active chain as the tables show it

What the invariants of the tree and of the ledger mean for the rows: the marked blocks are one for
each height up to the tip, linked by the hashes of their parents down to genesis; the stored tip
value and the tip in memory name the highest of them; every stored block lies one above its parent,
with the work of its bits added; and no transaction id occurs in two positions of the active chain
(`Represented`). It holds in every reachable state (`Reachable.represented`).
-/

set_option autoImplicit false

namespace ScarletCoin

open Toolkit

section Represented

/-- The storage returns the entry under its own hash. -/
def Storage.Stores (s : Storage) (e : BlockIndexEntry) : Prop := s.getEntry e.hash = some e

instance (s : Storage) (e : BlockIndexEntry) : Decidable (s.Stores e) :=
  inferInstanceAs (Decidable (_ = _))

variable [Crypto]

/-- The active chain is represented in the tables. -/
structure Represented (params : ChainParams) (c : Blockchain) : Prop where
  one : ∀ height ≤ c.tip.height,
    ∃! e, c.storage.Stores e ∧ e.inChain = true ∧ e.height = height
  above : ∀ e, c.storage.Stores e → e.inChain = true → e.height ≤ c.tip.height
  linked : ∀ e e', c.storage.Stores e → c.storage.Stores e' → e.inChain = true →
    e'.inChain = true → e'.height = e.height + 1 → e'.prevHash = e.hash
  genesis : ∀ e, c.storage.Stores e → e.inChain = true → e.height = 0 →
    ∃ g, params.genesisBlock = .ok g ∧ e.hash = g.hash
  tip : c.storage.Stores c.tip ∧ c.tip.inChain = true
  stored : c.storage.tipHash = some c.tip.hash
  heights : ∀ e, c.storage.Stores e →
    (∃ g, params.genesisBlock = .ok g ∧ e.hash = g.hash ∧ e.height = 0 ∧
      blockWork e.bits = .ok e.chainwork) ∨
    ∃ p work, c.storage.getEntry e.prevHash = some p ∧ e.height = p.height + 1 ∧
      blockWork e.bits = .ok work ∧ e.chainwork = p.chainwork + work
  txids : ∀ (h h' : Hash) (row row' : BlockRow) (i i' : Nat) (t t' : Transaction),
    c.storage.blocks.lookup h = some row → c.storage.blocks.lookup h' = some row' →
    row.inChain = true → row'.inChain = true → row.body.transactions[i]? = some t →
    row'.body.transactions[i']? = some t' → t.txid = t'.txid → h = h' ∧ i = i'

variable {params : ChainParams}

/-- A stored entry is the entry of a node of the tree. -/
theorem Storage.Stores.node {s : Storage} (hT : GoodTree params s.tree) {e : BlockIndexEntry}
    (he : s.Stores e) : ∃ n, s.tree n.body.hash = some n ∧ e = s.entryAt n := by
  obtain ⟨n, hn, -, rfl⟩ := Storage.getEntry_eq_some hT he
  exact ⟨n, hn, rfl⟩

theorem Storage.stores_entryAt {s : Storage} {n : TreeNode} (hn : s.tree n.body.hash = some n) :
    s.Stores (s.entryAt n) := by
  rw [Stores, entryAt_hash]
  exact getEntry_eq hn

/-- A marked entry is the entry of a node of the active chain. -/
theorem Based.active_node {s : Storage} {bs : List TreeNode} (h : Based params (s, bs))
    {e : BlockIndexEntry} (he : s.Stores e) (hmark : e.inChain = true) :
    ∃ n ∈ bs, s.tree n.body.hash = some n ∧ e = s.entryAt n := by
  obtain ⟨n, hn, rfl⟩ := he.node h.tree
  exact ⟨n, (h.active.entryAt_inChain hn).mp hmark, hn, rfl⟩

/-- The ids of a history, block by block. -/
theorem history_ids (bs : List TreeNode) :
    (history bs).map Posting.id = bs.flatMap fun n => n.body.txids.reverse := by
  induction bs with
  | nil => rfl
  | cons n bs ih =>
    rw [history, List.map_append, ih, List.flatMap_cons, List.map_reverse, Block.postings,
      List.map_map]
    rfl

/-- In a history of distinct ids a transaction id has one block and one position. -/
theorem position_unique {bs : List TreeNode} (hids : ((history bs).map Posting.id).Nodup)
    {n m : TreeNode} (hn : n ∈ bs) (hm : m ∈ bs) {i j : Nat} {t t' : Transaction}
    (ht : n.body.transactions[i]? = some t) (ht' : m.body.transactions[j]? = some t')
    (heq : t.txid = t'.txid) : n = m ∧ i = j := by
  rw [history_ids, List.nodup_flatMap] at hids
  obtain ⟨hblock, hpair⟩ := hids
  have hi : n.body.txids[i]? = some t.txid := by
    rw [Block.txids, List.getElem?_map, ht, Option.map_some]
  have hj : m.body.txids[j]? = some t.txid := by
    rw [Block.txids, List.getElem?_map, ht', Option.map_some, heq]
  have hnm : n = m := by
    by_contra hne
    have : Std.Symm (Function.onFun List.Disjoint fun n : TreeNode => n.body.txids.reverse) :=
      ⟨fun _ _ hab => hab.symm⟩
    have hdisjoint := hpair.forall hn hm hne
    exact hdisjoint (List.mem_reverse.mpr (List.mem_of_getElem? hi))
      (List.mem_reverse.mpr (List.mem_of_getElem? hj))
  subst hnm
  refine ⟨rfl, ?_⟩
  have hnodup : n.body.txids.Nodup := List.nodup_reverse.mp (hblock n hn)
  obtain ⟨hi', hi⟩ := List.getElem?_eq_some_iff.mp hi
  obtain ⟨hj', hj⟩ := List.getElem?_eq_some_iff.mp hj
  exact (hnodup.getElem_inj_iff).mp (hi.trans hj.symm)

/-- **The active chain is represented** in every reachable state. -/
theorem Reachable.represented [ScanOrder Hash] {c : Blockchain} (h : Reachable params c)
    (hcol : c.storage.NoTxidCollision) : Represented params c := by
  obtain ⟨s, g, bs, hg, htrace, hs⟩ := h.run
  have hbase : Based params (c.storage, bs) := hs.based
  have hbranch : Branch (lineage params) c.storage.tree bs := hbase.active.branch
  obtain ⟨n, rest, hbs, htip, hpoint⟩ := hs.tip
  have hnmem : n ∈ bs := hbs ▸ List.mem_cons_self
  have hn : c.storage.tree n.body.hash = some n := hbranch.stored n hnmem
  have hheight : c.tip.height = rest.length := by
    rw [htip, Storage.entryAt_height hn]
    exact (hbs ▸ hbranch).depth_head
  refine ⟨fun height hle => ?_, fun e he hmark => ?_, fun e e' he he' hmark hmark' hh => ?_,
    fun e he hmark hzero => ?_, ⟨?_, ?_⟩, ?_, fun e he => ?_, ?_⟩
  · -- the node of the branch at the height, and no other
    obtain ⟨m, hm, hmh⟩ := hbranch.exists_depth (d := height) (by rw [hbs, List.length_cons]; omega)
    have hmh' : m.height = height := hmh
    have hmt := hbranch.stored m hm
    refine ⟨c.storage.entryAt m, ⟨Storage.stores_entryAt hmt,
      (hbase.active.entryAt_inChain hmt).mpr hm, (Storage.entryAt_height hmt).trans hmh'⟩, ?_⟩
    rintro e ⟨he, hmark, heh⟩
    obtain ⟨k, hk, hkt, rfl⟩ := hbase.active_node he hmark
    rw [Storage.entryAt_height hkt] at heh
    rw [hbranch.depth_injective k hk m hm (heh.trans hmh'.symm)]
  · -- no active entry is above the tip, the head of the branch
    obtain ⟨k, hk, hkt, rfl⟩ := hbase.active_node he hmark
    rw [Storage.entryAt_height hkt, hheight]
    rw [hbs] at hk
    rcases List.mem_cons.mp hk with rfl | hk
    · exact Nat.le_of_eq (hbs ▸ hbranch).depth_head
    · have hlt : k.height < n.height := (hbs ▸ hbranch).depth_lt k hk
      have hlen : n.height = rest.length := (hbs ▸ hbranch).depth_head
      omega
  · obtain ⟨k, hk, hkt, rfl⟩ := hbase.active_node he hmark
    obtain ⟨m, hm, hmt, rfl⟩ := hbase.active_node he' hmark'
    rw [Storage.entryAt_height hkt, Storage.entryAt_height hmt] at hh
    rw [Storage.entryAt_prevHash hmt, Storage.entryAt_hash]
    exact hbranch.prev_of_depth hk hm hh
  · obtain ⟨k, hk, hkt, rfl⟩ := hbase.active_node he hmark
    rw [Storage.entryAt_height hkt] at hzero
    rcases hbase.tree.linked hkt with ⟨hgen, -, -⟩ | ⟨p, -, hp, -⟩
    · exact ⟨k.body, hgen, Storage.entryAt_hash⟩
    · omega
  · rw [htip]
    exact Storage.stores_entryAt hn
  · rw [htip]
    exact (hbase.active.entryAt_inChain hn).mpr hnmem
  · rw [hpoint, htip, Storage.entryAt_hash]
  · -- every stored entry is the genesis block or adds its own work to its parent
    obtain ⟨k, hkt, rfl⟩ := he.node hbase.tree
    have hbits : (c.storage.entryAt k).bits = k.body.header.bits.toNat := by
      rw [BlockIndexEntry.bits, Storage.entryAt_header hkt]
    rw [Storage.entryAt_hash, Storage.entryAt_height hkt, Storage.entryAt_prevHash hkt,
      Storage.entryAt_chainwork hkt, hbits]
    rcases hbase.tree.linked hkt with ⟨hgen, hzero, hwork⟩ | ⟨p, hp, hph, work, hwork, hsum⟩
    · exact .inl ⟨k.body, hgen, rfl, hzero, hwork⟩
    · have hkey := hbase.tree.keyed hp
      have hpt : c.storage.tree p.body.hash = some p := by rw [hkey, hp]
      refine .inr ⟨c.storage.entryAt p, work, ?_, ?_, hwork, ?_⟩
      · rw [← hkey]
        exact Storage.getEntry_eq hpt
      · rw [Storage.entryAt_height hpt, hph]
      · rw [Storage.entryAt_chainwork hpt, hsum]
  · intro k k' row row' i i' t t' hrow hrow' hmark hmark' ht ht' heq
    -- a transaction id stands once in the history of the branch
    have hids : ((history bs).map Posting.id).Nodup := (htrace.ledger hg hcol).ids
    obtain ⟨hrr, hii⟩ := position_unique hids ((hbase.active.marked hrow).mp hmark)
      ((hbase.active.marked hrow').mp hmark') ht ht' heq
    have hkey := hbase.tree.keyed (Storage.tree_eq_some.mpr ⟨row, hrow, rfl⟩)
    have hkey' := hbase.tree.keyed (Storage.tree_eq_some.mpr ⟨row', hrow', rfl⟩)
    exact ⟨by rw [← hkey, ← hkey', hrr], hii⟩

end Represented

section Instances

attribute [local instance] Sample.crypto Sample.order

/-- It holds of a chain that a side branch has taken over. -/
theorem represented_overtaken : ∃ c, Sample.chainAfter Sample.overtaken = some c ∧
    Represented REGTEST c := by
  have hrun : ((Sample.chainAfter Sample.overtaken).any fun c =>
      decide c.storage.NoTxidCollision) = true := by decide +kernel
  obtain ⟨c, hc, hcol⟩ := (Option.any_eq_true _ _).mp hrun
  exact ⟨c, hc, Reachable.represented (Sample.chainAfter_reachable hc) (of_decide_eq_true hcol)⟩

end Instances

end ScarletCoin
