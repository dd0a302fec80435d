import ScarletCoin.Invariants.Frontier
import ScarletCoin.Invariants.RequiredBits
import ScarletCoin.Toolkit.Median

/-!
# The median time along a branch

Every stored block above genesis passed the context check on its parent, in the storage of that
moment (`Reachable.checked`). The check demands a timestamp above the median of the blocks before,
and a branch never changes below a stored block, so the median time past never goes down along a
branch (`Reachable.medianTimePast_mono`).
-/

set_option autoImplicit false

namespace ScarletCoin

open Toolkit

section Checks

variable [Crypto] [ScanOrder Hash] {params : ChainParams}

/-! ## Stored blocks were checked -/

/-- A call stores one checked block at most. -/
theorem Call.run_tree {c c' : Blockchain} {op : Call} {bs : List TreeNode}
    (hs : Standing params c bs) (h : op.run params c = some c') :
    c'.storage.tree = c.storage.tree ∨ ∃ now b p work, c.Placement params now b p work ∧
      c'.storage.tree = (c.place b p work).storage.tree := by
  cases op with
  | addBlock rounds now b =>
    obtain ⟨⟨c₁, answer⟩, hadd, rfl⟩ := Option.map_eq_some_iff.mp h
    rcases Blockchain.addBlock_cases hadd with ⟨e, -, rfl, -⟩ | ⟨r, haccept, -⟩ |
      ⟨p, work, r, outcome, hplace, hvisits, -, -⟩
    · exact .inl rfl
    · rcases Blockchain.admitBlock_answered haccept with rfl | ⟨reason, rfl⟩ <;> exact .inl rfl
    · obtain ⟨-, hs₁⟩ := hplace.standing hs
      exact .inr ⟨now, b, p, work, hplace,
        visits_tree (a := ⟨c.place b p work, false⟩) hs₁ hvisits⟩
  | addHeader header =>
    rcases Call.run_addHeader h with rfl | ⟨p, work, rfl⟩ <;> exact .inl rfl
  | prune keepBlocks =>
    obtain rfl := Option.some.inj h
    left
    unfold Blockchain.prune
    dsimp only
    split
    · rfl
    · exact (Storage.pruneTo_pruned c.storage _).tree_eq

/-- The block of a node passed the context check on its parent, in an earlier storage that had the
branch of the parent. -/
theorem Reachable.checked {c : Blockchain} (h : Reachable params c) {n p : TreeNode}
    {rest : List TreeNode} (hpath : Branch (lineage params) c.storage.tree (n :: p :: rest)) :
    ∃ s bs now, Based params (s, bs) ∧ Branch (lineage params) s.tree (p :: rest) ∧
      (∀ k m, s.tree k = some m → c.storage.tree k = some m) ∧
      checkContext params s now n.body (s.entryAt p) n.height = .ok () := by
  induction h generalizing n p rest with
  | create hc =>
    obtain ⟨g, hg, -, -⟩ := Blockchain.create_standing hc
    have hn := hg.tree_eq.mp (hpath.stored n List.mem_cons_self)
    have hp := hg.tree_eq.mp (hpath.tail.stored p List.mem_cons_self)
    have hlt := hpath.depth_lt p List.mem_cons_self
    rw [hn.2, hp.2] at hlt
    exact absurd hlt (Nat.lt_irrefl _)
  | @call c c' op hreach hop ih =>
    obtain ⟨_, _, bs, -, -, hs⟩ := hreach.run
    obtain ⟨bs', htrace, -⟩ := Call.run_standing hs hop
    have hkept : ∀ k m, c.storage.tree k = some m → c'.storage.tree k = some m :=
      fun k m hm => htrace.tree_mono hm
    -- a node that was stored before has the branch that it had
    have hold : ∀ {m r}, c.storage.tree m.body.hash = some m →
        Branch (lineage params) c'.storage.tree (m :: r) →
        Branch (lineage params) c.storage.tree (m :: r) := by
      intro m r hm hbranch
      obtain ⟨r', hr'⟩ := hs.based.tree.wellRooted.exists_branch hm
      rw [hbranch.tail_unique (hr'.mono hkept)]
      exact hr'
    rcases Call.run_tree hs hop with hsame | ⟨now, b, q, work, hplace, htree⟩
    · rw [hsame] at hpath
      obtain ⟨s, bs₁, now, hbase, hbranch, hsub, hcheck⟩ := ih hpath
      exact ⟨s, bs₁, now, hbase, hbranch, fun k m hm => hkept k m (hsub k m hm), hcheck⟩
    · have hlookup : ∀ k, c'.storage.tree k =
          if k = b.hash then some (placedNode b q work) else c.storage.tree k := by
        intro k
        rw [htree]
        unfold Blockchain.place Storage.tree
        dsimp only
        rw [Table.lookup_insert_if]
        split <;> rfl
      by_cases hnew : n.body.hash = b.hash
      · -- the block that the call stores
        have hn := hpath.stored n List.mem_cons_self
        have hp := hpath.tail.stored p List.mem_cons_self
        rw [show (lineage params).key n = b.hash from hnew, hlookup, if_pos rfl] at hn
        obtain rfl := Option.some.inj hn
        have hprev : b.header.prevHash = p.body.hash := hpath.prev_head
        have hparent : c.storage.tree b.header.prevHash = some q.known :=
          Storage.tree_eq_some.mpr ⟨q, hplace.parent, rfl⟩
        have hpq : p = q.known := by
          have hp' := hkept _ _ hparent
          rw [hprev, show c'.storage.tree p.body.hash = some p from hp] at hp'
          exact Option.some.inj hp'
        subst hpq
        rw [hprev] at hparent
        have hentry : c.storage.entryAt q.known = q.entry b.header.prevHash := by
          have hrow : c.storage.blocks.lookup q.known.body.hash = some q := hprev ▸ hplace.parent
          rw [Storage.entryAt_of_row hrow, hprev]
        exact ⟨c.storage, bs, now, hs.based, hold hparent hpath.tail, hkept,
          by rw [hentry]; exact hplace.context⟩
      · have hn := hpath.stored n List.mem_cons_self
        rw [show (lineage params).key n = n.body.hash from rfl, hlookup, if_neg hnew] at hn
        obtain ⟨s, bs₁, now, hbase, hbranch, hsub, hcheck⟩ := ih (hold hn hpath)
        exact ⟨s, bs₁, now, hbase, hbranch, fun k m hm => hkept k m (hsub k m hm), hcheck⟩

/-! ## Windows of timestamps -/

omit [ScanOrder Hash] in
/-- The window of a stored block is the upper end of its branch. -/
theorem recentTimestamps_eq {s : Storage} (hnull : s.hasBlock nullHash = false) {size : Nat}
    {n : TreeNode} {rest : List TreeNode} (hpath : Branch (lineage params) s.tree (n :: rest)) :
    recentTimestamps s size (some (s.entryAt n)) =
    ((n :: rest).map TreeNode.timestamp).take size := by
  induction rest generalizing n size with
  | nil =>
    have hn := hpath.stored n List.mem_cons_self
    have hend : s.getEntry nullHash = none := by
      unfold Storage.hasBlock at hnull
      unfold Storage.getEntry
      rw [Option.isSome_eq_false_iff, Option.isNone_iff_eq_none] at hnull
      rw [hnull]
      rfl
    cases size with
    | zero => rfl
    | succ size =>
      rw [recentTimestamps, Storage.entryAt_timestamp hn, Storage.entryAt_prevHash hn,
        Branch.root_prevHash hpath, hend]
      cases size <;> rfl
  | cons p below ih =>
    have hn := hpath.stored n List.mem_cons_self
    have hp := hpath.tail.stored p List.mem_cons_self
    cases size with
    | zero => rfl
    | succ size =>
      rw [recentTimestamps, Storage.entryAt_timestamp hn, Storage.entryAt_prevHash hn,
        show n.body.header.prevHash = p.body.hash from hpath.prev_head, Storage.getEntry_eq hp,
        ih hpath.tail]
      rfl

omit [ScanOrder Hash] in
/-- The median time past of a stored block is the low median of that window. -/
theorem medianTimePast_eq {s : Storage} (hnull : s.hasBlock nullHash = false) {n : TreeNode}
    {rest : List TreeNode} (hpath : Branch (lineage params) s.tree (n :: rest)) :
    lowMedian (((n :: rest).map TreeNode.timestamp).take params.medianTimeBlocks) =
      some (medianTimePast params s (s.entryAt n)) := by
  have hne : ((n :: rest).map TreeNode.timestamp).take params.medianTimeBlocks ≠ [] := by
    obtain ⟨k, hk⟩ : ∃ k, params.medianTimeBlocks = k + 1 :=
      ⟨params.medianTimeBlocks - 1, by have := params.medianTimeBlocks_pos; omega⟩
    rw [hk, List.map_cons, List.take_succ_cons]
    exact List.cons_ne_nil _ _
  obtain ⟨x, hx⟩ := exists_lowMedian hne
  unfold medianTimePast
  rw [recentTimestamps_eq hnull hpath, show medianLow = lowMedian from rfl, hx]
  rfl

/-- **The median time past never goes down** from a stored block to a stored child of it. Of the
hash function it is asked only that no stored block hashes to the null hash, which genesis names as
its parent. -/
theorem Reachable.medianTimePast_mono {c : Blockchain} (h : Reachable params c)
    (hnull : c.storage.hasBlock nullHash = false) {k : Hash} {child parent : BlockIndexEntry}
    (hchild : c.storage.getEntry k = some child)
    (hparent : c.storage.getEntry child.prevHash = some parent) :
    medianTimePast params c.storage parent ≤ medianTimePast params c.storage child := by
  obtain ⟨_, _, bs, -, -, hs⟩ := h.run
  obtain ⟨n, hn, -, rfl⟩ := Storage.getEntry_eq_some hs.based.tree hchild
  obtain ⟨p, hp, hkey, rfl⟩ := Storage.getEntry_eq_some hs.based.tree hparent
  rw [Storage.entryAt_prevHash hn] at hkey
  obtain ⟨rest, hpath⟩ := hs.based.tree.wellRooted.exists_branch hn
  cases rest with
  | nil =>
    rw [Branch.root_prevHash hpath] at hkey
    rw [← hkey, Storage.hasBlock_iff.mpr ⟨p, hp⟩] at hnull
    cases hnull
  | cons q below =>
    obtain rfl : q = p := by
      have hq := hpath.tail.stored q List.mem_cons_self
      rw [show (lineage params).key q = p.body.hash from hpath.prev_head.symm.trans hkey.symm] at hq
      exact Option.some.inj (hq.symm.trans hp)
    obtain ⟨s, bs₁, now, hbase, hbranch, hsub, hcheck⟩ := h.checked hpath
    -- the median that the check compared with is still the median of the parent
    have hnull' : s.hasBlock nullHash = false := by
      by_contra hthere
      obtain ⟨m, hm⟩ := Storage.hasBlock_iff.mp (Bool.not_eq_false _ ▸ hthere)
      rw [Storage.hasBlock_iff.mpr ⟨m, hsub _ _ hm⟩] at hnull
      cases hnull
    have hsame : medianTimePast params s (s.entryAt q) =
        medianTimePast params c.storage (c.storage.entryAt q) := by
      have heq := (medianTimePast_eq hnull' hbranch).symm.trans
        (medianTimePast_eq hnull hpath.tail)
      exact Option.some.inj heq
    obtain ⟨_, -, h₁⟩ := bind_eq_ok.mp hcheck
    obtain ⟨-, h₂⟩ := raiseIf_bind_eq_ok.mp h₁
    obtain ⟨hnewer, -⟩ := raiseIf_bind_eq_ok.mp h₂
    rw [hsame] at hnewer
    have htime := medianTimePast_eq hnull hpath
    rw [List.map_cons] at htime
    exact lowMedian_slide (medianTimePast_eq hnull hpath.tail) htime
      (Nat.le_of_lt (Nat.not_le.mp hnewer))

end Checks

section Instances

attribute [local instance] Sample.crypto Sample.order

/-- It holds of the tip of a chain and of the block below. -/
theorem medianTimePast_mono_overtaken : ∃ c parent, Sample.chainAfter Sample.overtaken = some c ∧
    c.storage.getEntry c.tip.prevHash = some parent ∧
    medianTimePast REGTEST c.storage parent ≤ medianTimePast REGTEST c.storage c.tip := by
  have hrun : ((Sample.chainAfter Sample.overtaken).any fun c =>
      decide (c.storage.hasBlock nullHash = false ∧ c.storage.getEntry c.tip.hash = some c.tip) &&
        (c.storage.getEntry c.tip.prevHash).isSome) = true := by decide +kernel
  obtain ⟨c, hc, hcond⟩ := (Option.any_eq_true _ _).mp hrun
  obtain ⟨hfacts, hsome⟩ := Bool.and_eq_true_iff.mp hcond
  obtain ⟨hnull, hchild⟩ := of_decide_eq_true hfacts
  obtain ⟨parent, hparent⟩ := Option.isSome_iff_exists.mp hsome
  exact ⟨c, parent, hc, hparent,
    (Sample.chainAfter_reachable hc).medianTimePast_mono hnull hchild hparent⟩

end Instances

end ScarletCoin
