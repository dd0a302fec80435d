import ScarletCoin.Rules.Admission
import ScarletCoin.Rules.Connection
import ScarletCoin.Toolkit.Lineage

/-!
# The block tree and the active chain

Of the rows of `blocks`, the heights, the chainwork and the bodies never change once written; they
are the tree of a storage (`Storage.tree`). `GoodTree` is the invariant of it: every block is filed
under its hash, and is genesis or lies one above a stored parent with the work of its bits added.

`Active s bs` says that the blocks marked in the storage are exactly `bs`, a branch of the tree with
its tip first.
-/

set_option autoImplicit false

namespace ScarletCoin

open Toolkit

/-- What is known of a stored block for good. -/
structure TreeNode where
  height : Nat
  chainwork : Nat
  body : Block

/-- The part of a row that never changes. -/
def BlockRow.known (r : BlockRow) : TreeNode := ⟨r.height, r.chainwork, r.body⟩

/-- The block tree of a storage. -/
def Storage.tree (s : Storage) : Hash → Option TreeNode :=
  fun h => (s.blocks.lookup h).map BlockRow.known

theorem Storage.tree_eq_some {s : Storage} {h : Hash} {n : TreeNode} :
    s.tree h = some n ↔ ∃ row, s.blocks.lookup h = some row ∧ row.known = n :=
  Option.map_eq_some_iff

theorem Storage.hasBlock_iff {s : Storage} {h : Hash} :
    s.hasBlock h = true ↔ ∃ n, s.tree h = some n := by
  unfold hasBlock tree
  cases s.blocks.lookup h <;> simp

/-- Rewriting a row without touching what is known for good leaves the tree as it is. -/
theorem Storage.tree_modify {s s' : Storage} {h : Hash} {f : BlockRow → BlockRow}
    (hblocks : s'.blocks = s.blocks.modify h f) (hf : ∀ row, (f row).known = row.known) :
    s'.tree = s.tree := by
  funext k
  unfold tree
  rw [hblocks, Table.lookup_modify]
  by_cases hk : k = h
  · rw [if_pos hk, hk, Option.map_map]
    exact Option.map_congr fun row _ => hf row
  · rw [if_neg hk]

variable [Crypto]

/-- Blocks are linked by the hashes of their parents, down to genesis. -/
def lineage (params : ChainParams) : Lineage Hash TreeNode where
  key n := n.body.hash
  prev n := n.body.header.prevHash
  depth n := n.height
  root n := params.genesisBlock = .ok n.body

/-- The node is the genesis block, at height zero. -/
def IsGenesis (params : ChainParams) (n : TreeNode) : Prop :=
  params.genesisBlock = .ok n.body ∧ n.height = 0 ∧
    blockWork n.body.header.bits.toNat = .ok n.chainwork

/-- The node lies one above `p`, with the work of its own bits added. -/
def ChildOf (p n : TreeNode) : Prop :=
  n.height = p.height + 1 ∧ ∃ work, blockWork n.body.header.bits.toNat = .ok work ∧
    n.chainwork = p.chainwork + work

/-- The invariant of the block tree. -/
structure GoodTree (params : ChainParams) (T : Hash → Option TreeNode) : Prop where
  keyed : ∀ {h n}, T h = some n → n.body.hash = h
  linked : ∀ {h n}, T h = some n → IsGenesis params n ∨
    ∃ p, T n.body.header.prevHash = some p ∧ ChildOf p n
  admitted : ∀ {h n}, T h = some n → Admitted params n.height n.body
  bounded : ∀ {h n}, T h = some n → n.chainwork < 2 ^ 256

theorem GoodTree.wellRooted {params : ChainParams} {T : Hash → Option TreeNode}
    (hT : GoodTree params T) : WellRooted (lineage params) T where
  keyed hn := hT.keyed hn
  linked hn := by
    rcases hT.linked hn with ⟨hg, hzero, -⟩ | ⟨p, hp, hheight, -⟩
    · exact .inl ⟨hg, hzero⟩
    · exact .inr ⟨p, hp, hheight⟩
  rootUnique {k n k' n'} hn hn' hg hg' := by
    have hbody : n.body = n'.body := Except.ok.inj (Eq.trans (Eq.symm hg) hg')
    have hkey : k = k' := by rw [← hT.keyed hn, ← hT.keyed hn', hbody]
    rw [hkey, hn'] at hn
    exact (Option.some.inj hn).symm

/-- Storing a new block on top of a stored one keeps the tree good. -/
theorem GoodTree.insert {params : ChainParams} {T : Hash → Option TreeNode}
    (hT : GoodTree params T) {n p : TreeNode} (hnew : T n.body.hash = none)
    (hp : T n.body.header.prevHash = some p) (hchild : ChildOf p n)
    (hadm : Admitted params n.height n.body) (hfit : n.chainwork < 2 ^ 256) :
    GoodTree params (Function.update T n.body.hash (some n)) := by
  have hcases : ∀ {h m}, Function.update T n.body.hash (some n) h = some m →
      (h = n.body.hash ∧ m = n) ∨ T h = some m := by
    intro h m hm
    by_cases heq : h = n.body.hash
    · subst heq
      rw [Function.update_self] at hm
      exact .inl ⟨rfl, (Option.some.inj hm).symm⟩
    · rw [Function.update_of_ne heq] at hm
      exact .inr hm
  have hold : ∀ {h m}, T h = some m → Function.update T n.body.hash (some n) h = some m := by
    intro h m hm
    rw [Function.update_of_ne, hm]
    rintro rfl
    rw [hnew] at hm
    cases hm
  refine ⟨fun hm => ?_, fun hm => ?_, fun hm => ?_, fun hm => ?_⟩
  · rcases hcases hm with ⟨rfl, rfl⟩ | hm
    · rfl
    · exact hT.keyed hm
  · rcases hcases hm with ⟨rfl, rfl⟩ | hm
    · exact .inr ⟨p, hold hp, hchild⟩
    · rcases hT.linked hm with hg | ⟨q, hq, hlink⟩
      · exact .inl hg
      · exact .inr ⟨q, hold hq, hlink⟩
  · rcases hcases hm with ⟨rfl, rfl⟩ | hm
    · exact hadm
    · exact hT.admitted hm
  · rcases hcases hm with ⟨rfl, rfl⟩ | hm
    · exact hfit
    · exact hT.bounded hm

theorem Storage.tree_insert {s s' : Storage} {b : Block} {row : BlockRow} (hbody : row.body = b)
    (hblocks : s'.blocks = s.blocks.insert b.hash row) :
    s'.tree = Function.update s.tree row.known.body.hash (some row.known) := by
  funext k
  unfold tree
  have hkey : row.known.body.hash = b.hash := congrArg Block.hash hbody
  rw [hblocks, Table.lookup_insert_if, hkey, Function.update_apply]
  by_cases hk : k = b.hash
  · rw [if_pos hk, if_pos hk, Option.map_some]
  · rw [if_neg hk, if_neg hk]

/-! ## The active chain -/

/-- The marked blocks of the storage are exactly the branch `bs`. -/
structure Active (params : ChainParams) (s : Storage) (bs : List TreeNode) : Prop where
  branch : Branch (lineage params) s.tree bs
  marked : ∀ {h row}, s.blocks.lookup h = some row → (row.inChain = true ↔ row.known ∈ bs)

/-- A node of a good tree is determined by its hash. -/
theorem GoodTree.eq_of_hash {params : ChainParams} {T : Hash → Option TreeNode}
    (hT : GoodTree params T) {h h' : Hash} {n m : TreeNode} (hn : T h = some n) (hm : T h' = some m)
    (heq : n.body.hash = m.body.hash) : n = m := by
  rw [hT.keyed hn, hT.keyed hm] at heq
  rw [heq, hm] at hn
  exact (Option.some.inj hn).symm

/-- Genesis has the null hash in place of a parent. -/
theorem Branch.root_prevHash {params : ChainParams} {s : Storage} {g : TreeNode}
    (hpath : Branch (lineage params) s.tree [g]) : g.body.header.prevHash = nullHash := by
  cases hpath with
  | root _ hroot _ =>
    obtain ⟨coinbase, -, -, hprev, -⟩ := ChainParams.genesisBlock_eq_ok hroot
    exact hprev

/-- A branch is no longer than the number of stored blocks. -/
theorem Branch.length_le {params : ChainParams} {s : Storage} {bs : List TreeNode}
    (h : Branch (lineage params) s.tree bs) : bs.length ≤ s.blockCount := by
  have hinj : (bs.map fun n => n.body.hash).Nodup := by
    refine List.Nodup.map_on (fun n hn m hm heq => ?_) h.nodup
    have hs := h.stored n hn
    rw [show (lineage params).key n = (lineage params).key m from heq, h.stored m hm] at hs
    exact (Option.some.inj hs).symm
  have hsub : (bs.map fun n => n.body.hash).toFinset ⊆ s.blocks.keys := by
    intro k hk
    obtain ⟨n, hn, rfl⟩ := List.mem_map.mp (List.mem_toFinset.mp hk)
    obtain ⟨row, hrow, -⟩ := Storage.tree_eq_some.mp (h.stored n hn)
    exact Finmap.mem_keys.mpr (Finmap.mem_iff.mpr ⟨row, hrow⟩)
  have hcard := Finset.card_le_card hsub
  rwa [List.toFinset_card_of_nodup hinj, List.length_map] at hcard

variable {params : ChainParams} {s s' : Storage} {bs rest : List TreeNode} {n : TreeNode}

/-- Marking the next block extends the active chain. -/
theorem Active.mark (h : Active params s (n :: rest)) (hT : GoodTree params s.tree)
    {b : TreeNode} (hb : s.tree b.body.hash = some b)
    (hprev : b.body.header.prevHash = n.body.hash) (hheight : b.height = n.height + 1)
    (hblocks : s'.blocks = s.blocks.modify b.body.hash fun row => { row with inChain := true }) :
    Active params s' (b :: n :: rest) := by
  have htree : s'.tree = s.tree := Storage.tree_modify hblocks fun _ => rfl
  refine ⟨?_, fun {k row} hrow => ?_⟩
  · rw [htree]
    exact .child h.branch hb hprev hheight
  · rw [hblocks, Table.lookup_modify] at hrow
    by_cases hk : k = b.body.hash
    · rw [if_pos hk] at hrow
      obtain ⟨row', hrow', rfl⟩ := Option.map_eq_some_iff.mp hrow
      have hknown : row'.known = b := by
        have htree' := Storage.tree_eq_some.mpr ⟨row', hrow', rfl⟩
        rw [hb] at htree'
        exact (Option.some.inj htree').symm
      exact iff_of_true rfl (List.mem_cons.mpr (.inl hknown))
    · rw [if_neg hk] at hrow
      rw [h.marked hrow]
      refine ⟨List.mem_cons_of_mem b, fun hmem =>
        (List.mem_cons.mp hmem).resolve_left fun heq => ?_⟩
      have hkey := hT.keyed (Storage.tree_eq_some.mpr ⟨row, hrow, rfl⟩)
      exact hk (by rw [← hkey, heq])

/-- Unmarking the tip shortens the active chain. -/
theorem Active.unmark {b : TreeNode} (h : Active params s (b :: n :: rest))
    (hT : GoodTree params s.tree)
    (hblocks : s'.blocks = s.blocks.modify b.body.hash fun row => { row with inChain := false }) :
    Active params s' (n :: rest) := by
  have htree : s'.tree = s.tree := Storage.tree_modify hblocks fun _ => rfl
  have hb : s.tree b.body.hash = some b := h.branch.stored b List.mem_cons_self
  refine ⟨?_, fun {k row} hrow => ?_⟩
  · rw [htree]
    exact h.branch.tail
  · rw [hblocks, Table.lookup_modify] at hrow
    by_cases hk : k = b.body.hash
    · rw [if_pos hk] at hrow
      obtain ⟨row', hrow', rfl⟩ := Option.map_eq_some_iff.mp hrow
      have hknown : row'.known = b := by
        have htree' := Storage.tree_eq_some.mpr ⟨row', hrow', rfl⟩
        rw [hb] at htree'
        exact (Option.some.inj htree').symm
      refine iff_of_false Bool.false_ne_true fun hmem => ?_
      exact (List.nodup_cons.mp h.branch.nodup).1 (hknown ▸ hmem)
    · rw [if_neg hk] at hrow
      rw [h.marked hrow]
      refine ⟨fun hmem => (List.mem_cons.mp hmem).resolve_left fun heq => ?_,
        List.mem_cons_of_mem b⟩
      have hkey := hT.keyed (Storage.tree_eq_some.mpr ⟨row, hrow, rfl⟩)
      exact hk (by rw [← hkey, heq])

end ScarletCoin
