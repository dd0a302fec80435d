import ScarletCoin.Invariants.Tree
import Mathlib.Logic.Relation

/-!
# The steps of a chain

Whatever a call does to the storage is a sequence of six kinds of steps (`ChainStep`): a block is
stored, a header is stored, the tip value is written, bodies are dropped, the tip is disconnected,
or a block is connected on top of it. Each step comes with everything that is known when it is
taken, so an invariant is proved by one case for each kind.

`switchTo_eq` says what a switch does in these terms: it fails on the first block of the new branch
that is remembered as invalid, else it unwinds the blocks above the fork and extends the fork by the
new branch. `Based` is the invariant that every step keeps (`ChainStep.based`), and the chain after
any sequence of calls is reached by steps from genesis (`Reachable.run`).
-/

set_option autoImplicit false

namespace ScarletCoin

open Toolkit

variable [Crypto]

/-! ## Entries of nodes -/

/-- The index entry of a node. -/
def Storage.entryAt (s : Storage) (n : TreeNode) : BlockIndexEntry :=
  (s.getEntry n.body.hash).getD
    ⟨n.body.hash, n.height, n.body.header.prevHash, n.chainwork, false, n.body.header, false⟩

theorem Storage.entryAt_of_row {s : Storage} {n : TreeNode} {row : BlockRow}
    (h : s.blocks.lookup n.body.hash = some row) : s.entryAt n = row.entry n.body.hash := by
  unfold entryAt getEntry
  rw [h]
  rfl

theorem Storage.getEntry_eq {s : Storage} {n : TreeNode} (h : s.tree n.body.hash = some n) :
    s.getEntry n.body.hash = some (s.entryAt n) := by
  obtain ⟨row, hrow, -⟩ := tree_eq_some.mp h
  rw [entryAt_of_row hrow, getEntry, hrow]
  rfl

section Fields

variable {s : Storage} {n : TreeNode}

theorem Storage.entryAt_hash : (s.entryAt n).hash = n.body.hash := by
  unfold entryAt getEntry
  cases s.blocks.lookup n.body.hash <;> rfl

theorem Storage.entryAt_height (h : s.tree n.body.hash = some n) :
    (s.entryAt n).height = n.height := by
  obtain ⟨row, hrow, rfl⟩ := tree_eq_some.mp h
  rw [entryAt_of_row hrow]
  rfl

theorem Storage.entryAt_chainwork (h : s.tree n.body.hash = some n) :
    (s.entryAt n).chainwork = n.chainwork := by
  obtain ⟨row, hrow, rfl⟩ := tree_eq_some.mp h
  rw [entryAt_of_row hrow]
  rfl

theorem Storage.entryAt_header (h : s.tree n.body.hash = some n) :
    (s.entryAt n).header = n.body.header := by
  obtain ⟨row, hrow, rfl⟩ := tree_eq_some.mp h
  rw [entryAt_of_row hrow]
  rfl

theorem Storage.entryAt_prevHash (h : s.tree n.body.hash = some n) :
    (s.entryAt n).prevHash = n.body.header.prevHash := by
  obtain ⟨row, hrow, rfl⟩ := tree_eq_some.mp h
  rw [entryAt_of_row hrow]
  rfl

/-- The entry that the storage returns for a hash is the entry of a node. -/
theorem Storage.getEntry_eq_some {params : ChainParams} {h : Hash} {e : BlockIndexEntry}
    (hT : GoodTree params s.tree) (he : s.getEntry h = some e) :
    ∃ n, s.tree n.body.hash = some n ∧ n.body.hash = h ∧ e = s.entryAt n := by
  obtain ⟨row, hrow, rfl⟩ := Option.map_eq_some_iff.mp he
  have hkey := hT.keyed (tree_eq_some.mpr ⟨row, hrow, rfl⟩)
  have hrow' : s.blocks.lookup row.known.body.hash = some row := by rw [hkey, hrow]
  exact ⟨row.known, tree_eq_some.mpr ⟨row, hrow', rfl⟩, hkey, by rw [entryAt_of_row hrow', hkey]⟩

theorem Active.entryAt_inChain {params : ChainParams} {bs : List TreeNode}
    (hA : Active params s bs) (h : s.tree n.body.hash = some n) :
    (s.entryAt n).inChain = true ↔ n ∈ bs := by
  obtain ⟨row, hrow, rfl⟩ := Storage.tree_eq_some.mp h
  rw [Storage.entryAt_of_row hrow]
  exact hA.marked hrow

end Fields

/-! ## Pruning -/

/-- Bodies and undo records were dropped at some of the hashes that satisfy `P`; nothing else of the
block table, the undo records or the coins changed. -/
structure Pruned (P : Hash → Prop) (s s' : Storage) : Prop where
  rows : ∀ h, s'.blocks.lookup h = s.blocks.lookup h ∨ (P h ∧ ∃ row,
    s.blocks.lookup h = some row ∧ s'.blocks.lookup h = some { row with pruned := true })
  undo : ∀ h, s'.undo.lookup h = s.undo.lookup h ∨ (P h ∧ s'.undo.lookup h = none)
  headers : s'.headers = s.headers
  utxo : s'.utxo = s.utxo
  tipHash : s'.tipHash = s.tipHash

namespace Pruned

variable {P : Hash → Prop} {s s₁ s' : Storage}

omit [Crypto] in
theorem refl (P : Hash → Prop) (s : Storage) : Pruned P s s :=
  ⟨fun _ => .inl rfl, fun _ => .inl rfl, rfl, rfl, rfl⟩

omit [Crypto] in
theorem trans (h : Pruned P s s₁) (h' : Pruned P s₁ s') : Pruned P s s' where
  rows k := by
    rcases h'.rows k with heq' | ⟨hP, row', hrow', heq'⟩
    · rw [heq']
      exact h.rows k
    · rcases h.rows k with heq | ⟨-, row, hrow, heq⟩
      · exact .inr ⟨hP, row', heq ▸ hrow', heq'⟩
      · rw [heq] at hrow'
        obtain rfl := Option.some.inj hrow'
        exact .inr ⟨hP, row, hrow, heq'⟩
  undo k := by
    rcases h'.undo k with heq' | hnone
    · rw [heq']
      exact h.undo k
    · exact .inr hnone
  headers := h'.headers.trans h.headers
  utxo := h'.utxo.trans h.utxo
  tipHash := h'.tipHash.trans h.tipHash

omit [Crypto] in
theorem mono {Q : Hash → Prop} (hPQ : ∀ k, P k → Q k) (h : Pruned P s s') : Pruned Q s s' :=
  ⟨fun k => (h.rows k).imp id (And.imp (hPQ k) id), fun k => (h.undo k).imp id (And.imp (hPQ k) id),
    h.headers, h.utxo, h.tipHash⟩

omit [Crypto] in
theorem tree_eq (h : Pruned P s s') : s'.tree = s.tree := by
  funext k
  unfold Storage.tree
  rcases h.rows k with heq | ⟨-, row, hrow, heq⟩
  · rw [heq]
  · rw [heq, hrow]
    rfl

theorem active {params : ChainParams} {bs : List TreeNode} (h : Pruned P s s')
    (hA : Active params s bs) : Active params s' bs := by
  refine ⟨h.tree_eq ▸ hA.branch, fun {k row} hrow => ?_⟩
  rcases h.rows k with heq | ⟨-, row', hrow', heq⟩
  · exact hA.marked (heq ▸ hrow)
  · rw [heq] at hrow
    obtain rfl := Option.some.inj hrow
    have hmarked : row'.inChain = true ↔ row'.known ∈ bs := hA.marked hrow'
    exact hmarked

end Pruned

/-- A round of `prune_to` drops at most the body and the undo record of its block. -/
theorem Storage.pruneBlock_pruned (acc : Storage × Nat × Nat) (h : Hash) :
    Pruned (· = h) acc.1 (Storage.pruneBlock acc h).1 := by
  unfold pruneBlock
  split
  · exact Pruned.refl _ _
  · rename_i row hrow
    split
    · exact Pruned.refl _ _
    · refine ⟨fun k => ?_, fun k => ?_, rfl, rfl, rfl⟩
      · by_cases hk : k = h
        · subst hk
          exact .inr ⟨rfl, row, hrow, Finmap.lookup_insert _⟩
        · exact .inl (Finmap.lookup_insert_of_ne _ hk)
      · by_cases hk : k = h
        · subst hk
          exact .inr ⟨rfl, Finmap.lookup_erase _ _⟩
        · exact .inl (Finmap.lookup_erase_ne hk)

/-- `prune_to` drops bodies and undo records of blocks above genesis and at or below the height. -/
theorem Storage.pruneTo_pruned [ScanOrder Hash] (s : Storage) (height : Nat) :
    Pruned (fun h => ∃ row, s.blocks.lookup h = some row ∧ 1 ≤ row.height ∧ row.height ≤ height) s
      (s.pruneTo height).1 := by
  have hfold : ∀ (hs : List Hash) (acc : Storage × Nat × Nat),
      Pruned (· ∈ hs) acc.1 (hs.foldl pruneBlock acc).1 := by
    intro hs
    induction hs with
    | nil => exact fun acc => Pruned.refl _ _
    | cons h hs ih =>
      intro acc
      have hone := (pruneBlock_pruned acc h).mono (Q := (· ∈ h :: hs))
        fun k hk => List.mem_cons.mpr (.inl hk)
      exact hone.trans ((ih (pruneBlock acc h)).mono fun k hk => List.mem_cons_of_mem h hk)
  have hcand : ∀ h ∈ s.prunableBlocks height, ∃ row, s.blocks.lookup h = some row ∧
      1 ≤ row.height ∧ row.height ≤ height := by
    intro h hh
    obtain ⟨⟨k, row⟩, hmem, rfl⟩ := List.mem_map.mp hh
    obtain ⟨hrow, hbounds⟩ := List.mem_filter.mp ((List.mem_insertionSort _).mp hmem)
    simp only [Bool.and_eq_true, decide_eq_true_eq] at hbounds
    exact ⟨row, (mem_scan s.blocks k row).mp hrow, hbounds.2⟩
  have hmain := (hfold (s.prunableBlocks height) (s, 0, 0)).mono hcand
  unfold pruneTo
  dsimp only
  split
  · exact hmain
  · exact ⟨hmain.rows, hmain.undo, hmain.headers, hmain.utxo, hmain.tipHash⟩

/-! ## Steps -/

/-- The storage with a new node stored, off the active chain. -/
def Storage.insertNode (s : Storage) (n : TreeNode) : Storage :=
  { s with
    blocks := s.blocks.insert n.body.hash
      ⟨n.height, n.chainwork, false, false, n.body, n.body.transactions.length⟩ }

theorem Storage.tree_insertNode (s : Storage) (n : TreeNode) :
    (s.insertNode n).tree = Function.update s.tree n.body.hash (some n) :=
  @tree_insert _ s _ n.body
    ⟨n.height, n.chainwork, false, false, n.body, n.body.transactions.length⟩ rfl rfl

/-- One step of a storage with its active chain, the tip first. -/
inductive ChainStep (params : ChainParams) :
    Storage × List TreeNode → Storage × List TreeNode → Prop where
  | store {s : Storage} {bs : List TreeNode} {n p : TreeNode} :
      s.tree n.body.hash = none → s.tree n.body.header.prevHash = some p → ChildOf p n →
      Admitted params n.height n.body → n.chainwork < 2 ^ 256 →
      ChainStep params (s, bs) (s.insertNode n, bs)
  | header {s : Storage} {bs : List TreeNode} (headers : Table Hash HeaderRow) :
      ChainStep params (s, bs) ({ s with headers := headers }, bs)
  | point {s : Storage} {n : TreeNode} {rest : List TreeNode} :
      ChainStep params (s, n :: rest) (s.setTip n.body.hash, n :: rest)
  | prune {s s' : Storage} {n : TreeNode} {rest : List TreeNode} {bound : Nat} :
      bound + 2 ≤ n.height →
      Pruned (fun h => ∃ row, s.blocks.lookup h = some row ∧ 1 ≤ row.height ∧ row.height ≤ bound)
        s s' →
      ChainStep params (s, n :: rest) (s', n :: rest)
  | disconnect {s s' : Storage} {b n : TreeNode} {rest : List TreeNode} {undo : List UndoEntry} :
      s.getUndo b.body.hash = .ok undo → Disconnected s (s.entryAt b) b.body undo s' →
      ChainStep params (s, b :: n :: rest) (s', n :: rest)
  | connect {s s' : Storage} {b n : TreeNode} {rest : List TreeNode} {st : ConnectState}
      {data : Bytes} :
      s.tree b.body.hash = some b → b.body.header.prevHash = n.body.hash →
      b.height = n.height + 1 → checkBlock params s.utxo b.body (s.entryAt b) = .ok st →
      encodeUndo st.undo = .ok data → Connected s b.body (s.entryAt b) st data s' →
      ChainStep params (s, n :: rest) (s', b :: n :: rest)

/-- Any number of steps. -/
abbrev ChainTrace (params : ChainParams) :
    Storage × List TreeNode → Storage × List TreeNode → Prop :=
  Relation.ReflTransGen (ChainStep params)

/-- The invariant that every step keeps: a good tree and an active chain in it. -/
structure Based (params : ChainParams) (a : Storage × List TreeNode) : Prop where
  tree : GoodTree params a.1.tree
  active : Active params a.1 a.2

/-- A step changes no block that is stored. -/
theorem ChainStep.tree_mono {params : ChainParams} {a b : Storage × List TreeNode}
    (h : ChainStep params a b) {k : Hash} {n : TreeNode} (hn : a.1.tree k = some n) :
    b.1.tree k = some n := by
  cases h with
  | @store s bs m p hnew _ _ _ _ =>
    have hne : k ≠ m.body.hash := by
      rintro rfl
      rw [show s.tree _ = none from hnew] at hn
      cases hn
    rw [Storage.tree_insertNode, Function.update_of_ne hne]
    exact hn
  | header headers => exact hn
  | point => exact hn
  | prune _ hpruned => rw [show Storage.tree _ = _ from hpruned.tree_eq]; exact hn
  | disconnect _ hdis =>
    rw [show Storage.tree _ = _ from Storage.tree_modify hdis.blocks fun _ => rfl]
    exact hn
  | connect _ _ _ _ _ hcon =>
    rw [show Storage.tree _ = _ from Storage.tree_modify hcon.blocks fun _ => rfl]
    exact hn

/-- Every step keeps the tree good and the marks on one branch. -/
theorem ChainStep.based {params : ChainParams} {a b : Storage × List TreeNode}
    (h : ChainStep params a b) (ha : Based params a) : Based params b := by
  obtain ⟨hT, hA⟩ := ha
  cases h with
  | @store s bs n p hnew hp hchild hadm hfit =>
    have hstep : ChainStep params (s, bs) (s.insertNode n, bs) := .store hnew hp hchild hadm hfit
    refine ⟨?_, hA.branch.mono fun k m hm => hstep.tree_mono hm, fun {k row} hrow => ?_⟩
    · rw [Storage.tree_insertNode]
      exact hT.insert hnew hp hchild hadm hfit
    · rw [Storage.insertNode, Table.lookup_insert_if] at hrow
      by_cases hk : k = n.body.hash
      · rw [if_pos hk] at hrow
        obtain rfl := Option.some.inj hrow
        refine iff_of_false Bool.false_ne_true fun hmem => ?_
        rw [show s.tree n.body.hash = some n from hA.branch.stored n hmem] at hnew
        cases hnew
      · rw [if_neg hk] at hrow
        exact hA.marked hrow
  | header headers => exact ⟨hT, hA.branch, hA.marked⟩
  | point => exact ⟨hT, hA.branch, hA.marked⟩
  | prune _ hpruned =>
    exact ⟨by rw [show Storage.tree _ = _ from hpruned.tree_eq]; exact hT, hpruned.active hA⟩
  | @disconnect s s' b n rest undo _ hdis =>
    have hblocks := hdis.blocks
    rw [Storage.entryAt_hash] at hblocks
    have htree : (s', n :: rest).1.tree = s.tree := Storage.tree_modify hblocks fun _ => rfl
    exact ⟨by rw [htree]; exact hT, hA.unmark hT hblocks⟩
  | @connect s s' b n rest st data hb hprev hheight _ _ hcon =>
    have hblocks := hcon.blocks
    rw [Storage.entryAt_hash] at hblocks
    have htree : (s', b :: n :: rest).1.tree = s.tree := Storage.tree_modify hblocks fun _ => rfl
    exact ⟨by rw [htree]; exact hT, hA.mark hT hb hprev hheight hblocks⟩

theorem ChainTrace.based {params : ChainParams} {a b : Storage × List TreeNode}
    (h : ChainTrace params a b) (ha : Based params a) : Based params b := by
  induction h with
  | refl => exact ha
  | tail _ hstep ih => exact hstep.based ih

theorem ChainTrace.tree_mono {params : ChainParams} {a b : Storage × List TreeNode}
    (h : ChainTrace params a b) {k : Hash} {n : TreeNode} (hn : a.1.tree k = some n) :
    b.1.tree k = some n := by
  induction h with
  | refl => exact hn
  | tail _ hstep ih => exact hstep.tree_mono ih

/-- What holds at the start and is kept by every step from a state that is based holds after any
number of steps. -/
theorem ChainTrace.invariant {params : ChainParams} (P : Storage × List TreeNode → Prop)
    (hstep : ∀ a b, Based params a → P a → ChainStep params a b → P b)
    {a b : Storage × List TreeNode} (h : ChainTrace params a b) (hbase : Based params a)
    (ha : P a) : P b := by
  induction h with
  | refl => exact ha
  | tail htrace hlast ih => exact hstep _ _ (ChainTrace.based htrace hbase) ih hlast

end ScarletCoin
