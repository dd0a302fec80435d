import ScarletCoin.Invariants.ActiveChain

/-!
# The bits required of a child

The bits that a child of a stored block must carry are a function of the branch of the block and of
the timestamp of the child, `requiredBits`. The computation over index entries, which takes a
shortcut through the marks once it meets the active chain, and the computation over nodes, which
follows the hashes of parents, both compute it (`nextBitsAfter_eq`, `nextBitsForNode_eq`).

A branch never changes once its tip is stored. So both paths require the same bits of a header and
of its body, also when the calls between the two change the active chain
(`Reachable.nextBits_agree`).
-/

set_option autoImplicit false

namespace ScarletCoin

open Toolkit

/-! ## The function of the branch -/

/-- The compact target of the node. -/
def TreeNode.bits (n : TreeNode) : Nat := n.body.header.bits.toNat

/-- The timestamp of the node. -/
def TreeNode.timestamp (n : TreeNode) : Nat := n.body.header.timestamp.toNat

/-- The node of a branch at a height. -/
def atHeight (bs : List TreeNode) (height : Nat) : Option TreeNode :=
  bs.find? fun n => n.height == height

/-- The branch from the oldest ancestor on that is still inside the window. -/
def windowOf (cutoff : Int) : List TreeNode → List TreeNode
  | n :: p :: rest =>
      if (p.timestamp : Int) < cutoff then n :: p :: rest else windowOf cutoff (p :: rest)
  | bs => bs

/-- The target that the work of the window asks for. -/
def windowBits (params : ChainParams) (parent : TreeNode) (childTimestamp : Nat) :
    List TreeNode → Except PyError Nat
  | [] => pure parent.bits
  | start :: before =>
      bitsFromWork
        ((parent.chainwork : Int) - (((before.head?).map TreeNode.chainwork).getD 0 : Nat))
        ((childTimestamp : Int) - (start.timestamp : Int)) params.targetSpacing params.powLimit
        parent.bits params.maxAdjustmentFactor

/-- The bits required of a child of `parent`, which lies on top of `rest`. -/
def requiredBits (params : ChainParams) (parent : TreeNode) (rest : List TreeNode)
    (childTimestamp : Nat) : Except PyError Nat :=
  let height := parent.height + 1
  let interval := params.retargetInterval
  if params.perBlockRetarget = false ∨ height < params.retargetForkHeight then
    if height % interval ≠ 0 then pure parent.bits
    else
      match atHeight rest (height - interval) with
      | none => pure parent.bits
      | some first => nextBits parent.bits ((parent.timestamp : Int) - (first.timestamp : Int))
          params.targetTimespan params.powLimit params.maxAdjustmentFactor
  else if (params.maxFutureTime : Int) < (childTimestamp : Int) - (parent.timestamp : Int) then
    pure params.powLimitBits
  else if height < params.retargetMeasureForkHeight then
    match atHeight rest (height - min height interval) with
    | none => pure parent.bits
    | some first => nextBits parent.bits ((childTimestamp : Int) - (first.timestamp : Int))
        (params.targetSpacing * min height interval) params.powLimit params.maxAdjustmentFactor
  else
    windowBits params parent childTimestamp
      (windowOf ((parent.timestamp : Int) - (params.targetSpacing * interval : Nat))
        (parent :: rest))

/-- A walk of a whole period from a child ends below its parent. -/
structure ChainParams.WalksBelow (p : ChainParams) : Prop where
  interval : 2 ≤ p.retargetInterval
  ratio : p.perBlockRetarget = true → p.retargetForkHeight < p.retargetMeasureForkHeight →
    2 ≤ p.retargetForkHeight

theorem ChainParams.walksBelow {p : ChainParams} (hp : p ∈ NETWORKS) : p.WalksBelow := by
  have hall : ∀ q ∈ NETWORKS, 2 ≤ q.retargetInterval ∧ (q.perBlockRetarget = true →
      q.retargetForkHeight < q.retargetMeasureForkHeight → 2 ≤ q.retargetForkHeight) := by
    decide
  exact ⟨(hall p hp).1, (hall p hp).2⟩

/-- Where both computations look for an ancestor: below the parent. -/
theorem ChainParams.WalksBelow.period {p : ChainParams} (hwalk : p.WalksBelow) {height : Nat}
    (hmod : ¬ (height + 1) % p.retargetInterval ≠ 0) :
    p.retargetInterval ≤ height + 1 ∧ height + 1 - p.retargetInterval < height := by
  have hle := Nat.le_of_dvd (Nat.succ_pos height) (Nat.dvd_of_mod_eq_zero (not_not.mp hmod))
  have htwo := hwalk.interval
  omega

theorem ChainParams.WalksBelow.lookback {p : ChainParams} (hwalk : p.WalksBelow) {height : Nat}
    (hfork : ¬ (p.perBlockRetarget = false ∨ height + 1 < p.retargetForkHeight))
    (hmeasure : height + 1 < p.retargetMeasureForkHeight) :
    height + 1 - min (height + 1) p.retargetInterval < height := by
  obtain ⟨hper, hheight⟩ := not_or.mp hfork
  have hratio := hwalk.ratio (by simpa using hper) (by omega)
  have htwo := hwalk.interval
  omega

section Walks

variable [Crypto] {params : ChainParams} {s : Storage} {bs : List TreeNode}

theorem Branch.atHeight_eq {path : List TreeNode} (hpath : Branch (lineage params) s.tree path)
    {m : TreeNode} (hm : m ∈ path) : atHeight path m.height = some m := by
  cases hfind : atHeight path m.height with
  | none =>
    have hno := List.find?_eq_none.mp hfind m hm
    simp at hno
  | some k =>
    have hk := List.mem_of_find?_eq_some hfind
    have hheight : k.height = m.height := by simpa using List.find?_some hfind
    rw [hpath.depth_injective k hk m hm hheight]

/-! ## Walks over nodes -/

theorem Storage.node_eq {n : TreeNode} (hn : s.tree n.body.hash = some n) :
    s.node n.body.hash = some (s.entryAt n).node := by
  unfold node
  rw [getEntry_eq hn]

theorem Storage.nodeWalk_eq {w m : TreeNode} {rest : List TreeNode} {rounds : Nat}
    (hpath : Branch (lineage params) s.tree (w :: rest)) (hm : m ∈ w :: rest)
    (hrounds : rest.length ≤ rounds) :
    nodeWalk s m.height rounds (s.node w.body.hash) = .ok (some (s.entryAt m).node) := by
  induction rest generalizing w rounds with
  | nil =>
    have hw := hpath.stored w List.mem_cons_self
    obtain rfl := List.mem_singleton.mp hm
    have hheight : (s.entryAt m).node.height = m.height := Storage.entryAt_height hw
    rw [node_eq hw]
    unfold nodeWalk
    rw [if_pos (Nat.le_of_eq hheight)]
  | cons p rest ih =>
    have hw := hpath.stored w List.mem_cons_self
    have hheight : (s.entryAt w).node.height = w.height := Storage.entryAt_height hw
    rw [node_eq hw]
    unfold nodeWalk
    rcases List.mem_cons.mp hm with rfl | hm'
    · rw [if_pos (Nat.le_of_eq hheight)]
    · have hlt : m.height < w.height := hpath.depth_lt m hm'
      obtain ⟨rounds, rfl⟩ : ∃ r, rounds = r + 1 := ⟨rounds - 1, by simp at hrounds; omega⟩
      have hprev : (s.entryAt w).node.prevHash = p.body.hash :=
        (Storage.entryAt_prevHash hw).trans hpath.prev_head
      rw [if_neg (by omega)]
      dsimp only
      rw [hprev]
      exact ih hpath.tail hm' (by simpa using hrounds)

theorem Branch.length_le_nodeRounds {path : List TreeNode}
    (hpath : Branch (lineage params) s.tree path) : path.length ≤ s.nodeRounds := by
  have hlen := Branch.length_le hpath
  unfold Storage.blockCount at hlen
  unfold Storage.nodeRounds
  omega

/-- The walk over nodes finds the ancestor on the branch. -/
theorem Storage.nodeAtHeight_eq {n p m : TreeNode} {rest : List TreeNode}
    (hpath : Branch (lineage params) s.tree (n :: p :: rest)) (hm : m ∈ p :: rest) :
    nodeAtHeight s n.body.header.prevHash m.height = .ok (some (s.entryAt m).node) := by
  have hlen := Branch.length_le_nodeRounds hpath
  unfold nodeAtHeight
  rw [show n.body.header.prevHash = p.body.hash from hpath.prev_head]
  exact nodeWalk_eq hpath.tail hm (by simp at hlen; omega)

/-- The window loop over nodes stops at the oldest ancestor inside the window. -/
theorem nodeWindowStart_eq (cutoff : Int) {rounds : Nat} {w : TreeNode} {rest : List TreeNode}
    (hpath : Branch (lineage params) s.tree (w :: rest)) (hrounds : rest.length ≤ rounds) :
    ∃ start before, windowOf cutoff (w :: rest) = start :: before ∧
      Branch (lineage params) s.tree (start :: before) ∧
      nodeWindowStart s cutoff rounds (s.entryAt w).node = .ok (s.entryAt start).node := by
  induction rest generalizing w rounds with
  | nil =>
    have hw := hpath.stored w List.mem_cons_self
    have hzero : w.height = 0 := hpath.depth_head
    have hheight : (s.entryAt w).node.height = 0 := (Storage.entryAt_height hw).trans hzero
    refine ⟨w, [], rfl, hpath, ?_⟩
    unfold nodeWindowStart
    rw [if_pos hheight]
  | cons p rest ih =>
    have hw := hpath.stored w List.mem_cons_self
    have hp := hpath.tail.stored p List.mem_cons_self
    have hpos : w.height = (p :: rest).length := hpath.depth_head
    have hne : ¬ (s.entryAt w).node.height = 0 := by
      rw [show (s.entryAt w).node.height = _ from Storage.entryAt_height hw, hpos]
      simp
    have hprev : (s.entryAt w).node.prevHash = p.body.hash :=
      (Storage.entryAt_prevHash hw).trans hpath.prev_head
    have htime : (s.entryAt p).node.timestamp = p.timestamp := by
      show (s.entryAt p).header.timestamp.toNat = _
      rw [Storage.entryAt_header hp]
      rfl
    unfold nodeWindowStart windowOf
    rw [if_neg hne, hprev, Storage.node_eq hp]
    dsimp only
    rw [htime]
    by_cases hcut : (p.timestamp : Int) < cutoff
    · rw [if_pos hcut, if_pos hcut]
      exact ⟨w, p :: rest, rfl, hpath, rfl⟩
    · obtain ⟨rounds, rfl⟩ : ∃ r, rounds = r + 1 := ⟨rounds - 1, by simp at hrounds; omega⟩
      rw [if_neg hcut, if_neg hcut]
      exact ih hpath.tail (by simpa using hrounds)

/-! ## Walks over entries -/

variable [ScanOrder Hash]

/-- The active block at the height of an active node is that node. -/
theorem Based.getChainEntry_eq (hbase : Based params (s, bs)) {m : TreeNode} (hm : m ∈ bs) :
    s.getChainEntry m.height = some (s.entryAt m) := by
  have hbranch : Branch (lineage params) s.tree bs := hbase.active.branch
  unfold Storage.getChainEntry
  cases hfind : s.blockRows.find? fun p => p.2.inChain && p.2.height == m.height with
  | none =>
    obtain ⟨row, hrow, hknown⟩ := Storage.tree_eq_some.mp (hbranch.stored m hm)
    have hmark : row.inChain = true := (hbase.active.marked hrow).mpr (hknown ▸ hm)
    have hheight : row.height = m.height := congrArg TreeNode.height hknown
    have hno := List.find?_eq_none.mp hfind (_, row) ((mem_scan s.blocks _ row).mpr hrow)
    simp [hmark, hheight] at hno
  | some p =>
    obtain ⟨k, row⟩ := p
    have hrow : s.blocks.lookup k = some row :=
      (mem_scan s.blocks k row).mp (List.mem_of_find?_eq_some hfind)
    have hcond := List.find?_some hfind
    simp only [Bool.and_eq_true, beq_iff_eq] at hcond
    have hknown : row.known = m :=
      hbranch.depth_injective _ ((hbase.active.marked hrow).mp hcond.1) m hm hcond.2
    have hkey : m.body.hash = k :=
      hknown ▸ hbase.tree.keyed (Storage.tree_eq_some.mpr ⟨row, hrow, rfl⟩)
    rw [Option.map_some, Storage.entryAt_of_row (hkey ▸ hrow), hkey]

/-- The loop over entries finds the ancestor on the branch, with or without the shortcut. -/
theorem ancestorWalk_eq (hbase : Based params (s, bs)) {w m : TreeNode} {rest : List TreeNode}
    {rounds : Nat} (hpath : Branch (lineage params) s.tree (w :: rest)) (hm : m ∈ w :: rest)
    (hrounds : rest.length ≤ rounds) :
    ancestorWalk s m.height rounds (s.entryAt w) = .ok (some (s.entryAt m)) := by
  induction rest generalizing w rounds with
  | nil =>
    have hw := hpath.stored w List.mem_cons_self
    obtain rfl := List.mem_singleton.mp hm
    unfold ancestorWalk
    rw [if_pos (Nat.le_of_eq (Storage.entryAt_height hw))]
  | cons p rest ih =>
    have hw := hpath.stored w List.mem_cons_self
    have hheight := Storage.entryAt_height hw
    unfold ancestorWalk
    rcases List.mem_cons.mp hm with rfl | hm'
    · rw [if_pos (Nat.le_of_eq hheight)]
    · have hlt : m.height < w.height := hpath.depth_lt m hm'
      rw [if_neg (by omega)]
      by_cases hmark : (s.entryAt w).inChain = true
      · -- from an active block on, the branch is the active chain
        have hwmem : w ∈ bs := (hbase.active.entryAt_inChain hw).mp hmark
        obtain ⟨gone, hbs⟩ := Branch.agree [] hpath hbase.active.branch hwmem
        have hbs : bs = gone ++ w :: p :: rest := hbs
        rw [if_pos hmark, hbase.getChainEntry_eq (hbs ▸ List.mem_append_right gone hm)]
      · obtain ⟨rounds, rfl⟩ : ∃ r, rounds = r + 1 := ⟨rounds - 1, by simp at hrounds; omega⟩
        have hp := hpath.tail.stored p List.mem_cons_self
        have hprev : (s.entryAt w).prevHash = p.body.hash :=
          (Storage.entryAt_prevHash hw).trans hpath.prev_head
        rw [if_neg hmark, hprev, Storage.getEntry_eq hp]
        exact ih hpath.tail hm' (by simpa using hrounds)

/-- `ancestor_at` returns the ancestor on the branch. -/
theorem ancestorAt_eq (hbase : Based params (s, bs)) {w m : TreeNode} {rest : List TreeNode}
    (hpath : Branch (lineage params) s.tree (w :: rest)) (hm : m ∈ w :: rest) :
    ancestorAt s (s.entryAt w) (m.height : Int) = .ok (some (s.entryAt m)) := by
  have hw := hpath.stored w List.mem_cons_self
  have hheight := Storage.entryAt_height hw
  have hlen := Branch.length_le hpath
  have hle : m.height ≤ w.height := by
    rcases List.mem_cons.mp hm with rfl | hm'
    · exact Nat.le_refl _
    · exact Nat.le_of_lt (hpath.depth_lt m hm')
  unfold ancestorAt
  rw [if_neg (by omega), Int.toNat_natCast]
  by_cases hmark : (s.entryAt w).inChain = true
  · have hwmem : w ∈ bs := (hbase.active.entryAt_inChain hw).mp hmark
    obtain ⟨gone, hbs⟩ := Branch.agree [] hpath hbase.active.branch hwmem
    have hbs : bs = gone ++ w :: rest := hbs
    rw [if_pos hmark, hbase.getChainEntry_eq (hbs ▸ List.mem_append_right gone hm)]
  · rw [if_neg hmark]
    exact ancestorWalk_eq hbase hpath hm (by simp at hlen; omega)

/-- There is no ancestor below genesis. -/
theorem ancestorAt_root {g : TreeNode} (hpath : Branch (lineage params) s.tree [g]) :
    ancestorAt s (s.entryAt g) (((s.entryAt g).height : Int) - 1) = .ok none := by
  have hzero : g.height = 0 := hpath.depth_head
  unfold ancestorAt
  rw [Storage.entryAt_height (hpath.stored g List.mem_cons_self), hzero]
  exact if_pos (.inr (by decide))

/-- One back along the branch is the parent. -/
theorem ancestorAt_parent (hbase : Based params (s, bs)) {w p : TreeNode} {rest : List TreeNode}
    (hpath : Branch (lineage params) s.tree (w :: p :: rest)) :
    ancestorAt s (s.entryAt w) (((s.entryAt w).height : Int) - 1) = .ok (some (s.entryAt p)) := by
  have hheight : w.height = p.height + 1 := by
    have hw : w.height = (p :: rest).length := hpath.depth_head
    have hp : p.height = rest.length := hpath.tail.depth_head
    rw [hw, hp, List.length_cons]
  rw [Storage.entryAt_height (hpath.stored w List.mem_cons_self), hheight,
    show ((p.height + 1 : Nat) : Int) - 1 = (p.height : Int) by omega]
  exact ancestorAt_eq hbase hpath (List.mem_cons_of_mem w List.mem_cons_self)

/-- The window loop over entries stops there as well. -/
theorem windowStart_eq (hbase : Based params (s, bs)) (cutoff : Int) {rounds : Nat} {w : TreeNode}
    {rest : List TreeNode} (hpath : Branch (lineage params) s.tree (w :: rest))
    (hrounds : rest.length ≤ rounds) :
    ∃ start before, windowOf cutoff (w :: rest) = start :: before ∧
      Branch (lineage params) s.tree (start :: before) ∧
      windowStart s cutoff rounds (s.entryAt w) = .ok (s.entryAt start) := by
  induction rest generalizing w rounds with
  | nil =>
    have hw := hpath.stored w List.mem_cons_self
    have hzero : w.height = 0 := hpath.depth_head
    refine ⟨w, [], rfl, hpath, ?_⟩
    unfold windowStart
    rw [if_pos ((Storage.entryAt_height hw).trans hzero)]
  | cons p rest ih =>
    have hw := hpath.stored w List.mem_cons_self
    have hp := hpath.tail.stored p List.mem_cons_self
    have hpos : w.height = (p :: rest).length := hpath.depth_head
    have hne : ¬ (s.entryAt w).height = 0 := by
      rw [Storage.entryAt_height hw, hpos]
      simp
    have htime : (s.entryAt p).timestamp = p.timestamp := by
      rw [BlockIndexEntry.timestamp, Storage.entryAt_header hp]
      rfl
    obtain ⟨rounds, rfl⟩ : ∃ r, rounds = r + 1 := ⟨rounds - 1, by simp at hrounds; omega⟩
    unfold windowStart windowOf
    rw [if_neg hne]
    dsimp only
    rw [ancestorAt_parent hbase hpath, ok_bind]
    dsimp only
    rw [htime]
    by_cases hcut : (p.timestamp : Int) < cutoff
    · rw [if_pos hcut, if_pos hcut]
      exact ⟨w, p :: rest, rfl, hpath, rfl⟩
    · rw [if_neg hcut, if_neg hcut]
      exact ih hpath.tail (by simpa using hrounds)

end Walks

/-! ## Both paths compute it -/

section Paths

variable [Crypto] {params : ChainParams} {s : Storage} {bs : List TreeNode}

/-- A height below a node is the height of a node of the branch under it. -/
theorem Branch.exists_below {n : TreeNode} {rest : List TreeNode}
    (hpath : Branch (lineage params) s.tree (n :: rest)) {t : Nat} (ht : t < n.height) :
    ∃ p below m, rest = p :: below ∧ m ∈ rest ∧ m.height = t ∧ atHeight rest t = some m := by
  have hlen : n.height = rest.length := hpath.depth_head
  cases rest with
  | nil =>
    rw [List.length_nil] at hlen
    omega
  | cons p below =>
    obtain ⟨m, hm, hmt⟩ := hpath.tail.exists_depth (d := t) (by omega)
    exact ⟨p, below, m, rfl, hm, hmt, hmt ▸ Branch.atHeight_eq hpath.tail hm⟩

section Fields

variable {n : TreeNode} (hn : s.tree n.body.hash = some n)

include hn

theorem Storage.entryAt_bits : (s.entryAt n).bits = n.bits := by
  rw [BlockIndexEntry.bits, entryAt_header hn]
  rfl

theorem Storage.entryAt_timestamp : (s.entryAt n).timestamp = n.timestamp := by
  rw [BlockIndexEntry.timestamp, entryAt_header hn]
  rfl

/-- The node of an entry shows the same numbers. -/
theorem Storage.node_fields : (s.entryAt n).node.bits = n.bits ∧
    (s.entryAt n).node.timestamp = n.timestamp ∧ (s.entryAt n).node.chainwork = n.chainwork ∧
      (s.entryAt n).node.prevHash = n.body.header.prevHash :=
  ⟨entryAt_bits hn, entryAt_timestamp hn, entryAt_chainwork hn, entryAt_prevHash hn⟩

end Fields

/-- The computation over nodes is the function of the branch. -/
theorem nextBitsForNode_eq (hwalk : params.WalksBelow) (hnull : s.node nullHash = none)
    {n : TreeNode} {rest : List TreeNode} (hpath : Branch (lineage params) s.tree (n :: rest))
    (childTimestamp : Nat) :
    nextBitsForNode params s (s.entryAt n).node (n.height + 1) childTimestamp =
      requiredBits params n rest childTimestamp := by
  have hn := hpath.stored n List.mem_cons_self
  obtain ⟨hbits, htime, hwork, hprev⟩ := Storage.node_fields hn
  unfold nextBitsForNode requiredBits
  dsimp only
  rw [hbits, htime, hwork, hprev]
  split
  · -- before the fork: the header one retarget interval back
    split
    · rfl
    · rename_i hmod
      obtain ⟨-, hlt⟩ := hwalk.period hmod
      obtain ⟨p, below, m, rfl, hm, hmt, hat⟩ := Branch.exists_below hpath hlt
      rw [hat, ← hmt, Storage.nodeAtHeight_eq hpath hm, ok_bind]
      dsimp only
      rw [(Storage.node_fields (hpath.tail.stored m hm)).2.1]
  · rename_i hfork
    split
    · rfl
    split
    · rename_i hmeasure
      have hlt := hwalk.lookback hfork hmeasure
      obtain ⟨p, below, m, rfl, hm, hmt, hat⟩ := Branch.exists_below hpath hlt
      unfold nextBitsForNodeTimeRatio
      dsimp only
      rw [hat, ← hmt, hprev, Storage.nodeAtHeight_eq hpath hm, ok_bind, hbits]
      dsimp only
      rw [(Storage.node_fields (hpath.tail.stored m hm)).2.1]
    · -- the trailing window: what stands before its start is the end of the branch, or nothing
      have hlen := Branch.length_le_nodeRounds hpath
      have hrounds : rest.length ≤ s.nodeRounds := by
        rw [List.length_cons] at hlen
        omega
      obtain ⟨start, before, hwindow, hstart, hloop⟩ := nodeWindowStart_eq
        ((n.timestamp : Int) - ((params.targetSpacing * params.retargetInterval : Nat) : Int))
        hpath hrounds
      have hs := hstart.stored start List.mem_cons_self
      obtain ⟨-, hstime, -, hsprev⟩ := Storage.node_fields hs
      rw [hwindow, hloop, ok_bind, windowBits, hstime, hsprev]
      cases before with
      | nil => rw [Branch.root_prevHash hstart, hnull]; rfl
      | cons p before =>
        have hp := hstart.tail.stored p List.mem_cons_self
        rw [show start.body.header.prevHash = p.body.hash from hstart.prev_head,
          Storage.node_eq hp, Option.map_some, (Storage.node_fields hp).2.2.1]
        rfl

variable [ScanOrder Hash]

/-- The work and the time that the trailing window shows. -/
theorem windowWork_eq (hbase : Based params (s, bs)) {n : TreeNode} {rest : List TreeNode}
    (hpath : Branch (lineage params) s.tree (n :: rest)) (childTimestamp : Nat) :
    ∃ start before, windowOf ((n.timestamp : Int) -
        ((params.targetSpacing * params.retargetInterval : Nat) : Int)) (n :: rest) =
          start :: before ∧
      windowWork params s (s.entryAt n) childTimestamp =
        .ok ((n.chainwork : Int) - (((before.head?).map TreeNode.chainwork).getD 0 : Nat),
          (childTimestamp : Int) - (start.timestamp : Int)) := by
  have hn := hpath.stored n List.mem_cons_self
  have hlen := Branch.length_le hpath
  have hrounds : rest.length ≤ s.blockCount + 1 := by
    rw [List.length_cons] at hlen
    omega
  obtain ⟨start, before, hwindow, hstart, hloop⟩ := windowStart_eq hbase
    ((n.timestamp : Int) - ((params.targetSpacing * params.retargetInterval : Nat) : Int))
    hpath hrounds
  have hs := hstart.stored start List.mem_cons_self
  refine ⟨start, before, hwindow, ?_⟩
  unfold windowWork
  dsimp only
  rw [Storage.entryAt_timestamp hn, hloop, ok_bind, Storage.entryAt_timestamp hs,
    Storage.entryAt_chainwork hn]
  cases before with
  | nil => rw [ancestorAt_root hstart]; rfl
  | cons p before =>
    have hp := hstart.tail.stored p List.mem_cons_self
    rw [ancestorAt_parent hbase hstart, ok_bind, Option.map_some, Storage.entryAt_chainwork hp]
    rfl

/-- The computation over entries is the function of the branch. -/
theorem nextBitsAfter_eq (hwalk : params.WalksBelow) (hbase : Based params (s, bs)) {n : TreeNode}
    {rest : List TreeNode} (hpath : Branch (lineage params) s.tree (n :: rest))
    (childTimestamp : Nat) :
    nextBitsAfter params s (s.entryAt n) childTimestamp =
      requiredBits params n rest childTimestamp := by
  have hn := hpath.stored n List.mem_cons_self
  have hheight := Storage.entryAt_height hn
  have hbits := Storage.entryAt_bits hn
  have htime := Storage.entryAt_timestamp hn
  unfold nextBitsAfter requiredBits
  dsimp only
  rw [hheight, hbits, htime]
  split
  · -- before the fork: the block one retarget interval back
    split
    · rfl
    · rename_i hmod
      obtain ⟨hle, hlt⟩ := hwalk.period hmod
      obtain ⟨p, below, m, rfl, hm, hmt, hat⟩ := Branch.exists_below hpath hlt
      rw [hat, ← Nat.cast_sub hle, ← hmt,
        ancestorAt_eq hbase hpath (List.mem_cons_of_mem n hm), ok_bind]
      dsimp only
      rw [Storage.entryAt_timestamp (hpath.tail.stored m hm)]
  · rename_i hfork
    split
    · rfl
    split
    · rename_i hmeasure
      have hlt := hwalk.lookback hfork hmeasure
      obtain ⟨p, below, m, rfl, hm, hmt, hat⟩ := Branch.exists_below hpath hlt
      unfold nextBitsTimeRatio
      dsimp only
      rw [hat, ← Nat.cast_sub (Nat.min_le_left _ _), ← hmt,
        ancestorAt_eq hbase hpath (List.mem_cons_of_mem n hm), ok_bind, hbits]
      dsimp only
      rw [Storage.entryAt_timestamp (hpath.tail.stored m hm)]
    · obtain ⟨start, before, hwindow, hwork⟩ := windowWork_eq hbase hpath childTimestamp
      unfold nextBitsFromWork
      rw [hwork, hwindow, ok_bind, hbits]
      rfl

/-- **The header path and the block path require the same bits** of a child of a stored block, on
the active chain or on a side branch, and also when one of them is asked after further calls. The
only thing asked of the hash function is that no stored block or header hashes to the null hash,
which genesis names as its parent. -/
theorem Reachable.nextBits_agree (hnet : params ∈ NETWORKS) {c c' : Blockchain} {ops : List Call}
    (h : Reachable params c) (hrun : runCalls params c ops = some c')
    (hnull : c.storage.node nullHash = none) (hnull' : c'.storage.node nullHash = none)
    {parent parent' : BlockIndexEntry} (hp : c.storage.Stores parent)
    (hp' : c'.storage.getEntry parent.hash = some parent') (childTimestamp : Nat) :
    nextBitsForNode params c.storage parent.node (parent.height + 1) childTimestamp =
        nextBitsAfter params c.storage parent childTimestamp ∧
      nextBitsForNode params c'.storage parent'.node (parent'.height + 1) childTimestamp =
        nextBitsAfter params c.storage parent childTimestamp ∧
      nextBitsAfter params c'.storage parent' childTimestamp =
        nextBitsForNode params c.storage parent.node (parent.height + 1) childTimestamp := by
  obtain ⟨s₀, g, bs, -, -, hs⟩ := h.run
  obtain ⟨bs', htrace, hs'⟩ := runCalls_standing hs hrun
  have hwalk := ChainParams.walksBelow hnet
  obtain ⟨n, hn, rfl⟩ := hp.node hs.based.tree
  rw [Storage.entryAt_hash] at hp'
  have hn' := htrace.tree_mono hn
  obtain rfl : c'.storage.entryAt n = parent' :=
    Option.some.inj ((Storage.getEntry_eq hn').symm.trans hp')
  obtain ⟨rest, hpath⟩ := hs.based.tree.wellRooted.exists_branch hn
  have hpath' : Branch (lineage params) c'.storage.tree (n :: rest) :=
    hpath.mono fun _ _ hm => htrace.tree_mono hm
  rw [Storage.entryAt_height hn, Storage.entryAt_height hn',
    nextBitsForNode_eq hwalk hnull hpath, nextBitsAfter_eq hwalk hs.based hpath,
    nextBitsForNode_eq hwalk hnull' hpath', nextBitsAfter_eq hwalk hs'.based hpath']
  exact ⟨rfl, rfl, rfl⟩

end Paths

section Instances

attribute [local instance] Sample.crypto Sample.order

/-- It holds for a child of the tip of a branch that has been overtaken. -/
theorem nextBits_agree_overtaken : ∃ c c' parent parent', Sample.chainAfter
    (Sample.overtaken.take 2) = some c ∧ runCalls REGTEST c (Sample.overtaken.drop 2) = some c' ∧
    ∀ childTimestamp,
      nextBitsForNode REGTEST c.storage parent.node (parent.height + 1) childTimestamp =
          nextBitsAfter REGTEST c.storage parent childTimestamp ∧
        nextBitsForNode REGTEST c'.storage parent'.node (parent'.height + 1) childTimestamp =
          nextBitsAfter REGTEST c.storage parent childTimestamp ∧
        nextBitsAfter REGTEST c'.storage parent' childTimestamp =
          nextBitsForNode REGTEST c.storage parent.node (parent.height + 1) childTimestamp := by
  have hrun : ((Sample.chainAfter (Sample.overtaken.take 2)).any fun c =>
      decide (c.storage.node nullHash = none ∧ c.storage.Stores c.tip) &&
        (runCalls REGTEST c (Sample.overtaken.drop 2)).any fun c' =>
          decide (c'.storage.node nullHash = none) && (c'.storage.getEntry c.tip.hash).isSome) =
      true := by decide +kernel
  obtain ⟨c, hc, hcond⟩ := (Option.any_eq_true _ _).mp hrun
  obtain ⟨hstart, hlater⟩ := Bool.and_eq_true_iff.mp hcond
  obtain ⟨hnull, hp⟩ := of_decide_eq_true hstart
  obtain ⟨c', hc', hcond'⟩ := (Option.any_eq_true _ _).mp hlater
  obtain ⟨hnull', hsome⟩ := Bool.and_eq_true_iff.mp hcond'
  obtain ⟨parent', hp'⟩ := Option.isSome_iff_exists.mp hsome
  exact ⟨c, c', c.tip, parent', hc, hc', Reachable.nextBits_agree (by simp [NETWORKS])
    (Sample.chainAfter_reachable hc) hc' hnull (of_decide_eq_true hnull') hp hp'⟩

end Instances

end ScarletCoin
