import ScarletCoin.Invariants.Steps

/-!
# Switching branches

A switch walks from the candidate down to the active chain, unwinds the blocks above the fork and
extends the fork by the new branch. `switchTo_eq` states it over the nodes of the tree: `new` are
the nodes of the candidate's branch above the fork and `gone` those of the active chain, tip first.
The two middle parts are `unwind` and `extend`; when they succeed they are sequences of steps
(`unwind_trace`, `extend_trace`), and so is a switch that succeeds (`switchTo_trace`).
-/

set_option autoImplicit false

namespace ScarletCoin

open Toolkit

variable [Crypto]

/-- A remembered hash on the way from the candidate to the fork. -/
def firstInvalid (invalid : Hash → Bool) (new : List TreeNode) : Option TreeNode :=
  new.find? fun n => invalid n.body.hash

theorem firstInvalid_cons_pos {invalid : Hash → Bool} {n : TreeNode} {new : List TreeNode}
    (h : invalid n.body.hash = true) : firstInvalid invalid (n :: new) = some n := by
  simp [firstInvalid, h]

theorem firstInvalid_cons_neg {invalid : Hash → Bool} {n : TreeNode} {new : List TreeNode}
    (h : ¬ invalid n.body.hash = true) :
    firstInvalid invalid (n :: new) = firstInvalid invalid new := by
  simp [firstInvalid, h]

/-- Disconnect the nodes, the tip first. -/
def unwind : Storage → List TreeNode → Except PyError Storage
  | s, [] => .ok s
  | s, n :: gone => do
      let (s, _) ← disconnectBlock s (s.entryAt n)
      unwind s gone

/-- Connect the nodes, the lowest first. -/
def extend [ScanOrder Hash] (params : ChainParams) : Storage → List TreeNode →
    Except PyError Storage
  | s, [] => .ok s
  | s, n :: ns => do
      match ← s.getBlock n.body.hash with
      | none => .error (.connect n.body.hash "block data is missing")
      | some block => do
          let s ← connectBlock params s block (s.entryAt n)
          extend params s ns

/-- What listeners hear of the nodes. -/
def heard (kind : EventKind) (ns : List TreeNode) : List Event :=
  ns.map fun n => ⟨kind, n.body, n.height⟩

variable {params : ChainParams} {s : Storage}

/-! ## The walk to the fork -/

/-- The walk from the candidate ends at the fork, or at the first remembered hash on the way. -/
theorem collectBranch_eq {bs : List TreeNode} (hbase : Based params (s, bs)) {invalid : Hash → Bool}
    {new below : List TreeNode} {o w : TreeNode} {rounds : Nat} {acc : List BlockIndexEntry}
    (hpath : Branch (lineage params) s.tree (new ++ o :: below)) (ho : o ∈ bs)
    (hnew : ∀ n ∈ new, n ∉ bs) (hw : (new ++ o :: below).head? = some w)
    (hrounds : new.length ≤ rounds) :
    collectBranch s invalid rounds (s.entryAt w) acc =
      match firstInvalid invalid new with
      | some n => .error (.connect n.body.hash "branch contains an invalid block")
      | none => .ok ((new.map s.entryAt).reverse ++ acc, s.entryAt o) := by
  induction new generalizing rounds acc w with
  | nil =>
    obtain rfl : o = w := Option.some.inj hw
    have hstored : s.tree o.body.hash = some o := hpath.stored o List.mem_cons_self
    unfold collectBranch
    rw [if_pos ((hbase.active.entryAt_inChain hstored).mpr ho)]
    rfl
  | cons n new ih =>
    obtain rfl : n = w := Option.some.inj hw
    obtain ⟨rounds, rfl⟩ : ∃ r, rounds = r + 1 := ⟨rounds - 1, by simp at hrounds; omega⟩
    have hstored : s.tree n.body.hash = some n := hpath.stored n List.mem_cons_self
    have hoff : ¬ (s.entryAt n).inChain = true := fun h =>
      hnew n List.mem_cons_self ((hbase.active.entryAt_inChain hstored).mp h)
    unfold collectBranch
    rw [if_neg hoff, Storage.entryAt_hash]
    by_cases hinv : invalid n.body.hash = true
    · rw [if_pos hinv, firstInvalid_cons_pos hinv]
    · rw [if_neg hinv]
      -- the node below `n` on the branch is its parent
      obtain ⟨m, hm⟩ : ∃ m, (new ++ o :: below).head? = some m := by
        cases new <;> exact ⟨_, rfl⟩
      obtain ⟨rest, hrest⟩ : ∃ rest, new ++ o :: below = m :: rest := by
        obtain ⟨rest, hrest⟩ := List.head?_eq_some_iff.mp hm
        exact ⟨rest, hrest⟩
      have hpath' : Branch (lineage params) s.tree (n :: m :: rest) := by
        rw [← hrest]
        exact hpath
      have hprev : n.body.header.prevHash = m.body.hash := hpath'.prev_head
      have hmstored : s.tree m.body.hash = some m := hpath'.tail.stored m List.mem_cons_self
      rw [Storage.entryAt_prevHash hstored, hprev, Storage.getEntry_eq hmstored]
      have hrec := @ih m rounds (s.entryAt n :: acc) (hrest ▸ hpath'.tail) (fun k hk =>
        hnew k (List.mem_cons_of_mem n hk)) hm (by simpa using hrounds)
      dsimp only
      rw [hrec, firstInvalid_cons_neg hinv, List.map_cons, List.reverse_cons, List.append_assoc]
      rfl

/-! ## Unwinding -/

/-- One disconnection of the tip is a step. -/
theorem disconnectBlock_step {b n : TreeNode} {rest : List TreeNode}
    (hbase : Based params (s, b :: n :: rest)) {s' : Storage} {block : Block}
    (h : disconnectBlock s (s.entryAt b) = .ok (s', block)) :
    block = b.body ∧ ChainStep params (s, b :: n :: rest) (s', n :: rest) := by
  obtain ⟨hload, -⟩ := disconnectBlock_eq_ok.mp h
  obtain ⟨undo, hundo, hdis⟩ := disconnectBlock_disconnected h
  obtain ⟨row, hrow, -, -, hbody⟩ := Storage.getBlock_eq_ok.mp hload
  rw [Storage.entryAt_hash] at hrow hundo
  have hstored : s.tree b.body.hash = some b := hbase.active.branch.stored b List.mem_cons_self
  have hknown : row.known = b := by
    have htree := Storage.tree_eq_some.mpr ⟨row, hrow, rfl⟩
    rw [hstored] at htree
    exact (Option.some.inj htree).symm
  have hblock : block = b.body := by
    rw [hbody, ← hknown]
    rfl
  subst hblock
  exact ⟨rfl, .disconnect hundo hdis⟩

/-- The second loop of a switch unwinds the blocks above the fork. -/
theorem rollBack_eq {gone below : List TreeNode} {o w : TreeNode} {rounds : Nat}
    {events : List Event} (hbase : Based params (s, gone ++ o :: below))
    (hw : (gone ++ o :: below).head? = some w) (hrounds : gone.length ≤ rounds) :
    rollBack o.body.hash rounds s (s.entryAt w) events =
      (unwind s gone).map fun s' => (s', s'.entryAt o, events ++ heard .disconnect gone) := by
  induction gone generalizing s rounds events w with
  | nil =>
    obtain rfl : o = w := Option.some.inj hw
    unfold rollBack
    rw [if_pos Storage.entryAt_hash, heard, List.map_nil, List.append_nil]
    rfl
  -- the tip `b` is not the fork, so it is disconnected and its parent is the next one
  | cons b gone ih =>
    obtain rfl : b = w := Option.some.inj hw
    obtain ⟨rounds, rfl⟩ : ∃ r, rounds = r + 1 := ⟨rounds - 1, by simp at hrounds; omega⟩
    obtain ⟨m, hm⟩ : ∃ m, (gone ++ o :: below).head? = some m := by
      cases gone <;> exact ⟨_, rfl⟩
    obtain ⟨rest, hrest⟩ := List.head?_eq_some_iff.mp hm
    have hbase' : Based params (s, b :: m :: rest) := by
      rw [← hrest]
      exact hbase
    have hbranch := hbase'.active.branch
    have hstored : s.tree b.body.hash = some b := hbranch.stored b List.mem_cons_self
    have hmstored : s.tree m.body.hash = some m := hbranch.tail.stored m List.mem_cons_self
    have hprev : b.body.header.prevHash = m.body.hash := hbranch.prev_head
    -- a block of the branch is no deeper block of it
    have hne : ¬ (s.entryAt b).hash = o.body.hash := by
      rw [Storage.entryAt_hash]
      intro heq
      have hos : s.tree o.body.hash = some o :=
        hbase.active.branch.stored o (by simp)
      have hbo := hbase.tree.eq_of_hash hstored hos heq
      have hlt := hbase.active.branch.depth_lt o (by simp)
      rw [hbo] at hlt
      exact Nat.lt_irrefl _ hlt
    unfold rollBack
    rw [if_neg hne, unwind]
    cases hdis : disconnectBlock s (s.entryAt b) with
    | error e => rfl
    | ok p =>
      obtain ⟨s₁, block⟩ := p
      obtain ⟨rfl, hstep⟩ := disconnectBlock_step hbase' hdis
      have hm₁ : s₁.tree m.body.hash = some m := hstep.tree_mono hmstored
      have hrec := @ih s₁ m rounds
        (events ++ [⟨.disconnect, b.body, (s.entryAt b).height⟩])
        (hrest ▸ hstep.based hbase') hm (by simpa using hrounds)
      rw [ok_bind, Storage.entryAt_prevHash hstored, hprev]
      dsimp only
      rw [Storage.getEntry_eq hm₁]
      dsimp only
      rw [hrec, Storage.entryAt_height hstored, ok_bind, List.append_assoc]
      rfl

/-- Blocks that could be unwound were unwound in steps. -/
theorem unwind_trace {gone old : List TreeNode} (hold : old ≠ []) {s' : Storage}
    (hbase : Based params (s, gone ++ old)) (h : unwind s gone = .ok s') :
    ChainTrace params (s, gone ++ old) (s', old) := by
  induction gone generalizing s with
  | nil =>
    obtain rfl := Except.ok.inj h
    exact .refl
  | cons b gone ih =>
    obtain ⟨⟨s₁, block⟩, hdis, hrest⟩ := bind_eq_ok.mp h
    obtain ⟨m, rest, hm⟩ : ∃ m rest, gone ++ old = m :: rest := by
      cases hgo : gone ++ old with
      | nil => exact absurd (List.append_eq_nil_iff.mp hgo).2 hold
      | cons m rest => exact ⟨m, rest, rfl⟩
    have hbase' : Based params (s, b :: m :: rest) := by
      rw [← hm]
      exact hbase
    obtain ⟨-, hstep⟩ := disconnectBlock_step hbase' hdis
    have hbase₁ := hstep.based hbase'
    rw [← hm] at hstep hbase₁
    exact .head hstep (ih hbase₁ hrest)

/-! ## Extending -/

/-- Of the entry of a block, connecting it reads the hash and the height alone. -/
theorem connectBlock_congr [ScanOrder Hash] {block : Block} {e e' : BlockIndexEntry}
    (hhash : e.hash = e'.hash) (hheight : e.height = e'.height) :
    connectBlock params s block e = connectBlock params s block e' := by
  cases e
  cases e'
  cases hhash
  cases hheight
  rfl

theorem checkBlock_congr {utxo : Table OutPoint Coin} {block : Block} {e e' : BlockIndexEntry}
    (hhash : e.hash = e'.hash) (hheight : e.height = e'.height) :
    checkBlock params utxo block e = checkBlock params utxo block e' := by
  cases e
  cases e'
  cases hhash
  cases hheight
  rfl

variable [ScanOrder Hash]

/-- One connection on top of the tip is a step. -/
theorem connectBlock_step {b n : TreeNode} {rest : List TreeNode}
    (hb : s.tree b.body.hash = some b) (hprev : b.body.header.prevHash = n.body.hash)
    (hheight : b.height = n.height + 1) {s' : Storage} {block : Block}
    (hload : s.getBlock b.body.hash = .ok (some block))
    (h : connectBlock params s block (s.entryAt b) = .ok s') :
    block = b.body ∧ ChainStep params (s, n :: rest) (s', b :: n :: rest) := by
  obtain ⟨row, hrow, -, -, hbody⟩ := Storage.getBlock_eq_ok.mp hload
  have hknown : row.known = b := by
    have htree := Storage.tree_eq_some.mpr ⟨row, hrow, rfl⟩
    rw [hb] at htree
    exact (Option.some.inj htree).symm
  have hblock : block = b.body := by
    rw [hbody, ← hknown]
    rfl
  subst hblock
  obtain ⟨st, data, hcheck, hdata, rfl⟩ := connectBlock_eq_ok.mp h
  exact ⟨rfl, .connect hb hprev hheight hcheck hdata (recordBlock_connected s b.body _ st data)⟩

/-- The nodes form a path on top of a node. -/
def Stacked : TreeNode → List TreeNode → Prop
  | _, [] => True
  | n, b :: ns => b.body.header.prevHash = n.body.hash ∧ b.height = n.height + 1 ∧ Stacked b ns

omit [ScanOrder Hash] in
/-- The nodes of a branch above a node are stacked on it. -/
theorem Branch.stacked {new below : List TreeNode} {o : TreeNode}
    (h : Branch (lineage params) s.tree (new ++ o :: below)) : Stacked o new.reverse := by
  have happend : ∀ (ns : List TreeNode) (b : TreeNode) (o : TreeNode), Stacked o ns →
      b.body.header.prevHash = ((ns.getLast?).getD o).body.hash →
      b.height = ((ns.getLast?).getD o).height + 1 → Stacked o (ns ++ [b]) := by
    intro ns
    induction ns with
    | nil => exact fun b o _ hprev hheight => ⟨hprev, hheight, trivial⟩
    | cons m ns ih =>
      intro b o hs hprev hheight
      refine ⟨hs.1, hs.2.1, ih b m hs.2.2 ?_ ?_⟩
      · rwa [List.getLast?_cons] at hprev
      · rwa [List.getLast?_cons] at hheight
  induction new with
  | nil => trivial
  | cons b new ih =>
    cases hrest : new ++ o :: below with
    | nil => simp at hrest
    | cons m rest =>
      have hpath : Branch (lineage params) s.tree (b :: m :: rest) := by
        rw [← hrest]
        exact h
      have htail : Branch (lineage params) s.tree (new ++ o :: below) := hrest ▸ hpath.tail
      have hlast : (new.reverse.getLast?).getD o = m := by
        rw [List.getLast?_reverse]
        cases new with
        | nil => exact (List.cons.inj hrest).1
        | cons k new => exact (List.cons.inj hrest).1
      rw [List.reverse_cons]
      refine happend _ b o (ih htail) ?_ ?_
      · rw [hlast]
        exact hpath.prev_head
      · rw [hlast]
        cases hpath with
        | child _ _ _ hd => exact hd

/-- The third loop of a switch extends the fork by the new branch. -/
theorem connectEntries_eq {s₀ : Storage} {ns : List TreeNode} {events : List Event}
    (h₀ : ∀ n ∈ ns, s₀.tree n.body.hash = some n) (hs : ∀ n ∈ ns, s.tree n.body.hash = some n) :
    (ns.map s₀.entryAt).foldlM (connectEntry params) (s, events) =
      (extend params s ns).map fun s' => (s', events ++ heard .connect ns) := by
  induction ns generalizing s events with
  | nil => simp [extend, heard, pure, Except.pure, Except.map]
  | cons n ns ih =>
    have hn₀ := h₀ n List.mem_cons_self
    have hn := hs n List.mem_cons_self
    rw [List.map_cons, List.foldlM_cons, extend, connectEntry, Storage.entryAt_hash]
    cases hload : s.getBlock n.body.hash with
    | error e => rfl
    | ok loaded =>
      cases loaded with
      | none => rfl
      | some block =>
        simp only [ok_bind]
        obtain ⟨row, hrow, -, -, hbody⟩ := Storage.getBlock_eq_ok.mp hload
        have hknown : row.known = n := by
          have htree := Storage.tree_eq_some.mpr ⟨row, hrow, rfl⟩
          rw [hn] at htree
          exact (Option.some.inj htree).symm
        have hblock : block = n.body := by
          rw [hbody, ← hknown]
          rfl
        -- the entry is the one from before the switch, but its hash and height are the same
        have hcongr : connectBlock params s block (s₀.entryAt n) =
            connectBlock params s block (s.entryAt n) := by
          refine connectBlock_congr ?_ ?_
          · rw [Storage.entryAt_hash, Storage.entryAt_hash]
          · rw [Storage.entryAt_height hn₀, Storage.entryAt_height hn]
        rw [hcongr, Storage.entryAt_height hn₀]
        cases hcon : connectBlock params s block (s.entryAt n) with
        | error e => rfl
        | ok s₁ =>
          obtain ⟨st, data, -, -, rfl⟩ := connectBlock_eq_ok.mp hcon
          have htree := Storage.tree_modify
            (recordBlock_connected s block (s.entryAt n) st data).blocks fun _ => rfl
          simp only [ok_bind]
          rw [show (pure (recordBlock s block (s.entryAt n) st data,
              events ++ [⟨.connect, block, n.height⟩]) : Except PyError _) =
            .ok (recordBlock s block (s.entryAt n) st data,
              events ++ [⟨.connect, block, n.height⟩]) from rfl, ok_bind,
            ih (fun m hm => h₀ m (List.mem_cons_of_mem n hm)) (fun m hm => by
              rw [htree]
              exact hs m (List.mem_cons_of_mem n hm)), hblock, List.append_assoc]
          rfl

/-- Blocks that could be connected were connected in steps. -/
theorem extend_trace {ns rest : List TreeNode} {o : TreeNode} {s' : Storage}
    (hbase : Based params (s, o :: rest)) (hs : ∀ n ∈ ns, s.tree n.body.hash = some n)
    (hstack : Stacked o ns) (h : extend params s ns = .ok s') :
    ChainTrace params (s, o :: rest) (s', ns.reverse ++ o :: rest) := by
  induction ns generalizing s o rest with
  | nil =>
    obtain rfl := Except.ok.inj h
    exact .refl
  | cons n ns ih =>
    obtain ⟨loaded, hload, hbody⟩ := bind_eq_ok.mp h
    cases loaded with
    | none => cases hbody
    | some block =>
      obtain ⟨s₁, hcon, hrest⟩ := bind_eq_ok.mp hbody
      obtain ⟨-, hstep⟩ : _ ∧ ChainStep params (s, o :: rest) (s₁, n :: o :: rest) :=
        connectBlock_step (hs n List.mem_cons_self) hstack.1 hstack.2.1 hload hcon
      have htrace := ih (hstep.based hbase)
        (fun m hm => hstep.tree_mono (hs m (List.mem_cons_of_mem n hm))) hstack.2.2 hrest
      rw [List.reverse_cons, List.append_assoc]
      exact .head hstep htrace

/-! ## The whole switch -/

/-- Which stored blocks have lost their bodies. -/
def Storage.prunedAt (s : Storage) (h : Hash) : Option Bool :=
  (s.blocks.lookup h).map BlockRow.pruned

omit [Crypto] [ScanOrder Hash] in
theorem Storage.prunedAt_modify {s' : Storage} {h : Hash} {f : BlockRow → BlockRow}
    (hblocks : s'.blocks = s.blocks.modify h f) (hf : ∀ row, (f row).pruned = row.pruned) :
    s'.prunedAt = s.prunedAt := by
  funext k
  unfold prunedAt
  rw [hblocks, Table.lookup_modify]
  by_cases hk : k = h
  · rw [if_pos hk, hk, Option.map_map]
    exact Option.map_congr fun row _ => hf row
  · rw [if_neg hk]

omit [ScanOrder Hash] in
theorem unwind_prunedAt {gone : List TreeNode} {s' : Storage} (h : unwind s gone = .ok s') :
    s'.prunedAt = s.prunedAt := by
  induction gone generalizing s with
  | nil => rw [Except.ok.inj h]
  | cons b gone ih =>
    obtain ⟨⟨s₁, block⟩, hdis, hrest⟩ := bind_eq_ok.mp h
    obtain ⟨undo, -, hdis'⟩ := disconnectBlock_disconnected hdis
    rw [ih hrest, Storage.prunedAt_modify hdis'.blocks fun _ => rfl]

theorem extend_prunedAt {ns : List TreeNode} {s' : Storage} (h : extend params s ns = .ok s') :
    s'.prunedAt = s.prunedAt := by
  induction ns generalizing s with
  | nil => rw [Except.ok.inj h]
  | cons b ns ih =>
    obtain ⟨loaded, -, hbody⟩ := bind_eq_ok.mp h
    cases loaded with
    | none => cases hbody
    | some block =>
      obtain ⟨s₁, hcon, hrest⟩ := bind_eq_ok.mp hbody
      obtain ⟨st, data, -, -, rfl⟩ := connectBlock_eq_ok.mp hcon
      rw [ih hrest, Storage.prunedAt_modify
        (recordBlock_connected s block (s.entryAt b) st data).blocks fun _ => rfl]

omit [ScanOrder Hash] in
/-- Entries of a node in two storages differ at most in the mark, if the body is in both or in
neither. -/
theorem Storage.entryAt_mark {s' : Storage} {n : TreeNode} (hn : s.tree n.body.hash = some n)
    (hn' : s'.tree n.body.hash = some n) (hpruned : s'.prunedAt = s.prunedAt) :
    s'.entryAt n = { s.entryAt n with inChain := (s'.entryAt n).inChain } := by
  obtain ⟨row, hrow, hknown⟩ := tree_eq_some.mp hn
  obtain ⟨row', hrow', hknown'⟩ := tree_eq_some.mp hn'
  have hp := congrFun hpruned n.body.hash
  rw [prunedAt, prunedAt, hrow, hrow', Option.map_some, Option.map_some] at hp
  rw [entryAt_of_row hrow, entryAt_of_row hrow']
  cases row
  cases row'
  cases hknown
  cases hknown'
  cases Option.some.inj hp
  rfl

/-- The parts of the tree that a switch works on: the active chain is `gone` on top of `old`, and
the branch of the candidate is `new` on top of `old`, each with its tip first. -/
structure Fork (params : ChainParams) (s : Storage) (new gone old : List TreeNode) : Prop where
  based : Based params (s, gone ++ old)
  path : Branch (lineage params) s.tree (new ++ old)
  common : old ≠ []
  apart : ∀ n ∈ new, n ∉ gone ++ old

/-- A switch fails on the first remembered block of the new branch; else it unwinds and extends. -/
theorem switchTo_eq {invalid : Hash → Bool} {new gone old : List TreeNode} {t w : TreeNode}
    (hf : Fork params s new gone old) (ht : (gone ++ old).head? = some t)
    (hw : (new ++ old).head? = some w) :
    switchTo params s invalid (s.entryAt t) (s.entryAt w) =
      match firstInvalid invalid new with
      | some n => .error (.connect n.body.hash "branch contains an invalid block")
      | none => (unwind s gone).bind fun s₁ => (extend params s₁ new.reverse).map fun s₂ =>
          (s₂.setTip w.body.hash, s₂.entryAt w,
            heard .disconnect gone ++ heard .connect new.reverse) := by
  obtain ⟨hbase, hpath, hold, hnew⟩ := hf
  obtain ⟨o, below, rfl⟩ := List.exists_cons_of_ne_nil hold
  -- neither part of the fork outruns the rounds of the loops
  have hgoneLen : gone.length ≤ s.blockCount + 1 := by
    have hlen : (gone ++ o :: below).length ≤ s.blockCount :=
      Branch.length_le hbase.active.branch
    rw [List.length_append] at hlen
    omega
  have hnewLen : new.length ≤ s.blockCount + 1 := by
    have hlen := Branch.length_le hpath
    rw [List.length_append] at hlen
    omega
  unfold switchTo
  rw [collectBranch_eq hbase hpath (by simp) hnew hw hnewLen]
  cases hinv : firstInvalid invalid new with
  | some n => rfl
  | none =>
    dsimp only
    rw [ok_bind, Storage.entryAt_hash, rollBack_eq hbase ht hgoneLen]
    -- first back to the fork, then up the branch
    cases hun : unwind s gone with
    | error e => rfl
    | ok s₁ =>
      have htrace := unwind_trace hold hbase hun
      have hbase₁ := htrace.based hbase
      have hs₁ : ∀ n ∈ new ++ o :: below, s₁.tree n.body.hash = some n :=
        fun n hn => htrace.tree_mono (hpath.stored n hn)
      have hentries := @connectEntries_eq _ params s₁ _ s new.reverse
        ([] ++ heard .disconnect gone) (fun n hn =>
          hpath.stored n (List.mem_append_left _ (List.mem_reverse.mp hn)))
        (fun n hn => hs₁ n (List.mem_append_left _ (List.mem_reverse.mp hn)))
      rw [List.append_nil, ← List.map_reverse]
      rw [show Except.map _ (Except.ok s₁ : Except PyError Storage) =
        .ok (s₁, s₁.entryAt o, [] ++ heard .disconnect gone) from rfl, ok_bind]
      dsimp only
      rw [hentries]
      show _ = Except.map _ (extend params s₁ new.reverse)
      cases hex : extend params s₁ new.reverse with
      | error e => rfl
      | ok s₂ =>
        have htrace₂ := extend_trace hbase₁
          (fun n hn => hs₁ n (List.mem_append_left _ (List.mem_reverse.mp hn)))
          (Branch.stacked hpath) hex
        rw [List.reverse_reverse] at htrace₂
        have hwmem : w ∈ new ++ o :: below := List.mem_of_head? hw
        have hws : s.tree w.body.hash = some w := hpath.stored w hwmem
        have hws₂ : s₂.tree w.body.hash = some w := htrace₂.tree_mono (hs₁ w hwmem)
        have hmarked : (s₂.entryAt w).inChain = true :=
          ((htrace₂.based hbase₁).active.entryAt_inChain hws₂).mpr hwmem
        -- the last entry connected is the top; an empty branch ends at the fork
        have htip : newTip (s₁.entryAt o) (new.reverse.map s.entryAt) = s₂.entryAt w := by
          unfold newTip
          cases new with
          | nil =>
            obtain rfl : o = w := Option.some.inj hw
            obtain rfl : s₁ = s₂ := Except.ok.inj hex
            rfl
          | cons n new =>
            obtain rfl : n = w := Option.some.inj hw
            have hlast : ((n :: new).reverse.map s.entryAt).getLast? = some (s.entryAt n) := by
              rw [List.getLast?_map, List.getLast?_reverse]
              rfl
            have hpruned : s₂.prunedAt = s.prunedAt :=
              (extend_prunedAt hex).trans (unwind_prunedAt hun)
            rw [hlast, Storage.entryAt_mark hws hws₂ hpruned, hmarked]
        show Except.ok _ = Except.ok _
        rw [htip, Storage.entryAt_hash]
        rfl

/-- A switch that succeeds has unwound the old blocks and connected the new ones, and listeners hear
of the old ones, the tip first, and then of the new ones, the lowest first. -/
theorem switchTo_parts {invalid : Hash → Bool} {new gone old : List TreeNode} {t w : TreeNode}
    (hf : Fork params s new gone old) (ht : (gone ++ old).head? = some t)
    (hw : (new ++ old).head? = some w) {s' : Storage} {tip : BlockIndexEntry}
    {events : List Event}
    (h : switchTo params s invalid (s.entryAt t) (s.entryAt w) = .ok (s', tip, events)) :
    ∃ s₁ s₂, unwind s gone = .ok s₁ ∧ extend params s₁ new.reverse = .ok s₂ ∧
      s' = s₂.setTip w.body.hash ∧ tip = s₂.entryAt w ∧
      events = heard .disconnect gone ++ heard .connect new.reverse := by
  rw [switchTo_eq hf ht hw] at h
  split at h
  · cases h
  · obtain ⟨s₁, hun, h₁⟩ := bind_eq_ok.mp h
    obtain ⟨s₂, hex, h₂⟩ := bind_eq_ok.mp
      (show (extend params s₁ new.reverse >>= fun s₂ => pure (s₂.setTip w.body.hash, s₂.entryAt w,
        heard .disconnect gone ++ heard .connect new.reverse)) = .ok (s', tip, events) from h₁)
    injection pure_eq_ok.mp h₂ with hs' hrest
    injection hrest with htip hevents
    exact ⟨s₁, s₂, hun, hex, hs'.symm, htip.symm, hevents.symm⟩

/-- A switch that succeeds is a sequence of steps. -/
theorem switchTo_trace {invalid : Hash → Bool} {new gone old : List TreeNode} {t w : TreeNode}
    (hf : Fork params s new gone old) (ht : (gone ++ old).head? = some t)
    (hw : (new ++ old).head? = some w) {s' : Storage} {tip : BlockIndexEntry}
    {events : List Event}
    (h : switchTo params s invalid (s.entryAt t) (s.entryAt w) = .ok (s', tip, events)) :
    ChainTrace params (s, gone ++ old) (s', new ++ old) ∧ tip = s'.entryAt w ∧
      s'.tipHash = some w.body.hash := by
  obtain ⟨s₁, s₂, hun, hex, rfl, rfl, -⟩ := switchTo_parts hf ht hw h
  obtain ⟨hbase, hpath, hold, hnew⟩ := hf
  obtain ⟨o, below, rfl⟩ := List.exists_cons_of_ne_nil hold
  have htrace := unwind_trace hold hbase hun
  have hbase₁ := htrace.based hbase
  have htrace₂ := extend_trace hbase₁ (fun n hn => htrace.tree_mono
    (hpath.stored n (List.mem_append_left _ (List.mem_reverse.mp hn)))) (Branch.stacked hpath) hex
  rw [List.reverse_reverse] at htrace₂
  obtain ⟨rest, hrest⟩ := List.head?_eq_some_iff.mp hw
  refine ⟨(htrace.trans htrace₂).tail ?_, rfl, rfl⟩
  rw [hrest]
  exact .point

/-! ## What a switch leaves alone -/

omit [ScanOrder Hash] in
/-- What every disconnection keeps, the second loop keeps. -/
theorem rollBack_rule (P : Storage → Prop)
    (hdis : ∀ {s s' : Storage} {e : BlockIndexEntry} {b : Block},
      P s → disconnectBlock s e = .ok (s', b) → P s')
    {fork : Hash} {rounds : Nat} {s s' : Storage} {tip tip' : BlockIndexEntry}
    {events events' : List Event} (hs : P s)
    (h : rollBack fork rounds s tip events = .ok (s', tip', events')) : P s' := by
  induction rounds generalizing s tip events with
  | zero =>
    unfold rollBack at h
    split at h
    · injection Except.ok.inj h with heq
      exact heq ▸ hs
    · obtain ⟨⟨s₁, b⟩, -, hrest⟩ := bind_eq_ok.mp h
      dsimp only at hrest
      split at hrest <;> cases hrest
  | succ rounds ih =>
    unfold rollBack at h
    split at h
    · injection Except.ok.inj h with heq
      exact heq ▸ hs
    · obtain ⟨⟨s₁, b⟩, hone, hrest⟩ := bind_eq_ok.mp h
      dsimp only at hrest
      split at hrest
      · cases hrest
      · exact ih (hdis hs hone) hrest

/-- What a disconnection, a connection of a loaded block and the tip value keep, a switch keeps. -/
theorem switchTo_rule (P : Storage → Prop)
    (hdis : ∀ {s s' : Storage} {e : BlockIndexEntry} {b : Block},
      P s → disconnectBlock s e = .ok (s', b) → P s')
    (hcon : ∀ {s s' : Storage} {e : BlockIndexEntry} {b : Block},
      P s → s.getBlock e.hash = .ok (some b) → connectBlock params s b e = .ok s' → P s')
    (hpoint : ∀ s h, P s → P (Storage.setTip s h))
    {invalid : Hash → Bool} {s' : Storage} {tip tip' candidate : BlockIndexEntry}
    {events : List Event} (hs : P s)
    (h : switchTo params s invalid tip candidate = .ok (s', tip', events)) : P s' := by
  obtain ⟨⟨branch, fork⟩, -, h₁⟩ := bind_eq_ok.mp h
  obtain ⟨⟨s₁, tip₁, events₁⟩, hroll, h₂⟩ := bind_eq_ok.mp h₁
  obtain ⟨⟨s₂, events₂⟩, hconnect, h₃⟩ := bind_eq_ok.mp h₂
  injection pure_eq_ok.mp h₃ with hs' _
  have hfold : P s₂ := by
    refine foldlM_invariant (fun acc : Storage × List Event => P acc.1) ?_
      (rollBack_rule P hdis hs hroll) hconnect
    rintro ⟨s₃, events₃⟩ entry ⟨s₄, events₄⟩ - hkept hone
    obtain ⟨loaded, hload, hbody⟩ := bind_eq_ok.mp hone
    cases loaded with
    | none => cases hbody
    | some block =>
      obtain ⟨s₅, hcon₅, hpure⟩ := bind_eq_ok.mp hbody
      obtain ⟨rfl, -⟩ := Prod.mk.inj (pure_eq_ok.mp hpure)
      exact hcon hkept hload hcon₅
  rw [← hs']
  exact hpoint s₂ _ hfold

/-- What a disconnection, a connection and the tip value leave alone, a switch leaves alone. -/
theorem switchTo_keeps {β : Type} (f : Storage → β)
    (hdis : ∀ {s s' : Storage} {e : BlockIndexEntry} {b : Block},
      disconnectBlock s e = .ok (s', b) → f s' = f s)
    (hcon : ∀ {s s' : Storage} {e : BlockIndexEntry} {b : Block},
      connectBlock params s b e = .ok s' → f s' = f s)
    (hpoint : ∀ s h, f (Storage.setTip s h) = f s)
    {invalid : Hash → Bool} {s' : Storage} {tip tip' candidate : BlockIndexEntry}
    {events : List Event}
    (h : switchTo params s invalid tip candidate = .ok (s', tip', events)) : f s' = f s :=
  switchTo_rule (fun s' => f s' = f s) (fun heq hone => (hdis hone).trans heq)
    (fun heq _ hone => (hcon hone).trans heq) (fun s h heq => (hpoint s h).trans heq) rfl h

end ScarletCoin
