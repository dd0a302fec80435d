import ScarletCoin.Invariants.Locations

/-!
# Disconnecting undoes connecting

A chain in the middle of a switch is not one that calls lead to, but it has the invariants of one:
`ChainInv` says that the marked blocks are a branch down to genesis, that the coins are the replay
of that branch, and that the rows of the indexes are right. On such a chain a block that is
connected and at once disconnected leaves the coins, both indexes and the rows of the blocks, with
their marks, as they were (`disconnect_connect`): its outputs and rows belong to ids that nothing
below it has, and its undo record, read back from its bytes, holds the coins that it took from
outside.
-/

set_option autoImplicit false

namespace ScarletCoin

open Toolkit

section Undoing

variable [Crypto]

/-- The invariants of a chain: its blocks, its coins, and what the indexes say. -/
structure ChainInv (params : ChainParams) (s : Storage) (bs : List TreeNode) : Prop where
  based : Based params (s, bs)
  ledger : LedgerInv (s, bs)
  indexes : Indexes False (s, bs)

/-- Every reachable chain has the invariants. -/
theorem Reachable.chainInv [ScanOrder Hash] {params : ChainParams} {c : Blockchain}
    (h : Reachable params c) (hcol : c.storage.NoTxidCollision) :
    ∃ n rest, ChainInv params c.storage (n :: rest) ∧ c.tip = c.storage.entryAt n := by
  obtain ⟨bs, hs, hc⟩ := h.filed
  obtain ⟨n, rest, rfl, htip, -⟩ := hs.tip
  exact ⟨n, rest, ⟨hs.based, hc.ledger hcol, hc.indexes hcol⟩, htip⟩

omit [Crypto] in
/-- An undo record that was stored is read back. -/
theorem Storage.getUndo_putUndo {s s' : Storage} {h : Hash} {spent : List UndoEntry}
    (hput : s.putUndo h spent = .ok s') : s'.getUndo h = .ok spent := by
  obtain ⟨data, hdata, hwrite⟩ := bind_eq_ok.mp hput
  obtain rfl := pure_eq_ok.mp hwrite
  exact getUndo_eq_ok.mpr ⟨data, Finmap.lookup_insert _, decodeUndo_encodeUndo hdata⟩

variable {params : ChainParams} {s s' : Storage} {n b : TreeNode} {rest : List TreeNode}

/-- A block above the tip is not marked. -/
theorem ChainInv.unmarked (h : ChainInv params s (n :: rest)) (hb : s.tree b.body.hash = some b)
    (hheight : n.height < b.height) {row : BlockRow}
    (hrow : s.blocks.lookup b.body.hash = some row) : row.inChain = false := by
  by_contra hmark
  obtain rfl : row.known = b :=
    Option.some.inj ((Storage.tree_eq_some.mpr ⟨row, hrow, rfl⟩).symm.trans hb)
  have hmem := (h.based.active.marked hrow).mp ((Bool.not_eq_false _).mp hmark)
  rcases List.mem_cons.mp hmem with heq | hmem
  · rw [heq] at hheight
    exact Nat.lt_irrefl _ hheight
  · have hlt : row.known.height < n.height := h.based.active.branch.depth_lt _ hmem
    exact Nat.lt_asymm hlt hheight

omit [Crypto] in
/-- Marking an unmarked block and taking the mark off again changes nothing. -/
theorem unmark_mark {t : Table Hash BlockRow} {k : Hash}
    (h : ∀ row, t.lookup k = some row → row.inChain = false) :
    (t.modify k fun row => { row with inChain := true }).modify k
      (fun row => { row with inChain := false }) = t := by
  refine Finmap.ext_lookup fun k' => ?_
  rw [Table.lookup_modify, Table.lookup_modify, Table.lookup_modify]
  by_cases hk : k' = k
  · rw [if_pos hk, if_pos rfl, hk]
    cases hrow : t.lookup k with
    | none => rfl
    | some row =>
      rw [Option.map_some, Option.map_some, ← h row hrow]
  · rw [if_neg hk, if_neg hk]

/-- **Disconnecting undoes connecting**: when a block above the tip is connected, disconnecting it
at once restores the coins, the locations, the rows of the addresses and the rows of the blocks with
their marks; and whatever undo record is stored is read back unchanged. -/
theorem disconnect_connect [ScanOrder Hash] (h : ChainInv params s (n :: rest))
    (hcol : s.NoTxidCollision) (hb : s.tree b.body.hash = some b) (hheight : n.height < b.height)
    (hload : s.getBlock b.body.hash = .ok (some b.body))
    (hcon : connectBlock params s b.body (s.entryAt b) = .ok s') :
    (∃ s'', disconnectBlock s' (s.entryAt b) = .ok (s'', b.body) ∧ s''.utxo = s.utxo ∧
      s''.txLocation = s.txLocation ∧ s''.addressHistory = s.addressHistory ∧
      s''.blocks = s.blocks) ∧
    ∀ (s₀ s₁ : Storage) (k : Hash) (spent : List UndoEntry),
      s₀.putUndo k spent = .ok s₁ → s₁.getUndo k = .ok spent := by
  refine ⟨?_, fun s₀ s₁ k spent hput => Storage.getUndo_putUndo hput⟩
  obtain ⟨st, data, hcheck, hdata, hs'⟩ := connectBlock_eq_ok.mp hcon
  obtain ⟨hlocs, hrows⟩ := recordBlock_indexes s b.body (s.entryAt b) st data
  have hconnected := recordBlock_connected s b.body (s.entryAt b) st data
  rw [← hs'] at hlocs hrows hconnected
  have hentry : (s.entryAt b).hash = b.body.hash := Storage.entryAt_hash
  have hblocks := hconnected.blocks
  rw [hentry] at hblocks
  have hledger : LedgerInv (s', b :: n :: rest) :=
    h.ledger.connect h.based hcol hb hheight hcheck hdata hconnected
  -- the body and the undo record are there
  have hload' : s'.getBlock b.body.hash = .ok (some b.body) := by
    obtain ⟨row, hrow, hpruned, hparse, hbody⟩ := Storage.getBlock_eq_ok.mp hload
    refine Storage.getBlock_eq_ok.mpr ⟨{ row with inChain := true }, ?_, hpruned, hparse, hbody⟩
    rw [hblocks, Table.lookup_modify, if_pos rfl, hrow]
    rfl
  have hundo : s'.getUndo b.body.hash = .ok st.undo := by
    refine Storage.getUndo_eq_ok.mpr ⟨data, ?_, decodeUndo_encodeUndo hdata⟩
    rw [hconnected.undoKept b.body.hash fun row hrow => ?_, if_pos hentry.symm]
    obtain rfl : row.known = b :=
      Option.some.inj ((Storage.tree_eq_some.mpr ⟨row, hrow, rfl⟩).symm.trans hb)
    rw [Storage.entryAt_height hb]
    change (row.height : Int) ≠ (row.height : Int) - (UNDO_KEEP_BLOCKS : Int)
    have hpos : 0 < UNDO_KEEP_BLOCKS := by decide
    omega
  refine ⟨_, disconnectBlock_eq_ok.mpr ⟨by rw [hentry]; exact hload', st.undo,
    by rw [hentry]; exact hundo, rfl⟩, ?_, ?_, ?_, ?_⟩
  · show restore b.body.outpoints st.undo s'.utxo = s.utxo
    rw [show s'.utxo = _ from hledger.utxo, show s.utxo = _ from h.ledger.utxo]
    exact hledger.undo [] b n rest st.undo rfl hundo
  · show Table.eraseAll b.body.txids s'.txLocation = s.txLocation
    rw [hlocs]
    refine Table.eraseAll_insertAll_cancel (fun k hk => by rwa [Block.locations_fst] at hk)
      fun txid htxid => ?_
    cases hloc : s.txLocation.lookup txid with
    | none => rfl
    | some loc =>
      obtain ⟨m, hm, -, hmem⟩ := (h.indexes.found txid loc hloc).mem
      exact absurd htxid (history_apart hledger.ids hm hmem)
  · show s'.addressHistory.keepIf (fun key _ => decide (key.2 ∉ b.body.txids)) = s.addressHistory
    rw [hrows]
    refine Table.keepIf_insertAll_cancel (fun key hkey row => ?_) fun key row hrow => ?_
    · exact decide_eq_false (Decidable.not_not.mpr (Block.historyRows_txid hkey))
    · obtain ⟨m, hm, -, hmem⟩ := (h.indexes.recorded key.1 key.2 row hrow).mem
      exact decide_eq_true (history_apart hledger.ids hm hmem)
  · show s'.blocks.modify (s.entryAt b).hash (fun row => { row with inChain := false }) = s.blocks
    rw [hentry, hblocks]
    exact unmark_mark fun row hrow => h.unmarked hb hheight hrow

/-- Disconnecting the tip, as a switch does first, keeps the invariants. -/
theorem ChainInv.disconnect (h : ChainInv params s (b :: n :: rest)) {block : Block}
    (hdis : disconnectBlock s (s.entryAt b) = .ok (s', block)) :
    block = b.body ∧ ChainInv params s' (n :: rest) := by
  obtain ⟨rfl, hstep⟩ := disconnectBlock_step h.based hdis
  obtain ⟨undo, hundo, hdisconnected⟩ := disconnectBlock_disconnected hdis
  rw [Storage.entryAt_hash] at hundo
  exact ⟨rfl, hstep.based h.based, h.ledger.disconnect hundo hdisconnected,
    h.indexes.disconnect h.ledger hdis⟩

end Undoing

section Instances

attribute [local instance] Sample.crypto Sample.order

/-- It holds of the tip of a chain that a side branch has taken over, which is disconnected,
connected again and disconnected again. -/
theorem disconnect_connect_overtaken : ∃ c s s' s'' b,
    Sample.chainAfter Sample.overtaken = some c ∧ disconnectBlock c.storage c.tip = .ok (s, b) ∧
      s.utxo ≠ c.storage.utxo ∧
      connectBlock REGTEST s b ((s.getEntry b.hash).getD c.tip) = .ok s' ∧
      disconnectBlock s' ((s.getEntry b.hash).getD c.tip) = .ok (s'', b) ∧ s''.utxo = s.utxo := by
  have hrun : ((Sample.chainAfter Sample.overtaken).any fun c =>
      (disconnectBlock c.storage c.tip).toOption.any fun r => decide (
        c.storage.NoTxidCollision ∧ c.tip.height = 3 ∧ r.1.NoTxidCollision ∧
        r.1.utxo.keys ≠ c.storage.utxo.keys ∧
        (r.1.getBlock r.2.hash).toOption = some (some r.2) ∧
        (connectBlock REGTEST r.1 r.2 ((r.1.getEntry r.2.hash).getD c.tip)).toOption.isSome)) =
          true := by
    decide +kernel
  obtain ⟨c, hc, hr⟩ := (Option.any_eq_true _ _).mp hrun
  obtain ⟨⟨s, block⟩, hdis, h⟩ := (Option.any_eq_true _ _).mp hr
  obtain ⟨hcol, hheight, hcol', hkeys, hload, hcon⟩ := of_decide_eq_true h
  have hdis := toOption_eq_some.mp hdis
  obtain ⟨s', hcon⟩ := Option.isSome_iff_exists.mp hcon
  have hcon := toOption_eq_some.mp hcon
  have hload := toOption_eq_some.mp hload
  obtain ⟨b, rest, hinv, htip⟩ := (Sample.chainAfter_reachable hc).chainInv hcol
  have hb : c.storage.tree b.body.hash = some b :=
    hinv.based.active.branch.stored b List.mem_cons_self
  rw [htip, Storage.entryAt_height hb] at hheight
  have hbranch := hinv.based.active.branch
  cases hbranch with
  | root _ _ hzero => exact absurd (hzero.symm.trans hheight) (by decide)
  | @child _ n rest _ _ _ hdepth =>
    -- off the tip and on again, over the ledger of the block below
    have hdepth : b.height = n.height + 1 := hdepth
    rw [htip] at hdis
    obtain ⟨rfl, hinv'⟩ := hinv.disconnect hdis
    obtain ⟨-, hstep⟩ := disconnectBlock_step hinv.based hdis
    have hb' := hstep.tree_mono hb
    have hentry := Storage.getEntry_eq hb'
    rw [hentry, Option.getD_some] at hcon
    obtain ⟨⟨s'', hdis', hutxo, -⟩, -⟩ :=
      disconnect_connect hinv' hcol' hb' (hdepth ▸ Nat.lt_succ_self _) hload hcon
    refine ⟨c, s, s', s'', b.body, hc, ?_, fun heq => hkeys (congrArg Finmap.keys heq), ?_,
      ?_, hutxo⟩
    · rw [htip]
      exact hdis
    · rw [hentry]
      exact hcon
    · rw [hentry]
      exact hdis'

end Instances

end ScarletCoin
