import ScarletCoin.Core.Migrations
import ScarletCoin.Core.WireFormat
import ScarletCoin.Invariants.Locations

/-!
# Amounts of a migrated history

Connecting a block knows the coins that its inputs spend. The migration from schema 3 has to find
them again: in the undo record of the block, or among the outputs of its earlier transactions, which
the undo record leaves out. `Block.Resolves` says that a block's inputs are resolved that way to the
coins that connecting it noted; it holds of every block that passed the checks
(`Block.FreshOver.resolves`).

`connectStates` are the storages of a chain that connects given blocks one after the other. With
them, `migrateV3ToV4_eq_live` says that the migration of a database of schema 3 writes for every
transaction of the active blocks with a body the amounts that connecting the same blocks writes.
-/

set_option autoImplicit false

namespace ScarletCoin

open Toolkit

section Backfill

variable [Crypto]

/-! ## The coins of the inputs -/

omit [Crypto] in
/-- What the migration takes of a coin. -/
def Coin.payment (coin : Coin) : PubkeyHash × Nat := (coin.payload, coin.value)

/-- With the coins of `undo` the migration resolves the inputs of the block to the coins of
`spent`. -/
def Block.Resolves (b : Block) (spent : Table OutPoint Coin) (undo : List UndoEntry) : Prop :=
  ∀ before t after, b.transactions = before ++ t :: after →
    t.inputs.filterMap (resolveSpent (Table.insertAll undo ∅)
        (Table.insertAll (before.flatMap Transaction.payments) ∅)) =
      (t.spentCoins spent).map Coin.payment

/-- The migration remembers of the outputs of a transaction what the coins hold. -/
theorem Transaction.payments_eq (t : Transaction) (height : Nat) :
    t.payments = (t.coins height).map fun kv => (kv.1, kv.2.payment) := by
  rw [payments, coins, List.map_map]
  rfl

/-- A block spends no null outpoint. -/
theorem Block.Sane.spends_proper {params : ChainParams} {b : Block} (h : b.Sane params)
    {o : OutPoint} (ho : o ∈ b.spends) : o.isNull = false := by
  obtain ⟨t, ht, ho⟩ := List.mem_flatMap.mp ho
  obtain ⟨hnot, ho⟩ := Transaction.mem_spends.mp ho
  exact (h.clean t ht).proper hnot _ ho

omit [Crypto] in
/-- The inputs of a coinbase spend the null outpoint. -/
theorem Transaction.isCoinbase_null {t : Transaction} (h : t.isCoinbase = true) {txin : TxInput}
    (htxin : txin ∈ t.inputs) : txin.prevout.isNull = true := by
  unfold isCoinbase at h
  split at h
  · rename_i txin' heq
    rw [heq, List.mem_singleton] at htxin
    rw [htxin, h]
  · cases h

section Fresh

variable {params : ChainParams} {utxo : Table OutPoint Coin} {b : Block} {entry : BlockIndexEntry}
  {st : ConnectState}

/-- The undo record of a block of new ids lists exactly the coins that it takes from the set. -/
theorem Block.FreshOver.lookup_undo (h : b.FreshOver utxo)
    (hst : checkBlock params utxo b entry = .ok st) {o : OutPoint} (ho : o ∈ b.spends) :
    (Table.insertAll st.undo ∅).lookup o = utxo.lookup o := by
  have hbal := checkBlock_balanced hst
  have honce : (st.undo.map Prod.fst).Nodup := hbal.sound.once
  by_cases hmem : o ∈ st.undo.map Prod.fst
  · obtain ⟨⟨o', coin⟩, hcoin, rfl⟩ := List.mem_map.mp hmem
    rw [Table.lookup_insertAll_of_mem honce hcoin, (h.undo_taken hst hcoin).2]
  · rw [Table.lookup_insertAll_of_notMem hmem, Finmap.lookup_empty]
    by_contra hne
    -- the coin was in the set, so it is none of the created ones, and the block has removed it
    have hthere : utxo.lookup o ≠ none := fun hnone => hne hnone.symm
    have hout : o ∉ st.created := by
      rw [hbal.created]
      intro hcreated
      obtain ⟨t, ht, hot⟩ := List.mem_flatMap.mp hcreated
      refine h.new o hthere ?_
      rw [Transaction.outpoints_txid hot]
      exact List.mem_map_of_mem ht
    have hkept : (st.table utxo).lookup o = utxo.lookup o := hbal.sound.untouched o hout hmem
    rw [h.table_eq hst, Table.lookup_eraseAll, if_pos ho] at hkept
    exact hne hkept

/-- What is not in the set and yet spent was created by an earlier transaction of the block. -/
theorem Block.FreshOver.lookup_created (h : b.FreshOver utxo)
    (hrule : BlockRule params utxo b entry.height) {before after : List Transaction}
    {t : Transaction}
    (hsplit : b.transactions = before ++ t :: after) {o : OutPoint} (ho : o ∈ t.spends)
    (hnone : utxo.lookup o = none) :
    (Table.insertAll (before.flatMap fun t => t.coins entry.height) ∅).lookup o =
      (b.offered entry.height utxo).lookup o := by
  have hearlier : o ∈ before.flatMap Transaction.outpoints :=
    (hrule.sourced before t after hsplit o ho).resolve_left fun hne => hne hnone
  have hlater : o ∉ ((t :: after).flatMap fun t => t.coins entry.height).map Prod.fst := by
    intro hmem
    rw [List.map_flatMap] at hmem
    obtain ⟨u, hu, hou⟩ := List.mem_flatMap.mp hmem
    rw [u.coins_fst] at hou
    obtain ⟨u', hu', hou'⟩ := List.mem_flatMap.mp hearlier
    have hids := h.distinct
    rw [Block.txids, hsplit, List.map_append] at hids
    exact (List.nodup_append.mp hids).2.2 u'.txid (List.mem_map_of_mem hu') u.txid
      (List.mem_map_of_mem hu)
      ((Transaction.outpoints_txid hou').symm.trans (Transaction.outpoints_txid hou))
  rw [Block.offered, Block.coins, hsplit, List.flatMap_append, Table.insertAll_append,
    Table.lookup_insertAll_of_notMem hlater]
  exact Table.lookup_insertAll_congr _ ((Finmap.lookup_empty o).trans hnone.symm)

/-- **The inputs are resolved.** The migration finds the coins of a block that passed the checks in
its undo record and among the outputs of its earlier transactions. -/
theorem Block.FreshOver.resolves (h : b.FreshOver utxo) (hsane : b.Sane params)
    (hst : checkBlock params utxo b entry = .ok st) : b.Resolves st.spent st.undo := by
  intro before t after hsplit
  have ht : t ∈ b.transactions := by
    rw [hsplit]
    exact List.mem_append_right _ List.mem_cons_self
  have hrule := h.checkBlock_iff.mp ⟨st, hst⟩
  have hcreated : before.flatMap Transaction.payments =
      (before.flatMap fun t => t.coins entry.height).map fun kv => (kv.1, kv.2.payment) := by
    rw [List.map_flatMap]
    exact List.flatMap_congr fun u _ => u.payments_eq entry.height
  rw [Transaction.spentCoins, List.map_filterMap]
  refine List.filterMap_congr fun txin htxin => ?_
  rw [h.spent_eq hst]
  by_cases hc : t.isCoinbase = true
  · have hnull := Transaction.isCoinbase_null hc htxin
    have hnot : txin.prevout ∉ b.spends := by
      intro hmem
      rw [hsane.spends_proper hmem] at hnull
      cases hnull
    rw [resolveSpent, if_pos hnull, if_neg hnot, Option.map_none]
  · have ho : txin.prevout ∈ t.spends :=
      Transaction.mem_spends.mpr ⟨Bool.not_eq_true _ ▸ hc, List.mem_map_of_mem htxin⟩
    have hmem : txin.prevout ∈ b.spends := List.mem_flatMap.mpr ⟨t, ht, ho⟩
    rw [resolveSpent, if_neg (by rw [hsane.spends_proper hmem]; exact Bool.false_ne_true),
      if_pos hmem, h.lookup_undo hst hmem]
    cases hcoin : utxo.lookup txin.prevout with
    | some coin =>
      -- a coin of the set is offered unchanged, for the block creates none of its id
      have hnot : txin.prevout ∉ (b.coins entry.height).map Prod.fst := by
        rw [Block.coins, List.map_flatMap]
        intro hmade
        obtain ⟨u, hu, hou⟩ := List.mem_flatMap.mp hmade
        rw [u.coins_fst] at hou
        refine h.new txin.prevout (by rw [hcoin]; exact Option.some_ne_none coin) ?_
        rw [Transaction.outpoints_txid hou]
        exact List.mem_map_of_mem hu
      rw [Block.offered, Table.lookup_insertAll_of_notMem hnot, hcoin]
      rfl
    | none =>
      dsimp only
      rw [hcreated, Table.lookup_insertAll_map Coin.payment _ (s := ∅)
        (by rw [Finmap.lookup_empty, Finmap.lookup_empty]; rfl),
        h.lookup_created hrule hsplit ho hcoin]

end Fresh

/-! ## The rows of a block -/

section Rows

variable {b : Block} {spent : Table OutPoint Coin} {undo : List UndoEntry}

omit [Crypto] in
/-- A row with the amounts of another one. -/
def HistoryRow.withAmounts (amounts row : HistoryRow) : HistoryRow :=
  { row with received := amounts.received, sent := amounts.sent, coinbase := amounts.coinbase }

omit [Crypto] in
/-- Resolved inputs give a transaction the amounts that indexing gives it. -/
theorem Transaction.replayedDeltas_eq {t : Transaction} {listed : Table OutPoint Coin}
    {created : Table OutPoint (PubkeyHash × Nat)}
    (h : t.inputs.filterMap (resolveSpent listed created) =
      (t.spentCoins spent).map Coin.payment) : t.replayedDeltas listed created =
      t.deltas spent := by
  have hpayload : ((t.spentCoins spent).map Coin.payment).map Prod.fst =
      (t.spentCoins spent).map Coin.payload := by
    rw [List.map_map]
    rfl
  unfold replayedDeltas deltas
  dsimp only
  rw [h, hpayload]
  refine List.map_congr_left fun payload _ => ?_
  rw [List.filter_map, List.map_map]
  rfl

/-- The migration amends the rows of a block with the rows that indexing it writes. -/
theorem Block.Resolves.backfill (h : b.Resolves spent undo) (height : Nat)
    (rows : Table (PubkeyHash × Hash) HistoryRow) :
    (b.transactions.foldl (backfillTransaction (Table.insertAll undo ∅)) (rows, ∅)).1 =
      Table.amendAll HistoryRow.withAmounts
        (b.transactions.flatMap (Transaction.historyRows height spent)) rows := by
  have hfold : ∀ (after before : List Transaction) rows, b.transactions = before ++ after →
      (after.foldl (backfillTransaction (Table.insertAll undo ∅))
        (rows, Table.insertAll (before.flatMap Transaction.payments) ∅)).1 =
      Table.amendAll HistoryRow.withAmounts
        (after.flatMap (Transaction.historyRows height spent)) rows := by
    intro after
    induction after with
    | nil => exact fun before rows _ => rfl
    | cons t after ih =>
      intro before rows hsplit
      have hrows : (backfillTransaction (Table.insertAll undo ∅)
          (rows, Table.insertAll (before.flatMap Transaction.payments) ∅) t) =
          (Table.amendAll HistoryRow.withAmounts (t.historyRows height spent) rows,
            Table.insertAll ((before ++ [t]).flatMap Transaction.payments) ∅) := by
        rw [backfillTransaction, Transaction.replayedDeltas_eq (h before t after hsplit),
          Transaction.historyRows, Table.amendAll, List.foldl_map, List.flatMap_append,
          Table.insertAll_append, List.flatMap_singleton]
        rfl
      rw [List.foldl_cons, hrows, ih (before ++ [t]) _ (by rw [hsplit, List.append_assoc]; rfl),
        List.flatMap_cons, Table.amendAll_append]
  exact hfold b.transactions [] rows rfl

end Rows

/-! ## Connecting the blocks again -/

/-- A coinbase alone has no inputs to resolve. -/
theorem Block.resolves_coinbase {b : Block} {coinbase : Transaction}
    (hb : b.transactions = [coinbase]) (hc : coinbase.isCoinbase = true) :
    b.Resolves ∅ [] := by
  intro before t after hsplit
  have ht : t = coinbase := by
    have hmem : t ∈ b.transactions := by
      rw [hsplit]
      exact List.mem_append_right _ List.mem_cons_self
    rwa [hb, List.mem_singleton] at hmem
  subst ht
  have hspent : t.spentCoins ∅ = [] := by
    rw [Transaction.spentCoins, List.filterMap_eq_nil_iff]
    exact fun txin _ => Finmap.lookup_empty _
  rw [hspent, List.map_nil, List.filterMap_eq_nil_iff]
  exact fun txin htxin => if_pos (Transaction.isCoinbase_null hc htxin)

/-- The index entry of a node off the active chain. -/
def TreeNode.entry (n : TreeNode) : BlockIndexEntry :=
  ⟨n.body.hash, n.height, n.body.header.prevHash, n.chainwork, false, n.body.header, false⟩

/-- The storages of a chain that connects the nodes one after the other, the one it starts from
first. -/
def connectStates [ScanOrder Hash] (params : ChainParams) :
    Storage → List TreeNode → Except PyError (List Storage)
  | s, [] => .ok [s]
  | s, n :: ns => do
      let s' ← connectBlock params s n.body n.entry
      let later ← connectStates params s' ns
      pure (s :: later)

/-- Every block above the first one passes the checks over the coins below it, its undo record can
be written, and its inputs are resolved. -/
def Replayable (params : ChainParams) : List TreeNode → Prop
  | b :: n :: rest =>
      (∃ st data, checkBlock params (tableAfter (history (n :: rest))) b.body b.entry = .ok st ∧
        encodeUndo st.undo = .ok data ∧ b.body.Resolves st.spent st.undo) ∧
      Replayable params (n :: rest)
  | _ => True

theorem Replayable.below {params : ChainParams} {gone rest : List TreeNode} {n : TreeNode}
    (h : Replayable params (gone ++ n :: rest)) : Replayable params (n :: rest) := by
  induction gone with
  | nil => exact h
  | cons b gone ih =>
    cases gone with
    | nil => exact h.2
    | cons m gone => exact ih h.2

/-- In every run of steps from genesis the active chain can be replayed. -/
theorem ChainTrace.replayable {params : ChainParams} {s : Storage} {g : TreeNode}
    (hg : Genesis params s g) {a : Storage × List TreeNode} (h : ChainTrace params (s, [g]) a)
    (hcol : a.1.NoTxidCollision) : Replayable params a.2 := by
  refine (ChainTrace.invariant (fun a => a.1.NoTxidCollision → LedgerInv a ∧ Replayable params a.2)
    ?_ h hg.based (fun _ => ⟨hg.ledger, trivial⟩) hcol).2
  intro a b hbase hinv hstep hcol
  obtain ⟨hledger, hreplay⟩ := hinv (NoTxidCollision.of_tree (fun _ _ => hstep.tree_mono) hcol)
  have hledger' := hstep.ledger hbase (fun _ => hledger) hcol
  refine ⟨hledger', ?_⟩
  cases hstep with
  | store _ _ _ _ _ => exact hreplay
  | header _ => exact hreplay
  | point => exact hreplay
  | prune _ _ => exact hreplay
  | disconnect _ _ => exact hreplay.2
  | @connect s s' b n rest st data hb _ _ hcheck hdata _ =>
    have hsane := (hbase.tree.admitted hb).sane
    have hresolves := (hledger.freshOver hledger'.ids hsane).resolves hsane hcheck
    have hutxo : s.utxo = tableAfter (history (n :: rest)) := hledger.utxo
    have hsame : checkBlock params s.utxo b.body b.entry =
        checkBlock params s.utxo b.body (s.entryAt b) :=
      checkBlock_congr Storage.entryAt_hash.symm (Storage.entryAt_height hb).symm
    rw [← hsame, hutxo] at hcheck
    exact ⟨⟨st, data, hcheck, hdata, hresolves⟩, hreplay⟩

/-- The storage holds the undo record and the history rows that connecting the node writes. -/
def Wrote (n : TreeNode) (s : Storage) : Prop :=
  ∃ spent undo data, n.body.Resolves spent undo ∧ encodeUndo undo = .ok data ∧
    s.undo.lookup n.body.hash = some data ∧ ∀ key : PubkeyHash × Hash, key.2 ∈ n.body.txids →
      s.addressHistory.lookup key = (Table.insertAll
        (n.body.transactions.flatMap (Transaction.historyRows n.height spent)) ∅).lookup key

/-- The storage of a chain that has connected the nodes on top of genesis, which alone is stored. -/
structure Live (g : TreeNode) (bs : List TreeNode) (s : Storage) : Prop where
  utxo : s.utxo = tableAfter (history bs)
  blocks : ∀ k row, s.blocks.lookup k = some row → k = g.body.hash
  rows : ∀ key row, s.addressHistory.lookup key = some row → ∃ n ∈ bs, key.2 ∈ n.body.txids

section Connect

variable [ScanOrder Hash] {params : ChainParams} {g : TreeNode} {s : Storage}

/-- The node on top of a live chain is connected. -/
theorem Live.connect {b n : TreeNode} {rest : List TreeNode} (h : Live g (n :: rest) s)
    (hreplay : Replayable params (b :: n :: rest)) (hne : b.body.hash ≠ g.body.hash)
    (hids : ((history (b :: n :: rest)).map Posting.id).Nodup) :
    ∃ s', connectBlock params s b.body b.entry = .ok s' ∧ Live g (b :: n :: rest) s' ∧
      Wrote b s' := by
  obtain ⟨st, data, hcheck, hdata, hresolves⟩ := hreplay.1
  rw [← h.utxo] at hcheck
  have hcon := recordBlock_connected s b.body b.entry st data
  have hrows : (recordBlock s b.body b.entry st data).addressHistory = Table.insertAll
      (b.body.transactions.flatMap (Transaction.historyRows b.height st.spent))
      s.addressHistory := (recordBlock_indexes s b.body b.entry st data).2
  -- the coins, the rows of blocks and the rows of addresses, then what the block itself wrote
  refine ⟨_, connectBlock_eq_ok.mpr ⟨st, data, hcheck, hdata, rfl⟩, ⟨?_, ?_, ?_⟩, ?_⟩
  · have htable : st.table s.utxo = replay (b.body.postings b.height) s.utxo :=
      (checkBlock_balanced hcheck).table
    rw [hcon.utxo, htable, h.utxo, ← tableAfter_append]
    rfl
  · intro k row hrow
    rw [hcon.blocks, Table.lookup_modify] at hrow
    by_cases hk : k = b.entry.hash
    · rw [if_pos hk] at hrow
      obtain ⟨row', hrow', -⟩ := Option.map_eq_some_iff.mp hrow
      exact hk.trans (h.blocks _ row' hrow')
    · rw [if_neg hk] at hrow
      exact h.blocks k row hrow
  · intro key row hrow
    rw [hrows] at hrow
    rcases Table.lookup_insertAll_cases hrow with hmem | ⟨-, hold⟩
    · exact ⟨b, List.mem_cons_self, Block.historyRows_txid (List.mem_map_of_mem hmem)⟩
    · obtain ⟨m, hm, hkey⟩ := h.rows key row hold
      exact ⟨m, List.mem_cons_of_mem b hm, hkey⟩
  · refine ⟨st.spent, st.undo, data, hresolves, hdata, ?_, fun key hkey => ?_⟩
    · rw [hcon.undoKept _ fun row hrow => absurd (h.blocks _ row hrow) hne]
      exact if_pos rfl
    · -- no row of the chain below has an id of the block
      have hnone : s.addressHistory.lookup key = none := by
        cases hrow : s.addressHistory.lookup key with
        | none => rfl
        | some row =>
          obtain ⟨m, hm, hmem⟩ := h.rows key row hrow
          exact absurd hkey (history_apart hids hm hmem)
      rw [hrows]
      exact Table.lookup_insertAll_congr _ (by rw [hnone, Finmap.lookup_empty])

/-- So are all nodes above it, lowest first. -/
theorem Live.connectStates {n : TreeNode} {rest : List TreeNode} (h : Live g (n :: rest) s)
    {ns : List TreeNode} (hreplay : Replayable params (ns.reverse ++ n :: rest))
    (hne : ∀ b ∈ ns, b.body.hash ≠ g.body.hash)
    (hids : ((history (ns.reverse ++ n :: rest)).map Posting.id).Nodup) :
    ∃ later, ScarletCoin.connectStates params s ns = .ok (s :: later) ∧
      List.Forall₂ Wrote ns later := by
  induction ns generalizing s n rest with
  | nil => exact ⟨[], rfl, .nil⟩
  | cons b ns ih =>
    rw [List.reverse_cons, List.append_assoc, List.singleton_append] at hreplay hids
    have hbelow : ((history (b :: n :: rest)).map Posting.id).Nodup := by
      rw [history_append, List.map_append] at hids
      exact hids.of_append_right
    obtain ⟨s', hcon, hlive, hwrote⟩ := h.connect hreplay.below (hne b List.mem_cons_self) hbelow
    obtain ⟨later, hlater, hall⟩ := ih hlive hreplay
      (fun m hm => hne m (List.mem_cons_of_mem b hm)) hids
    refine ⟨s' :: later, ?_, .cons hwrote hall⟩
    exact bind_eq_ok.mpr ⟨s', hcon, bind_eq_ok.mpr ⟨_, hlater, rfl⟩⟩

omit [ScanOrder Hash] in
/-- A new chain is live, and wrote what connecting genesis writes. -/
theorem Blockchain.create_live {c : Blockchain} (h : Blockchain.create params = .ok c)
    (hg : Genesis params c.storage g) : Live g [g] c.storage ∧ Wrote g c.storage := by
  have hzero : g.height = 0 := hg.node.2.1
  obtain ⟨-, hrows⟩ := create_indexes h hg.node.1
  obtain ⟨coinbase, hcoinbase, hts, -⟩ := ChainParams.genesisBlock_eq_ok hg.node.1
  obtain ⟨hc, -⟩ := raiseIf_bind_eq_ok.mp (genesisCoinbase_height hcoinbase)
  obtain ⟨data, hdata, hundo⟩ := hg.undo
  refine ⟨⟨hg.ledger.utxo, fun k row hrow => ?_, fun key row hrow => ?_⟩, ∅, [], data,
    Block.resolves_coinbase hts (Bool.not_eq_false _ ▸ hc), hdata, ?_, fun key _ => ?_⟩
  · rw [hg.blocks, Table.lookup_insert_if] at hrow
    by_cases hk : k = g.body.hash
    · exact hk
    · rw [if_neg hk, Finmap.lookup_empty] at hrow
      cases hrow
  · rw [hrows] at hrow
    rcases Table.lookup_insertAll_cases hrow with hmem | ⟨-, hold⟩
    · exact ⟨g, List.mem_singleton_self g, Block.historyRows_txid (List.mem_map_of_mem hmem)⟩
    · rw [Finmap.lookup_empty] at hold
      cases hold
  · rw [hundo, Finmap.lookup_insert]
  · rw [hrows, hzero]

end Connect

/-! ## The run of the migration -/

/-- Genesis parses. -/
theorem ChainParams.genesisBlock_parses {p : ChainParams} {g : Block} (h : p.genesisBlock = .ok g) :
    Block.deserialize g.serialize = .ok g := by
  obtain ⟨coinbase, hcoinbase, h₁⟩ := bind_eq_ok.mp h
  obtain ⟨-, h₂⟩ := raiseIf_bind_eq_ok.mp h₁
  obtain ⟨root, -, h₃⟩ := bind_eq_ok.mp h₂
  obtain rfl := pure_eq_ok.mp h₃
  obtain ⟨output, -, h₄⟩ := bind_eq_ok.mp hcoinbase
  obtain ⟨data, hdata, h₅⟩ := bind_eq_ok.mp h₄
  have hfits : data.val.length ≤ MAX_COINBASE_DATA := by
    unfold encodeCoinbaseData at hdata
    split at hdata
    · cases hdata
    · dsimp only at hdata
      split at hdata
      · rename_i hle
        rw [← Except.ok.inj hdata]
        exact hle
      · cases hdata
  refine Block.deserialize_eq_ok.mpr ⟨⟨List.cons_ne_nil _ _, fun t ht => ?_, nofun⟩, rfl⟩
  obtain rfl := List.mem_singleton.mp ht
  rw [← pure_eq_ok.mp h₅]
  refine ⟨List.cons_ne_nil _ _, List.cons_ne_nil _ _, hfits, fun txin htxin item hitem => ?_⟩
  rw [List.mem_singleton.mp htxin] at hitem
  cases hitem

/-- The storage holds the body and the undo record of a node, and with them its inputs are
resolved. -/
def Restores (s : Storage) (n : TreeNode) (spent : Table OutPoint Coin) : Prop :=
  s.getBlock n.body.hash = .ok (some n.body) ∧ ∃ undo data, n.body.Resolves spent undo ∧
    encodeUndo undo = .ok data ∧ s.undo.lookup n.body.hash = some data

/-- The rows of a node. -/
def TreeNode.rows (n : TreeNode) (spent : Table OutPoint Coin) :
    List ((PubkeyHash × Hash) × HistoryRow) :=
  n.body.transactions.flatMap (Transaction.historyRows n.height spent)

/-- A round over the blocks amends the rows of its block. -/
theorem Restores.backfillBlock {s : Storage} {n : TreeNode} {spent : Table OutPoint Coin}
    (h : Restores s n spent) : s.backfillBlock n.body.hash = .ok { s with
      addressHistory :=
          Table.amendAll HistoryRow.withAmounts (n.rows spent) s.addressHistory } := by
  obtain ⟨hload, undo, data, hresolves, hencode, hdata⟩ := h
  have hundo : s.undoCoins n.body.hash = .ok undo := by
    have hget : s.getUndo n.body.hash = .ok undo :=
      Storage.getUndo_eq_ok.mpr ⟨data, hdata, decodeUndo_encodeUndo hencode⟩
    rw [Storage.undoCoins, hget]
    rfl
  unfold Storage.backfillBlock
  rw [hload]
  refine bind_eq_ok.mpr ⟨_, rfl, bind_eq_ok.mpr ⟨undo, hundo, ?_⟩⟩
  rw [hresolves.backfill n.height]
  rfl

/-- The rounds over several blocks amend the rows of all of them. -/
theorem backfillBlocks_eq {spent : TreeNode → Table OutPoint Coin} {ks : List TreeNode}
    {s : Storage} (h : ∀ n ∈ ks, Restores s n (spent n)) :
    (ks.map fun n => n.body.hash).foldlM Storage.backfillBlock s = .ok { s with
      addressHistory := Table.amendAll HistoryRow.withAmounts
        (ks.flatMap fun n => n.rows (spent n)) s.addressHistory } := by
  induction ks generalizing s with
  | nil => rfl
  | cons n ks ih =>
    rw [List.map_cons, List.flatMap_cons, Table.amendAll_append]
    refine foldlM_cons_eq_ok.mpr ⟨_, (h n List.mem_cons_self).backfillBlock, ?_⟩
    exact ih fun m hm => h m (List.mem_cons_of_mem n hm)

/-- Of the rows of blocks without common ids, those of one block decide about its keys. -/
theorem lookup_rows {spent : TreeNode → Table OutPoint Coin} {ks : List TreeNode} {n : TreeNode}
    (hn : n ∈ ks) (hnodup : ks.Nodup)
    (hapart : ∀ m ∈ ks, m ≠ n → ∀ txid ∈ m.body.txids, txid ∉ n.body.txids)
    {key : PubkeyHash × Hash} (hkey : key.2 ∈ n.body.txids) :
    (Table.insertAll (ks.flatMap fun n => n.rows (spent n)) ∅).lookup key =
      (Table.insertAll (n.rows (spent n)) ∅).lookup key := by
  obtain ⟨before, after, rfl⟩ := List.append_of_mem hn
  have hne : ∀ m ∈ before ++ after, m ≠ n := by
    rintro m hm rfl
    exact (List.nodup_cons.mp (List.nodup_middle.mp hnodup)).1 hm
  have hnot : ∀ ms : List TreeNode, (∀ m ∈ ms, m ∈ before ++ after) →
      key ∉ (ms.flatMap fun n => n.rows (spent n)).map Prod.fst := by
    intro ms hms hmem
    rw [List.map_flatMap] at hmem
    obtain ⟨m, hm, hrow⟩ := List.mem_flatMap.mp hmem
    have hother := hms m hm
    refine hapart m ?_ (hne m hother) key.2 (Block.historyRows_txid hrow) hkey
    rcases List.mem_append.mp hother with hb | ha
    · exact List.mem_append_left _ hb
    · exact List.mem_append_right _ (List.mem_cons_of_mem n ha)
  rw [List.flatMap_append, List.flatMap_cons, Table.insertAll_append, Table.insertAll_append,
    Table.lookup_insertAll_of_notMem (hnot after fun m hm => List.mem_append_right _ hm)]
  refine Table.lookup_insertAll_congr _ ?_
  rw [Table.lookup_insertAll_of_notMem (hnot before fun m hm => List.mem_append_left _ hm)]

/-! ## The migration and the live chain -/

omit [Crypto] in
/-- The amounts of a row. -/
def HistoryRow.amounts (row : HistoryRow) : Nat × Nat × Bool :=
  (row.received, row.sent, row.coinbase)

variable [ScanOrder Hash]

/-- A database of schema 3 for the chain with the storage `s`, where `live` are the storages that
connecting its active blocks goes through: it has the blocks, and for every active block with a body
the undo record and a history row at each key that connecting the block writes one at. What stands
in the amounts of the rows does not matter. -/
structure Storage.SchemaThree (old s : Storage) (live : List Storage) : Prop where
  blocks : ∀ h, (old.blocks.lookup h).map (fun row => { row with txCount := 0 }) =
    (s.blocks.lookup h).map fun row => { row with txCount := 0 }
  undo : ∀ p ∈ s.activeNodes.zip live, s.Keeps p.1 →
    old.undo.lookup p.1.body.hash = p.2.undo.lookup p.1.body.hash
  history : ∀ p ∈ s.activeNodes.zip live, s.Keeps p.1 → ∀ key : PubkeyHash × Hash,
    key.2 ∈ p.1.body.txids →
      (old.addressHistory.lookup key).isSome = (p.2.addressHistory.lookup key).isSome

omit [Crypto] [ScanOrder Hash] in
/-- In a list of pairs with distinct first parts a first part has one second part. -/
theorem zip_unique {α β : Type} {as : List α} {bs : List β} (h : as.Nodup) {a : α} {b b' : β}
    (hb : (a, b) ∈ as.zip bs) (hb' : (a, b') ∈ as.zip bs) : b = b' := by
  obtain ⟨i, hi⟩ := List.mem_iff_getElem?.mp hb
  obtain ⟨j, hj⟩ := List.mem_iff_getElem?.mp hb'
  obtain ⟨hai, hbi⟩ := List.getElem?_zip_eq_some.mp hi
  obtain ⟨haj, hbj⟩ := List.getElem?_zip_eq_some.mp hj
  obtain ⟨hilt, hi⟩ := List.getElem?_eq_some_iff.mp hai
  obtain ⟨hjlt, hj⟩ := List.getElem?_eq_some_iff.mp haj
  have hij : i = j := h.getElem_inj_iff.mp (hi.trans hj.symm)
  subst hij
  exact Option.some.inj (hbi.symm.trans hbj)

/-- A reachable chain is reached by steps from a new one. -/
theorem Reachable.start {params : ChainParams} {c : Blockchain} (h : Reachable params c) :
    ∃ start g bs, Blockchain.create params = .ok start ∧ Genesis params start.storage g ∧
      ChainTrace params (start.storage, [g]) (c.storage, bs) ∧ Standing params c bs := by
  induction h with
  | @create c hc =>
    obtain ⟨g, hg, hs, -⟩ := Blockchain.create_standing hc
    exact ⟨c, g, [g], hc, hg, .refl, hs⟩
  | call op _ hop ih =>
    obtain ⟨start, g, bs, hstart, hg, htrace, hs⟩ := ih
    obtain ⟨bs', htrace', hs'⟩ := Call.run_standing hs hop
    exact ⟨start, g, bs', hstart, hg, htrace.trans htrace', hs'⟩

section Migrated

variable {params : ChainParams} {old s : Storage} {bs : List TreeNode} {live : List Storage}

omit [Crypto] [ScanOrder Hash] in
/-- The rows of the blocks agree but for the counts. -/
theorem BlockRow.eq_of_counts
    (hblocks : ∀ h, (old.blocks.lookup h).map (fun row => { row with txCount := 0 }) =
      (s.blocks.lookup h).map fun row => { row with txCount := 0 }) {k : Hash} {row : BlockRow}
    (hrow : old.blocks.lookup k = some row) : ∃ row', s.blocks.lookup k = some row' ∧
      row.known = row'.known ∧ row.inChain = row'.inChain ∧ row.pruned = row'.pruned := by
  have hsame := hblocks k
  rw [hrow, Option.map_some] at hsame
  obtain ⟨row', hrow', heq⟩ := Option.map_eq_some_iff.mp hsame.symm
  have hknown := congrArg BlockRow.known heq
  have hmark := congrArg BlockRow.inChain heq
  have hpruned := congrArg BlockRow.pruned heq
  exact ⟨row', hrow', hknown.symm, hmark.symm, hpruned.symm⟩

/-- The blocks that the migration goes through are the active ones with a body. -/
theorem Storage.SchemaThree.unprunedActive (hold : old.SchemaThree s live)
    (h : Based params (s, bs)) : ∃ ks : List TreeNode,
      old.unprunedActive = ks.map (fun n => n.body.hash) ∧ ks.Nodup ∧
        ∀ n, n ∈ ks ↔ n ∈ bs ∧ s.Keeps n := by
  let rows := (old.blockRows.filter fun p => p.2.inChain && !p.2.pruned).insertionSort
    fun a b => a.2.height ≤ b.2.height
  have hmem : ∀ p, p ∈ rows ↔ old.blocks.lookup p.1 = some p.2 ∧ p.2.inChain = true ∧
      p.2.pruned = false := by
    intro p
    rw [List.mem_insertionSort, List.mem_filter, blockRows, mem_scan old.blocks p.1 p.2]
    simp
  have hkey : ∀ p ∈ rows, p.2.known.body.hash = p.1 := by
    intro p hp
    obtain ⟨row', hrow', hknown, -⟩ := BlockRow.eq_of_counts hold.blocks ((hmem p).mp hp).1
    rw [hknown]
    exact h.tree.keyed (tree_eq_some.mpr ⟨row', hrow', rfl⟩)
  have hhashes : rows.map Prod.fst = (rows.map fun p => p.2.known).map fun n => n.body.hash := by
    rw [List.map_map]
    exact List.map_congr_left fun p hp => (hkey p hp).symm
  have hnodup : (rows.map Prod.fst).Nodup := by
    refine ((List.perm_insertionSort _ _).map Prod.fst).nodup_iff.mpr ?_
    exact (nodup_scan old.blocks).sublist (List.filter_sublist.map _)
  refine ⟨rows.map fun p => p.2.known, ?_, ?_, fun n => ?_⟩
  · rw [← hhashes]
    rfl
  · rw [hhashes] at hnodup
    exact hnodup.of_map _
  · rw [List.mem_map]
    constructor
    · -- a row and its copy after the migrations have the marks in common
      rintro ⟨p, hp, rfl⟩
      obtain ⟨hrow, hmark, hpruned⟩ := (hmem p).mp hp
      obtain ⟨row', hrow', hknown, hmark', hpruned'⟩ := BlockRow.eq_of_counts hold.blocks hrow
      refine ⟨hknown ▸ (h.active.marked hrow').mp (hmark'.symm.trans hmark), ?_⟩
      rw [Keeps, prunedAt, hkey p hp, hrow', Option.map_some, ← hpruned', hpruned]
    · rintro ⟨hn, hkeeps⟩
      obtain ⟨row', hrow', rfl⟩ := tree_eq_some.mp (h.active.branch.stored n hn)
      have hsame := hold.blocks row'.known.body.hash
      rw [show s.blocks.lookup row'.known.body.hash = _ from hrow', Option.map_some] at hsame
      obtain ⟨row, hrow, heq⟩ := Option.map_eq_some_iff.mp hsame
      have hknown := congrArg BlockRow.known heq
      have hmark := congrArg BlockRow.inChain heq
      have hpruned := congrArg BlockRow.pruned heq
      rw [Keeps, prunedAt, show s.blocks.lookup row'.known.body.hash = _ from hrow',
        Option.map_some, Option.some.injEq] at hkeeps
      exact ⟨(_, row), (hmem _).mpr ⟨hrow, hmark.trans ((h.active.marked hrow').mpr hn),
        hpruned.trans hkeeps⟩, hknown⟩

/-- An active block with a body can be loaded. -/
theorem Storage.SchemaThree.getBlock (hold : old.SchemaThree s live) (h : Based params (s, bs))
    (hload : Loadable bs) {n : TreeNode} (hn : n ∈ bs) (hkeeps : s.Keeps n) :
    old.getBlock n.body.hash = .ok (some n.body) := by
  obtain ⟨row', hrow', rfl⟩ := tree_eq_some.mp (h.active.branch.stored n hn)
  have hsame := hold.blocks row'.known.body.hash
  rw [show s.blocks.lookup row'.known.body.hash = _ from hrow', Option.map_some] at hsame
  obtain ⟨row, hrow, heq⟩ := Option.map_eq_some_iff.mp hsame
  have hbody := congrArg BlockRow.body heq
  have hpruned := congrArg BlockRow.pruned heq
  rw [Keeps, prunedAt, show s.blocks.lookup row'.known.body.hash = _ from hrow', Option.map_some,
    Option.some.injEq] at hkeeps
  have hparse : Block.deserialize row'.known.body.serialize = .ok row'.known.body := by
    rcases hload _ hn with hzero | hparse
    · rcases h.tree.linked (h.active.branch.stored _ hn) with hgen | ⟨p, -, hchild, -⟩
      · exact ChainParams.genesisBlock_parses hgen.1
      · omega
    · exact hparse
  have hbody' : row.body = row'.known.body := hbody
  refine getBlock_eq_ok.mpr ⟨row, hrow, hpruned.trans hkeeps, ?_, hbody'.symm⟩
  rw [← hbody'] at hparse ⊢
  exact hparse

omit [ScanOrder Hash] in
/-- In a branch of distinct ids no two blocks share one. -/
theorem history_disjoint {bs : List TreeNode} (hids : ((history bs).map Posting.id).Nodup)
    {m n : TreeNode} (hm : m ∈ bs) (hn : n ∈ bs) {txid : Hash} (htm : txid ∈ m.body.txids)
    (htn : txid ∈ n.body.txids) : m = n := by
  obtain ⟨i, hi⟩ := List.mem_iff_getElem?.mp htm
  obtain ⟨j, hj⟩ := List.mem_iff_getElem?.mp htn
  rw [Block.txids, List.getElem?_map] at hi hj
  obtain ⟨t, ht, hid⟩ := Option.map_eq_some_iff.mp hi
  obtain ⟨t', ht', hid'⟩ := Option.map_eq_some_iff.mp hj
  exact (position_unique hids hm hn ht ht' (hid.trans hid'.symm)).1

/-- The active blocks of a reachable chain can be connected again on a new chain, and every state on
the way holds what connecting its block writes. -/
theorem Reachable.connectStates {c : Blockchain} (h : Reachable params c)
    (hcol : c.storage.NoTxidCollision) :
    ∃ start live, Blockchain.create params = .ok start ∧
      ScarletCoin.connectStates params start.storage c.storage.activeNodes.tail = .ok live ∧
      List.Forall₂ Wrote c.storage.activeNodes live := by
  obtain ⟨start, g, bs, hstart, hg, htrace, hs⟩ := h.start
  have hbranch : Branch (lineage params) c.storage.tree bs := hs.based.active.branch
  have hledger : LedgerInv (c.storage, bs) := htrace.ledger hg hcol
  have hstored : c.storage.tree g.body.hash = some g :=
    htrace.tree_mono (hg.tree_eq.mpr ⟨rfl, rfl⟩)
  -- genesis is the lowest node
  obtain ⟨ns, hns⟩ : ∃ ns : List TreeNode, bs = ns.reverse ++ [g] := by
    obtain ⟨above, below, hsplit⟩ := List.append_of_mem
      (hbranch.root_mem hs.based.tree.wellRooted hstored hg.node.1)
    have hdepth := ((hsplit ▸ hbranch).suffix (List.cons_ne_nil g below)).depth_head
    have hzero : below.length = 0 := hdepth.symm.trans hg.node.2.1
    rw [List.length_eq_zero_iff] at hzero
    exact ⟨above.reverse, by rw [List.reverse_reverse, hsplit, hzero]⟩
  have hne : ∀ b ∈ ns, b.body.hash ≠ g.body.hash := by
    intro b hb heq
    have hbmem : b ∈ bs := by
      rw [hns]
      exact List.mem_append_left _ (List.mem_reverse.mpr hb)
    have hbg := hs.based.tree.eq_of_hash (hbranch.stored b hbmem) hstored heq
    have hnodup := hbranch.nodup
    rw [hns] at hnodup
    exact (List.nodup_append.mp hnodup).2.2 b (List.mem_reverse.mpr hb) g
      (List.mem_singleton_self g) hbg
  have hreplay : Replayable params bs := htrace.replayable hg hcol
  have hids := hledger.ids
  have hnodes : c.storage.activeNodes = g :: ns := by
    rw [hs.based.activeNodes_eq, hns, List.reverse_append, List.reverse_reverse]
    rfl
  rw [hns] at hreplay
  rw [show (c.storage, bs).2 = _ from hns] at hids
  obtain ⟨hlive, hwrote⟩ := Blockchain.create_live hstart hg
  obtain ⟨later, hlater, hall⟩ := hlive.connectStates hreplay hne hids
  rw [hnodes]
  exact ⟨start, start.storage :: later, hstart, hlater, .cons hwrote hall⟩

/-- The migration has what it needs for every active block with a body. -/
theorem Storage.SchemaThree.restores (hold : old.SchemaThree s live) (h : Based params (s, bs))
    (hload : Loadable bs) (hall : List.Forall₂ Wrote s.activeNodes live) (columns : List String)
    {n : TreeNode} (hn : n ∈ bs) (hkeeps : s.Keeps n) :
    ∃ spent, Restores (old.addHistoryColumns columns) n spent ∧
      ∀ l, (n, l) ∈ s.activeNodes.zip live → ∀ key : PubkeyHash × Hash, key.2 ∈ n.body.txids →
        l.addressHistory.lookup key = (Table.insertAll (n.rows spent) ∅).lookup key := by
  obtain ⟨hlength, hpairs⟩ := List.forall₂_iff_zip.mp hall
  have hnodes : s.activeNodes = bs.reverse := h.activeNodes_eq
  obtain ⟨i, hi⟩ := List.mem_iff_getElem?.mp (List.mem_reverse.mpr hn)
  rw [← hnodes] at hi
  obtain ⟨hilt, -⟩ := List.getElem?_eq_some_iff.mp hi
  obtain ⟨l, hl⟩ : ∃ l, live[i]? = some l :=
    ⟨_, List.getElem?_eq_getElem (Nat.lt_of_lt_of_eq hilt hlength)⟩
  have hzip : (n, l) ∈ s.activeNodes.zip live :=
    List.mem_of_getElem? (List.getElem?_zip_eq_some.mpr ⟨hi, hl⟩)
  obtain ⟨spent, undo, data, hresolves, hencode, hundo, hrows⟩ := hpairs hzip
  have hnodup : s.activeNodes.Nodup := by
    rw [hnodes]
    exact List.nodup_reverse.mpr h.active.branch.nodup
  have hget : (old.addHistoryColumns columns).getBlock n.body.hash = .ok (some n.body) :=
    hold.getBlock h hload hn hkeeps
  have hrecord : old.undo.lookup n.body.hash = l.undo.lookup n.body.hash :=
    hold.undo (n, l) hzip hkeeps
  refine ⟨spent, ⟨hget, undo, data, hresolves, hencode, hrecord.trans hundo⟩, fun l' hl' => ?_⟩
  rw [zip_unique hnodup hl' hzip]
  exact hrows

omit [Crypto] [ScanOrder Hash] in
/-- Rows that are amended where there are any have the amounts they are amended with. -/
theorem amounts_amendAll {kvs : List ((PubkeyHash × Hash) × HistoryRow)}
    {rows wanted : Table (PubkeyHash × Hash) HistoryRow} {key : PubkeyHash × Hash}
    (hkvs : wanted.lookup key = (Table.insertAll kvs ∅).lookup key)
    (hsome : (rows.lookup key).isSome = (wanted.lookup key).isSome) :
    ((Table.amendAll HistoryRow.withAmounts kvs rows).lookup key).map HistoryRow.amounts =
      (wanted.lookup key).map HistoryRow.amounts := by
  have habsorb : ∀ v w row : HistoryRow, v.withAmounts (w.withAmounts row) = v.withAmounts row :=
    fun _ _ _ => rfl
  rw [Table.lookup_amendAll habsorb, ← hkvs]
  cases hrow : wanted.lookup key with
  | none =>
    rw [hrow, Option.isSome_none, Option.isSome_eq_false_iff, Option.isNone_iff_eq_none] at hsome
    rw [hsome]
    rfl
  | some row =>
    rw [hrow, Option.isSome_some, Option.isSome_iff_exists] at hsome
    obtain ⟨row', hrow'⟩ := hsome
    rw [hrow']
    rfl

omit [Crypto] [ScanOrder Hash] in
theorem Storage.addHistoryColumns_isSome (old : Storage) (columns : List String)
    (key : PubkeyHash × Hash) : ((old.addHistoryColumns columns).addressHistory.lookup key).isSome =
      (old.addressHistory.lookup key).isSome := by
  rw [addHistoryColumns, Table.lookup_mapRows, Option.isSome_map]

/-- **The migration equals live indexing.** Connect the active blocks of a reachable chain one after
the other on a new chain, and migrate any database of schema 3 for the chain: at every transaction
of every active block that keeps its body, the migrated rows hold the amounts that connecting the
block wrote. -/
theorem migrateV3ToV4_eq_live {c : Blockchain} (hc : Reachable params c)
    (hcol : c.storage.NoTxidCollision) :
    ∃ start live, Blockchain.create params = .ok start ∧
      connectStates params start.storage c.storage.activeNodes.tail = .ok live ∧
      live.length = c.storage.activeNodes.length ∧
      ∀ old columns, Storage.SchemaThree old c.storage live →
        ∃ s, old.migrateV3ToV4 columns = .ok s ∧
          ∀ p ∈ c.storage.activeNodes.zip live, c.storage.Keeps p.1 →
            ∀ key : PubkeyHash × Hash, key.2 ∈ p.1.body.txids →
              (s.addressHistory.lookup key).map HistoryRow.amounts =
                (p.2.addressHistory.lookup key).map HistoryRow.amounts := by
  obtain ⟨start, live, hstart, hlive, hall⟩ := hc.connectStates hcol
  refine ⟨start, live, hstart, hlive, hall.length_eq.symm, fun old columns hold => ?_⟩
  obtain ⟨bs, hs, hfiled⟩ := hc.filed
  have hbase : Based params (c.storage, bs) := hs.based
  have hids := (hfiled.ledger hcol).ids
  obtain ⟨ks, hks, hknodup, hkmem⟩ := hold.unprunedActive hbase
  -- the backfill resolves the same spent coins as the live chain did at that block
  have hnoted : ∀ n, ∃ spent, n ∈ ks → Restores (old.addHistoryColumns columns) n spent ∧
      ∀ l, (n, l) ∈ c.storage.activeNodes.zip live → ∀ key : PubkeyHash × Hash,
        key.2 ∈ n.body.txids → l.addressHistory.lookup key =
          (Table.insertAll (n.rows spent) ∅).lookup key := by
    intro n
    by_cases hn : n ∈ ks
    · obtain ⟨hmem, hkeeps⟩ := (hkmem n).mp hn
      obtain ⟨spent, hspent⟩ := hold.restores hbase hfiled.loadable hall columns hmem hkeeps
      exact ⟨spent, fun _ => hspent⟩
    · exact ⟨∅, fun h => absurd h hn⟩
  choose spent hspent using hnoted
  have hrun := backfillBlocks_eq fun n hn => (hspent n hn).1
  rw [← hks] at hrun
  refine ⟨_, hrun, fun p hp hkeeps key hkey => ?_⟩
  have hmem : p.1 ∈ bs := by
    rw [← List.mem_reverse, ← hbase.activeNodes_eq]
    exact (List.of_mem_zip (a := p.1) (b := p.2) hp).1
  have hn : p.1 ∈ ks := (hkmem p.1).mpr ⟨hmem, hkeeps⟩
  -- ids differ between blocks, so no other block amends the row
  refine amounts_amendAll ?_ ?_
  · rw [lookup_rows hn hknodup (fun m hm hne txid htm htn =>
      hne (history_disjoint hids ((hkmem m).mp hm).1 hmem htm htn)) hkey]
    exact (hspent p.1 hn).2 p.2 hp key hkey
  · rw [old.addHistoryColumns_isSome]
    exact hold.history p hp hkeeps key hkey

end Migrated

end Backfill

section Instances

attribute [local instance] Sample.crypto Sample.order

theorem Sample.paid_fits : [Sample.coinbase 3 0 Sample.reward, Sample.cheap].length < 2 ^ 64 :=
  Sample.pair_fits _ _

/-- Two blocks, and a third with a transaction that spends the coinbase of the first. -/
def Sample.paid : List Call :=
  let b₁ := Sample.block Sample.genesisHash 0x207FFFFF 1700000012 [Sample.purse]
    (Sample.alone_fits _)
  let b₂ := Sample.regtestBlock b₁.hash 2 0
  let b₃ := Sample.block b₂.hash 0x207FFFFF 1700000032
    [Sample.coinbase 3 0 Sample.reward, Sample.cheap] Sample.paid_fits
  [Sample.submit b₁, Sample.submit b₂, Sample.submit b₃]

/-- The undo records and the keys of the history rows agree with those of the live storages. -/
def Sample.schemaThree (old s : Storage) (live : List Storage) : Bool :=
  (s.activeNodes.zip live).all fun p =>
    decide (old.undo.lookup p.1.body.hash = p.2.undo.lookup p.1.body.hash) &&
      decide ((old.addressHistory.keepIf fun key _ => p.1.body.txids.contains key.2).keys =
        (p.2.addressHistory.keepIf fun key _ => p.1.body.txids.contains key.2).keys)

theorem Sample.schemaThree_sound {s : Storage} {live : List Storage} {columns : List String}
    (h : Sample.schemaThree (s.addHistoryColumns columns) s live = true) :
    (s.addHistoryColumns columns).SchemaThree s live := by
  have hpair : ∀ p ∈ s.activeNodes.zip live, _ := List.all_eq_true.mp h
  simp only [Bool.and_eq_true, decide_eq_true_eq] at hpair
  refine ⟨fun _ => rfl, fun p hp _ => (hpair p hp).1, fun p hp _ key hkey => ?_⟩
  have hkeep : ∀ t : Table (PubkeyHash × Hash) HistoryRow,
      (t.lookup key).isSome = true ↔
        key ∈ (t.keepIf fun key _ => p.1.body.txids.contains key.2).keys := by
    intro t
    rw [Finmap.mem_keys, ← Finmap.lookup_isSome, Table.lookup_keepIf,
      show p.1.body.txids.contains key.2 = true from List.contains_iff_mem.mpr hkey]
    cases t.lookup key <;> rfl
  rw [Bool.eq_iff_iff, hkeep, hkeep, (hpair p hp).2]

/-- It holds of a chain with a spend, whose history rows lose their amounts. -/
theorem migrateV3ToV4_eq_live_paid : ∃ (c : Blockchain) (live : List Storage) (s : Storage),
    Sample.chainAfter Sample.paid = some c ∧ live.length = 4 ∧
      (c.storage.addHistoryColumns []).migrateV3ToV4 [] = .ok s ∧
        ∀ p ∈ c.storage.activeNodes.zip live, c.storage.Keeps p.1 →
        ∀ key : PubkeyHash × Hash, key.2 ∈ p.1.body.txids →
          (s.addressHistory.lookup key).map HistoryRow.amounts =
            (p.2.addressHistory.lookup key).map HistoryRow.amounts := by
  have hrun : ((Sample.chainAfter Sample.paid).any fun c =>
      decide (c.storage.NoTxidCollision ∧ c.storage.activeNodes.length = 4) &&
      ((Blockchain.create REGTEST).bind fun start => connectStates REGTEST start.storage
        c.storage.activeNodes.tail).toOption.any fun live =>
          Sample.schemaThree (c.storage.addHistoryColumns []) c.storage live) = true := by
    decide +kernel
  obtain ⟨c, hc, h⟩ := (Option.any_eq_true _ _).mp hrun
  obtain ⟨hfour, hlive⟩ := Bool.and_eq_true_iff.mp h
  obtain ⟨hcol, hlength⟩ := of_decide_eq_true hfour
  obtain ⟨live, hlive, hthree⟩ := (Option.any_eq_true _ _).mp hlive
  obtain ⟨start, live', hstart, hlive', hlen, hmain⟩ :=
    migrateV3ToV4_eq_live (Sample.chainAfter_reachable hc) hcol
  have hsame : live' = live := by
    rw [hstart] at hlive
    exact Except.ok.inj (hlive'.symm.trans (toOption_eq_some.mp hlive))
  subst hsame
  obtain ⟨s, hs, hamounts⟩ := hmain _ [] (Sample.schemaThree_sound hthree)
  exact ⟨c, live', s, hc, hlen.trans hlength, hs, hamounts⟩

end Instances

end ScarletCoin
