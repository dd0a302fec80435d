import ScarletCoin.Invariants.Runs
import ScarletCoin.Sample

/-!
# The unspent outputs of the active chain

The postings of the active blocks are a history whose names are the transaction ids. `LedgerInv`
says that the coin table is the table this history leads to, that no id occurs twice in it, and that
undoing any block of the active chain whose undo record is still there gives the table below it.
Every step keeps it (`ChainStep.ledger`), as long as no two transactions of stored blocks share an
id without sharing the body that the id is the digest of.

`Reachable.utxo_eq_replay` is the result: the coin table of a reachable chain is what folding over
its active blocks gives.
-/

set_option autoImplicit false

namespace ScarletCoin

open Toolkit

section Ledger

variable [Crypto]

/-- No two transactions of stored blocks share an id without sharing everything the id commits
to. -/
def Storage.NoTxidCollision (s : Storage) : Prop :=
  ∀ k k' n n', s.tree k = some n → s.tree k' = some n' →
    ∀ t ∈ n.body.transactions, ∀ t' ∈ n'.body.transactions, t.txid = t'.txid →
      t.serializeBody = t'.serializeBody

/-- The postings of a branch, the newest first. -/
def history : List TreeNode → List (Posting Hash OutPoint Coin)
  | [] => []
  | n :: rest => (n.body.postings n.height).reverse ++ history rest

theorem mem_history {bs : List TreeNode} {p : Posting Hash OutPoint Coin} :
    p ∈ history bs ↔ ∃ n ∈ bs, ∃ t ∈ n.body.transactions, p = t.posting n.height := by
  induction bs with
  | nil => simp [history]
  | cons n bs ih =>
    rw [history, List.mem_append, List.mem_reverse, ih, Block.postings, List.mem_map]
    constructor
    · rintro (⟨t, ht, rfl⟩ | ⟨m, hm, t, ht, rfl⟩)
      · exact ⟨n, List.mem_cons_self, t, ht, rfl⟩
      · exact ⟨m, List.mem_cons_of_mem n hm, t, ht, rfl⟩
    · rintro ⟨m, hm, t, ht, rfl⟩
      rcases List.mem_cons.mp hm with rfl | hm
      · exact .inl ⟨t, ht, rfl⟩
      · exact .inr ⟨m, hm, t, ht, rfl⟩

theorem history_owned {bs : List TreeNode} : ∀ p ∈ history bs, Owned OutPoint.txid p := by
  intro p hp
  obtain ⟨n, -, t, -, rfl⟩ := mem_history.mp hp
  exact t.posting_owned n.height

theorem history_append (bs bs' : List TreeNode) :
    history (bs ++ bs') = history bs ++ history bs' := by
  induction bs with
  | nil => rfl
  | cons n bs ih => rw [List.cons_append, history, history, ih, List.append_assoc]

/-! ## Transactions of one id -/

omit [Crypto] in
/-- Transactions with the same body spend the same outpoints, and both are coinbases or neither
is. -/
theorem spends_of_body {t t' : Transaction} (h : t.serializeBody = t'.serializeBody) :
    t.isCoinbase = t'.isCoinbase ∧ t.inputs.map TxInput.prevout = t'.inputs.map TxInput.prevout ∧
      t.coinbaseData = t'.coinbaseData := by
  obtain ⟨⟨-, hcores, -, -, hdata⟩, -⟩ := Transaction.serializeBody_selfDelimiting
    (a := t) (b := t') (x := []) (y := []) (by rw [h])
  have hprev : t.inputs.map TxInput.prevout = t'.inputs.map TxInput.prevout := by
    have hfst := congrArg (List.map Prod.fst) hcores
    rw [List.map_map, List.map_map] at hfst
    exact hfst
  exact ⟨Transaction.isCoinbase_congr hprev, hprev, hdata⟩

/-- A transaction of a block shares a spend with every transaction of its id in a lower block. -/
theorem shared_spend {params : ChainParams} {s : Storage} (hT : GoodTree params s.tree)
    (hcol : s.NoTxidCollision) {n m : TreeNode} (hn : s.tree n.body.hash = some n)
    (hm : s.tree m.body.hash = some m) (hlt : m.height < n.height) {t t' : Transaction}
    (ht : t ∈ n.body.transactions) (ht' : t' ∈ m.body.transactions) (hid : t'.txid = t.txid) :
    ∃ o ∈ t.spends, o ∈ t'.spends := by
  obtain ⟨hcoinbase, hprev, hdata⟩ := spends_of_body (hcol _ _ _ _ hm hn t' ht' t ht hid)
  have hadm := hT.admitted hn
  have hadm' := hT.admitted hm
  by_cases hc : t.isCoinbase = true
  · -- both are the coinbases of their blocks, which claim different heights
    obtain ⟨cb, hcb, hheight⟩ := hadm.claims
    obtain ⟨cb', hcb', hheight'⟩ := hadm'.claims
    rw [hadm.sane.coinbase_eq ht hc] at hcb
    rw [hadm'.sane.coinbase_eq ht' (hcoinbase.trans hc)] at hcb'
    obtain rfl := Except.ok.inj hcb
    obtain rfl := Except.ok.inj hcb'
    have heq := coinbaseHeight_congr hdata hheight' hheight
    omega
  · have hspends : t.spends = t.inputs.map TxInput.prevout := if_neg hc
    have hspends' : t'.spends = t'.inputs.map TxInput.prevout :=
      if_neg (by rw [hcoinbase]; exact hc)
    obtain ⟨txin, rest, hinputs⟩ := List.exists_cons_of_ne_nil (hadm.sane.clean t ht).inputs
    refine ⟨txin.prevout, ?_, ?_⟩
    · rw [hspends, hinputs]
      exact List.mem_cons_self
    · rw [hspends', hprev, hinputs]
      exact List.mem_cons_self

/-! ## The invariant -/

/-- The coin table and the undo records agree with the history of the active chain. -/
structure LedgerInv (a : Storage × List TreeNode) : Prop where
  utxo : a.1.utxo = tableAfter (history a.2)
  ids : ((history a.2).map Posting.id).Nodup
  covered : Covered (history a.2)
  undo : ∀ gone b n rest undo, a.2 = gone ++ b :: n :: rest → a.1.getUndo b.body.hash = .ok undo →
    restore b.body.outpoints undo (tableAfter (history (b :: n :: rest))) =
      tableAfter (history (n :: rest))

/-- With no more undo records than before, and the chain a part of the one before, undoing works as
before. -/
theorem LedgerInv.undo_of_sub {a : Storage × List TreeNode} (h : LedgerInv a) {s : Storage}
    (hsub : ∀ k d, s.undo.lookup k = some d → a.1.undo.lookup k = some d) {bs gone' : List TreeNode}
    (hbs : a.2 = gone' ++ bs) :
    ∀ gone b n rest undo, bs = gone ++ b :: n :: rest → s.getUndo b.body.hash = .ok undo →
      restore b.body.outpoints undo (tableAfter (history (b :: n :: rest))) =
        tableAfter (history (n :: rest)) := by
  intro gone b n rest undo hsplit hundo
  obtain ⟨data, hdata, hdecode⟩ := Storage.getUndo_eq_ok.mp hundo
  refine h.undo (gone' ++ gone) b n rest undo ?_ (Storage.getUndo_eq_ok.mpr ⟨data, hsub _ _ hdata,
    hdecode⟩)
  rw [hbs, hsplit, List.append_assoc]

/-- A lower part of the active chain has the ledger invariant of its own table. -/
theorem LedgerInv.disconnect {s s' : Storage} {b n : TreeNode}
    {rest : List TreeNode} {undo : List UndoEntry} (h : LedgerInv (s, b :: n :: rest))
    (hundo : s.getUndo b.body.hash = .ok undo)
    (hdis : Disconnected s (s.entryAt b) b.body undo s') : LedgerInv (s', n :: rest) where
  utxo := by
    rw [show (s', n :: rest).1.utxo = _ from hdis.utxo, show s.utxo = _ from h.utxo]
    exact h.undo [] b n rest undo rfl hundo
  ids := by
    have hids := h.ids
    rw [history, List.map_append] at hids
    exact (List.nodup_append.mp hids).2.1
  covered := h.covered.below
  undo := @LedgerInv.undo_of_sub _ _ h s' (fun k d hd => by rwa [← hdis.undo]) _ [b] rfl

/-- Connecting a block continues the history. -/
theorem LedgerInv.connect {params : ChainParams} {s s' : Storage} {b n : TreeNode}
    {rest : List TreeNode} {st : ConnectState} {data : Bytes} (h : LedgerInv (s, n :: rest))
    (hbase : Based params (s, n :: rest)) (hcol : s.NoTxidCollision)
    (hb : s.tree b.body.hash = some b) (hheight : n.height < b.height)
    (hcheck : checkBlock params s.utxo b.body (s.entryAt b) = .ok st)
    (hdata : encodeUndo st.undo = .ok data)
    (hcon : Connected s b.body (s.entryAt b) st data s') : LedgerInv (s', b :: n :: rest) := by
  have hbal := checkBlock_balanced hcheck
  rw [Storage.entryAt_height hb] at hbal
  have hutxo : s.utxo = tableAfter (history (n :: rest)) := h.utxo
  have hpay := hbal.payable
  rw [hutxo] at hpay
  have htable : tableAfter (history (b :: n :: rest)) = st.table s.utxo := by
    rw [hbal.table, history, tableAfter_append, ← hutxo]
  have hsane := (hbase.tree.admitted hb).sane
  have hlow : ∀ m ∈ n :: rest, m.height < b.height := by
    intro m hm
    rcases List.mem_cons.mp hm with rfl | hm
    · exact hheight
    · have hlt : m.height < n.height := hbase.active.branch.depth_lt m hm
      exact hlt.trans hheight
  have hids : ((history (b :: n :: rest)).map Posting.id).Nodup := by
    refine ids_nodup_append (@history_owned _ (b :: n :: rest)) h.covered hpay h.ids ?_ ?_
    · have hdistinct := hsane.distinct
      unfold Block.txids at hdistinct
      rw [Block.postings, List.map_map]
      exact hdistinct
    · intro q hq p hp hid
      obtain ⟨t, ht, rfl⟩ := List.mem_map.mp hq
      obtain ⟨m, hm, t', ht', rfl⟩ := mem_history.mp hp
      exact shared_spend hbase.tree hcol hb (hbase.active.branch.stored m hm) (hlow m hm) ht ht' hid
  refine ⟨?_, hids, h.covered.append hpay, ?_⟩
  · rw [htable]
    exact hcon.utxo
  · intro gone c m below undo hsplit hundo
    cases gone with
    | nil =>
      obtain ⟨rfl, hbelow⟩ := List.cons.inj hsplit
      obtain ⟨rfl, rfl⟩ := List.cons.inj hbelow
      obtain ⟨d, hd, hdecode⟩ := Storage.getUndo_eq_ok.mp hundo
      rcases hcon.undo _ _ hd with ⟨-, rfl⟩ | ⟨hne, -⟩
      · rw [decodeUndo_encodeUndo hdata] at hdecode
        obtain rfl := Except.ok.inj hdecode
        rw [htable, ← hutxo]
        refine hbal.sound.restore_eq (fun o => (hbal.created o).symm) fun o ho => ?_
        -- an output that was there belongs to an older transaction
        obtain ⟨t, ht, hot⟩ := List.mem_flatMap.mp ((hbal.created o).mp ho)
        rw [hutxo]
        refine creates_fresh history_owned (t.posting_owned b.height) ?_
          (k := o) (by rw [Transaction.posting, Transaction.coins_fst]; exact hot)
        intro hmem
        rw [history, List.map_append] at hids
        refine (List.nodup_append.mp hids).2.2 _ ?_ _ hmem rfl
        rw [List.map_reverse, List.mem_reverse, Block.postings, List.map_map]
        exact List.mem_map.mpr ⟨t, ht, rfl⟩
      · exact absurd Storage.entryAt_hash.symm hne
    | cons g gone =>
      obtain ⟨rfl, hrest⟩ := List.cons.inj hsplit
      obtain ⟨d, hd, hdecode⟩ := Storage.getUndo_eq_ok.mp hundo
      have hc : c ∈ n :: rest := by
        rw [hrest]
        simp
      have hne : c.body.hash ≠ b.body.hash := by
        intro heq
        have hcb := hbase.tree.eq_of_hash (hbase.active.branch.stored c hc) hb heq
        have hlt := hlow c hc
        rw [hcb] at hlt
        exact Nat.lt_irrefl _ hlt
      have hold : s.undo.lookup c.body.hash = some d := by
        rcases hcon.undo _ _ hd with ⟨heq, -⟩ | ⟨-, hold⟩
        · exact absurd (heq.trans Storage.entryAt_hash) hne
        · exact hold
      exact h.undo gone c m below undo hrest (Storage.getUndo_eq_ok.mpr ⟨d, hold, hdecode⟩)

/-- Dropping bodies and undo records keeps the ledger invariant. -/
theorem LedgerInv.prune {P : Hash → Prop} {s s' : Storage} {bs : List TreeNode}
    (h : LedgerInv (s, bs)) (hpruned : Pruned P s s') : LedgerInv (s', bs) := by
  refine ⟨hpruned.utxo.trans h.utxo, h.ids, h.covered,
    @LedgerInv.undo_of_sub _ _ h s' (fun k d hd => ?_) _ [] rfl⟩
  rcases hpruned.undo k with heq | ⟨-, hnone⟩
  · rwa [← heq]
  · rw [hnone] at hd
    cases hd

/-- Every step keeps the ledger invariant. -/
theorem ChainStep.ledger {params : ChainParams} {a b : Storage × List TreeNode}
    (h : ChainStep params a b) (hbase : Based params a)
    (ha : a.1.NoTxidCollision → LedgerInv a) (hcol : b.1.NoTxidCollision) : LedgerInv b := by
  have hcol' : a.1.NoTxidCollision := fun k k' n n' hn hn' =>
    hcol k k' n n' (h.tree_mono hn) (h.tree_mono hn')
  have hinv := ha hcol'
  cases h with
  | store _ _ _ _ _ => exact ⟨hinv.utxo, hinv.ids, hinv.covered, hinv.undo⟩
  | header headers => exact ⟨hinv.utxo, hinv.ids, hinv.covered, hinv.undo⟩
  | point => exact ⟨hinv.utxo, hinv.ids, hinv.covered, hinv.undo⟩
  | prune _ hpruned => exact hinv.prune hpruned
  | disconnect hundo hdis => exact hinv.disconnect hundo hdis
  | connect hb _ hheight hcheck hdata hcon =>
    exact hinv.connect hbase hcol' hb (hheight ▸ Nat.lt_succ_self _) hcheck hdata hcon

/-- A new chain has the ledger invariant. -/
theorem Genesis.ledger {params : ChainParams} {s : Storage} {g : TreeNode}
    (h : Genesis params s g) : LedgerInv (s, [g]) := by
  obtain ⟨coinbase, -, hts, -⟩ := ChainParams.genesisBlock_eq_ok h.node.1
  obtain ⟨cb, others, hcb, hcoinbase, -⟩ := h.admitted.sane.first
  rw [hts] at hcb
  obtain ⟨rfl, -⟩ := List.cons.inj hcb
  have hspends : coinbase.spends = [] := if_pos hcoinbase
  have hhist : history [g] = [coinbase.posting 0] := by
    rw [history, history, Block.postings, hts, h.node.2.1]
    rfl
  refine ⟨?_, ?_, ?_, ?_⟩
  · rw [show (s, [g]).1.utxo = _ from h.utxo, hts, hhist, tableAfter, Posting.apply,
      Transaction.posting, hspends, List.flatMap_cons, List.flatMap_nil, List.append_nil]
    rfl
  · rw [hhist]
    exact List.nodup_singleton _
  · rw [hhist]
    refine ⟨fun o ho => ?_, trivial⟩
    rw [Transaction.posting, hspends] at ho
    cases ho
  · intro gone b n rest undo hsplit
    have hlen := congrArg List.length hsplit
    simp at hlen
    omega

/-- The ledger invariant holds after any number of steps from genesis. -/
theorem ChainTrace.ledger {params : ChainParams} {s : Storage} {g : TreeNode}
    (hg : Genesis params s g) {a : Storage × List TreeNode} (h : ChainTrace params (s, [g]) a)
    (hcol : a.1.NoTxidCollision) : LedgerInv a :=
  ChainTrace.invariant (fun a => a.1.NoTxidCollision → LedgerInv a)
    (fun _ _ hbase hinv hstep hcol => hstep.ledger hbase hinv hcol) h hg.based
    (fun _ => hg.ledger) hcol

/-! ## The replay of the active chain -/

variable [ScanOrder Hash]

/-- Whether ids collide can be read off two scans. -/
theorem Storage.noTxidCollision_iff (s : Storage) : s.NoTxidCollision ↔
    ∀ p ∈ s.blockRows, ∀ q ∈ s.blockRows, ∀ t ∈ p.2.body.transactions,
      ∀ t' ∈ q.2.body.transactions, t.txid = t'.txid → t.serializeBody = t'.serializeBody := by
  constructor
  · intro h p hp q hq
    exact h p.1 q.1 p.2.known q.2.known
      (tree_eq_some.mpr ⟨p.2, (mem_scan s.blocks _ _).mp hp, rfl⟩)
      (tree_eq_some.mpr ⟨q.2, (mem_scan s.blocks _ _).mp hq, rfl⟩)
  · rintro h k k' n n' hn hn'
    obtain ⟨row, hrow, rfl⟩ := tree_eq_some.mp hn
    obtain ⟨row', hrow', rfl⟩ := tree_eq_some.mp hn'
    exact h (k, row) ((mem_scan s.blocks _ _).mpr hrow)
      (k', row') ((mem_scan s.blocks _ _).mpr hrow')

instance (s : Storage) : Decidable s.NoTxidCollision := decidable_of_iff' _ s.noTxidCollision_iff

/-- The marked blocks of the storage, the lowest first. -/
def Storage.activeNodes (s : Storage) : List TreeNode :=
  ((s.blockRows.filter fun p => p.2.inChain).map fun p => p.2.known).insertionSort
    fun a b => a.height ≤ b.height

/-- The coins that folding over the active blocks from genesis to the tip leaves: every transaction
removes the outpoints it spends and adds the outputs it creates. -/
def Storage.replayActive (s : Storage) : Table OutPoint Coin :=
  s.activeNodes.foldl (fun utxo n => replay (n.body.postings n.height) utxo) ∅

/-- The marked blocks, lowest first, are the active chain read upwards. -/
theorem Based.activeNodes_eq {params : ChainParams} {s : Storage} {bs : List TreeNode}
    (h : Based params (s, bs)) : s.activeNodes = bs.reverse := by
  have hbranch : Branch (lineage params) s.tree bs := h.active.branch
  have hmem : ∀ n, n ∈ (s.blockRows.filter fun p => p.2.inChain).map (fun p => p.2.known) ↔
      n ∈ bs := by
    intro n
    rw [List.mem_map]
    constructor
    · rintro ⟨⟨k, row⟩, hrow, rfl⟩
      obtain ⟨hscan, hmark⟩ := List.mem_filter.mp hrow
      exact (h.active.marked ((mem_scan s.blocks k row).mp hscan)).mp hmark
    · intro hn
      obtain ⟨row, hrow, rfl⟩ := Storage.tree_eq_some.mp (hbranch.stored n hn)
      refine ⟨(_, row), List.mem_filter.mpr ⟨(mem_scan s.blocks _ row).mpr hrow, ?_⟩, rfl⟩
      exact (h.active.marked hrow).mpr hn
  have hnodup : ((s.blockRows.filter fun p => p.2.inChain).map fun p => p.2.known).Nodup := by
    have hkeys : ((s.blockRows.filter fun p => p.2.inChain).map Prod.fst).Nodup :=
      (nodup_scan s.blocks).sublist (List.filter_sublist.map _)
    refine List.Nodup.of_map (fun n : TreeNode => n.body.hash) ?_
    rw [List.map_map]
    convert hkeys using 1
    refine List.map_congr_left fun p hp => ?_
    have hrow := (mem_scan s.blocks p.1 p.2).mp (List.mem_filter.mp hp).1
    exact h.tree.keyed (Storage.tree_eq_some.mpr ⟨p.2, hrow, rfl⟩)
  -- the marked rows are the branch, and heights tell its nodes apart, so there is one order
  have hperm : s.activeNodes.Perm bs.reverse :=
    (List.perm_insertionSort _ _).trans
      (((List.perm_ext_iff_of_nodup hnodup hbranch.nodup).mpr hmem).trans
        (List.reverse_perm bs).symm)
  have : Std.Total fun a b : TreeNode => a.height ≤ b.height :=
    ⟨fun a b => Nat.le_total a.height b.height⟩
  have : IsTrans TreeNode fun a b => a.height ≤ b.height := ⟨fun _ _ _ => Nat.le_trans⟩
  refine List.Perm.eq_of_pairwise ?_ (List.pairwise_insertionSort _ _) ?_ hperm
  · intro a b ha hb hab hba
    have hb' : b ∈ bs := List.mem_reverse.mp hb
    have ha' : a ∈ bs := List.mem_reverse.mp (hperm.mem_iff.mp ha)
    exact hbranch.depth_injective a ha' b hb' (Nat.le_antisymm hab hba)
  · rw [List.pairwise_reverse]
    clear hperm hnodup hmem h
    induction hbranch with
    | root _ _ _ => exact List.pairwise_singleton _ _
    | @child b p rest hp hb hprev hd ih =>
      refine List.Pairwise.cons (fun n hn => ?_) ih
      have hlt : n.height < b.height := (Branch.child hp hb hprev hd).depth_lt n hn
      exact Nat.le_of_lt hlt

theorem replayActive_eq {params : ChainParams} {s : Storage} {bs : List TreeNode}
    (h : Based params (s, bs)) : s.replayActive = tableAfter (history bs) := by
  have hfold : ∀ bs : List TreeNode,
      bs.reverse.foldl (fun utxo n => replay (n.body.postings n.height) utxo) ∅ =
        tableAfter (history bs) := by
    intro bs
    induction bs with
    | nil => rfl
    | cons n bs ih => rw [List.reverse_cons, List.foldl_append, ih, history, tableAfter_append]; rfl
  rw [Storage.replayActive, h.activeNodes_eq, hfold]

/-- **The coin table is the replay of the active chain**, in every reachable state. -/
theorem Reachable.utxo_eq_replay {params : ChainParams} {c : Blockchain}
    (h : Reachable params c) (hcol : c.storage.NoTxidCollision) :
    c.storage.utxo = c.storage.replayActive := by
  obtain ⟨s, g, bs, hg, htrace, hs⟩ := h.run
  rw [replayActive_eq hs.based]
  exact (htrace.ledger hg hcol).utxo

end Ledger

section Instances

attribute [local instance] Sample.crypto Sample.order

/-- It holds of a chain that a side branch has taken over. -/
theorem utxo_eq_replay_overtaken : ∃ c, Sample.chainAfter Sample.overtaken = some c ∧
    c.storage.utxo = c.storage.replayActive := by
  have hrun : ((Sample.chainAfter Sample.overtaken).any fun c =>
      decide c.storage.NoTxidCollision) = true := by decide +kernel
  obtain ⟨c, hc, hcol⟩ := (Option.any_eq_true _ _).mp hrun
  exact ⟨c, hc, Reachable.utxo_eq_replay (Sample.chainAfter_reachable hc) (of_decide_eq_true hcol)⟩

end Instances

end ScarletCoin
