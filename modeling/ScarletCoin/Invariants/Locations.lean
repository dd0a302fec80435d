import ScarletCoin.Invariants.ActiveChain
import ScarletCoin.Rules.Declarative

/-!
# What the indexes hold

`Storage.IndexExact` says what the two indexes are for: a transaction of an active block whose body
is still stored is located by the hash of the block, its position and the height, every address that
it touches has a row with the exact amounts, and nothing else has a location or a row.

One half of it holds in every reachable state: whatever is found in the indexes is right
(`Indexes False`). The other half is lost when bodies are dropped: `prune_to` also drops bodies of
side branches, and it deletes the rows of their transactions by id, although an active block may
hold the same transaction. `Blockchain.PrunesApart` says that this does not happen, and along runs
whose calls to prune all meet it the indexes stay exact (`Tended.index_exact`).
-/

set_option autoImplicit false

namespace ScarletCoin

open Toolkit

section Rows

variable [Crypto]

/-! ## What the rows should be -/

/-- The amount that the outputs of a transaction pay to a payload. -/
def Transaction.received (t : Transaction) (payload : PubkeyHash) : Nat :=
  ((t.outputs.filter fun o => o.payload = payload).map TxOutput.value).sum

/-- The coins that a transaction takes out of a view. -/
def Transaction.taken (view : OutPoint → Option Coin) (t : Transaction) : List Coin :=
  t.spends.filterMap view

/-- The amount that a transaction takes from a payload. -/
def Transaction.sent (view : OutPoint → Option Coin) (t : Transaction) (payload : PubkeyHash) :
    Nat :=
  (((t.taken view).filter fun coin => coin.payload = payload).map Coin.value).sum

/-- The transaction pays to a payload or takes from it. -/
def Transaction.Touches (view : OutPoint → Option Coin) (t : Transaction)
    (payload : PubkeyHash) : Prop :=
  payload ∈ t.outputs.map TxOutput.payload ∨ payload ∈ (t.taken view).map Coin.payload

/-- The row of a transaction at a payload. -/
def Transaction.row (view : OutPoint → Option Coin) (height : Nat) (t : Transaction)
    (payload : PubkeyHash) : HistoryRow :=
  ⟨height, t.received payload, t.sent view payload, t.isCoinbase⟩

/-- The body of the node is still stored. -/
def Storage.Keeps (s : Storage) (n : TreeNode) : Prop := s.prunedAt n.body.hash = some false

/-- Among the nodes, one that keeps its body has the transaction at the location. -/
def Located (s : Storage) (bs : List TreeNode) (txid : Hash) (loc : TxLocation) : Prop :=
  ∃ n ∈ bs, s.Keeps n ∧ loc.blockHash = n.body.hash ∧ loc.height = n.height ∧
    ∃ t, n.body.transactions[loc.position]? = some t ∧ t.txid = txid

/-- Among the nodes, one that keeps its body has a transaction with the row. -/
def Recorded (s : Storage) (bs : List TreeNode) (view : OutPoint → Option Coin)
    (payload : PubkeyHash) (txid : Hash) (row : HistoryRow) : Prop :=
  ∃ n ∈ bs, s.Keeps n ∧ ∃ t ∈ n.body.transactions, t.txid = txid ∧ t.Touches view payload ∧
    row = t.row view n.height payload

/-- The coins that the active chain ever created. -/
def Storage.activeCoins [ScanOrder Hash] (s : Storage) : Table OutPoint Coin :=
  Table.insertAll (s.activeNodes.flatMap fun n => n.body.coins n.height) ∅

/-- The indexes hold the rows of the active blocks whose bodies are stored, and nothing else. -/
structure Storage.IndexExact [ScanOrder Hash] (s : Storage) : Prop where
  locations : ∀ txid loc,
    s.txLocation.lookup txid = some loc ↔ Located s s.activeNodes txid loc
  history : ∀ payload txid row, s.addressHistory.lookup (payload, txid) = some row ↔
    Recorded s s.activeNodes s.activeCoins.lookup payload txid row

/-! ## Indexing at once -/

/-- The locations of the transactions of a block. -/
def Block.locations (height : Nat) (b : Block) : List (Hash × TxLocation) :=
  b.transactions.zipIdx.map fun entry => (entry.1.txid, ⟨b.hash, entry.2, height⟩)

/-- The rows of a transaction that is indexed with the coins of `spent`. -/
def Transaction.historyRows (height : Nat) (spent : Table OutPoint Coin) (t : Transaction) :
    List ((PubkeyHash × Hash) × HistoryRow) :=
  (t.deltas spent).map fun d => ((d.1, t.txid), ⟨height, d.2.1, d.2.2, t.isCoinbase⟩)

/-- Indexing a block is two bulk writes. -/
theorem indexBlock_eq (s : Storage) (b : Block) (height : Nat) (spent : Table OutPoint Coin) :
    indexBlock s b height spent = { s with
      txLocation := Table.insertAll (b.locations height) s.txLocation
      addressHistory := Table.insertAll
        (b.transactions.flatMap (Transaction.historyRows height spent)) s.addressHistory } := by
  have hfold : ∀ (entries : List (Transaction × Nat)) (s : Storage),
      entries.foldl (fun s entry => s.indexTransaction entry.1.txid entry.1.isCoinbase
        ⟨b.hash, entry.2, height⟩ (entry.1.deltas spent)) s = { s with
          txLocation := Table.insertAll (entries.map fun entry =>
            (entry.1.txid, (⟨b.hash, entry.2, height⟩ : TxLocation))) s.txLocation
          addressHistory := Table.insertAll (entries.flatMap fun entry =>
            entry.1.historyRows height spent) s.addressHistory } := by
    intro entries
    induction entries with
    | nil => exact fun _ => rfl
    | cons entry entries ih =>
      intro s
      rw [List.foldl_cons, ih, List.flatMap_cons, Table.insertAll_append]
      rfl
  have hrows : b.transactions.zipIdx.flatMap (fun entry => entry.1.historyRows height spent) =
      b.transactions.flatMap (Transaction.historyRows height spent) := by
    conv_rhs => rw [← List.zipIdx_map_fst 0 b.transactions, List.flatMap_map]
  rw [indexBlock, hfold, hrows]
  rfl

theorem Block.locations_fst (height : Nat) (b : Block) :
    (b.locations height).map Prod.fst = b.txids := by
  rw [locations, List.map_map, Block.txids]
  conv_rhs => rw [← List.zipIdx_map_fst 0 b.transactions, List.map_map]
  rfl

theorem Transaction.historyRows_fst (height : Nat) (spent : Table OutPoint Coin)
    (t : Transaction) : (t.historyRows height spent).map Prod.fst =
      (t.outputs.map TxOutput.payload ++ (t.spentCoins spent).map Coin.payload).dedup.map
        fun payload => (payload, t.txid) := by
  rw [historyRows, deltas, List.map_map, List.map_map]
  rfl

theorem Block.historyRows_txid {height : Nat} {spent : Table OutPoint Coin} {b : Block}
    {key : PubkeyHash × Hash}
    (h : key ∈ (b.transactions.flatMap (Transaction.historyRows height spent)).map Prod.fst) :
    key.2 ∈ b.txids := by
  rw [List.map_flatMap] at h
  obtain ⟨t, ht, hkey⟩ := List.mem_flatMap.mp h
  rw [t.historyRows_fst] at hkey
  obtain ⟨payload, -, rfl⟩ := List.mem_map.mp hkey
  exact List.mem_map_of_mem ht

/-- In a block of distinct ids every row has a key of its own. -/
theorem Block.historyRows_nodup {b : Block} (hids : b.txids.Nodup) (height : Nat)
    (spent : Table OutPoint Coin) :
    ((b.transactions.flatMap (Transaction.historyRows height spent)).map Prod.fst).Nodup := by
  rw [List.map_flatMap, List.nodup_flatMap]
  constructor
  · intro t _
    rw [t.historyRows_fst]
    exact (List.nodup_dedup _).map_on fun p _ q _ heq => (Prod.mk.inj heq).1
  · rw [Block.txids, List.Nodup, List.pairwise_map] at hids
    refine hids.imp fun {t u} hne => ?_
    intro key hkey hkey'
    dsimp only at hkey hkey'
    rw [t.historyRows_fst] at hkey
    rw [u.historyRows_fst] at hkey'
    obtain ⟨p, -, rfl⟩ := List.mem_map.mp hkey
    obtain ⟨q, -, heq⟩ := List.mem_map.mp hkey'
    exact hne (Prod.mk.inj heq).2.symm

omit [Crypto] in
/-- Views that agree on what a transaction spends give it the same rows. -/
theorem Transaction.taken_congr {t : Transaction} {view view' : OutPoint → Option Coin}
    (h : ∀ o ∈ t.spends, view o = view' o) : t.taken view = t.taken view' :=
  List.filterMap_congr h

omit [Crypto] in
/-- The coins that indexing reads are those that the transaction takes. -/
theorem Transaction.spentCoins_eq {t : Transaction} {spent : Table OutPoint Coin}
    {view : OutPoint → Option Coin} (hview : ∀ o ∈ t.spends, spent.lookup o = view o)
    (hnull : t.isCoinbase = true → ∀ txin ∈ t.inputs, spent.lookup txin.prevout = none) :
    t.spentCoins spent = t.taken view := by
  unfold spentCoins taken
  by_cases hc : t.isCoinbase = true
  · rw [spends, if_pos hc, List.filterMap_nil, List.filterMap_eq_nil_iff]
    exact hnull hc
  · have hspends : t.spends = t.inputs.map TxInput.prevout := if_neg hc
    rw [hspends] at hview ⊢
    rw [List.filterMap_map]
    exact List.filterMap_congr fun txin htxin => hview _ (List.mem_map_of_mem htxin)

/-- The rows that indexing writes for a transaction are those that it should have. -/
theorem Transaction.mem_historyRows {t : Transaction} {height : Nat} {spent : Table OutPoint Coin}
    {view : OutPoint → Option Coin} (hspent : t.spentCoins spent = t.taken view)
    {payload : PubkeyHash} {txid : Hash} {row : HistoryRow} :
    ((payload, txid), row) ∈ t.historyRows height spent ↔
      t.txid = txid ∧ t.Touches view payload ∧ row = t.row view height payload := by
  unfold historyRows deltas Touches
  rw [hspent, List.mem_map]
  constructor
  · rintro ⟨d, hd, heq⟩
    obtain ⟨p, hp, rfl⟩ := List.mem_map.mp hd
    rw [List.mem_dedup, List.mem_append] at hp
    obtain ⟨hkey, rfl⟩ := Prod.mk.inj heq
    obtain ⟨rfl, rfl⟩ := Prod.mk.inj hkey
    exact ⟨rfl, hp, rfl⟩
  · rintro ⟨rfl, htouch, rfl⟩
    refine ⟨_, List.mem_map_of_mem (List.mem_dedup.mpr (List.mem_append.mpr htouch)), rfl⟩

/-! ## The indexes of a chain -/

/-- The coins that a branch ever created. -/
abbrev coinsOf (bs : List TreeNode) : Table OutPoint Coin := createdBy (history bs)

/-- Whatever the indexes hold is right; and, for `whole`, they hold all they should. -/
structure Indexes (whole : Prop) (a : Storage × List TreeNode) : Prop where
  found : ∀ txid loc, a.1.txLocation.lookup txid = some loc → Located a.1 a.2 txid loc
  recorded : ∀ payload txid row, a.1.addressHistory.lookup (payload, txid) = some row →
    Recorded a.1 a.2 (coinsOf a.2).lookup payload txid row
  allFound : whole → ∀ txid loc, Located a.1 a.2 txid loc →
    a.1.txLocation.lookup txid = some loc
  allRecorded : whole → ∀ payload txid row,
    Recorded a.1 a.2 (coinsOf a.2).lookup payload txid row →
    a.1.addressHistory.lookup (payload, txid) = some row

theorem Located.mem {s : Storage} {bs : List TreeNode} {txid : Hash} {loc : TxLocation}
    (h : Located s bs txid loc) : ∃ n ∈ bs, s.Keeps n ∧ txid ∈ n.body.txids := by
  obtain ⟨n, hn, hkeeps, -, -, t, ht, rfl⟩ := h
  exact ⟨n, hn, hkeeps, List.mem_map_of_mem (List.mem_of_getElem? ht)⟩

theorem Recorded.mem {s : Storage} {bs : List TreeNode} {view : OutPoint → Option Coin}
    {payload : PubkeyHash} {txid : Hash} {row : HistoryRow}
    (h : Recorded s bs view payload txid row) : ∃ n ∈ bs, s.Keeps n ∧ txid ∈ n.body.txids := by
  obtain ⟨n, hn, hkeeps, t, ht, rfl, -⟩ := h
  exact ⟨n, hn, hkeeps, List.mem_map_of_mem ht⟩

section Top

variable {b : TreeNode} {rest : List TreeNode}

/-- In a history of distinct ids the tip shares none with the blocks below it. -/
theorem history_apart (hids : ((history (b :: rest)).map Posting.id).Nodup) {m : TreeNode}
    (hm : m ∈ rest) {txid : Hash} (h : txid ∈ m.body.txids) : txid ∉ b.body.txids := by
  intro hb
  rw [history_ids, List.flatMap_cons] at hids
  refine (List.nodup_append.mp hids).2.2 txid (List.mem_reverse.mpr hb) txid ?_ rfl
  exact List.mem_flatMap.mpr ⟨m, hm, List.mem_reverse.mpr h⟩

/-- What the blocks below the tip spend, the tip does not create. -/
theorem coinsOf_below (hids : ((history (b :: rest)).map Posting.id).Nodup)
    (hcov : Covered (history rest)) {m : TreeNode} (hm : m ∈ rest) {t : Transaction}
    (ht : t ∈ m.body.transactions) {o : OutPoint} (ho : o ∈ t.spends) :
    (coinsOf (b :: rest)).lookup o = (coinsOf rest).lookup o := by
  have howner : o.txid ∈ (history rest).map Posting.id :=
    owner_mem_of_spent history_owned hcov (mem_history.mpr ⟨m, hm, t, ht, rfl⟩) ho
  rw [history_ids, List.mem_flatMap] at howner
  obtain ⟨m', hm', howner⟩ := howner
  have hnot := history_apart hids hm' (List.mem_reverse.mp howner)
  rw [coinsOf, history, createdBy_append, Table.lookup_insertAll_of_notMem]
  intro hmade
  rw [Block.postings_creates, Block.coins, List.map_flatMap] at hmade
  obtain ⟨t', ht', ho'⟩ := List.mem_flatMap.mp hmade
  rw [t'.coins_fst] at ho'
  rw [Transaction.outpoints_txid ho'] at hnot
  exact hnot (List.mem_map_of_mem ht')

/-- Below the tip the rows are those of the chain below it. -/
theorem recorded_below {s s' : Storage} (hids : ((history (b :: rest)).map Posting.id).Nodup)
    (hcov : Covered (history rest)) (hkeeps : ∀ m ∈ rest, s'.Keeps m ↔ s.Keeps m)
    {payload : PubkeyHash} {txid : Hash} {row : HistoryRow} :
    Recorded s' rest (coinsOf rest).lookup payload txid row ↔
      Recorded s rest (coinsOf (b :: rest)).lookup payload txid row := by
  have hsame : ∀ m ∈ rest, ∀ t ∈ m.body.transactions,
      t.taken (coinsOf rest).lookup = t.taken (coinsOf (b :: rest)).lookup :=
    fun m hm t ht => Transaction.taken_congr fun o ho => (coinsOf_below hids hcov hm ht ho).symm
  constructor
  · rintro ⟨m, hm, hk, t, ht, hid, htouch, hrow⟩
    refine ⟨m, hm, (hkeeps m hm).mp hk, t, ht, hid, ?_, ?_⟩
    · rwa [Transaction.Touches, ← hsame m hm t ht]
    · rwa [Transaction.row, Transaction.sent, ← hsame m hm t ht]
  · rintro ⟨m, hm, hk, t, ht, hid, htouch, hrow⟩
    refine ⟨m, hm, (hkeeps m hm).mpr hk, t, ht, hid, ?_, ?_⟩
    · rwa [Transaction.Touches, hsame m hm t ht]
    · rwa [Transaction.row, Transaction.sent, hsame m hm t ht]

end Top

/-! ## Disconnecting and connecting -/

variable {whole : Prop} {s s' : Storage} {b n : TreeNode} {rest : List TreeNode}

theorem Storage.keeps_congr (hpruned : s'.prunedAt = s.prunedAt) (m : TreeNode) :
    s'.Keeps m ↔ s.Keeps m := by
  unfold Keeps
  rw [hpruned]

/-- Disconnecting the tip takes its rows out and leaves the others. -/
theorem Indexes.disconnect (h : Indexes whole (s, b :: n :: rest))
    (hledger : LedgerInv (s, b :: n :: rest))
    (hdis : disconnectBlock s (s.entryAt b) = .ok (s', b.body)) :
    Indexes whole (s', n :: rest) := by
  obtain ⟨-, undo, -, hs'⟩ := disconnectBlock_eq_ok.mp hdis
  obtain ⟨undo', -, hdisconnected⟩ := disconnectBlock_disconnected hdis
  have hpruned : s'.prunedAt = s.prunedAt :=
    Storage.prunedAt_modify hdisconnected.blocks fun _ => rfl
  have hkeeps : ∀ m ∈ n :: rest, s'.Keeps m ↔ s.Keeps m :=
    fun m _ => Storage.keeps_congr hpruned m
  have hcov : Covered (history (n :: rest)) := hledger.covered.below
  have hlocs : s'.txLocation = Table.eraseAll b.body.txids s.txLocation := by rw [hs']; rfl
  have hrows : s'.addressHistory =
      s.addressHistory.keepIf fun key _ => decide (key.2 ∉ b.body.txids) := by rw [hs']; rfl
  -- the block on top is erased by the ids of its transactions, which stand nowhere below
  refine ⟨fun txid loc hloc => ?_, fun payload txid row hrow => ?_, fun hw txid loc hloc => ?_,
    fun hw payload txid row hrow => ?_⟩
  · rw [show (s', n :: rest).1.txLocation = _ from hlocs, Table.lookup_eraseAll] at hloc
    split at hloc
    · cases hloc
    · rename_i hout
      obtain ⟨m, hm, hk, hhash, hheight, t, ht, hid⟩ := h.found txid loc hloc
      rcases List.mem_cons.mp hm with rfl | hm
      · exact absurd (hid ▸ List.mem_map_of_mem (List.mem_of_getElem? ht)) hout
      · exact ⟨m, hm, (hkeeps m hm).mpr hk, hhash, hheight, t, ht, hid⟩
  · rw [show (s', n :: rest).1.addressHistory = _ from hrows, Table.lookup_keepIf,
      Option.filter_eq_some_iff] at hrow
    obtain ⟨hold, hout⟩ := hrow
    have hout : txid ∉ b.body.txids := by simpa using hout
    refine (recorded_below hledger.ids hcov hkeeps).mpr ?_
    obtain ⟨m, hm, hk, t, ht, hid, hrest⟩ := h.recorded payload txid row hold
    rcases List.mem_cons.mp hm with rfl | hm
    · exact absurd (hid ▸ List.mem_map_of_mem ht) hout
    · exact ⟨m, hm, hk, t, ht, hid, hrest⟩
  · obtain ⟨m, hm, -, hmem⟩ := Located.mem hloc
    have hout := history_apart hledger.ids hm hmem
    rw [show (s', n :: rest).1.txLocation = _ from hlocs, Table.lookup_eraseAll, if_neg hout]
    obtain ⟨m, hm, hk, hrest⟩ := hloc
    exact h.allFound hw txid loc ⟨m, List.mem_cons_of_mem b hm, (hkeeps m hm).mp hk, hrest⟩
  · obtain ⟨m, hm, -, hmem⟩ := Recorded.mem hrow
    have hout := history_apart hledger.ids hm hmem
    rw [show (s', n :: rest).1.addressHistory = _ from hrows, Table.lookup_keepIf,
      Option.filter_eq_some_iff]
    refine ⟨?_, by simpa using hout⟩
    obtain ⟨m, hm, hrest⟩ := (recorded_below hledger.ids hcov hkeeps).mp hrow
    exact h.allRecorded hw payload txid row ⟨m, List.mem_cons_of_mem b hm, hrest⟩

/-- What connecting a block writes into the indexes. -/
theorem recordBlock_indexes [ScanOrder Hash] (s : Storage) (block : Block)
    (e : BlockIndexEntry) (st : ConnectState) (data : Bytes) :
    (recordBlock s block e st data).txLocation =
        Table.insertAll (block.locations e.height) s.txLocation ∧
      (recordBlock s block e st data).addressHistory = Table.insertAll
        (block.transactions.flatMap (Transaction.historyRows e.height st.spent))
        s.addressHistory := by
  obtain ⟨undo, hprune, -⟩ := Storage.pruneUndoAtHeight_frame
    ((indexBlock { s.writeOverlay st.overlay with undo := s.undo.insert e.hash data } block
      e.height st.spent).setInChain e.hash true) ((e.height : Int) - (UNDO_KEEP_BLOCKS : Int))
  unfold recordBlock
  rw [hprune, indexBlock_eq]
  exact ⟨rfl, rfl⟩

/-- The ids of a block that continues a history of distinct ids are new to its coins. -/
theorem LedgerInv.freshOver {params : ChainParams} (h : LedgerInv (s, n :: rest))
    (hids : ((history (b :: n :: rest)).map Posting.id).Nodup) (hsane : b.body.Sane params) :
    b.body.FreshOver s.utxo := by
  refine ⟨fun o ho => ?_, hsane.distinct⟩
  rw [show s.utxo = _ from h.utxo] at ho
  have howner := owner_mem history_owned ho
  rw [history_ids, List.mem_flatMap] at howner
  obtain ⟨m, hm, hmem⟩ := howner
  exact history_apart hids hm (List.mem_reverse.mp hmem)

/-- What a block that passes notes as spent are the coins that its transactions take. -/
theorem checkBlock_spentCoins {params : ChainParams} (h : LedgerInv (s, n :: rest))
    (hids : ((history (b :: n :: rest)).map Posting.id).Nodup) (hsane : b.body.Sane params)
    (hb : s.tree b.body.hash = some b) {st : ConnectState}
    (hcheck : checkBlock params s.utxo b.body (s.entryAt b) = .ok st) {t : Transaction}
    (ht : t ∈ b.body.transactions) :
    t.spentCoins st.spent = t.taken (coinsOf (b :: n :: rest)).lookup := by
  have hfresh := h.freshOver hids hsane
  have hrule := hfresh.checkBlock_iff.mp ⟨st, hcheck⟩
  have hspent := hfresh.spent_eq hcheck
  rw [Storage.entryAt_height hb] at hrule hspent
  have hsub : Table.Sub (b.body.offered b.height s.utxo) (coinsOf (b :: n :: rest)) := by
    rw [coinsOf, history, createdBy_append, Block.postings_creates, Block.offered]
    exact Table.Sub.insertAll (by rw [show s.utxo = _ from h.utxo]; exact tableAfter_sub _) _
  refine Transaction.spentCoins_eq (fun o ho => ?_) fun hc txin htxin => ?_
  · have hmem : o ∈ b.body.spends := List.mem_flatMap.mpr ⟨t, ht, ho⟩
    rw [hspent, if_pos hmem]
    obtain ⟨hnot, hprev⟩ := Transaction.mem_spends.mp ho
    obtain ⟨txin, htxin, rfl⟩ := List.mem_map.mp hprev
    obtain ⟨index, hindex⟩ := List.mem_iff_getElem?.mp htxin
    obtain ⟨coin, hinput⟩ := (hrule.spending t ht hnot).inputs (txin, index)
      (List.mem_zipIdx_iff_getElem?.mpr hindex)
    rw [hinput.unspent, hsub _ _ hinput.unspent]
  · -- nothing in the block spends the null outpoint of the coinbase
    rw [hspent, if_neg]
    intro hmem
    obtain ⟨u, hu, ho⟩ := List.mem_flatMap.mp hmem
    obtain ⟨hnot, ho⟩ := Transaction.mem_spends.mp ho
    have hproper := (hsane.clean u hu).proper hnot _ ho
    have hnull : txin.prevout.isNull = true := by
      unfold Transaction.isCoinbase at hc
      split at hc
      · rename_i txin' heq
        rw [heq, List.mem_singleton] at htxin
        rw [htxin, hc]
      · cases hc
    rw [hnull] at hproper
    cases hproper

theorem Block.mem_locations {height : Nat} {block : Block} {txid : Hash} {loc : TxLocation} :
    (txid, loc) ∈ block.locations height ↔ loc.blockHash = block.hash ∧ loc.height = height ∧
      ∃ t, block.transactions[loc.position]? = some t ∧ t.txid = txid := by
  rw [Block.locations, List.mem_map]
  constructor
  · rintro ⟨⟨t, i⟩, hmem, heq⟩
    obtain ⟨rfl, rfl⟩ := Prod.mk.inj heq
    exact ⟨rfl, rfl, t, List.mem_zipIdx_iff_getElem?.mp hmem, rfl⟩
  · rintro ⟨hhash, hheight, t, ht, rfl⟩
    refine ⟨(t, loc.position), List.mem_zipIdx_iff_getElem?.mpr ht, ?_⟩
    cases loc
    cases hhash
    cases hheight
    rfl

/-- A block that can be loaded keeps its body. -/
theorem Storage.keeps_of_load {block : Block} (h : s.getBlock b.body.hash = .ok (some block)) :
    s.Keeps b := by
  obtain ⟨row, hrow, hpruned, -, -⟩ := Storage.getBlock_eq_ok.mp h
  rw [Keeps, prunedAt, hrow, Option.map_some, hpruned]

/-- Connecting a block adds its rows and leaves the others. -/
theorem Indexes.connect [ScanOrder Hash] {params : ChainParams} (h : Indexes whole (s, n :: rest))
    (hledger : LedgerInv (s, n :: rest)) (hledger' : LedgerInv (s', b :: n :: rest))
    (hsane : b.body.Sane params) (hb : s.tree b.body.hash = some b)
    (hload : s.getBlock b.body.hash = .ok (some b.body))
    (hcon : connectBlock params s b.body (s.entryAt b) = .ok s') :
    Indexes whole (s', b :: n :: rest) := by
  obtain ⟨st, data, hcheck, -, hs'⟩ := connectBlock_eq_ok.mp hcon
  obtain ⟨hlocs, hrows⟩ := recordBlock_indexes s b.body (s.entryAt b) st data
  rw [← hs', Storage.entryAt_height hb] at hlocs hrows
  have hconnected := recordBlock_connected s b.body (s.entryAt b) st data
  rw [← hs'] at hconnected
  have hpruned : s'.prunedAt = s.prunedAt := Storage.prunedAt_modify hconnected.blocks fun _ => rfl
  have hkeeps : ∀ m, s'.Keeps m ↔ s.Keeps m := Storage.keeps_congr hpruned
  have hkept : s'.Keeps b := (hkeeps b).mpr (Storage.keeps_of_load hload)
  have hids := hledger'.ids
  have htaken : ∀ t ∈ b.body.transactions,
      t.spentCoins st.spent = t.taken (coinsOf (b :: n :: rest)).lookup :=
    fun t ht => checkBlock_spentCoins hledger hids hsane hb hcheck ht
  have hfound : ∀ txid loc, s'.txLocation.lookup txid = some loc ↔
      (txid, loc) ∈ b.body.locations b.height ∨
        (txid ∉ b.body.txids ∧ s.txLocation.lookup txid = some loc) := by
    intro txid loc
    rw [hlocs, Table.lookup_insertAll_eq_some, Block.locations_fst]
    rw [Block.locations_fst]
    exact hsane.distinct
  have hrecorded : ∀ payload txid row, s'.addressHistory.lookup (payload, txid) = some row ↔
      (∃ t ∈ b.body.transactions, t.txid = txid ∧
        t.Touches (coinsOf (b :: n :: rest)).lookup payload ∧
        row = t.row (coinsOf (b :: n :: rest)).lookup b.height payload) ∨
      (txid ∉ b.body.txids ∧ s.addressHistory.lookup (payload, txid) = some row) := by
    intro payload txid row
    have hmem : ((payload, txid), row) ∈
        b.body.transactions.flatMap (Transaction.historyRows b.height st.spent) ↔
        ∃ t ∈ b.body.transactions, t.txid = txid ∧
          t.Touches (coinsOf (b :: n :: rest)).lookup payload ∧
          row = t.row (coinsOf (b :: n :: rest)).lookup b.height payload := by
      rw [List.mem_flatMap]
      exact exists_congr fun t => and_congr_right fun ht =>
        Transaction.mem_historyRows (htaken t ht)
    rw [hrows, Table.lookup_insertAll_eq_some
      (Block.historyRows_nodup hsane.distinct b.height st.spent), hmem]
    refine or_congr_right ⟨?_, ?_⟩
    · rintro ⟨hnot, hold⟩
      -- a row of an id of the block would already have been right for a block below
      refine ⟨fun hin => ?_, hold⟩
      obtain ⟨m, hm, -, hbelow⟩ := Recorded.mem (h.recorded payload txid row hold)
      exact history_apart hids hm hbelow hin
    · rintro ⟨hout, hold⟩
      exact ⟨fun hkey => hout (Block.historyRows_txid hkey), hold⟩
  have hbelow : ∀ {payload txid row},
      Recorded s (n :: rest) (coinsOf (n :: rest)).lookup payload txid row ↔
        Recorded s' (n :: rest) (coinsOf (b :: n :: rest)).lookup payload txid row :=
    recorded_below hids hledger.covered fun m _ => (hkeeps m).symm
  refine ⟨fun txid loc hloc => ?_, fun payload txid row hrow => ?_, fun hw txid loc hloc => ?_,
    fun hw payload txid row hrow => ?_⟩
  · rcases (hfound txid loc).mp hloc with hnew | ⟨-, hold⟩
    · obtain ⟨hhash, hheight, ht⟩ := Block.mem_locations.mp hnew
      exact ⟨b, List.mem_cons_self, hkept, hhash, hheight, ht⟩
    · obtain ⟨m, hm, hk, hrest⟩ := h.found txid loc hold
      exact ⟨m, List.mem_cons_of_mem b hm, (hkeeps m).mpr hk, hrest⟩
  · rcases (hrecorded payload txid row).mp hrow with ⟨t, ht, hrest⟩ | ⟨-, hold⟩
    · exact ⟨b, List.mem_cons_self, hkept, t, ht, hrest⟩
    · obtain ⟨m, hm, hrest⟩ := hbelow.mp (h.recorded payload txid row hold)
      exact ⟨m, List.mem_cons_of_mem b hm, hrest⟩
  · refine (hfound txid loc).mpr ?_
    obtain ⟨m, hm, hk, hhash, hheight, ht⟩ := hloc
    rcases List.mem_cons.mp hm with rfl | hm
    · exact .inl (Block.mem_locations.mpr ⟨hhash, hheight, ht⟩)
    · have hold : Located s (n :: rest) txid loc :=
        ⟨m, hm, (hkeeps m).mp hk, hhash, hheight, ht⟩
      obtain ⟨m', hm', -, hmem⟩ := hold.mem
      exact .inr ⟨history_apart hids hm' hmem, h.allFound hw txid loc hold⟩
  · refine (hrecorded payload txid row).mpr ?_
    obtain ⟨m, hm, hk, t, ht, hrest⟩ := hrow
    rcases List.mem_cons.mp hm with rfl | hm
    · exact .inl ⟨t, ht, hrest⟩
    · have hold := hbelow.mpr ⟨m, hm, hk, t, ht, hrest⟩
      obtain ⟨m', hm', -, hmem⟩ := hold.mem
      exact .inr ⟨history_apart hids hm' hmem, h.allRecorded hw payload txid row hold⟩

/-- Storing a block off the active chain leaves the indexes. -/
theorem Indexes.store {bs : List TreeNode} {m : TreeNode} (h : Indexes whole (s, bs))
    (hstored : ∀ k ∈ bs, s.tree k.body.hash = some k) (hnew : s.tree m.body.hash = none) :
    Indexes whole (s.insertNode m, bs) := by
  have hkeeps : ∀ k ∈ bs, (s.insertNode m).Keeps k ↔ s.Keeps k := by
    intro k hk
    have hne : k.body.hash ≠ m.body.hash := by
      intro heq
      have hkept := hstored k hk
      rw [heq, hnew] at hkept
      cases hkept
    unfold Storage.Keeps Storage.prunedAt Storage.insertNode
    rw [Table.lookup_insert_if, if_neg hne]
  have hfound : ∀ {txid loc}, Located (s.insertNode m) bs txid loc ↔ Located s bs txid loc :=
    exists_congr fun k => and_congr_right fun hk => and_congr_left' (hkeeps k hk)
  have hrecorded : ∀ {payload txid row}, Recorded (s.insertNode m) bs (coinsOf bs).lookup
      payload txid row ↔ Recorded s bs (coinsOf bs).lookup payload txid row :=
    exists_congr fun k => and_congr_right fun hk => and_congr_left' (hkeeps k hk)
  exact ⟨fun txid loc hl => hfound.mpr (h.found txid loc hl),
    fun p txid row hr => hrecorded.mpr (h.recorded p txid row hr),
    fun hw txid loc hl => h.allFound hw txid loc (hfound.mp hl),
    fun hw p txid row hr => h.allRecorded hw p txid row (hrecorded.mp hr)⟩

/-! ## Every write -/

/-- Every active block above genesis parses. -/
def Loadable (bs : List TreeNode) : Prop :=
  ∀ n ∈ bs, n.height = 0 ∨ Block.deserialize n.body.serialize = .ok n.body

/-- The ledger and the indexes, given that ids do not collide. -/
structure Filed (whole : Prop) (a : Storage × List TreeNode) : Prop where
  ledger : a.1.NoTxidCollision → LedgerInv a
  indexes : a.1.NoTxidCollision → Indexes whole a
  loadable : Loadable a.2

theorem NoTxidCollision.of_tree (htree : ∀ k m, s.tree k = some m → s'.tree k = some m)
    (h : s'.NoTxidCollision) : s.NoTxidCollision :=
  fun k k' m m' hm hm' => h k k' m m' (htree k m hm) (htree k' m' hm')

/-- Every write keeps the ledger and the indexes. -/
theorem filed_carried [ScanOrder Hash] (params : ChainParams) (whole : Prop) :
    Carried params (Filed whole) where
  store {s bs m} hbase hs hstep hnew := by
    have hcol : (s.insertNode m).NoTxidCollision → s.NoTxidCollision :=
      NoTxidCollision.of_tree fun k m hm => hstep.tree_mono hm
    exact ⟨hstep.ledger hbase hs.ledger, fun hc =>
      (hs.indexes (hcol hc)).store hbase.active.branch.stored hnew, hs.loadable⟩
  -- headers and the pointer to the tip are no part of what is filed
  header headers hs := by
    refine ⟨fun hc => ?_, fun hc => ?_, hs.loadable⟩
    · have hold := hs.ledger hc
      exact ⟨hold.utxo, hold.ids, hold.covered, hold.undo⟩
    · have hold := hs.indexes hc
      exact ⟨hold.found, hold.recorded, hold.allFound, hold.allRecorded⟩
  point h hs := by
    refine ⟨fun hc => ?_, fun hc => ?_, hs.loadable⟩
    · have hold := hs.ledger hc
      exact ⟨hold.utxo, hold.ids, hold.covered, hold.undo⟩
    · have hold := hs.indexes hc
      exact ⟨hold.found, hold.recorded, hold.allFound, hold.allRecorded⟩
  disconnect {s s' b n rest} hbase hs hdis := by
    obtain ⟨-, hstep⟩ := disconnectBlock_step hbase hdis
    have hcol : s'.NoTxidCollision → s.NoTxidCollision :=
      NoTxidCollision.of_tree fun k m hm => hstep.tree_mono hm
    exact ⟨hstep.ledger hbase hs.ledger, fun hc =>
      (hs.indexes (hcol hc)).disconnect (hs.ledger (hcol hc)) hdis,
      fun m hm => hs.loadable m (List.mem_cons_of_mem b hm)⟩
  connect {s s' b n rest} hbase hs hb hprev hheight hload hcon := by
    obtain ⟨-, hstep⟩ : _ ∧ ChainStep params (s, n :: rest) (s', b :: n :: rest) :=
      connectBlock_step hb hprev hheight hload hcon
    have hcol : s'.NoTxidCollision → s.NoTxidCollision :=
      NoTxidCollision.of_tree fun k m hm => hstep.tree_mono hm
    refine ⟨hstep.ledger hbase hs.ledger, fun hc => (hs.indexes (hcol hc)).connect
      (hs.ledger (hcol hc)) (hstep.ledger hbase hs.ledger hc) (hbase.tree.admitted hb).sane hb
      hload hcon, fun m hm => ?_⟩
    rcases List.mem_cons.mp hm with rfl | hm
    · obtain ⟨row, -, -, hparse, hbody⟩ := Storage.getBlock_eq_ok.mp hload
      rw [← hbody] at hparse
      exact .inr hparse
    · exact hs.loadable m hm

/-! ## Pruning -/

/-- The ids of the block at a hash, if it parses. -/
def Storage.bodyIds (s : Storage) (h : Hash) : List Hash :=
  match s.blocks.lookup h with
  | none => []
  | some row =>
      match Block.deserialize row.raw with
      | .error _ => []
      | .ok block => block.txids

/-- A round of pruning leaves the storage alone, or drops a body that parses. -/
theorem pruneBlock_cases (acc : Storage × Nat × Nat) (h : Hash) :
    ((Storage.pruneBlock acc h).1 = acc.1 ∧ acc.1.bodyIds h = [] ∧ ∀ row block,
      acc.1.blocks.lookup h = some row → Block.deserialize row.raw ≠ .ok block) ∨
    ((Storage.pruneBlock acc h).1.txLocation =
        Table.eraseAll (acc.1.bodyIds h) acc.1.txLocation ∧
      (Storage.pruneBlock acc h).1.addressHistory =
        acc.1.addressHistory.keepIf (fun key _ => decide (key.2 ∉ acc.1.bodyIds h)) ∧
      (Storage.pruneBlock acc h).1.prunedAt h = some true) := by
  cases hrow : acc.1.blocks.lookup h with
  | none =>
    refine .inl ⟨?_, ?_, fun row block heq => by cases heq⟩
    · unfold Storage.pruneBlock
      rw [hrow]
    · rw [Storage.bodyIds, hrow]
  | some row =>
    cases hparse : Block.deserialize row.raw with
    | error e =>
      refine .inl ⟨?_, ?_, fun row' block heq hp => ?_⟩
      · simp only [Storage.pruneBlock, hrow, hparse]
      · rw [Storage.bodyIds, hrow]
        dsimp only
        rw [hparse]
      · rw [← Option.some.inj heq, hparse] at hp
        cases hp
    | ok block =>
      have hids : acc.1.bodyIds h = block.txids := by
        rw [Storage.bodyIds, hrow]
        dsimp only
        rw [hparse]
      rw [hids]
      refine .inr ⟨?_, ?_, ?_⟩
      · simp only [Storage.pruneBlock, hrow, hparse]
        rfl
      · simp only [Storage.pruneBlock, hrow, hparse]
        rfl
      · simp only [Storage.pruneBlock, hrow, hparse, Storage.prunedAt, Finmap.lookup_insert,
          Option.map_some]

/-- The bodies at the hashes were dropped, with the rows of their transactions. -/
structure Dropped (s : Storage) (hs : List Hash) (s' : Storage) : Prop where
  txLocation : s'.txLocation = Table.eraseAll (hs.flatMap s.bodyIds) s.txLocation
  addressHistory : s'.addressHistory =
    s.addressHistory.keepIf fun key _ => decide (key.2 ∉ hs.flatMap s.bodyIds)
  lost : ∀ h ∈ hs, ∀ row block, s.blocks.lookup h = some row →
    Block.deserialize row.raw = .ok block → s'.prunedAt h = some true
  others : ∀ h, h ∉ hs → s'.blocks.lookup h = s.blocks.lookup h
  kept : ∀ h, s'.prunedAt h = some false → s.prunedAt h = some false

theorem pruneBlocks_dropped (hs : List Hash) (hnodup : hs.Nodup) (acc : Storage × Nat × Nat) :
    Dropped acc.1 hs (hs.foldl Storage.pruneBlock acc).1 := by
  induction hs generalizing acc with
  | nil =>
    refine ⟨rfl, ?_, fun h hh => absurd hh List.not_mem_nil, fun _ _ => rfl, fun _ h => h⟩
    exact (Table.keepIf_eq_self fun key _ _ => by simp).symm
  | cons k hs ih =>
    obtain ⟨hk, hnodup⟩ := List.nodup_cons.mp hnodup
    have hrest := ih hnodup (Storage.pruneBlock acc k)
    have hsame : ∀ h, h ≠ k →
        (Storage.pruneBlock acc k).1.blocks.lookup h = acc.1.blocks.lookup h := by
      intro h hne
      rcases (Storage.pruneBlock_pruned acc k).rows h with heq | ⟨heq, -⟩
      · exact heq
      · exact absurd heq hne
    have hids : hs.flatMap (Storage.pruneBlock acc k).1.bodyIds = hs.flatMap acc.1.bodyIds := by
      refine List.flatMap_congr fun h hh => ?_
      have hne : h ≠ k := fun heq => hk (heq ▸ hh)
      rw [Storage.bodyIds, Storage.bodyIds, hsame h hne]
    have hkept : ∀ h, (Storage.pruneBlock acc k).1.prunedAt h = some false →
        acc.1.prunedAt h = some false := by
      intro h hh
      unfold Storage.prunedAt at hh ⊢
      rcases (Storage.pruneBlock_pruned acc k).rows h with heq | ⟨-, row, -, heq⟩
      · rwa [heq] at hh
      · rw [heq] at hh
        cases Option.some.inj hh
    -- the first block alone, whether it parses or not
    have hhead : (Storage.pruneBlock acc k).1.txLocation =
          Table.eraseAll (acc.1.bodyIds k) acc.1.txLocation ∧
        (Storage.pruneBlock acc k).1.addressHistory =
          acc.1.addressHistory.keepIf (fun key _ => decide (key.2 ∉ acc.1.bodyIds k)) := by
      rcases pruneBlock_cases acc k with ⟨heq, hnone, -⟩ | ⟨hlocs, hrows, -⟩
      · rw [heq, hnone]
        exact ⟨rfl, (Table.keepIf_eq_self fun key _ _ => by simp).symm⟩
      · exact ⟨hlocs, hrows⟩
    refine ⟨?_, ?_, fun h hh row block hrow hparse => ?_, fun h hh => ?_,
      fun h hh => hkept h (hrest.kept h hh)⟩
    · rw [List.foldl_cons, hrest.txLocation, hhead.1, hids, List.flatMap_cons,
        Table.eraseAll_append]
    · rw [List.foldl_cons, hrest.addressHistory, hhead.2, hids, List.flatMap_cons,
        Table.keepIf_keepIf]
      congr 1
      funext key row
      rw [← Bool.decide_and]
      exact decide_eq_decide.mpr (by rw [List.mem_append, not_or])
    · rcases List.mem_cons.mp hh with rfl | hh
      · rcases pruneBlock_cases acc h with ⟨-, -, hfail⟩ | ⟨-, -, hmark⟩
        · exact absurd hparse (hfail row block hrow)
        · unfold Storage.prunedAt at hmark ⊢
          rw [List.foldl_cons, hrest.others h hk]
          exact hmark
      · refine hrest.lost h hh row block ?_ hparse
        rw [hsame h fun heq => hk (heq ▸ hh), hrow]
    · rw [List.mem_cons, not_or] at hh
      rw [List.foldl_cons, hrest.others h hh.2, hsame h hh.1]

/-- No side branch loses a body at or below the height that shares a transaction with an active
block that keeps its own. -/
def Storage.PrunesApart (s : Storage) (height : Nat) : Prop :=
  ∀ h row, s.blocks.lookup h = some row → row.inChain = false → row.pruned = false →
    1 ≤ row.height → row.height ≤ height →
    ∀ h' row', s.blocks.lookup h' = some row' → row'.inChain = true → row'.pruned = false →
      (row'.height = 0 ∨ height < row'.height) → ∀ txid ∈ row.body.txids, txid ∉ row'.body.txids

omit [Crypto] in
theorem Storage.mem_prunableBlocks [ScanOrder Hash] {height : Nat} {h : Hash} :
    h ∈ s.prunableBlocks height ↔ ∃ row, s.blocks.lookup h = some row ∧ row.pruned = false ∧
      1 ≤ row.height ∧ row.height ≤ height := by
  unfold prunableBlocks
  rw [List.mem_map]
  constructor
  · rintro ⟨⟨k, row⟩, hmem, rfl⟩
    obtain ⟨hrow, hbounds⟩ := List.mem_filter.mp ((List.mem_insertionSort _).mp hmem)
    simp only [Bool.and_eq_true, decide_eq_true_eq, Bool.not_eq_true'] at hbounds
    exact ⟨row, (mem_scan s.blocks k row).mp hrow, hbounds⟩
  · rintro ⟨row, hrow, hpruned, hbounds⟩
    refine ⟨(h, row), (List.mem_insertionSort _).mpr (List.mem_filter.mpr
      ⟨(mem_scan s.blocks h row).mpr hrow, ?_⟩), rfl⟩
    simp only [Bool.and_eq_true, decide_eq_true_eq, Bool.not_eq_true']
    exact ⟨hpruned, hbounds⟩

theorem pruneTo_dropped [ScanOrder Hash] (s : Storage) (height : Nat) :
    Dropped s (s.prunableBlocks height) (s.pruneTo height).1 := by
  have hnodup : (s.prunableBlocks height).Nodup := by
    have hsorted : ((s.blockRows.filter fun p => !p.2.pruned &&
        decide (1 ≤ p.2.height ∧ p.2.height ≤ height)).map Prod.fst).Nodup :=
      (nodup_scan s.blocks).sublist (List.filter_sublist.map _)
    exact ((List.perm_insertionSort _ _).map Prod.fst).nodup_iff.mpr hsorted
  have hmain := pruneBlocks_dropped (s.prunableBlocks height) hnodup (s, 0, 0)
  unfold Storage.pruneTo
  dsimp only
  split
  · exact hmain
  · exact ⟨hmain.txLocation, hmain.addressHistory, hmain.lost, hmain.others, hmain.kept⟩

/-- Pruning keeps what the indexes hold right, and whole if it takes side branches apart. -/
theorem Indexes.pruneTo [ScanOrder Hash] {params : ChainParams} {bs : List TreeNode}
    (h : Indexes whole (s, bs)) (hbase : Based params (s, bs)) (hledger : LedgerInv (s, bs))
    (hload : Loadable bs) {height : Nat} (hapart : whole → s.PrunesApart height) :
    Indexes whole ((s.pruneTo height).1, bs) := by
  have hdrop := pruneTo_dropped s height
  -- the row of an active node, and its ids when it is dropped
  have hrowOf : ∀ m ∈ bs, ∃ row, s.blocks.lookup m.body.hash = some row ∧ row.known = m := by
    intro m hm
    exact Storage.tree_eq_some.mp (hbase.active.branch.stored m hm)
  have hbody : ∀ {k : Hash} {txid : Hash}, txid ∈ s.bodyIds k → k ∈ s.prunableBlocks height →
      ∃ row, s.blocks.lookup k = some row ∧ row.pruned = false ∧ 1 ≤ row.height ∧
        row.height ≤ height ∧ Block.deserialize row.raw = .ok row.body ∧ txid ∈ row.body.txids := by
    intro k txid hmem hk
    obtain ⟨row, hrow, hpruned, hbounds⟩ := Storage.mem_prunableBlocks.mp hk
    rw [Storage.bodyIds, hrow] at hmem
    dsimp only at hmem
    have hraw : row.raw = row.body.serialize := by rw [BlockRow.raw, if_neg (by simp [hpruned])]
    cases hparse : Block.deserialize row.raw with
    | error e =>
      rw [hparse] at hmem
      cases hmem
    | ok block =>
      rw [hparse] at hmem
      have heq : block = row.body := Block.deserialize_serialize (hraw ▸ hparse)
      exact ⟨row, hrow, hpruned, hbounds.1, hbounds.2, heq ▸ hparse, heq ▸ hmem⟩
  -- an active node whose ids are all kept keeps its body
  have hkeepsOf : ∀ m ∈ bs, s.Keeps m → ∀ txid ∈ m.body.txids,
      txid ∉ (s.prunableBlocks height).flatMap s.bodyIds → (s.pruneTo height).1.Keeps m := by
    intro m hm hk txid hmem hout
    unfold Storage.Keeps at hk ⊢
    obtain ⟨row, hrow, rfl⟩ := hrowOf m hm
    by_cases hin : row.known.body.hash ∈ s.prunableBlocks height
    · exfalso
      obtain ⟨row', hrow', hpruned, hbounds⟩ := Storage.mem_prunableBlocks.mp hin
      rw [hrow] at hrow'
      obtain rfl := Option.some.inj hrow'
      have hparse : Block.deserialize row.body.serialize = .ok row.body := by
        rcases hload _ hm with hzero | hparse
        · have hzero' : row.height = 0 := hzero
          omega
        · exact hparse
      refine hout (List.mem_flatMap.mpr ⟨_, hin, ?_⟩)
      rw [Storage.bodyIds, hrow]
      dsimp only
      rw [BlockRow.raw, if_neg (by simp [hpruned]), hparse]
      exact hmem
    · unfold Storage.prunedAt at hk ⊢
      rw [hdrop.others _ hin]
      exact hk
  -- an active node that keeps its body keeps its ids, if side branches are taken apart
  have houtOf : whole → ∀ m ∈ bs, (s.pruneTo height).1.Keeps m → ∀ txid ∈ m.body.txids,
      txid ∉ (s.prunableBlocks height).flatMap s.bodyIds := by
    intro hw m hm hk txid hmem hin
    obtain ⟨row, hrow, rfl⟩ := hrowOf m hm
    obtain ⟨k, hkin, hmem'⟩ := List.mem_flatMap.mp hin
    obtain ⟨row', hrow', hpruned', hlow, hhigh, hparse', hmem'⟩ := hbody hmem' hkin
    have hmark : row.inChain = true := (hbase.active.marked hrow).mpr hm
    by_cases hmark' : row'.inChain = true
    · -- an active block with a transaction of the node is the node, which lost its body
      have hactive := (hbase.active.marked hrow').mp hmark'
      obtain ⟨t, ht, hid⟩ := List.mem_map.mp hmem
      obtain ⟨t', ht', hid'⟩ := List.mem_map.mp hmem'
      obtain ⟨i, hi⟩ := List.mem_iff_getElem?.mp ht
      obtain ⟨j, hj⟩ := List.mem_iff_getElem?.mp ht'
      have hsame := (position_unique hledger.ids hm hactive hi hj (hid.trans hid'.symm)).1
      have hkey := hbase.tree.keyed (Storage.tree_eq_some.mpr ⟨row', hrow', rfl⟩)
      rw [← hsame] at hkey
      have hlost := hdrop.lost k hkin row' row'.body hrow' hparse'
      rw [← hkey] at hlost
      unfold Storage.Keeps at hk
      rw [hk] at hlost
      cases hlost
    · have hkept : s.prunedAt row.known.body.hash = some false := hdrop.kept _ hk
      have hpruned : row.pruned = false := by
        rw [Storage.prunedAt, hrow] at hkept
        exact Option.some.inj hkept
      refine hapart hw k row' hrow' ((Bool.not_eq_true _).mp hmark') hpruned' hlow hhigh _ row hrow
        hmark hpruned ?_ txid hmem' hmem
      by_contra hbetween
      -- else it would have been dropped itself
      rw [not_or, Nat.not_lt] at hbetween
      have hparse : Block.deserialize row.body.serialize = .ok row.body :=
        (hload _ hm).resolve_left hbetween.1
      have hin : row.known.body.hash ∈ s.prunableBlocks height :=
        Storage.mem_prunableBlocks.mpr ⟨row, hrow, hpruned, by omega, hbetween.2⟩
      have hraw : row.raw = row.body.serialize := by rw [BlockRow.raw, if_neg (by simp [hpruned])]
      have hlost := hdrop.lost _ hin row row.body hrow (by rw [hraw]; exact hparse)
      unfold Storage.Keeps at hk
      rw [hk] at hlost
      cases hlost
  refine ⟨fun txid loc hloc => ?_, fun payload txid row hrow => ?_, fun hw txid loc hloc => ?_,
    fun hw payload txid row hrow => ?_⟩
  · rw [show ((s.pruneTo height).1, bs).1.txLocation = _ from hdrop.txLocation,
      Table.lookup_eraseAll] at hloc
    split at hloc
    · cases hloc
    · rename_i hout
      obtain ⟨m, hm, hk, hhash, hheight, t, ht, hid⟩ := h.found txid loc hloc
      have hmem : txid ∈ m.body.txids := hid ▸ List.mem_map_of_mem (List.mem_of_getElem? ht)
      exact ⟨m, hm, hkeepsOf m hm hk txid hmem hout, hhash, hheight, t, ht, hid⟩
  · rw [show ((s.pruneTo height).1, bs).1.addressHistory = _ from hdrop.addressHistory,
      Table.lookup_keepIf, Option.filter_eq_some_iff] at hrow
    obtain ⟨hold, hout⟩ := hrow
    obtain ⟨m, hm, hk, t, ht, hid, hrest⟩ := h.recorded payload txid row hold
    have hmem : txid ∈ m.body.txids := hid ▸ List.mem_map_of_mem ht
    exact ⟨m, hm, hkeepsOf m hm hk txid hmem (of_decide_eq_true hout), t, ht, hid, hrest⟩
  · obtain ⟨m, hm, hk, hrest⟩ := hloc
    obtain ⟨hhash, hheight, t, ht, hid⟩ := hrest
    have hmem : txid ∈ m.body.txids := hid ▸ List.mem_map_of_mem (List.mem_of_getElem? ht)
    have hout := houtOf hw m hm hk txid hmem
    rw [show ((s.pruneTo height).1, bs).1.txLocation = _ from hdrop.txLocation,
      Table.lookup_eraseAll, if_neg hout]
    exact h.allFound hw txid loc ⟨m, hm, hdrop.kept _ hk, hhash, hheight, t, ht, hid⟩
  · obtain ⟨m, hm, hk, t, ht, hid, hrest⟩ := hrow
    have hmem : txid ∈ m.body.txids := hid ▸ List.mem_map_of_mem ht
    have hout := houtOf hw m hm hk txid hmem
    rw [show ((s.pruneTo height).1, bs).1.addressHistory = _ from hdrop.addressHistory,
      Table.lookup_keepIf, Option.filter_eq_some_iff]
    exact ⟨h.allRecorded hw payload txid row ⟨m, hm, hdrop.kept _ hk, t, ht, hid, hrest⟩,
      decide_eq_true hout⟩

/-! ## Runs -/

/-- The indexes of a new chain are those of genesis. -/
theorem Blockchain.create_indexes {params : ChainParams} {c : Blockchain} {b : Block}
    (h : Blockchain.create params = .ok c) (hb : params.genesisBlock = .ok b) :
    c.storage.txLocation = Table.insertAll (b.locations 0) ∅ ∧
      c.storage.addressHistory =
        Table.insertAll (b.transactions.flatMap (Transaction.historyRows 0 ∅)) ∅ := by
  obtain ⟨b', hb', h₁⟩ := bind_eq_ok.mp h
  obtain rfl := Except.ok.inj (hb'.symm.trans hb)
  obtain ⟨_, -, h₂⟩ := bind_eq_ok.mp h₁
  obtain ⟨work, -, h₃⟩ := bind_eq_ok.mp h₂
  obtain ⟨⟨s, entry⟩, hput, h₄⟩ := bind_eq_ok.mp h₃
  obtain ⟨-, hstored⟩ := raiseIf_bind_eq_ok.mp hput
  obtain ⟨rfl, rfl⟩ := Prod.mk.inj (pure_eq_ok.mp hstored)
  obtain ⟨s', hundo, h₅⟩ := bind_eq_ok.mp h₄
  obtain ⟨data, -, hwrite⟩ := bind_eq_ok.mp hundo
  rw [← pure_eq_ok.mp h₅, ← pure_eq_ok.mp hwrite, applyBlockState, indexBlock_eq]
  exact ⟨rfl, rfl⟩

/-- The indexes of a new chain are whole. -/
theorem Blockchain.create_filed {params : ChainParams} {c : Blockchain} {g : TreeNode}
    (h : Blockchain.create params = .ok c) (hg : Genesis params c.storage g) :
    Filed True (c.storage, [g]) := by
  have hzero : g.height = 0 := hg.node.2.1
  have hids : g.body.txids.Nodup := hg.admitted.sane.distinct
  obtain ⟨hlocs, hrows⟩ := create_indexes h hg.node.1
  have hkeeps : c.storage.Keeps g := by
    rw [Storage.Keeps, Storage.prunedAt, hg.blocks, Finmap.lookup_insert]
    rfl
  -- the coinbase of genesis takes no coin
  have htaken : ∀ t ∈ g.body.transactions, t.spentCoins ∅ = t.taken (coinsOf [g]).lookup := by
    intro t ht
    obtain ⟨coinbase, hcoinbase, hts, -⟩ := ChainParams.genesisBlock_eq_ok hg.node.1
    rw [hts, List.mem_singleton] at ht
    obtain ⟨hc, -⟩ := raiseIf_bind_eq_ok.mp (genesisCoinbase_height (ht ▸ hcoinbase))
    rw [Bool.not_eq_false] at hc
    refine Transaction.spentCoins_eq (fun o ho => ?_) fun _ txin _ => Finmap.lookup_empty _
    rw [Transaction.spends, if_pos hc] at ho
    cases ho
  have hfound : ∀ txid loc, c.storage.txLocation.lookup txid = some loc ↔
      Located c.storage [g] txid loc := by
    intro txid loc
    rw [hlocs, Table.lookup_insertAll_eq_some (by rwa [Block.locations_fst]),
      Block.mem_locations, Finmap.lookup_empty]
    constructor
    · rintro (⟨hhash, hheight, ht⟩ | ⟨-, hnone⟩)
      · exact ⟨g, List.mem_singleton_self g, hkeeps, hhash, hheight.trans hzero.symm, ht⟩
      · cases hnone
    · rintro ⟨m, hm, -, hhash, hheight, ht⟩
      obtain rfl := List.mem_singleton.mp hm
      exact .inl ⟨hhash, hheight.trans hzero, ht⟩
  have hrecorded : ∀ payload txid row, c.storage.addressHistory.lookup (payload, txid) = some row ↔
      Recorded c.storage [g] (coinsOf [g]).lookup payload txid row := by
    intro payload txid row
    rw [hrows, Table.lookup_insertAll_eq_some (Block.historyRows_nodup hids 0 ∅),
      List.mem_flatMap, Finmap.lookup_empty]
    constructor
    · rintro (⟨t, ht, hmem⟩ | ⟨-, hnone⟩)
      · refine ⟨g, List.mem_singleton_self g, hkeeps, t, ht, ?_⟩
        rw [hzero]
        exact (Transaction.mem_historyRows (htaken t ht)).mp hmem
      · cases hnone
    · rintro ⟨m, hm, -, t, ht, hrest⟩
      obtain rfl := List.mem_singleton.mp hm
      rw [hzero] at hrest
      exact .inl ⟨t, ht, (Transaction.mem_historyRows (htaken t ht)).mpr hrest⟩
  exact ⟨fun _ => hg.ledger, fun _ => ⟨fun txid loc => (hfound txid loc).mp,
    fun p txid row => (hrecorded p txid row).mp, fun _ txid loc => (hfound txid loc).mpr,
    fun _ p txid row => (hrecorded p txid row).mpr⟩,
    fun m hm => .inl (List.mem_singleton.mp hm ▸ hzero)⟩

variable [ScanOrder Hash] {params : ChainParams}

/-- What pruning drops apart from the active chain shares no transaction with the active blocks that
keep their bodies. -/
def Blockchain.PrunesApart (params : ChainParams) (c : Blockchain) (keepBlocks : Int) : Prop :=
  c.storage.PrunesApart
    ((c.tip.height : Int) - max (Blockchain.minPruneKeep params : Int) keepBlocks).toNat

/-- Every call keeps what the indexes hold right, and whole if pruning takes side branches apart. -/
theorem Call.run_filed {whole : Prop} {c c' : Blockchain} {op : Call} {bs : List TreeNode}
    (hs : Standing params c bs) (hc : Filed whole (c.storage, bs))
    (hapart : whole → ∀ keepBlocks, op = .prune keepBlocks → c.PrunesApart params keepBlocks)
    (h : op.run params c = some c') :
    ∃ bs', Standing params c' bs' ∧ Filed whole (c'.storage, bs') := by
  refine (filed_carried params whole).call hs hc (fun keepBlocks hop => ?_) h
  unfold Blockchain.prune
  dsimp only
  split
  · exact hc
  · generalize hbound : ((c.tip.height : Int) -
      max (Blockchain.minPruneKeep params : Int) keepBlocks).toNat = bound
    have hpruned := Storage.pruneTo_pruned c.storage bound
    have hcol : (c.storage.pruneTo bound).1.NoTxidCollision → c.storage.NoTxidCollision :=
      NoTxidCollision.of_tree fun k m hm => by rwa [hpruned.tree_eq]
    exact ⟨fun hc' => (hc.ledger (hcol hc')).prune hpruned,
      fun hc' => (hc.indexes (hcol hc')).pruneTo hs.based (hc.ledger (hcol hc')) hc.loadable
        fun hw => hbound ▸ hapart hw keepBlocks hop, hc.loadable⟩

/-- The chains that calls lead to when pruning always takes side branches apart. -/
inductive Tended (params : ChainParams) : Blockchain → Prop where
  | create {c : Blockchain} : Blockchain.create params = .ok c → Tended params c
  | call {c c' : Blockchain} (op : Call) : Tended params c →
      (∀ keepBlocks, op = .prune keepBlocks → c.PrunesApart params keepBlocks) →
      op.run params c = some c' → Tended params c'

/-- In every reachable chain the coins and the rows of the indexes are right. -/
theorem Reachable.filed {c : Blockchain} (h : Reachable params c) :
    ∃ bs, Standing params c bs ∧ Filed False (c.storage, bs) := by
  induction h with
  | create hc =>
    obtain ⟨g, hg, hs, -⟩ := Blockchain.create_standing hc
    have hwhole := Blockchain.create_filed hc hg
    exact ⟨[g], hs, hwhole.ledger, fun hcol => ⟨(hwhole.indexes hcol).found,
      (hwhole.indexes hcol).recorded, False.elim, False.elim⟩, hwhole.loadable⟩
  | call op _ hop ih =>
    obtain ⟨bs, hs, hc⟩ := ih
    exact Call.run_filed hs hc False.elim hop

/-- With pruning taking side branches apart the indexes are whole. -/
theorem Tended.filed {c : Blockchain} (h : Tended params c) :
    ∃ bs, Standing params c bs ∧ Filed True (c.storage, bs) := by
  induction h with
  | create hc =>
    obtain ⟨g, hg, hs, -⟩ := Blockchain.create_standing hc
    exact ⟨[g], hs, Blockchain.create_filed hc hg⟩
  | call op _ hapart hop ih =>
    obtain ⟨bs, hs, hc⟩ := ih
    exact Call.run_filed hs hc (fun _ => hapart) hop

theorem Tended.of_runCalls {c c' : Blockchain} {ops : List Call} (h : Tended params c)
    (hnever : ∀ op ∈ ops, ∀ keepBlocks, op ≠ .prune keepBlocks)
    (hops : runCalls params c ops = some c') : Tended params c' := by
  induction ops generalizing c with
  | nil =>
    obtain rfl := Option.some.inj hops
    exact h
  | cons op ops ih =>
    obtain ⟨c₁, hop, hrest⟩ := Option.bind_eq_some_iff.mp hops
    refine ih (.call op h (fun keepBlocks heq => ?_) hop)
      (fun op' hop' => hnever op' (List.mem_cons_of_mem op hop')) hrest
    exact absurd heq (hnever op List.mem_cons_self keepBlocks)

/-- The coins of the active nodes are those of the branch. -/
theorem Based.activeCoins_eq {s : Storage} {bs : List TreeNode} (h : Based params (s, bs)) :
    s.activeCoins = coinsOf bs := by
  have hfold : ∀ bs : List TreeNode,
      Table.insertAll (bs.reverse.flatMap fun n => n.body.coins n.height) ∅ = coinsOf bs := by
    intro bs
    induction bs with
    | nil => rfl
    | cons n bs ih =>
      rw [List.reverse_cons, List.flatMap_append, Table.insertAll_append, ih,
        List.flatMap_singleton, coinsOf, coinsOf, history, createdBy_append, Block.postings_creates]
  rw [Storage.activeCoins, h.activeNodes_eq, hfold]

/-- **The indexes are exact** along runs whose calls to prune take side branches apart. -/
theorem Tended.index_exact {c : Blockchain} (h : Tended params c)
    (hcol : c.storage.NoTxidCollision) : c.storage.IndexExact := by
  obtain ⟨bs, hs, hc⟩ := h.filed
  have hwhole := hc.indexes hcol
  have hmem : ∀ n, n ∈ c.storage.activeNodes ↔ n ∈ bs := by
    intro n
    rw [hs.based.activeNodes_eq, List.mem_reverse]
  have hlocated : ∀ txid loc, Located c.storage c.storage.activeNodes txid loc ↔
      Located c.storage bs txid loc :=
    fun txid loc => exists_congr fun n => and_congr_left' (hmem n)
  have hrecorded : ∀ payload txid row,
      Recorded c.storage c.storage.activeNodes c.storage.activeCoins.lookup payload txid row ↔
        Recorded c.storage bs (coinsOf bs).lookup payload txid row := by
    intro payload txid row
    rw [hs.based.activeCoins_eq]
    exact exists_congr fun n => and_congr_left' (hmem n)
  constructor
  · intro txid loc
    rw [hlocated]
    exact ⟨hwhole.found txid loc, hwhole.allFound trivial txid loc⟩
  · intro payload txid row
    rw [hrecorded]
    exact ⟨hwhole.recorded payload txid row, hwhole.allRecorded trivial payload txid row⟩

instance (b b' : Block) : Decidable (∀ txid ∈ b.txids, ∀ txid' ∈ b'.txids, txid' ≠ txid) :=
  inferInstance

theorem Storage.prunesApart_iff (s : Storage) (height : Nat) : s.PrunesApart height ↔
    ∀ p ∈ s.blockRows, p.2.inChain = false → p.2.pruned = false → 1 ≤ p.2.height →
      p.2.height ≤ height → ∀ q ∈ s.blockRows, q.2.inChain = true → q.2.pruned = false →
        (q.2.height = 0 ∨ height < q.2.height) →
          ∀ txid ∈ p.2.body.txids, ∀ txid' ∈ q.2.body.txids, txid' ≠ txid := by
  constructor
  · intro h p hp hside hpruned hlow hhigh q hq hmark hkeeps hout txid htxid txid' htxid' heq
    exact h p.1 p.2 ((mem_scan s.blocks _ _).mp hp) hside hpruned hlow hhigh q.1 q.2
      ((mem_scan s.blocks _ _).mp hq) hmark hkeeps hout txid htxid (heq ▸ htxid')
  · intro h k row hrow hside hpruned hlow hhigh k' row' hrow' hmark hkeeps hout txid htxid htxid'
    exact h (k, row) ((mem_scan s.blocks _ _).mpr hrow) hside hpruned hlow hhigh (k', row')
      ((mem_scan s.blocks _ _).mpr hrow') hmark hkeeps hout txid htxid txid htxid' rfl

instance (s : Storage) (height : Nat) : Decidable (s.PrunesApart height) :=
  decidable_of_iff' _ (s.prunesApart_iff height)

end Rows

section Instances

attribute [local instance] Sample.crypto Sample.order

/-- It holds of a chain that a side branch has taken over and whose first blocks are then pruned. -/
theorem index_exact_overtaken : ∃ c, Sample.chainAfter Sample.overtaken = some c ∧
    (c.prune REGTEST 0).2.blocks = 2 ∧ (c.prune REGTEST 0).1.storage.IndexExact := by
  have hrun : ((Sample.chainAfter Sample.overtaken).any fun c =>
      decide (c.storage.PrunesApart 1 ∧ c.tip.height = 3 ∧ (c.prune REGTEST 0).2.blocks = 2 ∧
        (c.prune REGTEST 0).1.storage.NoTxidCollision)) = true := by decide +kernel
  obtain ⟨c, hc, h⟩ := (Option.any_eq_true _ _).mp hrun
  obtain ⟨hapart, htip, hblocks, hcol⟩ := of_decide_eq_true h
  obtain ⟨start, hstart, hops⟩ := Sample.chainAfter_start hc
  have htended : Tended REGTEST c := by
    refine (Tended.create hstart).of_runCalls ?_ hops
    simp [Sample.overtaken, Sample.submit]
  refine ⟨c, hc, hblocks, Tended.index_exact (.call (.prune 0) htended ?_ rfl) hcol⟩
  intro keepBlocks heq
  obtain rfl := Call.prune.inj heq
  rw [Blockchain.PrunesApart, htip]
  exact hapart

/-- Two blocks, a third with a spend on top of them, and a branch of three with the same spend in
its second block that takes over. -/
def Sample.shared : List Call :=
  let b₁ := Sample.block Sample.genesisHash 0x207FFFFF 1700000012 [Sample.purse]
    (Sample.alone_fits _)
  let b₂ := Sample.regtestBlock b₁.hash 2 0
  let a₃ := Sample.block b₂.hash 0x207FFFFF 1700000032
    [Sample.coinbase 3 0 Sample.reward, Sample.cheap] (Sample.pair_fits _ _)
  let b₃ := Sample.regtestBlock b₂.hash 3 1
  let b₄ := Sample.block b₃.hash 0x207FFFFF 1700000042
    [Sample.coinbase 4 1 Sample.reward, Sample.cheap] (Sample.pair_fits _ _)
  let b₅ := Sample.regtestBlock b₄.hash 5 1
  [Sample.submit b₁, Sample.submit b₂, Sample.submit a₃, Sample.submit b₃, Sample.submit b₄,
    Sample.submit b₅, .prune 0]

/-- Pruning the side branch deletes the location of the spend, though the second block of the branch
that took over is active and keeps its body. -/
theorem index_not_exact : ∃ c, Reachable REGTEST c ∧ c.storage.NoTxidCollision ∧
    ¬ c.storage.IndexExact := by
  have hrun : ((Sample.chainAfter Sample.shared).any fun c =>
      decide (c.storage.NoTxidCollision ∧ c.storage.txLocation.lookup Sample.cheap.txid = none ∧
        ∃ n ∈ c.storage.activeNodes, n.height = 4 ∧ c.storage.prunedAt n.body.hash = some false ∧
          n.body.transactions[1]? = some Sample.cheap)) = true := by decide +kernel
  obtain ⟨c, hc, h⟩ := (Option.any_eq_true _ _).mp hrun
  obtain ⟨hcol, hnone, n, hn, -, hkeeps, hat⟩ := of_decide_eq_true h
  refine ⟨c, Sample.chainAfter_reachable hc, hcol, fun hexact => ?_⟩
  have hloc : Located c.storage c.storage.activeNodes Sample.cheap.txid
      ⟨n.body.hash, 1, n.height⟩ := ⟨n, hn, hkeeps, rfl, rfl, Sample.cheap, hat, rfl⟩
  rw [(hexact.locations _ _).mpr hloc] at hnone
  cases hnone

end Instances

end ScarletCoin
