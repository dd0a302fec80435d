import ScarletCoin.Core.Migrations
import ScarletCoin.Invariants.Locations
import ScarletCoin.Invariants.RequiredBits

/-!
# Transaction counts of a migrated database

`Storage.countTransactions` adds up the column `tx_count` of the active blocks in a range of
heights. For blocks that the current code stores, the column holds the number of their transactions,
whatever becomes of the block later. The migration from schema 4 fills it in from `tx_location`,
which knows the transactions of a block only while the block is active and keeps its body.

So the counts of a migrated database are right exactly as long as every active block was stored
after the migration or counted by it in full (`countTransactions_migrated_iff`). A block that was on
a side branch at the migration and becomes active later counts nothing, and neither does a pruned
one.
-/

set_option autoImplicit false

namespace ScarletCoin

open Toolkit

section Counts

variable [Crypto]

/-! ## What the count should be -/

/-- The number of transactions in the active blocks at the heights `startHeight` to `endHeight`. -/
def Storage.activeTransactions [ScanOrder Hash] (s : Storage) (startHeight endHeight : Int) : Nat :=
  ((s.activeNodes.filter fun n => decide (startHeight ≤ n.height ∧ n.height ≤ endHeight)).map
    fun n => n.body.transactions.length).sum

omit [Crypto] in
/-- A database of schema 4 that holds what `s` does, but for the column `tx_count` and the undo
records. -/
structure Storage.SchemaFour (old s : Storage) : Prop where
  blocks : ∀ h, (old.blocks.lookup h).map (fun row => { row with txCount := 0 }) =
    (s.blocks.lookup h).map fun row => { row with txCount := 0 }
  headers : old.headers = s.headers
  utxo : old.utxo = s.utxo
  txLocation : old.txLocation = s.txLocation
  addressHistory : old.addressHistory = s.addressHistory
  tipHash : old.tipHash = s.tipHash
  pruneMark : old.pruneMark = s.pruneMark

omit [Crypto] in
/-- Without the column, the storage of a chain is a database of schema 4. -/
theorem Storage.schemaFour_addTxCount (s : Storage) : s.addTxCount.SchemaFour s where
  blocks h := by
    rw [addTxCount, Table.lookup_mapRows, Option.map_map]
    rfl
  headers := rfl
  utxo := rfl
  txLocation := rfl
  addressHistory := rfl
  tipHash := rfl
  pruneMark := rfl

/-- If the database holds the block, then as an active one with all its transactions located. -/
def Storage.Counted (old : Storage) (h : Hash) : Prop :=
  ∀ row, old.blocks.lookup h = some row → row.inChain = true ∧
    ∀ txid ∈ row.body.txids, ∃ loc, old.txLocation.lookup txid = some loc ∧ loc.height = row.height

/-! ## The sums -/

omit [Crypto] in
/-- The column `tx_count` of a stored node. -/
def Storage.countAt (s : Storage) (h : Hash) : Nat :=
  ((s.blocks.lookup h).map BlockRow.txCount).getD 0

omit [Crypto] in
/-- A range of which the end is below the start holds nothing. -/
theorem Storage.countTransactions_eq_total (s : Storage) (startHeight endHeight : Int) :
    s.countTransactions startHeight endHeight =
      Table.total (fun row => if row.inChain ∧ startHeight ≤ row.height ∧ row.height ≤ endHeight
        then row.txCount else 0) s.blocks := by
  unfold countTransactions
  split
  · rename_i hempty
    refine (Multiset.sum_eq_zero fun n hn => ?_).symm
    obtain ⟨e, -, rfl⟩ := Multiset.mem_map.mp hn
    exact if_neg fun hin => by omega
  · rfl

section Sums

variable {params : ChainParams} {s : Storage} {bs : List TreeNode}

theorem Based.hashes_nodup (h : Based params (s, bs)) : (bs.map fun n => n.body.hash).Nodup :=
  List.Nodup.map_on (fun _ hn _ hm heq => h.tree.eq_of_hash (h.active.branch.stored _ hn)
    (h.active.branch.stored _ hm) heq) h.active.branch.nodup

/-- The count adds up the column along the active chain. -/
theorem Based.countTransactions_eq (h : Based params (s, bs)) (startHeight endHeight : Int) :
    s.countTransactions startHeight endHeight =
      (bs.map fun n => if startHeight ≤ n.height ∧ n.height ≤ endHeight
        then s.countAt n.body.hash else 0).sum := by
  have hrest : ∀ k row, s.blocks.lookup k = some row → k ∉ bs.map (fun n => n.body.hash) →
      (if row.inChain ∧ startHeight ≤ row.height ∧ row.height ≤ endHeight
        then row.txCount else 0) = 0 := by
    intro k row hrow hk
    refine if_neg fun hin => hk ?_
    have hmem := (h.active.marked hrow).mp hin.1
    rw [← h.tree.keyed (Storage.tree_eq_some.mpr ⟨row, hrow, rfl⟩)]
    exact List.mem_map_of_mem hmem
  rw [s.countTransactions_eq_total, Table.total_eq_sum_of_support _ h.hashes_nodup hrest,
    List.map_map]
  refine congrArg List.sum (List.map_congr_left fun n hn => ?_)
  obtain ⟨row, hrow, rfl⟩ := Storage.tree_eq_some.mp (h.active.branch.stored n hn)
  have hmark : row.inChain = true := (h.active.marked hrow).mpr hn
  rw [Function.comp_apply, Storage.countAt, show s.blocks.lookup row.known.body.hash = _ from hrow]
  simp only [Option.map_some, Option.getD_some, hmark, true_and]
  rfl

/-- So does the number of transactions with the lengths of the bodies. -/
theorem Based.activeTransactions_eq [ScanOrder Hash] (h : Based params (s, bs))
    (startHeight endHeight : Int) :
    s.activeTransactions startHeight endHeight =
      (bs.map fun n => if startHeight ≤ n.height ∧ n.height ≤ endHeight
        then n.body.transactions.length else 0).sum := by
  rw [Storage.activeTransactions, h.activeNodes_eq, Table.sum_map_filter, List.map_reverse,
    List.sum_reverse]
  simp only [decide_eq_true_eq]

/-- With no column above the number of transactions, the counts of all ranges are right iff every
column of an active block is. -/
theorem Based.countTransactions_iff [ScanOrder Hash] (h : Based params (s, bs))
    (hle : ∀ n ∈ bs, s.countAt n.body.hash ≤ n.body.transactions.length) :
    (∀ startHeight endHeight : Int, s.countTransactions startHeight endHeight =
      s.activeTransactions startHeight endHeight) ↔
        ∀ n ∈ bs, s.countAt n.body.hash = n.body.transactions.length := by
  constructor
  · intro hall n hn
    by_contra hne
    have hlt : s.countAt n.body.hash < n.body.transactions.length :=
      Nat.lt_of_le_of_ne (hle n hn) hne
    have hone := hall n.height n.height
    rw [h.countTransactions_eq, h.activeTransactions_eq] at hone
    refine Nat.ne_of_lt (List.sum_lt_sum _ _ (fun m hm => ?_) ⟨n, hn, ?_⟩) hone
    · have hm' := hle m hm
      split <;> omega
    · rw [if_pos ⟨Int.le_refl _, Int.le_refl _⟩, if_pos ⟨Int.le_refl _, Int.le_refl _⟩]
      exact hlt
  · intro hall startHeight endHeight
    rw [h.countTransactions_eq, h.activeTransactions_eq]
    exact congrArg List.sum (List.map_congr_left fun n hn => by rw [hall n hn])

end Sums

/-! ## What the migration writes -/

section Migrated

variable {params : ChainParams} {old : Storage} {columns : List String}

omit [Crypto] in
/-- The row of a block after the migration. -/
def BlockRow.migrated (old : Storage) (row : BlockRow) : BlockRow :=
  { row with txCount := if row.inChain then old.locationsAt row.height else 0 }

omit [Crypto] in
/-- The migration rewrites the counts, and deletes undo records. -/
theorem Storage.migrateV4ToV5_frame [ScanOrder Hash] (old : Storage)
    (hcolumns : "tx_count" ∉ columns) : ∃ undo, old.migrateV4ToV5 columns = { old with
      blocks := Table.mapRows (fun _ row => row.migrated old) old.blocks
      undo := undo } := by
  have hadd : (if columns.contains "tx_count" then old else old.addTxCount) = old.addTxCount :=
    if_neg (by simpa using hcolumns)
  have hblocks : old.addTxCount.backfillTxCount.blocks =
      Table.mapRows (fun _ row => row.migrated old) old.blocks := by
    refine Finmap.ext_lookup fun k => ?_
    rw [backfillTxCount, Table.lookup_mapRows, addTxCount, Table.lookup_mapRows,
      Table.lookup_mapRows, Option.map_map]
    congr 1
    funext row
    rw [Function.comp_apply, BlockRow.migrated]
    by_cases hmark : row.inChain = true
    · rw [if_pos hmark, if_pos hmark]
      rfl
    · rw [if_neg hmark, if_neg hmark]
  unfold migrateV4ToV5
  dsimp only
  rw [hadd, ← hblocks, boundUndo]
  split
  · exact ⟨_, rfl⟩
  · exact ⟨old.undo, rfl⟩

/-- The tree and the marks are those of the chain. -/
theorem Storage.SchemaFour.based {s m : Storage} {bs : List TreeNode} (hold : old.SchemaFour s)
    (h : Based params (s, bs))
    (hm : m.blocks = Table.mapRows (fun _ row => row.migrated old) old.blocks) :
    Based params (m, bs) := by
  have hrows : ∀ k row, m.blocks.lookup k = some row →
      ∃ row', s.blocks.lookup k = some row' ∧ row.known = row'.known ∧
      row.inChain = row'.inChain := by
    intro k row hrow
    rw [hm, Table.lookup_mapRows] at hrow
    obtain ⟨r, hr, rfl⟩ := Option.map_eq_some_iff.mp hrow
    have hsame := hold.blocks k
    rw [hr, Option.map_some] at hsame
    obtain ⟨row', hrow', heq⟩ := Option.map_eq_some_iff.mp hsame.symm
    have hknown := congrArg BlockRow.known heq
    have hmark := congrArg BlockRow.inChain heq
    exact ⟨row', hrow', hknown.symm, hmark.symm⟩
  have htree : m.tree = s.tree := by
    funext k
    unfold tree
    rw [hm, Table.lookup_mapRows, Option.map_map]
    have hsame := congrArg (Option.map BlockRow.known) (hold.blocks k)
    rw [Option.map_map, Option.map_map] at hsame
    exact hsame
  refine ⟨by rw [htree]; exact h.tree, by rw [htree]; exact h.active.branch, fun {k row} hrow => ?_⟩
  obtain ⟨row', hrow', hknown, hmark⟩ := hrows k row hrow
  rw [hknown, hmark]
  exact h.active.marked hrow'

end Migrated

/-! ## The locations of a block -/

section Located

variable {params : ChainParams} {whole : Prop} {s : Storage} {bs : List TreeNode} {n : TreeNode}

/-- The locations at the height of an active block are those of its transactions. -/
theorem Indexes.locationsAt_eq (h : Indexes whole (s, bs)) (hledger : LedgerInv (s, bs))
    (hbranch : Branch (lineage params) s.tree bs) (hn : n ∈ bs) :
    s.locationsAt n.height = (n.body.txids.filter fun txid =>
      (s.txLocation.lookup txid).any fun loc => loc.height == n.height).length := by
  have hids : n.body.txids.Nodup := by
    have hall := hledger.ids
    rw [history_ids, List.nodup_flatMap] at hall
    exact List.nodup_reverse.mp (hall.1 n hn)
  have hrest : ∀ txid loc, s.txLocation.lookup txid = some loc → txid ∉ n.body.txids →
      (if loc.height = n.height then 1 else 0) = 0 := by
    intro txid loc hloc hnot
    refine if_neg fun heq => hnot ?_
    obtain ⟨m, hm, -, -, hheight, t, ht, rfl⟩ := h.found txid loc hloc
    have hmn : m = n := hbranch.depth_injective m hm n hn (hheight.symm.trans heq)
    exact hmn ▸ List.mem_map_of_mem (List.mem_of_getElem? ht)
  have hones : ∀ l : List Hash, l.length = (l.map fun _ => 1).sum := fun l => by simp
  rw [Storage.locationsAt, Table.total_eq_sum_of_support _ hids hrest, hones, Table.sum_map_filter]
  refine congrArg List.sum (List.map_congr_left fun txid _ => ?_)
  cases s.txLocation.lookup txid with
  | none => rfl
  | some loc => simp

/-- An active block has as many locations as transactions iff all its transactions are located. -/
theorem Indexes.locationsAt_iff (h : Indexes whole (s, bs)) (hledger : LedgerInv (s, bs))
    (hbranch : Branch (lineage params) s.tree bs) (hn : n ∈ bs) :
    s.locationsAt n.height ≤ n.body.transactions.length ∧
      (s.locationsAt n.height = n.body.transactions.length ↔ ∀ txid ∈ n.body.txids,
        ∃ loc, s.txLocation.lookup txid = some loc ∧ loc.height = n.height) := by
  have hlength : n.body.transactions.length = n.body.txids.length := (List.length_map _).symm
  rw [h.locationsAt_eq hledger hbranch hn, hlength, List.length_filter_eq_length_iff]
  refine ⟨List.length_filter_le _ _, forall₂_congr fun txid _ => ?_⟩
  rw [Option.any_eq_true]
  exact exists_congr fun loc => and_congr_right fun _ => beq_iff_eq

end Located

/-! ## What later calls keep -/

section Kept

variable {params : ChainParams} {a b : Storage × List TreeNode}

omit [Crypto] in
/-- What later calls leave of a row: the body and the count. -/
def BlockRow.content (row : BlockRow) : Block × Nat := (row.body, row.txCount)

/-- A step keeps the counts and counts the transactions of a new block. -/
theorem ChainStep.content (h : ChainStep params a b) (k : Hash) :
    (a.1.blocks.lookup k ≠ none → (b.1.blocks.lookup k).map BlockRow.content =
      (a.1.blocks.lookup k).map BlockRow.content) ∧
    (a.1.blocks.lookup k = none → ∀ row, b.1.blocks.lookup k = some row →
      row.txCount = row.body.transactions.length) := by
  -- a step that stores no block
  have hsame : ∀ {s s' : Storage}, (s'.blocks.lookup k).map BlockRow.content =
      (s.blocks.lookup k).map BlockRow.content →
      (s.blocks.lookup k ≠ none → (s'.blocks.lookup k).map BlockRow.content =
        (s.blocks.lookup k).map BlockRow.content) ∧
      (s.blocks.lookup k = none → ∀ row, s'.blocks.lookup k = some row →
        row.txCount = row.body.transactions.length) := by
    intro s s' heq
    refine ⟨fun _ => heq, fun hnone row hrow => ?_⟩
    rw [hnone, hrow] at heq
    cases heq
  -- the mark of the active chain is not content
  have hmodify : ∀ {s s' : Storage} {k' : Hash} {mark : Bool},
      s'.blocks = s.blocks.modify k' (fun row => { row with inChain := mark }) →
      (s'.blocks.lookup k).map BlockRow.content = (s.blocks.lookup k).map BlockRow.content := by
    intro s s' k' mark hblocks
    rw [hblocks, Table.lookup_modify]
    by_cases hk : k = k'
    · rw [if_pos hk, hk, Option.map_map]
      rfl
    · rw [if_neg hk]
  cases h with
  | @store s bs n p hnew _ _ _ _ =>
    constructor
    · intro hknown
      have hne : k ≠ n.body.hash := by
        rintro rfl
        exact hknown (Option.map_eq_none_iff.mp hnew)
      exact congrArg _ (Finmap.lookup_insert_of_ne _ hne)
    · intro hunknown row hrow
      rw [Storage.insertNode, Table.lookup_insert_if] at hrow
      by_cases hk : k = n.body.hash
      · rw [if_pos hk] at hrow
        rw [← Option.some.inj hrow]
      · rw [if_neg hk, hunknown] at hrow
        cases hrow
  | header headers => exact hsame rfl
  | point => exact hsame rfl
  | prune _ hpruned =>
    refine hsame ?_
    rcases hpruned.rows k with heq | ⟨-, row, hrow, heq⟩
    · rw [heq]
    · rw [heq, hrow]
      rfl
  | disconnect _ hdis => exact hsame (hmodify hdis.blocks)
  | connect _ _ _ _ _ hcon => exact hsame (hmodify hcon.blocks)

/-- So does any number of steps. -/
theorem ChainTrace.content (h : ChainTrace params a b) (k : Hash) :
    (a.1.blocks.lookup k ≠ none → (b.1.blocks.lookup k).map BlockRow.content =
      (a.1.blocks.lookup k).map BlockRow.content) ∧
    (a.1.blocks.lookup k = none → ∀ row, b.1.blocks.lookup k = some row →
      row.txCount = row.body.transactions.length) := by
  induction h with
  | refl =>
    refine ⟨fun _ => rfl, fun hnone row hrow => ?_⟩
    rw [hnone] at hrow
    cases hrow
  | @tail b c _ hstep ih =>
    obtain ⟨hkept, hadded⟩ := ih
    obtain ⟨hkept', hadded'⟩ := hstep.content k
    constructor
    · intro hknown
      have hb : b.1.blocks.lookup k ≠ none := by
        intro hnone
        have heq := hkept hknown
        rw [hnone] at heq
        exact hknown (Option.map_eq_none_iff.mp heq.symm)
      rw [hkept' hb, hkept hknown]
    · intro hunknown row hrow
      cases hb : b.1.blocks.lookup k with
      | none => exact hadded' hb row hrow
      | some row' =>
        have heq := hkept' (by rw [hb]; exact Option.some_ne_none row')
        rw [hrow, hb, Option.map_some, Option.map_some, Option.some.injEq] at heq
        obtain ⟨hbody, hcount⟩ := Prod.mk.inj heq
        rw [hcount, hbody]
        exact hadded hunknown row' hb

end Kept

/-! ## Loading and running -/

section Runs

variable [ScanOrder Hash] {params : ChainParams}

/-- A database with an active chain loads, and the chain stands. -/
theorem Based.load {m : Storage} {n : TreeNode} {rest : List TreeNode}
    (h : Based params (m, n :: rest)) (htip : m.tipHash = some n.body.hash) :
    Blockchain.load params m n.body.hash = .ok ⟨m, m.entryAt n, [], []⟩ ∧
      Standing params ⟨m, m.entryAt n, [], []⟩ (n :: rest) := by
  have hbranch : Branch (lineage params) m.tree (n :: rest) := h.active.branch
  refine ⟨?_, h, n, rest, rfl, rfl, htip⟩
  obtain ⟨g, hg, hzero⟩ := hbranch.exists_depth (d := 0) (Nat.succ_pos _)
  have hstored := hbranch.stored g hg
  have hgenesis : params.genesisBlock = .ok g.body := by
    rcases h.tree.linked hstored with hgen | ⟨p, -, hchild, -⟩
    · exact hgen.1
    · have hheight : g.height = 0 := hzero
      omega
  have hentry : m.getChainEntry 0 = some (m.entryAt g) := by
    rw [← show g.height = 0 from hzero]
    exact h.getChainEntry_eq hg
  unfold Blockchain.load
  rw [Storage.getEntry_eq (hbranch.stored n List.mem_cons_self), hentry, hgenesis]
  exact raiseIf_bind_eq_ok.mpr ⟨not_not.mpr Storage.entryAt_hash, rfl⟩

omit [ScanOrder Hash] in
/-- The count that the migration writes for a block, compared with its transactions. -/
theorem Storage.SchemaFour.migrated_count {old s : Storage} {bs : List TreeNode} {whole : Prop}
    (hold : old.SchemaFour s) (h : Based params (s, bs)) (hindexes : Indexes whole (s, bs))
    (hledger : LedgerInv (s, bs)) {k : Hash} {row : BlockRow}
    (hrow : old.blocks.lookup k = some row) :
    (row.migrated old).txCount ≤ row.body.transactions.length ∧
      ((row.migrated old).txCount = row.body.transactions.length ↔ old.Counted k) := by
  have hsame := hold.blocks k
  rw [hrow, Option.map_some] at hsame
  obtain ⟨row', hrow', heq⟩ := Option.map_eq_some_iff.mp hsame.symm
  have hknown := congrArg BlockRow.known heq
  have hmark := congrArg BlockRow.inChain heq
  have hnode : s.tree k = some row.known := Storage.tree_eq_some.mpr ⟨row', hrow', hknown⟩
  have hat : old.locationsAt row.height = s.locationsAt row.known.height := by
    rw [locationsAt, hold.txLocation]
    rfl
  have hcounted : old.Counted k ↔ row.inChain = true ∧ ∀ txid ∈ row.body.txids,
      ∃ loc, s.txLocation.lookup txid = some loc ∧ loc.height = row.height := by
    rw [← hold.txLocation]
    exact ⟨fun hall => hall row hrow, fun hall row'' hrow'' =>
      Option.some.inj (hrow.symm.trans hrow'') ▸ hall⟩
  rw [hcounted, BlockRow.migrated]
  by_cases hactive : row.inChain = true
  · have hmem : row.known ∈ bs := hknown ▸ (h.active.marked hrow').mp (hmark.trans hactive)
    obtain ⟨hle, hiff⟩ := hindexes.locationsAt_iff hledger h.active.branch hmem
    rw [← hat] at hle hiff
    dsimp only
    rw [if_pos hactive]
    exact ⟨hle, hiff.trans (and_iff_right hactive).symm⟩
  · -- a block off the active chain counts nothing, but it has a coinbase
    obtain ⟨cb, others, hcb, -⟩ := (h.tree.admitted hnode).sane.first
    have hpos : 0 < row.body.transactions.length := by
      rw [show row.body.transactions = cb :: others from hcb]
      exact Nat.succ_pos _
    dsimp only
    rw [if_neg hactive]
    exact ⟨Nat.zero_le _, iff_of_false (Nat.ne_of_lt hpos) fun hall => hactive hall.1⟩

/-- **The counts after the migration.** Open a database of schema 4 that represents a reachable
chain: the chain loads, and in every state that calls lead to, the counts of all ranges are right
iff every active block was stored after the migration or was active at it with all its transactions
located. -/
theorem countTransactions_migrated_iff {c : Blockchain} (hc : Reachable params c)
    (hcol : c.storage.NoTxidCollision) {old : Storage} (hold : old.SchemaFour c.storage)
    {blockColumns historyColumns : List String} (hcolumns : "tx_count" ∉ blockColumns) :
    ∃ s tip c₀, old.migrate blockColumns historyColumns 4 = .ok s ∧ s.tipHash = some tip ∧
      Blockchain.load params s tip = .ok c₀ ∧ ∀ ops c', runCalls params c₀ ops = some c' →
        ((∀ startHeight endHeight : Int, c'.storage.countTransactions startHeight endHeight =
            c'.storage.activeTransactions startHeight endHeight) ↔
          ∀ h row, c'.storage.blocks.lookup h = some row → row.inChain = true → old.Counted h) := by
  obtain ⟨bs, hs, hfiled⟩ := hc.filed
  obtain ⟨undo, hframe⟩ := old.migrateV4ToV5_frame hcolumns
  have hmigrate : old.migrate blockColumns historyColumns 4 =
      .ok (old.migrateV4ToV5 blockColumns) :=
    rfl
  obtain ⟨n, rest, rfl, -, hpoint⟩ := hs.tip
  have hbase : Based params (old.migrateV4ToV5 blockColumns, n :: rest) :=
    hold.based hs.based (by rw [hframe])
  have htip : (old.migrateV4ToV5 blockColumns).tipHash = some n.body.hash := by
    rw [hframe, ← hpoint]
    exact hold.tipHash
  obtain ⟨hload, hstands⟩ := hbase.load htip
  refine ⟨_, _, _, hmigrate, htip, hload, fun ops c' hrun => ?_⟩
  obtain ⟨bs', htrace, hs'⟩ := runCalls_standing hstands hrun
  -- a count never exceeds the block, so the sums agree exactly where every count does
  have hmain : ∀ m ∈ bs', c'.storage.countAt m.body.hash ≤ m.body.transactions.length ∧
      (c'.storage.countAt m.body.hash = m.body.transactions.length ↔ old.Counted m.body.hash) := by
    intro m hm
    obtain ⟨row, hrow, rfl⟩ := Storage.tree_eq_some.mp (hs'.based.active.branch.stored m hm)
    obtain ⟨hkept, hadded⟩ := htrace.content row.known.body.hash
    have hcount : c'.storage.countAt row.known.body.hash = row.txCount := by
      rw [Storage.countAt, show c'.storage.blocks.lookup row.known.body.hash = _ from hrow]
      rfl
    rw [hcount]
    cases hthere : old.blocks.lookup row.known.body.hash with
    | none =>
      -- stored after the migration, with its own count
      have hnew : row.txCount = row.body.transactions.length := by
        refine hadded ?_ row hrow
        rw [hframe, Table.lookup_mapRows, hthere, Option.map_none]
      refine ⟨Nat.le_of_eq hnew, iff_of_true hnew fun row' hrow' => ?_⟩
      rw [hthere] at hrow'
      cases hrow'
    | some r =>
      -- in the old database: it keeps the count of the migration
      have hmigrated : (old.migrateV4ToV5 blockColumns).blocks.lookup row.known.body.hash =
          some (r.migrated old) := by
        rw [hframe, Table.lookup_mapRows, hthere, Option.map_some]
      have heq := hkept (by rw [hmigrated]; exact Option.some_ne_none _)
      rw [hmigrated, show c'.storage.blocks.lookup row.known.body.hash = _ from hrow,
        Option.map_some, Option.map_some, Option.some.injEq] at heq
      obtain ⟨hbody, hkeep⟩ := Prod.mk.inj heq
      have hbody' : row.known.body = r.body := hbody
      rw [hkeep, hbody']
      exact hold.migrated_count hs.based (hfiled.indexes hcol) (hfiled.ledger hcol)
        (hbody' ▸ hthere)
  rw [hs'.based.countTransactions_iff fun m hm => (hmain m hm).1]
  constructor
  · intro hall h row hrow hmark
    have hmem := (hs'.based.active.marked hrow).mp hmark
    have hkey := hs'.based.tree.keyed (Storage.tree_eq_some.mpr ⟨row, hrow, rfl⟩)
    exact hkey ▸ (hmain _ hmem).2.mp (hall _ hmem)
  · intro hall m hm
    obtain ⟨row, hrow, rfl⟩ := Storage.tree_eq_some.mp (hs'.based.active.branch.stored m hm)
    exact (hmain _ hm).2.mpr (hall _ row hrow ((hs'.based.active.marked hrow).mpr hm))

end Runs

end Counts

section Instances

attribute [local instance] Sample.crypto Sample.order

/-- The columns of `blocks` in schema 4. -/
def Sample.blockColumns : List String :=
  ["hash", "height", "prev_hash", "chainwork", "in_chain", "timestamp", "raw", "pruned"]

/-- Two branches of one block; the first one is active. -/
def Sample.forked : List Call :=
  [Sample.submit (Sample.regtestBlock Sample.genesisHash 1 0),
    Sample.submit (Sample.regtestBlock Sample.genesisHash 1 1)]

/-- A second block for the side branch. -/
def Sample.overtake : Call :=
  Sample.submit (Sample.regtestBlock (Sample.regtestBlock Sample.genesisHash 1 1).hash 2 1)

/-- It holds after a migration of the two branches. -/
theorem countTransactions_migrated_forked : ∃ c s tip c₀, Sample.chainAfter Sample.forked = some c ∧
    c.storage.addTxCount.migrate Sample.blockColumns [] 4 = .ok s ∧ s.tipHash = some tip ∧
      Blockchain.load REGTEST s tip = .ok c₀ ∧ ∀ ops c', runCalls REGTEST c₀ ops = some c' →
        ((∀ startHeight endHeight : Int, c'.storage.countTransactions startHeight endHeight =
            c'.storage.activeTransactions startHeight endHeight) ↔
          ∀ h row, c'.storage.blocks.lookup h = some row → row.inChain = true →
            c.storage.addTxCount.Counted h) := by
  have hrun : ((Sample.chainAfter Sample.forked).any fun c =>
      decide c.storage.NoTxidCollision) = true := by decide +kernel
  obtain ⟨c, hc, h⟩ := (Option.any_eq_true _ _).mp hrun
  have hcolumns : "tx_count" ∉ Sample.blockColumns := by decide
  obtain ⟨s, tip, c₀, hmain⟩ := countTransactions_migrated_iff (Sample.chainAfter_reachable hc)
    (of_decide_eq_true h) c.storage.schemaFour_addTxCount hcolumns
  exact ⟨c, s, tip, c₀, hc, hmain⟩

/-- Once the side branch takes over, its first block, which the migration did not count, is
active. -/
theorem countTransactions_not_kept : ∃ (c : Blockchain) (old s : Storage) (tip : Hash)
    (c₀ c' : Blockchain), Reachable REGTEST c ∧
    c.storage.NoTxidCollision ∧ old.SchemaFour c.storage ∧
    old.migrate Sample.blockColumns [] 4 = .ok s ∧ s.tipHash = some tip ∧
    Blockchain.load REGTEST s tip = .ok c₀ ∧ runCalls REGTEST c₀ [Sample.overtake] = some c' ∧
    c'.storage.countTransactions 1 1 = 0 ∧ c'.storage.activeTransactions 1 1 = 1 := by
  have hrun : ((Sample.chainAfter Sample.forked).any fun c =>
      decide c.storage.NoTxidCollision &&
      (c.storage.addTxCount.migrate Sample.blockColumns [] 4).toOption.any fun s =>
        s.tipHash.any fun tip => (Blockchain.load REGTEST s tip).toOption.any fun c₀ =>
          (runCalls REGTEST c₀ [Sample.overtake]).any fun c' =>
            decide (c'.storage.countTransactions 1 1 = 0 ∧
              c'.storage.activeTransactions 1 1 = 1)) = true := by decide +kernel
  obtain ⟨c, hc, h⟩ := (Option.any_eq_true _ _).mp hrun
  obtain ⟨hcol, hopen⟩ := Bool.and_eq_true_iff.mp h
  obtain ⟨s, hs, h⟩ := (Option.any_eq_true _ _).mp hopen
  obtain ⟨tip, htip, h⟩ := (Option.any_eq_true _ _).mp h
  obtain ⟨c₀, hload, h⟩ := (Option.any_eq_true _ _).mp h
  obtain ⟨c', hcalls, h⟩ := (Option.any_eq_true _ _).mp h
  obtain ⟨hcount, hactive⟩ := of_decide_eq_true h
  exact ⟨c, c.storage.addTxCount, s, tip, c₀, c', Sample.chainAfter_reachable hc,
    of_decide_eq_true hcol, c.storage.schemaFour_addTxCount, toOption_eq_some.mp hs, htip,
    toOption_eq_some.mp hload, hcalls, hcount, hactive⟩

end Instances

end ScarletCoin
