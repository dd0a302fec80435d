import ScarletCoin.Invariants.Runs
import ScarletCoin.Sample

/-!
# The money supply

`ChainParams.supply height` is what the subsidies up to a height add up to, and on every network it
stays within `MAX_MONEY` (`supply_le_maxMoney`).

The coins of the active chain never exceed the supply at its tip. A block that connects adds at most
its subsidy, but a block that disconnects takes away what its undo record says, so the bound of the
table alone is not kept by the steps. `Funded` is: the table is within the supply, and undoing the
tip, on any part of the table, leaves a table that is funded for the chain below it.
-/

set_option autoImplicit false

namespace ScarletCoin

open Toolkit

/-! ## The issuance -/

/-- What the subsidies from genesis to `height` add up to. -/
def ChainParams.supply (p : ChainParams) (height : Nat) : Nat :=
  ∑ h ∈ Finset.range (height + 1), p.subsidy h

/-- A sequence of steps of width `w` sums to `w` times the sum of its values. -/
theorem sum_steps (f : Nat → Nat) {w : Nat} (hw : 0 < w) (n : Nat) :
    ∑ i ∈ Finset.range (n * w), f (i / w) = w * ∑ k ∈ Finset.range n, f k := by
  induction n with
  | zero => simp
  | succ n ih =>
    have hstep : ∑ j ∈ Finset.range w, f ((n * w + j) / w) = w * f n := by
      rw [Finset.sum_congr rfl fun j hj => ?_, Finset.sum_const, Finset.card_range, smul_eq_mul]
      rw [Nat.mul_comm, Nat.mul_add_div hw, Nat.div_eq_of_lt (Finset.mem_range.mp hj), Nat.add_zero]
    rw [Nat.succ_mul, Finset.sum_range_add, ih, hstep, Finset.sum_range_succ, Nat.mul_add]

/-- Steps that are zero from the `m`-th on have bounded sums. -/
theorem sum_steps_le (f : Nat → Nat) {w : Nat} (hw : 0 < w) {m : Nat} (hf : ∀ k, m ≤ k → f k = 0)
    (n : Nat) : ∑ i ∈ Finset.range n, f (i / w) ≤ w * ∑ k ∈ Finset.range m, f k := by
  have hsub : Finset.range n ⊆ Finset.range ((m + n) * w) := by
    rw [Finset.range_subset_range]
    calc n ≤ m + n := Nat.le_add_left n m
      _ ≤ (m + n) * w := Nat.le_mul_of_pos_right _ hw
  have htail : ∑ k ∈ Finset.range n, f (m + k) = 0 :=
    Finset.sum_eq_zero fun k _ => hf (m + k) (Nat.le_add_right m k)
  calc ∑ i ∈ Finset.range n, f (i / w)
      ≤ ∑ i ∈ Finset.range ((m + n) * w), f (i / w) := Finset.sum_le_sum_of_subset hsub
    _ = w * ∑ k ∈ Finset.range (m + n), f k := sum_steps f hw (m + n)
    _ = w * ∑ k ∈ Finset.range m, f k := by rw [Finset.sum_range_add, htail, Nat.add_zero]

/-- The supply at any height is at most what all halvings together give out. -/
theorem ChainParams.supply_le (p : ChainParams) (height : Nat) :
    p.supply height ≤
      p.halvingInterval * ∑ k ∈ Finset.range 64, p.initialSubsidy >>> k := by
  have hsub : ∀ h, p.subsidy h =
      (fun k => if 64 ≤ k then 0 else p.initialSubsidy >>> k) (h / p.halvingInterval) :=
    fun h => rfl
  have hbound := sum_steps_le (fun k => if 64 ≤ k then 0 else p.initialSubsidy >>> k)
    p.halvingInterval_pos (fun k hk => if_pos hk) (height + 1)
  have hcut : ∑ k ∈ Finset.range 64, (if 64 ≤ k then 0 else p.initialSubsidy >>> k) =
      ∑ k ∈ Finset.range 64, p.initialSubsidy >>> k :=
    Finset.sum_congr rfl fun k hk => if_neg (Nat.not_le.mpr (Finset.mem_range.mp hk))
  rw [hcut] at hbound
  exact hbound

/-- On every network the supply stays within the maximum. -/
theorem ChainParams.supply_le_maxMoney {p : ChainParams} (hp : p ∈ NETWORKS) (height : Nat) :
    p.supply height ≤ MAX_MONEY := by
  have hall : ∀ q ∈ NETWORKS,
      q.halvingInterval * ∑ k ∈ Finset.range 64, q.initialSubsidy >>> k ≤ MAX_MONEY := by
    decide +kernel
  exact Nat.le_trans (p.supply_le height) (hall p hp)

/-! ## Funded chains -/

section Funding

variable [Crypto] {params : ChainParams}

/-- The table is within the supply at the tip, and so is what undoing the chain block by block
leaves, from any part of it. -/
def Funded (params : ChainParams) (undoOf : Hash → Except PyError (List UndoEntry)) :
    List TreeNode → Table OutPoint Coin → Prop
  | [], _ => True
  | n :: rest, utxo => Table.total Coin.value utxo ≤ params.supply n.height ∧
      ∀ undo, undoOf n.body.hash = .ok undo → ∀ part, Table.Sub part utxo →
        Funded params undoOf rest (restore n.body.outpoints undo part)

theorem Funded.of_sub {undoOf : Hash → Except PyError (List UndoEntry)} {bs : List TreeNode}
    {utxo part : Table OutPoint Coin} (h : Funded params undoOf bs utxo)
    (hsub : Table.Sub part utxo) : Funded params undoOf bs part := by
  cases bs with
  | nil => trivial
  | cons n rest =>
    exact ⟨Nat.le_trans (Table.total_mono Coin.value hsub) h.1,
      fun undo hundo part' hpart => h.2 undo hundo part' (hpart.trans hsub)⟩

/-- Fewer undo records only help. -/
theorem Funded.of_undo {undoOf undoOf' : Hash → Except PyError (List UndoEntry)}
    {bs : List TreeNode} {utxo : Table OutPoint Coin} (h : Funded params undoOf bs utxo)
    (hundo : ∀ n ∈ bs, ∀ undo, undoOf' n.body.hash = .ok undo → undoOf n.body.hash = .ok undo) :
    Funded params undoOf' bs utxo := by
  induction bs generalizing utxo with
  | nil => trivial
  | cons n rest ih =>
    refine ⟨h.1, fun undo hn part hpart => ih ?_ fun m hm => hundo m (List.mem_cons_of_mem n hm)⟩
    exact h.2 undo (hundo n List.mem_cons_self undo hn) part hpart

/-- Only the first transaction of a block with a coinbase mints. -/
theorem Block.Sane.minted_eq {b : Block} (h : b.Sane params) :
    minted b.transactions = b.transactions.head?.elim 0 Transaction.totalOutput := by
  obtain ⟨coinbase, rest, hts, hcoinbase, hothers⟩ := h.first
  have hrest : rest.filter Transaction.isCoinbase = [] :=
    List.filter_eq_nil_iff.mpr fun t ht => by simp [hothers t ht]
  rw [minted, hts, List.filter_cons_of_pos hcoinbase, hrest]
  simp

/-- Connecting a block keeps the chain funded. -/
theorem Funded.connect {s s' : Storage} {b n : TreeNode} {rest : List TreeNode} {st : ConnectState}
    {data : Bytes} (h : Funded params s.getUndo (n :: rest) s.utxo)
    (hbase : Based params (s, n :: rest)) (hb : s.tree b.body.hash = some b)
    (hheight : b.height = n.height + 1)
    (hcheck : checkBlock params s.utxo b.body (s.entryAt b) = .ok st)
    (hdata : encodeUndo st.undo = .ok data)
    (hcon : Connected s b.body (s.entryAt b) st data s') :
    Funded params s'.getUndo (b :: n :: rest) s'.utxo := by
  have hbal := checkBlock_balanced hcheck
  rw [Storage.entryAt_height hb] at hbal
  have hmoney := hbal.money
  rw [(hbase.tree.admitted hb).sane.minted_eq] at hmoney
  have hsupply : params.supply b.height = params.supply n.height + params.subsidy b.height := by
    rw [ChainParams.supply, Finset.sum_range_succ, hheight]
    rfl
  have hbelow := h.1
  rw [hcon.utxo]
  refine ⟨by omega, fun undo hundo part hpart => ?_⟩
  obtain ⟨d, hd, hdecode⟩ := Storage.getUndo_eq_ok.mp hundo
  rcases hcon.undo _ _ hd with ⟨-, rfl⟩ | ⟨hne, -⟩
  · rw [decodeUndo_encodeUndo hdata] at hdecode
    obtain rfl := Except.ok.inj hdecode
    have hback : Table.Sub (restore b.body.outpoints st.undo part) s.utxo :=
      hbal.sound.restore_sub (fun o ho => (hbal.created o).mp ho) hpart
    refine (h.of_sub hback).of_undo fun m hm undo hm' => ?_
    -- the record of a lower block is the one it had before
    have hlow : m.height < b.height := by
      rcases List.mem_cons.mp hm with rfl | hm
      · omega
      · have hlt : m.height < n.height := hbase.active.branch.depth_lt m hm
        omega
    obtain ⟨d, hd, hdecode⟩ := Storage.getUndo_eq_ok.mp hm'
    rcases hcon.undo _ _ hd with ⟨heq, -⟩ | ⟨-, hold⟩
    · have hmb : m = b := hbase.tree.eq_of_hash (hbase.active.branch.stored m hm) hb
        (heq.trans Storage.entryAt_hash)
      rw [hmb] at hlow
      exact absurd hlow (Nat.lt_irrefl _)
    · exact Storage.getUndo_eq_ok.mpr ⟨d, hold, hdecode⟩
  · exact absurd Storage.entryAt_hash.symm hne

/-- Every step keeps the active chain funded. -/
theorem ChainStep.funded {a b : Storage × List TreeNode} (h : ChainStep params a b)
    (hbase : Based params a) (ha : Funded params a.1.getUndo a.2 a.1.utxo) :
    Funded params b.1.getUndo b.2 b.1.utxo := by
  cases h with
  | store _ _ _ _ _ => exact ha
  | header headers => exact ha
  | point => exact ha
  | @prune s s' n rest bound _ hpruned =>
    rw [show (s', n :: rest).1.utxo = _ from hpruned.utxo]
    refine ha.of_undo fun m _ undo hundo => ?_
    obtain ⟨d, hd, hdecode⟩ := Storage.getUndo_eq_ok.mp hundo
    rcases hpruned.undo m.body.hash with heq | ⟨-, hnone⟩
    · exact Storage.getUndo_eq_ok.mpr ⟨d, heq ▸ hd, hdecode⟩
    · rw [hnone] at hd
      cases hd
  | @disconnect s s' b n rest undo hundo hdis =>
    rw [show (s', n :: rest).1.utxo = _ from hdis.utxo]
    refine (ha.2 undo hundo s.utxo (Table.Sub.refl _)).of_undo fun m _ undo' hundo' => ?_
    obtain ⟨d, hd, hdecode⟩ := Storage.getUndo_eq_ok.mp hundo'
    exact Storage.getUndo_eq_ok.mpr ⟨d, hdis.undo ▸ hd, hdecode⟩
  | connect hb _ hheight hcheck hdata hcon => exact ha.connect hbase hb hheight hcheck hdata hcon

/-- A new chain is funded. -/
theorem Genesis.funded {s : Storage} {g : TreeNode} (h : Genesis params s g) :
    Funded params s.getUndo [g] s.utxo := by
  obtain ⟨coinbase, hcoinbase, hts, -⟩ := ChainParams.genesisBlock_eq_ok h.node.1
  obtain ⟨output, houtput, h₁⟩ := bind_eq_ok.mp hcoinbase
  obtain ⟨data, -, h₂⟩ := bind_eq_ok.mp h₁
  have htotal : coinbase.totalOutput = params.subsidy 0 := by
    rw [← pure_eq_ok.mp h₂, Transaction.totalOutput]
    exact (TxOutput.make_eq_ok houtput).2.1
  have hsupply : params.supply g.height = params.subsidy 0 := by
    rw [h.node.2.1, ChainParams.supply, Finset.sum_range_one]
  refine ⟨?_, fun _ _ _ _ => trivial⟩
  have hle := Table.total_insertAll_le Coin.value (coinbase.coins 0) (∅ : Table OutPoint Coin)
  rw [coinbase.coins_value, Table.total_empty, Nat.zero_add] at hle
  rw [h.utxo, hts, List.flatMap_cons, List.flatMap_nil, List.append_nil, hsupply, ← htotal]
  exact hle

/-- **No run creates money.** In every reachable state of a network the coins are worth at most the
subsidies up to the tip, and those add up to at most `MAX_MONEY` at every height. -/
theorem Reachable.total_le_supply [ScanOrder Hash] (hnet : params ∈ NETWORKS) {c : Blockchain}
    (h : Reachable params c) :
    Table.total Coin.value c.storage.utxo ≤ params.supply c.tip.height ∧
      ∀ height, params.supply height ≤ MAX_MONEY := by
  refine ⟨?_, ChainParams.supply_le_maxMoney hnet⟩
  obtain ⟨s, g, bs, hg, htrace, hs⟩ := h.run
  have hfunded : Funded params c.storage.getUndo bs c.storage.utxo :=
    htrace.invariant (fun a => Funded params a.1.getUndo a.2 a.1.utxo)
      (fun _ _ hbase ha hstep => hstep.funded hbase ha) hg.based hg.funded
  obtain ⟨n, rest, rfl, htip, -⟩ := hs.tip
  rw [htip, Storage.entryAt_height (hs.based.active.branch.stored n List.mem_cons_self)]
  exact hfunded.1

end Funding

section Instances

attribute [local instance] Sample.crypto Sample.order

/-- It holds of a chain that a side branch has taken over. -/
theorem total_le_supply_overtaken : ∃ c, Sample.chainAfter Sample.overtaken = some c ∧
    Table.total Coin.value c.storage.utxo ≤ REGTEST.supply c.tip.height ∧
      ∀ height, REGTEST.supply height ≤ MAX_MONEY := by
  have hrun : (Sample.chainAfter Sample.overtaken).isSome = true := by decide +kernel
  obtain ⟨c, hc⟩ := Option.isSome_iff_exists.mp hrun
  exact ⟨c, hc, Reachable.total_le_supply (by simp [NETWORKS]) (Sample.chainAfter_reachable hc)⟩

end Instances

end ScarletCoin
