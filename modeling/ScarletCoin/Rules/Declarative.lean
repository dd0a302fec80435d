import ScarletCoin.Rules.Admission
import ScarletCoin.Rules.Connection
import ScarletCoin.Sample

/-!
# The rule that blocks are connected by

`BlockRule` states when a block may be connected over a set of unspent outputs, without an overlay,
a list of created outpoints or a running sum: every transaction is final, every input is in the set
or was created earlier in the block, nothing is spent twice, every transaction that is not a
coinbase meets the spending rules over the set with the outputs of the block added, and the coinbase
pays out at most the subsidy and the fees.

`_connect_block` succeeds on exactly the sane blocks of new transaction ids that meet the rule, and
it leaves the set without what the block spends and with what it creates and does not spend
(`connectBlock_declarative`). Between the two stands the loop over the transactions, whose rounds
ask whether a transaction is `Applicable` to the coins that those before it leave.
-/

set_option autoImplicit false

namespace ScarletCoin

open Toolkit

section Rule

variable [Crypto]

/-! ## The rule -/

/-- What a transaction over a view leaves to the miner. -/
def Transaction.fee (view : OutPoint → Option Coin) (t : Transaction) : Nat :=
  if t.isCoinbase then 0 else inputTotal view t.inputs - t.totalOutput

/-- The outpoints that the transactions of a block remove. -/
def Block.spends (b : Block) : List OutPoint := b.transactions.flatMap Transaction.spends

/-- The coins that a block at `height` creates. -/
def Block.coins (height : Nat) (b : Block) : List (OutPoint × Coin) :=
  b.transactions.flatMap fun t => t.coins height

/-- The unspent outputs with everything that a block creates. -/
def Block.offered (height : Nat) (utxo : Table OutPoint Coin) (b : Block) : Table OutPoint Coin :=
  Table.insertAll (b.coins height) utxo

/-- What the transactions of a block leave to the miner. -/
def Block.fees (height : Nat) (utxo : Table OutPoint Coin) (b : Block) : Nat :=
  (b.transactions.map (Transaction.fee (b.offered height utxo).lookup)).sum

/-- The rule that a block at `height` is connected by. -/
structure BlockRule (params : ChainParams) (utxo : Table OutPoint Coin) (b : Block)
    (height : Nat) : Prop where
  final : ∀ t ∈ b.transactions, t.lockTime = 0 ∨ t.lockTime.toNat ≤ height
  sourced : ∀ before t after, b.transactions = before ++ t :: after → ∀ o ∈ t.spends,
    utxo.lookup o ≠ none ∨ o ∈ before.flatMap Transaction.outpoints
  once : b.spends.Nodup
  spending : ∀ t ∈ b.transactions, t.isCoinbase = false →
    SpendRules t (b.offered height utxo).lookup height params true
  reward : ∃ coinbase, b.coinbase = .ok coinbase ∧
    coinbase.totalOutput ≤ params.subsidy height + b.fees height utxo

/-! ## The round of one transaction -/

/-- A transaction may be applied to the coins of a view. -/
structure Applicable (params : ChainParams) (height : Nat) (view : OutPoint → Option Coin)
    (t : Transaction) : Prop where
  final : checkTransactionFinal t height = true
  playable : t.spends.Nodup ∧ ∀ o ∈ t.spends, view o ≠ none
  spending : t.isCoinbase = false → SpendRules t view height params true

omit [Crypto] in
theorem checkTransactionFinal_iff {t : Transaction} {height : Nat} :
    checkTransactionFinal t height = true ↔ t.lockTime = 0 ∨ t.lockTime.toNat ≤ height := by
  simp [checkTransactionFinal]

/-- The rules look at the coins of the inputs alone. -/
theorem SpendRules.congr {t : Transaction} {view view' : OutPoint → Option Coin} {height : Nat}
    {params : ChainParams} {verify : Bool} (h : SpendRules t view height params verify)
    (hview : ∀ txin ∈ t.inputs, view' txin.prevout = view txin.prevout) :
    SpendRules t view' height params verify := by
  have htotal : inputTotal view' t.inputs = inputTotal view t.inputs := by
    unfold inputTotal
    rw [List.map_congr_left fun txin htxin => by rw [hview txin htxin]]
  refine ⟨h.notCoinbase, fun entry hentry => ?_, htotal ▸ h.money, htotal ▸ h.covered⟩
  obtain ⟨coin, hrule⟩ := h.inputs entry hentry
  have hmem : entry.1 ∈ t.inputs := List.mem_of_getElem? (List.mem_zipIdx_iff_getElem?.mp hentry)
  exact ⟨coin, (hview entry.1 hmem).trans hrule.unspent, hrule.mature, hrule.known, hrule.opened⟩

variable {t₀ : Table OutPoint Coin}

omit [Crypto] in
/-- The coins of the inputs can be spent iff they are there and no outpoint is listed twice. -/
theorem spendInputs_iff {inputs : List TxInput} {st : ConnectState}
    (hbase : st.overlay.base = t₀.lookup) :
    (∃ st', inputs.foldlM spendInput st = .ok st') ↔
      ∃ coins t', Spends (st.table t₀) (inputs.map TxInput.prevout) coins t' := by
  induction inputs generalizing st with
  | nil => exact ⟨fun _ => ⟨[], st.table t₀, .nil _⟩, fun _ => ⟨st, rfl⟩⟩
  | cons txin inputs ih =>
    have htable : ∀ coin, (st.afterSpend txin.prevout coin).table t₀ =
        (st.table t₀).erase txin.prevout := fun coin =>
      congrArg Session.table (afterSpend_session st txin.prevout coin)
    constructor
    · rintro ⟨st', h⟩
      obtain ⟨coins, hspends, -⟩ := spendInputs_ok hbase h
      exact ⟨coins, _, hspends⟩
    · rintro ⟨coins, t', h⟩
      cases h with
      | @cons _ _ _ coin _ coins hcoin hrest =>
        have hbase' : (st.afterSpend txin.prevout coin).overlay.base = t₀.lookup := hbase
        rw [← htable coin] at hrest
        obtain ⟨st', hst'⟩ := (ih hbase').mpr ⟨coins, t', hrest⟩
        exact ⟨st', foldlM_cons_eq_ok.mpr
          ⟨_, (spendInput_eq_ok hbase).mpr ⟨coin, hcoin, rfl⟩, hst'⟩⟩

/-- A round of the loop returns iff its transaction may be applied, and adds the fee. -/
theorem connectTransaction_iff {params : ChainParams} {entry : BlockIndexEntry}
    {st : ConnectState} {t : Transaction} (hbase : st.overlay.base = t₀.lookup) :
    (∃ st', connectTransaction params entry st t = .ok st') ↔
      Applicable params entry.height (st.table t₀).lookup t := by
  constructor
  · rintro ⟨st', h⟩
    obtain ⟨hfinal, ⟨hc, -⟩ | ⟨hrules, st₁, hspend, -⟩⟩ := (connectTransaction_eq_ok hbase).mp h
    · have hspends : t.spends = [] := if_pos hc
      refine ⟨hfinal, ?_, fun hc' => by simp [hc] at hc'⟩
      rw [hspends]
      exact ⟨List.nodup_nil, fun o ho => absurd ho List.not_mem_nil⟩
    · have hspends : t.spends = t.inputs.map TxInput.prevout :=
        if_neg (by simp [hrules.notCoinbase])
      have hbase' : (st.withFee (inputTotal (st.table t₀).lookup t.inputs -
        t.totalOutput)).overlay.base = t₀.lookup := hbase
      obtain ⟨coins, hcoins, -⟩ := spendInputs_ok hbase' hspend
      refine ⟨hfinal, ?_, fun _ => hrules⟩
      rw [hspends]
      exact Spends.possible_iff.mp ⟨coins, _, hcoins⟩
  · intro h
    by_cases hc : t.isCoinbase = true
    · exact ⟨_, (connectTransaction_eq_ok hbase).mpr ⟨h.final, .inl ⟨hc, rfl⟩⟩⟩
    · have hspends : t.spends = t.inputs.map TxInput.prevout := if_neg hc
      have hplay := h.playable
      rw [hspends] at hplay
      have hrules := h.spending (Bool.not_eq_true _ ▸ hc)
      have hbase' : (st.withFee (inputTotal (st.table t₀).lookup t.inputs -
        t.totalOutput)).overlay.base = t₀.lookup := hbase
      obtain ⟨st₁, hst₁⟩ := (spendInputs_iff hbase').mpr (Spends.possible_iff.mpr hplay)
      exact ⟨_, (connectTransaction_eq_ok hbase).mpr
        ⟨h.final, .inr ⟨hrules, st₁, hst₁, rfl⟩⟩⟩

theorem connectTransaction_fees {params : ChainParams} {entry : BlockIndexEntry}
    {st st' : ConnectState} {t : Transaction} (hbase : st.overlay.base = t₀.lookup)
    (h : connectTransaction params entry st t = .ok st') :
    st'.fees = st.fees + t.fee (st.table t₀).lookup := by
  obtain ⟨-, ⟨hc, rfl⟩ | ⟨hrules, st₁, hspend, rfl⟩⟩ := (connectTransaction_eq_ok hbase).mp h
  · rw [Transaction.fee, if_pos hc]
    rfl
  · have hbase' : (st.withFee (inputTotal (st.table t₀).lookup t.inputs -
      t.totalOutput)).overlay.base = t₀.lookup := hbase
    obtain ⟨-, -, -, -, -, hfees⟩ := spendInputs_ok hbase' hspend
    rw [Transaction.fee, if_neg (by simp [hrules.notCoinbase])]
    exact hfees

/-! ## The loop -/

/-- The loop returns iff every transaction may be applied to what those before it leave. -/
theorem connectTransactions_iff {params : ChainParams} {entry : BlockIndexEntry}
    {ts : List Transaction} {st : ConnectState} (hbase : st.overlay.base = t₀.lookup) :
    (∃ st', ts.foldlM (connectTransaction params entry) st = .ok st') ↔
      ∀ before t after, ts = before ++ t :: after → Applicable params entry.height
        (replay (before.map (Transaction.posting entry.height)) (st.table t₀)).lookup t := by
  induction ts generalizing st with
  | nil =>
    refine ⟨fun _ before t after hsplit => ?_, fun _ => ⟨st, rfl⟩⟩
    cases before <;> cases hsplit
  | cons t ts ih =>
    constructor
    · rintro ⟨st', h⟩ before t' after hsplit
      obtain ⟨st₁, hhead, htail⟩ := foldlM_cons_eq_ok.mp h
      have hone := connectTransaction_ok hbase hhead
      cases before with
      | nil =>
        obtain ⟨rfl, -⟩ := List.cons.inj hsplit
        exact (connectTransaction_iff hbase).mp ⟨st₁, hhead⟩
      | cons t'' before =>
        obtain ⟨rfl, hrest⟩ := List.cons.inj hsplit
        have hlater := (ih (hone.base.trans hbase)).mp ⟨st', htail⟩ before t' after hrest
        rw [hone.table] at hlater
        exact hlater
    · intro h
      obtain ⟨st₁, hhead⟩ := (connectTransaction_iff hbase).mpr (h [] t ts rfl)
      have hone := connectTransaction_ok hbase hhead
      obtain ⟨st', htail⟩ := (ih (hone.base.trans hbase)).mpr fun before t' after hsplit => by
        rw [hone.table]
        exact h (t :: before) t' after (by rw [hsplit, List.cons_append])
      exact ⟨st', foldlM_cons_eq_ok.mpr ⟨st₁, hhead, htail⟩⟩

/-- The fees of the loop, by a view that shows each transaction its coins. -/
theorem connectTransactions_fees {params : ChainParams} {entry : BlockIndexEntry}
    {ts : List Transaction} {st st' : ConnectState} (view : OutPoint → Option Coin)
    (hbase : st.overlay.base = t₀.lookup)
    (hview : ∀ before t after, ts = before ++ t :: after →
      t.fee (replay (before.map (Transaction.posting entry.height)) (st.table t₀)).lookup =
        t.fee view)
    (h : ts.foldlM (connectTransaction params entry) st = .ok st') :
    st'.fees = st.fees + (ts.map (Transaction.fee view)).sum := by
  induction ts generalizing st with
  | nil => rw [foldlM_nil_eq_ok.mp h, List.map_nil, List.sum_nil, Nat.add_zero]
  | cons t ts ih =>
    obtain ⟨st₁, hhead, htail⟩ := foldlM_cons_eq_ok.mp h
    have hone := connectTransaction_ok hbase hhead
    have hrest := ih (hone.base.trans hbase) (fun before t' after hsplit => by
      rw [hone.table]
      exact hview (t :: before) t' after (by rw [hsplit, List.cons_append])) htail
    have hfee : t.fee (st.table t₀).lookup = t.fee view := hview [] t ts rfl
    rw [hrest, connectTransaction_fees hbase hhead, hfee, List.map_cons, List.sum_cons,
      Nat.add_assoc]

omit [Crypto] in
/-- The loop over the inputs notes the coins that they spend. -/
theorem spendInputs_spent {inputs : List TxInput} {st st' : ConnectState}
    (hbase : st.overlay.base = t₀.lookup) (h : inputs.foldlM spendInput st = .ok st')
    (o : OutPoint) : st'.spent.lookup o = if o ∈ inputs.map TxInput.prevout then
      (st.table t₀).lookup o else st.spent.lookup o := by
  induction inputs generalizing st with
  | nil => rw [foldlM_nil_eq_ok.mp h, List.map_nil, if_neg List.not_mem_nil]
  | cons txin inputs ih =>
    obtain ⟨coins, hspends, -⟩ := spendInputs_ok hbase h
    have honce := (Spends.possible_iff.mp ⟨coins, _, hspends⟩).1
    rw [List.map_cons, List.nodup_cons] at honce
    obtain ⟨st₁, hhead, htail⟩ := foldlM_cons_eq_ok.mp h
    obtain ⟨coin, hcoin, rfl⟩ := (spendInput_eq_ok hbase).mp hhead
    have htable : (st.afterSpend txin.prevout coin).table t₀ =
        (st.table t₀).erase txin.prevout :=
      congrArg Session.table (afterSpend_session st txin.prevout coin)
    have hspent : (st.afterSpend txin.prevout coin).spent =
        st.spent.insert txin.prevout coin := rfl
    have hrest := @ih (st.afterSpend txin.prevout coin) hbase htail
    rw [htable, Table.lookup_erase_if, hspent, Table.lookup_insert_if] at hrest
    rw [hrest, List.map_cons]
    by_cases ho : o = txin.prevout
    · subst ho
      rw [if_neg honce.1, if_pos rfl, if_pos List.mem_cons_self, hcoin]
    · have hmem : o ∈ txin.prevout :: inputs.map TxInput.prevout ↔
          o ∈ inputs.map TxInput.prevout := by
        rw [List.mem_cons]
        exact or_iff_right ho
      rw [if_neg ho, if_neg ho, if_congr hmem rfl rfl]

theorem connectTransaction_spent {params : ChainParams} {entry : BlockIndexEntry}
    {st st' : ConnectState} {t : Transaction} (hbase : st.overlay.base = t₀.lookup)
    (h : connectTransaction params entry st t = .ok st') (o : OutPoint) :
    st'.spent.lookup o =
      if o ∈ t.spends then (st.table t₀).lookup o else st.spent.lookup o := by
  obtain ⟨-, ⟨hc, rfl⟩ | ⟨hrules, st₁, hspend, rfl⟩⟩ := (connectTransaction_eq_ok hbase).mp h
  · rw [Transaction.spends, if_pos hc, if_neg List.not_mem_nil]
    rfl
  · have hbase' : (st.withFee (inputTotal (st.table t₀).lookup t.inputs -
      t.totalOutput)).overlay.base = t₀.lookup := hbase
    have hspends : t.spends = t.inputs.map TxInput.prevout :=
      if_neg (by simp [hrules.notCoinbase])
    rw [hspends]
    exact spendInputs_spent hbase' hspend o

/-- What the loop notes as spent, by a view that shows each transaction its coins. -/
theorem connectTransactions_spent {params : ChainParams} {entry : BlockIndexEntry}
    {ts : List Transaction} {st st' : ConnectState} (view : OutPoint → Option Coin)
    (hbase : st.overlay.base = t₀.lookup)
    (hview : ∀ before t after, ts = before ++ t :: after → ∀ o ∈ t.spends,
      (replay (before.map (Transaction.posting entry.height)) (st.table t₀)).lookup o = view o)
    (h : ts.foldlM (connectTransaction params entry) st = .ok st') (o : OutPoint) :
    st'.spent.lookup o =
      if o ∈ ts.flatMap Transaction.spends then view o else st.spent.lookup o := by
  induction ts generalizing st with
  | nil => rw [foldlM_nil_eq_ok.mp h, List.flatMap_nil, if_neg List.not_mem_nil]
  | cons t ts ih =>
    obtain ⟨st₁, hhead, htail⟩ := foldlM_cons_eq_ok.mp h
    have hone := connectTransaction_ok hbase hhead
    have hrest := ih (hone.base.trans hbase) (fun before t' after hsplit => by
      rw [hone.table]
      exact hview (t :: before) t' after (by rw [hsplit, List.cons_append])) htail
    rw [hrest, connectTransaction_spent hbase hhead, List.flatMap_cons]
    by_cases hlater : o ∈ ts.flatMap Transaction.spends
    · rw [if_pos hlater, if_pos (List.mem_append_right _ hlater)]
    · by_cases ho : o ∈ t.spends
      · rw [if_neg hlater, if_pos ho, if_pos (List.mem_append_left _ ho)]
        exact hview [] t ts rfl o ho
      · rw [if_neg hlater, if_neg ho, if_neg (by simp [ho, hlater])]

/-! ## The block -/

/-- The checks of a block return iff the loop does and the coinbase pays out no more than it may. -/
theorem checkBlock_eq_ok {params : ChainParams} {utxo : Table OutPoint Coin} {b : Block}
    {entry : BlockIndexEntry} {st : ConnectState} :
    checkBlock params utxo b entry = .ok st ↔
      b.transactions.foldlM (connectTransaction params entry) (ConnectState.over utxo) = .ok st ∧
        ∃ coinbase, b.coinbase = .ok coinbase ∧
          coinbase.totalOutput ≤ params.subsidy entry.height + st.fees := by
  unfold checkBlock
  constructor
  · intro h
    obtain ⟨st', hloop, h₁⟩ := bind_eq_ok.mp h
    obtain ⟨coinbase, hcoinbase, h₂⟩ := bind_eq_ok.mp h₁
    obtain ⟨hreward, h₃⟩ := raiseIf_bind_eq_ok.mp h₂
    obtain rfl := pure_eq_ok.mp h₃
    exact ⟨hloop, coinbase, hcoinbase, Nat.not_lt.mp hreward⟩
  · rintro ⟨hloop, coinbase, hcoinbase, hreward⟩
    exact bind_eq_ok.mpr ⟨st, hloop, bind_eq_ok.mpr ⟨coinbase, hcoinbase,
      raiseIf_bind_eq_ok.mpr ⟨Nat.not_lt.mpr hreward, rfl⟩⟩⟩

/-- The ids of a block are new to a set of unspent outputs and distinct. -/
structure Block.FreshOver (utxo : Table OutPoint Coin) (b : Block) : Prop where
  new : ∀ o, utxo.lookup o ≠ none → o.txid ∉ b.txids
  distinct : b.txids.Nodup

section Fresh

variable {utxo : Table OutPoint Coin} {b : Block} {height : Nat}

theorem Block.postings_ids : (b.postings height).map Posting.id = b.txids := by
  rw [Block.postings, List.map_map]
  rfl

theorem Block.postings_owned : ∀ p ∈ b.postings height, Owned OutPoint.txid p := by
  intro p hp
  obtain ⟨t, -, rfl⟩ := List.mem_map.mp hp
  exact t.posting_owned height

theorem Block.postings_spends : (b.postings height).flatMap Posting.spends = b.spends := by
  rw [Block.postings, List.flatMap_map]
  rfl

theorem Block.postings_creates : (b.postings height).flatMap Posting.creates = b.coins height := by
  rw [Block.postings, List.flatMap_map]
  rfl

/-- The transactions find what they spend iff their postings do. -/
theorem Block.sourced_iff : Sourced utxo (b.postings height) ↔
    ∀ before t after, b.transactions = before ++ t :: after → ∀ o ∈ t.spends,
      utxo.lookup o ≠ none ∨ o ∈ before.flatMap Transaction.outpoints := by
  have hcreated : ∀ ts : List Transaction,
      ((ts.map (Transaction.posting height)).flatMap Posting.creates).map Prod.fst =
        ts.flatMap Transaction.outpoints := by
    intro ts
    rw [List.flatMap_map, List.map_flatMap]
    exact List.flatMap_congr fun t _ => t.coins_fst height
  constructor
  · intro h before t after hsplit o ho
    have hone := h (before.map (Transaction.posting height)) (t.posting height)
      (after.map (Transaction.posting height))
      (by rw [Block.postings, hsplit, List.map_append, List.map_cons]) o ho
    rwa [hcreated] at hone
  · intro h before p after hsplit o ho
    obtain ⟨before', rest, hts, rfl, hrest⟩ := List.map_eq_append_iff.mp hsplit
    obtain ⟨t, after', rfl, rfl, rfl⟩ := List.map_eq_cons_iff.mp hrest
    rw [hcreated]
    exact h before' t after' hts o ho

/-- With new ids, what a transaction of the block spends is shown by the coins offered. -/
theorem Block.FreshOver.shown (h : b.FreshOver utxo) (hsourced : Sourced utxo (b.postings height))
    (honce : b.spends.Nodup) {before after : List Transaction} {t : Transaction}
    (hsplit : b.transactions = before ++ t :: after) {o : OutPoint} (ho : o ∈ t.spends) :
    (b.offered height utxo).lookup o =
      (replay (before.map (Transaction.posting height)) utxo).lookup o := by
  have hforward : Forward (b.postings height) :=
    hsourced.forward Block.postings_owned (by rw [Block.postings_ids]; exact h.distinct)
      (by rw [Block.postings_ids]; exact h.new)
  have hposts : b.postings height = before.map (Transaction.posting height) ++
      t.posting height :: after.map (Transaction.posting height) := by
    rw [Block.postings, hsplit, List.map_append, List.map_cons]
  have hspends : (b.postings height).flatMap Posting.spends = b.spends := Block.postings_spends
  rw [← hspends, hposts] at honce
  rw [hposts] at hforward
  rw [hforward.lookup_replay honce ho, ← hposts, Block.postings_creates, Block.offered]

omit [Crypto] in
/-- Views that agree on the inputs give the same fee. -/
theorem Transaction.fee_congr {t : Transaction} {view view' : OutPoint → Option Coin}
    (h : ∀ o ∈ t.spends, view' o = view o) : t.fee view' = t.fee view := by
  unfold Transaction.fee inputTotal
  by_cases hc : t.isCoinbase = true
  · rw [if_pos hc, if_pos hc]
  · have hspends : t.spends = t.inputs.map TxInput.prevout := if_neg hc
    rw [hspends] at h
    rw [if_neg hc, if_neg hc, List.map_congr_left fun txin htxin => by
      rw [h txin.prevout (List.mem_map_of_mem htxin)]]

/-- The transactions of a block of new ids may be applied one after the other iff the block meets
the parts of the rule that are about them. -/
theorem Block.FreshOver.applicable_iff (h : b.FreshOver utxo) {params : ChainParams} :
    (∀ before t after, b.transactions = before ++ t :: after → Applicable params height
      (replay (before.map (Transaction.posting height)) utxo).lookup t) ↔
    (∀ t ∈ b.transactions, t.lockTime = 0 ∨ t.lockTime.toNat ≤ height) ∧
      Sourced utxo (b.postings height) ∧ b.spends.Nodup ∧
      ∀ t ∈ b.transactions, t.isCoinbase = false →
        SpendRules t (b.offered height utxo).lookup height params true := by
  have howned : ∀ p ∈ b.postings height, Owned OutPoint.txid p := Block.postings_owned
  have hplayable := playable_iff (t := utxo) howned
    (by rw [Block.postings_ids]; exact h.distinct) (by rw [Block.postings_ids]; exact h.new)
  rw [Block.postings_spends] at hplayable
  have hinputs : ∀ t : Transaction, t.isCoinbase = false →
      ∀ txin ∈ t.inputs, txin.prevout ∈ t.spends := fun t hc txin htxin =>
    Transaction.mem_spends.mpr ⟨hc, List.mem_map_of_mem htxin⟩
  constructor
  · intro happ
    obtain ⟨hsourced, honce⟩ := hplayable.mp fun before p after hsplit => by
      obtain ⟨before', rest, hts, rfl, hrest⟩ := List.map_eq_append_iff.mp hsplit
      obtain ⟨t, after', rfl, rfl, rfl⟩ := List.map_eq_cons_iff.mp hrest
      exact (happ before' t after' hts).playable
    refine ⟨fun t ht => ?_, hsourced, honce, fun t ht hc => ?_⟩
    · obtain ⟨before, after, hsplit⟩ := List.append_of_mem ht
      exact checkTransactionFinal_iff.mp (happ before t after hsplit).final
    · obtain ⟨before, after, hsplit⟩ := List.append_of_mem ht
      exact ((happ before t after hsplit).spending hc).congr fun txin htxin =>
        h.shown hsourced honce hsplit (hinputs t hc txin htxin)
  · rintro ⟨hfinal, hsourced, honce, hspending⟩ before t after hsplit
    have ht : t ∈ b.transactions := by
      rw [hsplit]
      exact List.mem_append_right _ List.mem_cons_self
    refine ⟨checkTransactionFinal_iff.mpr (hfinal t ht), ?_, fun hc => ?_⟩
    · refine hplayable.mpr ⟨hsourced, honce⟩ (before.map (Transaction.posting height))
        (t.posting height) (after.map (Transaction.posting height)) ?_
      rw [Block.postings, hsplit, List.map_append, List.map_cons]
    · exact (hspending t ht hc).congr fun txin htxin =>
        (h.shown hsourced honce hsplit (hinputs t hc txin htxin)).symm

/-- The checks of a block of new ids return iff it meets the rule. -/
theorem Block.FreshOver.checkBlock_iff (h : b.FreshOver utxo) {params : ChainParams}
    {entry : BlockIndexEntry} :
    (∃ st, checkBlock params utxo b entry = .ok st) ↔ BlockRule params utxo b entry.height := by
  have hbase : (ConnectState.over utxo).overlay.base = utxo.lookup := rfl
  have hstart : (ConnectState.over utxo).table utxo = utxo := CoinOverlay.flush_start _ utxo
  have hloop : (∃ st, b.transactions.foldlM (connectTransaction params entry)
      (ConnectState.over utxo) = .ok st) ↔ _ := connectTransactions_iff hbase
  rw [hstart, h.applicable_iff] at hloop
  have hfees : ∀ {st}, Sourced utxo (b.postings entry.height) → b.spends.Nodup →
      b.transactions.foldlM (connectTransaction params entry) (ConnectState.over utxo) = .ok st →
      st.fees = b.fees entry.height utxo := by
    intro st hsourced honce hst
    have hsum := connectTransactions_fees (b.offered entry.height utxo).lookup hbase
      (fun before t after hsplit => by
        rw [hstart]
        exact Transaction.fee_congr fun o ho => (h.shown hsourced honce hsplit ho).symm) hst
    rw [hsum]
    exact Nat.zero_add _
  constructor
  · rintro ⟨st, hst⟩
    obtain ⟨hran, coinbase, hcoinbase, hreward⟩ := checkBlock_eq_ok.mp hst
    obtain ⟨hfinal, hsourced, honce, hspending⟩ := hloop.mp ⟨st, hran⟩
    rw [hfees hsourced honce hran] at hreward
    exact ⟨hfinal, Block.sourced_iff.mp hsourced, honce, hspending, coinbase, hcoinbase, hreward⟩
  · rintro ⟨hfinal, hsourced, honce, hspending, coinbase, hcoinbase, hreward⟩
    have hsourced' : Sourced utxo (b.postings entry.height) := Block.sourced_iff.mpr hsourced
    obtain ⟨st, hran⟩ := hloop.mpr ⟨hfinal, hsourced', honce, hspending⟩
    rw [← hfees hsourced' honce hran] at hreward
    exact ⟨st, checkBlock_eq_ok.mpr ⟨hran, coinbase, hcoinbase, hreward⟩⟩

/-- A block of new ids that passes leads to the coins offered, less those it spends. -/
theorem Block.FreshOver.table_eq (h : b.FreshOver utxo) {params : ChainParams}
    {entry : BlockIndexEntry} {st : ConnectState}
    (hst : checkBlock params utxo b entry = .ok st) :
    st.table utxo = Table.eraseAll b.spends (b.offered entry.height utxo) := by
  have hrule := h.checkBlock_iff.mp ⟨st, hst⟩
  have hforward : Forward (b.postings entry.height) :=
    (Block.sourced_iff.mpr hrule.sourced).forward Block.postings_owned
      (by rw [Block.postings_ids]; exact h.distinct) (by rw [Block.postings_ids]; exact h.new)
  rw [(checkBlock_balanced hst).table, hforward.replay_eq, Block.postings_spends,
    Block.postings_creates, Block.offered]

/-- A block of new ids that passes notes the coins that it spends, and no others. -/
theorem Block.FreshOver.spent_eq (h : b.FreshOver utxo) {params : ChainParams}
    {entry : BlockIndexEntry} {st : ConnectState}
    (hst : checkBlock params utxo b entry = .ok st) (o : OutPoint) :
    st.spent.lookup o =
      if o ∈ b.spends then (b.offered entry.height utxo).lookup o else none := by
  have hrule := h.checkBlock_iff.mp ⟨st, hst⟩
  have hbase : (ConnectState.over utxo).overlay.base = utxo.lookup := rfl
  have hstart : (ConnectState.over utxo).table utxo = utxo := CoinOverlay.flush_start _ utxo
  have hspent := connectTransactions_spent (b.offered entry.height utxo).lookup hbase
    (fun before t after hsplit o ho => by
      rw [hstart]
      exact (h.shown (Block.sourced_iff.mpr hrule.sourced) hrule.once hsplit ho).symm)
    (checkBlock_eq_ok.mp hst).1 o
  rw [hspent]
  have hnone : (ConnectState.over utxo).spent.lookup o = none := Finmap.lookup_empty o
  rw [hnone, Block.spends]

/-- The undo record of a block of new ids that passes lists coins that it takes from the set. -/
theorem Block.FreshOver.undo_taken (h : b.FreshOver utxo) {params : ChainParams}
    {entry : BlockIndexEntry} {st : ConnectState}
    (hst : checkBlock params utxo b entry = .ok st) {o : OutPoint} {coin : Coin}
    (ho : (o, coin) ∈ st.undo) : o ∈ b.spends ∧ utxo.lookup o = some coin := by
  have hbal := checkBlock_balanced hst
  have hlogged : utxo.lookup o = some coin := hbal.sound.logged o coin ho
  have hsome : utxo.lookup o ≠ none := by
    rw [hlogged]
    exact Option.some_ne_none coin
  -- an outpoint of the set is none of those that the block creates
  have hout : o ∉ st.created := by
    rw [hbal.created]
    intro hmem
    obtain ⟨t, ht, hot⟩ := List.mem_flatMap.mp hmem
    refine h.new o hsome ?_
    rw [Transaction.outpoints_txid hot]
    exact List.mem_map_of_mem ht
  have hnot : o ∉ (b.coins entry.height).map Prod.fst := by
    rw [Block.coins, List.map_flatMap, List.mem_flatMap]
    rintro ⟨t, ht, hot⟩
    rw [t.coins_fst] at hot
    exact hout ((hbal.created o).mpr (List.mem_flatMap.mpr ⟨t, ht, hot⟩))
  have hgone : (st.table utxo).lookup o = none :=
    hbal.sound.spent o hout (List.mem_map_of_mem ho)
  rw [h.table_eq hst, Table.lookup_eraseAll, Block.offered,
    Table.lookup_insertAll_of_notMem hnot] at hgone
  refine ⟨?_, hlogged⟩
  by_contra hmem
  rw [if_neg hmem] at hgone
  exact hsome hgone

/-- What a transaction that meets the rules spends is within the money limit. -/
theorem SpendRules.value_le {t : Transaction} {view : OutPoint → Option Coin} {params : ChainParams}
    {verify : Bool} (h : SpendRules t view height params verify) {o : OutPoint} {coin : Coin}
    (ho : o ∈ t.spends) (hview : view o = some coin) : coin.value ≤ MAX_MONEY := by
  obtain ⟨txin, htxin, rfl⟩ := List.mem_map.mp (Transaction.mem_spends.mp ho).2
  refine Nat.le_trans ?_ h.money
  have hmem := List.mem_map_of_mem (f := fun txin : TxInput =>
    ((view txin.prevout).map Coin.value).getD 0) htxin
  simp only [hview, Option.map_some, Option.getD_some] at hmem
  exact List.single_le_sum (fun _ _ => Nat.zero_le _) _ hmem

omit [Crypto] in
/-- A block spends fewer outpoints than its wire format has bytes. -/
theorem Block.spends_length_le : b.spends.length ≤ b.size := by
  have hflat : ∀ {α : Type} (xs : List α) (f : α → Bytes) (g : α → List OutPoint),
      (∀ x ∈ xs, (g x).length ≤ (f x).length) →
      (xs.flatMap g).length ≤ (xs.flatMap f).length := by
    intro α xs f g hle
    rw [List.length_flatMap, List.length_flatMap]
    exact List.sum_le_sum hle
  have hone : ∀ t : Transaction, t.spends.length ≤ t.serialize.length := by
    intro t
    have hinputs := hflat t.inputs (fun txin => InputCore.serialize txin.core)
      (fun txin => [txin.prevout]) fun txin _ => by
        have hid := txin.prevout.txid.property
        simp only [InputCore.serialize, TxInput.core, List.length_append, List.length_singleton]
        omega
    have hlen : t.spends.length ≤ (t.inputs.flatMap fun txin => [txin.prevout]).length := by
      rw [Transaction.spends]
      split <;> simp
    rw [Transaction.serialize, Transaction.serializeBody]
    simp only [List.length_append]
    omega
  have hall := hflat b.transactions Transaction.serialize Transaction.spends fun t _ => hone t
  rw [Block.size, Block.serialize]
  simp only [List.length_append]
  exact Nat.le_trans hall (by omega)

end Fresh

/-- **A block is connected by the declarative rule.** A sane block whose ids are new to the unspent
outputs is connected iff it meets the rule, and what it leaves are the outputs it does not spend and
those it creates and does not spend itself. The heights of coins are claimed in four bytes by the
coinbases of their blocks. -/
theorem connectBlock_declarative [ScanOrder Hash] {params : ChainParams} {s : Storage} {b : Block}
    {entry : BlockIndexEntry} {isAuxpowActive : Bool}
    (hsane : b.checkSanity params.powLimit params.maxBlockSize params.minOutputValue
      isAuxpowActive = .ok ())
    (hnew : ∀ o, s.utxo.lookup o ≠ none → o.txid ∉ b.txids)
    (hheights : ∀ o coin, s.utxo.lookup o = some coin → coin.height < 2 ^ 32)
    (hsize : b.size < 2 ^ 64) :
    ((∃ s', connectBlock params s b entry = .ok s') ↔
      BlockRule params s.utxo b entry.height) ∧
    ∀ s', connectBlock params s b entry = .ok s' →
      s'.utxo = Table.insertAll ((b.coins entry.height).filter fun c => c.1 ∉ b.spends)
        (Table.eraseAll b.spends s.utxo) := by
  have hfresh : b.FreshOver s.utxo := ⟨hnew, (Block.checkSanity_sane hsane).distinct⟩
  constructor
  · rw [← hfresh.checkBlock_iff]
    constructor
    · rintro ⟨s', h⟩
      obtain ⟨st, data, hcheck, -, -⟩ := connectBlock_eq_ok.mp h
      exact ⟨st, hcheck⟩
    · rintro ⟨st, hcheck⟩
      have hrule := hfresh.checkBlock_iff.mp ⟨st, hcheck⟩
      -- the undo record can be written: its coins come from the set and obey the money limit
      have hfits : ∀ taken ∈ st.undo, taken.2.Fits := by
        rintro ⟨o, coin⟩ hmem
        obtain ⟨hspent, hcoin⟩ := hfresh.undo_taken hcheck hmem
        obtain ⟨t, ht, ho⟩ := List.mem_flatMap.mp hspent
        have hnot := (Transaction.mem_spends.mp ho).1
        have hshown : (b.offered entry.height s.utxo).lookup o = some coin := by
          rw [Block.offered, Table.lookup_insertAll_of_notMem, hcoin]
          intro hmade
          rw [Block.coins, List.map_flatMap, List.mem_flatMap] at hmade
          obtain ⟨t', ht', hot⟩ := hmade
          rw [t'.coins_fst] at hot
          refine hnew o (by rw [hcoin]; exact Option.some_ne_none coin) ?_
          rw [Transaction.outpoints_txid hot]
          exact List.mem_map_of_mem ht'
        have hvalue := (hrule.spending t ht hnot).value_le ho hshown
        exact ⟨Nat.lt_of_le_of_lt hvalue MAX_MONEY_lt, hheights o coin hcoin⟩
      have hlen : st.undo.length < 2 ^ 64 := by
        have honce := (checkBlock_balanced hcheck).sound.once
        have hsub : st.undo.map Prod.fst ⊆ b.spends := by
          intro o ho
          obtain ⟨taken, hmem, rfl⟩ := List.mem_map.mp ho
          exact (hfresh.undo_taken hcheck hmem).1
        have hle : (st.undo.map Prod.fst).length ≤ b.spends.length :=
          (List.Nodup.subperm honce hsub).length_le
        have hspends := b.spends_length_le
        rw [List.length_map] at hle
        omega
      exact ⟨_, connectBlock_eq_ok.mpr ⟨st, _, hcheck,
        encodeUndo_eq_ok.mpr ⟨hlen, hfits, rfl⟩, rfl⟩⟩
  · intro s' h
    obtain ⟨st, data, hcheck, -, rfl⟩ := connectBlock_eq_ok.mp h
    rw [(recordBlock_connected s b entry st data).utxo, hfresh.table_eq hcheck, Block.offered,
      Table.eraseAll_insertAll]

end Rule

section Instances

attribute [local instance] Sample.crypto Sample.order

/-- A coin that the script `OP_1` opens. -/
def openCoin : Coin := ⟨5, OUTPUT_P2SH, Sample.payload 0, 3, false⟩

/-- A set of unspent outputs with the coin alone. -/
def openSet : Storage :=
  { Storage.empty with utxo := (∅ : Table OutPoint Coin).insert ⟨nullHash, 0⟩ openCoin }

/-- A spend of the coin. -/
def openSpend : Transaction :=
  Sample.transfer ⟨nullHash, 0⟩ [⟨[0x51], Sample.opener_fits⟩] (Sample.payTo 4 (by decide))
    (by decide)

/-- A block with the spend, and the coinbase that takes its fee. -/
def openBlock : Block :=
  Sample.block nullHash 0x207FFFFF 1700000052
    [Sample.coinbase 5 0 (Sample.payTo (50 * COIN + 1) (by decide)), openSpend] (by decide)

/-- It holds of the block: it is connected, so it meets the rule. -/
theorem openBlock_rule :
    BlockRule REGTEST openSet.utxo openBlock (BlockRow.entry openBlock.hash
      ⟨5, 12, false, false, openBlock, openBlock.transactions.length⟩).height := by
  have hlook : ∀ o, openSet.utxo.lookup o = if o = ⟨nullHash, 0⟩ then some openCoin else none := by
    intro o
    rw [openSet, Table.lookup_insert_if, Finmap.lookup_empty]
  have hsane : openBlock.checkSanity REGTEST.powLimit REGTEST.maxBlockSize REGTEST.minOutputValue
      false = .ok () := by decide +kernel
  refine (connectBlock_declarative hsane ?_ ?_ ?_).1.mp ?_
  · intro o ho
    rw [hlook] at ho
    split at ho
    · rename_i heq
      rw [heq]
      decide +kernel
    · exact absurd rfl ho
  · intro o coin ho
    rw [hlook] at ho
    split at ho
    · rw [← Option.some.inj ho]
      decide
    · cases ho
  · decide +kernel
  · have hrun : (connectBlock REGTEST openSet openBlock (BlockRow.entry openBlock.hash
        ⟨5, 12, false, false, openBlock, openBlock.transactions.length⟩)).toBool = true := by
      decide +kernel
    cases hcon : connectBlock REGTEST openSet openBlock (BlockRow.entry openBlock.hash
        ⟨5, 12, false, false, openBlock, openBlock.transactions.length⟩) with
    | error e =>
      rw [hcon] at hrun
      cases hrun
    | ok s' => exact ⟨s', rfl⟩

end Instances

end ScarletCoin
