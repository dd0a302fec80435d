import ScarletCoin.Core.Connect
import ScarletCoin.Rules.Spending
import ScarletCoin.Toolkit.Ledger

/-!
# What connecting and disconnecting a block do

A transaction is a posting on the table of unspent outputs, and connecting a block makes the
postings of its transactions in a session on that table. `Accounts` collects what holds of a run of
the loop over the transactions (`connectTransactions_ok`): the table moves as the postings say,
every posting spends outputs that are there, the undo record is the log of the session, and what the
table gains is at most what coinbases pay out, less the fees.

`connectBlock_eq_ok` and `disconnectBlock_eq_ok` say when the two operations succeed and which
storage they leave; `Connected` and `Disconnected` are the parts of it that the invariants need.
-/

set_option autoImplicit false

namespace ScarletCoin

open Toolkit

variable [Crypto]

/-! ## Transactions as postings -/

namespace Transaction

/-- The outpoints that a transaction removes. -/
def spends (t : Transaction) : List OutPoint :=
  if t.isCoinbase then [] else t.inputs.map TxInput.prevout

omit [Crypto] in
theorem mem_spends {t : Transaction} {o : OutPoint} :
    o ∈ t.spends ↔ t.isCoinbase = false ∧ o ∈ t.inputs.map TxInput.prevout := by
  unfold spends
  cases t.isCoinbase <;> simp

/-- The effect of a transaction in a block at `height`. -/
def posting (height : Nat) (t : Transaction) : Posting Hash OutPoint Coin :=
  ⟨t.txid, t.spends, t.coins height⟩

theorem posting_owned (height : Nat) (t : Transaction) :
    Owned OutPoint.txid (t.posting height) := by
  intro o ho
  rw [posting, coins_fst] at ho
  exact outpoints_txid ho

end Transaction

/-- The effects of the transactions of a block at `height`, in order. -/
def Block.postings (height : Nat) (b : Block) : List (Posting Hash OutPoint Coin) :=
  b.transactions.map (Transaction.posting height)

/-- The outpoints that a block creates. -/
def Block.outpoints (b : Block) : List OutPoint := b.transactions.flatMap Transaction.outpoints

/-- What the coinbases among the transactions pay out. -/
def minted (ts : List Transaction) : Nat :=
  ((ts.filter Transaction.isCoinbase).map Transaction.totalOutput).sum

/-! ## Spending the inputs -/

namespace ConnectState

/-- The table that the overlay shows over `t₀`. -/
def table (t₀ : Table OutPoint Coin) (st : ConnectState) : Table OutPoint Coin :=
  st.overlay.flush t₀

/-- The session that the local variables describe. -/
def session (t₀ : Table OutPoint Coin) (st : ConnectState) : Session OutPoint Coin :=
  ⟨st.table t₀, st.created, st.undo⟩

/-- The local variables after the coin of an input has been spent. -/
def afterSpend (st : ConnectState) (o : OutPoint) (coin : Coin) : ConnectState :=
  { st with
    overlay := st.overlay.markSpent o
    spent := st.spent.insert o coin
    undo := if o ∈ st.created then st.undo else st.undo ++ [(o, coin)] }

/-- The local variables with the fee of a transaction added. -/
def withFee (st : ConnectState) (fee : Nat) : ConnectState := { st with fees := st.fees + fee }

end ConnectState

variable {t₀ : Table OutPoint Coin}

omit [Crypto] in
theorem afterSpend_session (st : ConnectState) (o : OutPoint) (coin : Coin) :
    (st.afterSpend o coin).session t₀ = (st.session t₀).spend o coin := by
  unfold ConnectState.session ConnectState.table Session.spend ConnectState.afterSpend
  rw [CoinOverlay.flush_spend]

omit [Crypto] in
theorem spendInput_eq_ok {st st' : ConnectState} {txin : TxInput}
    (hbase : st.overlay.base = t₀.lookup) :
    spendInput st txin = .ok st' ↔ ∃ coin, (st.table t₀).lookup txin.prevout = some coin ∧
      st' = st.afterSpend txin.prevout coin := by
  have hget : st.overlay.getCoin txin.prevout = (st.table t₀).lookup txin.prevout :=
    CoinOverlay.getCoin_eq hbase txin.prevout
  unfold spendInput CoinOverlay.spend
  rw [hget]
  cases (st.table t₀).lookup txin.prevout with
  | none => simp
  | some coin =>
    show pure (st.afterSpend txin.prevout coin) = Except.ok st' ↔ _
    rw [pure_eq_ok]
    simp [eq_comm]

omit [Crypto] in
/-- The loop over the inputs spends their coins one after the other. -/
theorem spendInputs_ok {inputs : List TxInput} {st st' : ConnectState}
    (hbase : st.overlay.base = t₀.lookup) (h : inputs.foldlM spendInput st = .ok st') :
    ∃ coins, Spends (st.table t₀) (inputs.map TxInput.prevout) coins (st'.table t₀) ∧
      (Session.Sound t₀ (st.session t₀) → Session.Sound t₀ (st'.session t₀)) ∧
      st'.overlay.base = st.overlay.base ∧ st'.created = st.created ∧ st'.fees = st.fees := by
  induction inputs generalizing st with
  | nil =>
    obtain rfl := foldlM_nil_eq_ok.mp h
    exact ⟨[], .nil _, id, rfl, rfl, rfl⟩
  | cons txin inputs ih =>
    obtain ⟨st₁, hhead, htail⟩ := foldlM_cons_eq_ok.mp h
    obtain ⟨coin, hcoin, rfl⟩ := (spendInput_eq_ok hbase).mp hhead
    obtain ⟨coins, hspends, hsound, hbase', hcreated, hfees⟩ :=
      @ih (st.afterSpend txin.prevout coin) hbase htail
    have hsession : (st.afterSpend txin.prevout coin).session t₀ =
        (st.session t₀).spend txin.prevout coin := afterSpend_session st txin.prevout coin
    have htable : (st.afterSpend txin.prevout coin).table t₀ =
        (st.table t₀).erase txin.prevout := congrArg Session.table hsession
    refine ⟨coin :: coins, .cons hcoin ?_, fun hs => hsound ?_, hbase', hcreated, hfees⟩
    · rwa [← htable]
    · rw [hsession]
      exact hs.spend hcoin

omit [Crypto] in
/-- What a list of coins brings in is the sum of the coins spent. -/
theorem Spends.inputTotal_eq {t t' : Table OutPoint Coin} {inputs : List TxInput}
    {coins : List Coin} (h : Spends t (inputs.map TxInput.prevout) coins t') :
    inputTotal t.lookup inputs = (coins.map Coin.value).sum := by
  have hlook := h.lookups
  rw [List.map_map] at hlook
  have hvalues := congrArg (List.map fun c : Option Coin => (c.map Coin.value).getD 0) hlook
  rw [List.map_map, List.map_map] at hvalues
  exact congrArg List.sum hvalues

/-! ## The loop over the transactions -/

/-- What holds of a run of the loop over the transactions `ts`. -/
structure Accounts (t₀ : Table OutPoint Coin) (params : ChainParams) (height : Nat)
    (ts : List Transaction) (st st' : ConnectState) : Prop where
  base : st'.overlay.base = st.overlay.base
  table : st'.table t₀ = replay (ts.map (Transaction.posting height)) (st.table t₀)
  payable : Payable (ts.map (Transaction.posting height)) (st.table t₀)
  sound : Session.Sound t₀ (st.session t₀) → Session.Sound t₀ (st'.session t₀)
  created : ∀ o, o ∈ st'.created ↔ o ∈ st.created ∨ o ∈ ts.flatMap Transaction.outpoints
  money : Table.total Coin.value (st'.table t₀) + st'.fees ≤
    Table.total Coin.value (st.table t₀) + st.fees + minted ts

theorem Accounts.nil (params : ChainParams) (height : Nat) (st : ConnectState) :
    Accounts t₀ params height [] st st where
  base := rfl
  table := rfl
  payable := trivial
  sound := id
  created o := by simp
  money := by simp [minted]

/-- The accounts of a transaction and of those after it add up. -/
theorem Accounts.cons {params : ChainParams} {height : Nat} {t : Transaction}
    {ts : List Transaction} {st st₁ st' : ConnectState} (h : Accounts t₀ params height [t] st st₁)
    (hs : Accounts t₀ params height ts st₁ st') : Accounts t₀ params height (t :: ts) st st' where
  base := hs.base.trans h.base
  table := by rw [hs.table, h.table]; rfl
  payable := ⟨h.payable.1, by
    have hpay := hs.payable
    rw [h.table] at hpay
    exact hpay⟩
  sound := hs.sound ∘ h.sound
  created o := by
    rw [hs.created, h.created]
    simp only [List.flatMap_cons, List.flatMap_nil, List.mem_append, List.not_mem_nil, or_false]
    exact or_assoc
  money := by
    have hone := h.money
    have hrest := hs.money
    have hsplit : minted (t :: ts) = minted [t] + minted ts := by
      unfold minted
      cases hc : t.isCoinbase <;> simp [hc]
    omega

/-- Creating the outputs of a transaction, after its inputs have been spent. -/
theorem createOutputs_session (height : Nat) (t : Transaction) (st : ConnectState) :
    (createOutputs height t st).session t₀ = (st.session t₀).create (t.coins height) := by
  unfold createOutputs ConnectState.session ConnectState.table Session.create
  rw [CoinOverlay.flush_addTransaction, Transaction.coins_fst]

theorem createOutputs_table (height : Nat) (t : Transaction) (st : ConnectState) :
    (createOutputs height t st).table t₀ = Table.insertAll (t.coins height) (st.table t₀) :=
  congrArg Session.table (createOutputs_session height t st)

theorem createOutputs_base (height : Nat) (t : Transaction) (st : ConnectState) :
    (createOutputs height t st).overlay.base = st.overlay.base :=
  CoinOverlay.base_addTransaction st.overlay t height

/-- Creating the outputs of a transaction adds at most what it pays out. -/
theorem createOutputs_total (height : Nat) (t : Transaction) (st : ConnectState) :
    Table.total Coin.value ((createOutputs height t st).table t₀) ≤
      Table.total Coin.value (st.table t₀) + t.totalOutput := by
  rw [createOutputs_table, ← t.coins_value height]
  exact Table.total_insertAll_le Coin.value (t.coins height) (st.table t₀)

/-- The round of a coinbase. -/
theorem Accounts.coinbase {params : ChainParams} {height : Nat} {t : Transaction}
    {st : ConnectState} (hc : t.isCoinbase = true) :
    Accounts t₀ params height [t] st (createOutputs height t st) where
  base := createOutputs_base height t st
  table := by
    rw [createOutputs_table]
    show _ = (t.posting height).apply (st.table t₀)
    rw [Posting.apply, Transaction.posting, Transaction.spends, if_pos hc]
    rfl
  payable := by
    refine ⟨fun o ho => ?_, trivial⟩
    rw [Transaction.posting, Transaction.spends, if_pos hc] at ho
    cases ho
  sound hs := by
    rw [createOutputs_session]
    exact hs.create (t.coins height)
  created o := by
    rw [createOutputs, List.mem_append, List.flatMap_cons, List.flatMap_nil, List.append_nil]
    exact or_comm
  money := by
    have htotal : Table.total Coin.value ((createOutputs height t st).table t₀) ≤ _ :=
      createOutputs_total height t st
    have hminted : minted [t] = t.totalOutput := by simp [minted, hc]
    have hfees : (createOutputs height t st).fees = st.fees := rfl
    omega

/-- The round of a transaction that spends coins. -/
theorem Accounts.transfer {params : ChainParams} {height : Nat} {t : Transaction}
    {st st₁ : ConnectState} (hbase : st.overlay.base = t₀.lookup)
    (hrules : SpendRules t (st.table t₀).lookup height params true)
    (hspend : t.inputs.foldlM spendInput
      (st.withFee (inputTotal (st.table t₀).lookup t.inputs - t.totalOutput)) = .ok st₁) :
    Accounts t₀ params height [t] st (createOutputs height t st₁) := by
  have hnot : ¬ t.isCoinbase = true := by simp [hrules.notCoinbase]
  have hspends : t.spends = t.inputs.map TxInput.prevout := if_neg hnot
  have hbase' : (st.withFee (inputTotal (st.table t₀).lookup t.inputs -
      t.totalOutput)).overlay.base = t₀.lookup := hbase
  obtain ⟨coins, hcoins, hsound, hbase₁, hcreated, hfees⟩ := spendInputs_ok hbase' hspend
  refine ⟨?_, ?_, ?_, ?_, ?_, ?_⟩
  · rw [createOutputs_base, hbase₁]
    rfl
  · rw [createOutputs_table, hcoins.eq_eraseAll]
    show _ = (t.posting height).apply (st.table t₀)
    rw [Posting.apply, Transaction.posting, hspends]
    rfl
  · refine ⟨fun o ho => hcoins.mem_lookup ?_, trivial⟩
    rwa [Transaction.posting, hspends] at ho
  · intro hs
    rw [createOutputs_session]
    exact (hsound hs).create (t.coins height)
  · intro o
    rw [createOutputs, List.mem_append, hcreated, List.flatMap_cons, List.flatMap_nil,
      List.append_nil]
    exact or_comm
  · -- what is created and the fee are no more than what was spent
    have htotal : Table.total Coin.value ((createOutputs height t st₁).table t₀) ≤ _ :=
      createOutputs_total height t st₁
    have hspent := hcoins.total_add Coin.value
    have hsum := Spends.inputTotal_eq hcoins
    have hcovered := hrules.covered
    have hminted : minted [t] = 0 := by simp [minted, hrules.notCoinbase]
    have hfees' : (createOutputs height t st₁).fees = st₁.fees := rfl
    have hfees₁ : st₁.fees =
        st.fees + (inputTotal (st.table t₀).lookup t.inputs - t.totalOutput) := hfees
    have htable : (st.withFee
        (inputTotal (st.table t₀).lookup t.inputs - t.totalOutput)).table t₀ = st.table t₀ := rfl
    rw [htable] at hspent hsum
    omega

/-- A round of the loop returns iff the transaction is final and, unless it is a coinbase, meets the
rules and its coins can be spent. -/
theorem connectTransaction_eq_ok {params : ChainParams} {entry : BlockIndexEntry}
    {st st' : ConnectState} {t : Transaction} (hbase : st.overlay.base = t₀.lookup) :
    connectTransaction params entry st t = .ok st' ↔
      checkTransactionFinal t entry.height = true ∧
      ((t.isCoinbase = true ∧ st' = createOutputs entry.height t st) ∨
        (SpendRules t (st.table t₀).lookup entry.height params true ∧
          ∃ st₁, t.inputs.foldlM spendInput
            (st.withFee (inputTotal (st.table t₀).lookup t.inputs - t.totalOutput)) = .ok st₁ ∧
            st' = createOutputs entry.height t st₁)) := by
  have hview : st.overlay.getCoin = (st.table t₀).lookup :=
    funext fun o => CoinOverlay.getCoin_eq hbase o
  -- what is caught raises again, as a fault of the block
  have hrescue : ∀ fee,
      rescue (checkTransactionInputs t st.overlay.getCoin entry.height params true)
      (blameBlock entry.hash t) = .ok fee ↔
      checkTransactionInputs t (st.table t₀).lookup entry.height params true = .ok fee := by
    intro fee
    rw [rescue_eq_ok, hview]
    refine or_iff_left ?_
    rintro ⟨e, -, hblame⟩
    unfold blameBlock at hblame
    split at hblame
    · cases Option.some.inj hblame
    · cases hblame
  unfold connectTransaction
  rw [raiseIf_bind_eq_ok, Bool.not_eq_false]
  refine and_congr_right fun _ => ?_
  by_cases hc : t.isCoinbase = true
  · rw [if_pos hc, pure_eq_ok]
    constructor
    · rintro rfl
      exact .inl ⟨hc, rfl⟩
    · rintro (⟨-, rfl⟩ | ⟨hrules, -⟩)
      · rfl
      · rw [hrules.notCoinbase] at hc
        cases hc
  · rw [if_neg hc, bind_eq_ok]
    constructor
    · rintro ⟨fee, hfee, hrest⟩
      obtain ⟨hrules, rfl⟩ := checkTransactionInputs_eq_ok.mp ((hrescue fee).mp hfee)
      obtain ⟨st₁, hspend, hpure⟩ := bind_eq_ok.mp hrest
      exact .inr ⟨hrules, st₁, hspend, (pure_eq_ok.mp hpure).symm⟩
    · rintro (⟨hc', -⟩ | ⟨hrules, st₁, hspend, rfl⟩)
      · exact absurd hc' hc
      · exact ⟨_, (hrescue _).mpr (checkTransactionInputs_eq_ok.mpr ⟨hrules, rfl⟩),
          bind_eq_ok.mpr ⟨st₁, hspend, rfl⟩⟩

/-- The accounts of one round. -/
theorem connectTransaction_ok {params : ChainParams} {entry : BlockIndexEntry}
    {st st' : ConnectState} {t : Transaction} (hbase : st.overlay.base = t₀.lookup)
    (h : connectTransaction params entry st t = .ok st') :
    Accounts t₀ params entry.height [t] st st' := by
  obtain ⟨-, ⟨hc, rfl⟩ | ⟨hrules, st₁, hspend, rfl⟩⟩ := (connectTransaction_eq_ok hbase).mp h
  · exact Accounts.coinbase hc
  · exact Accounts.transfer hbase hrules hspend

/-- The accounts of the whole loop. -/
theorem connectTransactions_ok {params : ChainParams} {entry : BlockIndexEntry}
    {st st' : ConnectState} {ts : List Transaction} (hbase : st.overlay.base = t₀.lookup)
    (h : ts.foldlM (connectTransaction params entry) st = .ok st') :
    Accounts t₀ params entry.height ts st st' := by
  induction ts generalizing st with
  | nil => exact foldlM_nil_eq_ok.mp h ▸ Accounts.nil params entry.height st
  | cons t ts ih =>
    obtain ⟨st₁, hhead, htail⟩ := foldlM_cons_eq_ok.mp h
    have hone := connectTransaction_ok hbase hhead
    exact hone.cons (ih (hone.base.trans hbase) htail)

/-- A transaction of a loop that ran through, unless it is a coinbase, meets the rules over the
table that those before it lead to. -/
theorem connectTransactions_rules {params : ChainParams} {entry : BlockIndexEntry}
    {st st' : ConnectState} {before after : List Transaction} {t : Transaction}
    (hbase : st.overlay.base = t₀.lookup)
    (h : (before ++ t :: after).foldlM (connectTransaction params entry) st = .ok st')
    (ht : t.isCoinbase = false) :
    SpendRules t (replay (before.map (Transaction.posting entry.height)) (st.table t₀)).lookup
      entry.height params true := by
  rw [List.foldlM_append] at h
  obtain ⟨st₁, hbefore, hrest⟩ := bind_eq_ok.mp h
  obtain ⟨st₂, hone, -⟩ := foldlM_cons_eq_ok.mp hrest
  have haccounts := connectTransactions_ok hbase hbefore
  obtain ⟨-, ⟨hc, -⟩ | ⟨hrules, -⟩⟩ :=
    (connectTransaction_eq_ok (haccounts.base.trans hbase)).mp hone
  · rw [ht] at hc
    cases hc
  · rwa [haccounts.table] at hrules

/-! ## Connecting a block -/

/-- The local variables before the first transaction, over a table of coins. -/
def ConnectState.over (utxo : Table OutPoint Coin) : ConnectState :=
  ⟨CoinOverlay.start utxo.lookup, ∅, [], [], 0⟩

/-- The half of `_connect_block` that validates; of the storage it reads the coins alone. -/
def checkBlock (params : ChainParams) (utxo : Table OutPoint Coin) (block : Block)
    (entry : BlockIndexEntry) : Except PyError ConnectState := do
  let st ← block.transactions.foldlM (connectTransaction params entry) (ConnectState.over utxo)
  let coinbase ← block.coinbase
  raiseIf (params.subsidy entry.height + st.fees < coinbase.totalOutput)
    (.connect entry.hash (s!"coinbase pays {coinbase.totalOutput} scar but only" ++
      s!" {params.subsidy entry.height + st.fees} is available" ++
      s!" (subsidy {params.subsidy entry.height} + fees {st.fees})"))
  pure st

/-- The storage after the half of `_connect_block` that writes. -/
def recordBlock [ScanOrder Hash] (s : Storage) (block : Block) (entry : BlockIndexEntry)
    (st : ConnectState) (data : Bytes) : Storage :=
  ((indexBlock { s.writeOverlay st.overlay with undo := s.undo.insert entry.hash data } block
    entry.height st.spent).setInChain entry.hash true).pruneUndoAtHeight
      ((entry.height : Int) - (UNDO_KEEP_BLOCKS : Int))

/-- A block is connected iff it passes the checks and its undo record can be written. -/
theorem connectBlock_eq_ok [ScanOrder Hash] {params : ChainParams} {s s' : Storage} {block : Block}
    {entry : BlockIndexEntry} :
    connectBlock params s block entry = .ok s' ↔
      ∃ st data, checkBlock params s.utxo block entry = .ok st ∧ encodeUndo st.undo = .ok data ∧
        s' = recordBlock s block entry st data := by
  unfold connectBlock checkBlock Storage.putUndo
  constructor
  · intro h
    obtain ⟨st, hloop, h₁⟩ := bind_eq_ok.mp h
    obtain ⟨coinbase, hcoinbase, h₂⟩ := bind_eq_ok.mp h₁
    obtain ⟨hreward, h₃⟩ := raiseIf_bind_eq_ok.mp h₂
    obtain ⟨s₁, hput, h₄⟩ := bind_eq_ok.mp h₃
    obtain ⟨data, hdata, hwrite⟩ := bind_eq_ok.mp hput
    obtain rfl := pure_eq_ok.mp hwrite
    refine ⟨st, data, ?_, hdata, (pure_eq_ok.mp h₄).symm⟩
    exact bind_eq_ok.mpr ⟨st, hloop, bind_eq_ok.mpr ⟨coinbase, hcoinbase,
      raiseIf_bind_eq_ok.mpr ⟨hreward, rfl⟩⟩⟩
  · rintro ⟨st, data, hcheck, hdata, rfl⟩
    obtain ⟨st', hloop, h₁⟩ := bind_eq_ok.mp hcheck
    obtain ⟨coinbase, hcoinbase, h₂⟩ := bind_eq_ok.mp h₁
    obtain ⟨hreward, h₃⟩ := raiseIf_bind_eq_ok.mp h₂
    obtain rfl := pure_eq_ok.mp h₃
    exact bind_eq_ok.mpr ⟨st', hloop, bind_eq_ok.mpr ⟨coinbase, hcoinbase,
      raiseIf_bind_eq_ok.mpr ⟨hreward, bind_eq_ok.mpr
        ⟨_, bind_eq_ok.mpr ⟨data, hdata, rfl⟩, rfl⟩⟩⟩⟩

/-- What holds of a block that passes the checks over the table `t₀`, with the table it leads to. -/
structure Balanced (params : ChainParams) (t₀ : Table OutPoint Coin) (block : Block) (height : Nat)
    (st : ConnectState) : Prop where
  table : st.table t₀ = replay (block.postings height) t₀
  payable : Payable (block.postings height) t₀
  sound : Session.Sound t₀ (st.session t₀)
  created : ∀ o, o ∈ st.created ↔ o ∈ block.outpoints
  money : Table.total Coin.value (st.table t₀) + (block.transactions.head?.elim 0
    Transaction.totalOutput) ≤
      Table.total Coin.value t₀ + params.subsidy height + minted block.transactions

theorem checkBlock_balanced {params : ChainParams} {block : Block} {entry : BlockIndexEntry}
    {st : ConnectState} (h : checkBlock params t₀ block entry = .ok st) :
    Balanced params t₀ block entry.height st := by
  obtain ⟨st', hloop, h₁⟩ := bind_eq_ok.mp h
  obtain ⟨coinbase, hcoinbase, h₂⟩ := bind_eq_ok.mp h₁
  obtain ⟨hreward, h₃⟩ := raiseIf_bind_eq_ok.mp h₂
  obtain rfl := pure_eq_ok.mp h₃
  have hover : (ConnectState.over t₀).overlay.base = t₀.lookup := rfl
  have haccounts := connectTransactions_ok hover hloop
  have hstart : (ConnectState.over t₀).table t₀ = t₀ := CoinOverlay.flush_start _ t₀
  have hfirst : block.transactions.head?.elim 0 Transaction.totalOutput = coinbase.totalOutput := by
    unfold Block.coinbase at hcoinbase
    cases hts : block.transactions with
    | nil =>
      rw [hts] at hcoinbase
      cases hcoinbase
    | cons t ts =>
      rw [hts] at hcoinbase
      rw [Except.ok.inj hcoinbase]
      rfl
  refine ⟨?_, ?_, haccounts.sound ?_, fun o => ?_, ?_⟩
  · rw [haccounts.table, hstart]
    rfl
  · have hpay := haccounts.payable
    rw [hstart] at hpay
    exact hpay
  · unfold ConnectState.session
    rw [hstart]
    exact Session.Sound.start t₀
  · rw [haccounts.created]
    exact or_iff_right List.not_mem_nil
  · have hmoney := haccounts.money
    have hfees : (ConnectState.over t₀).fees = 0 := rfl
    rw [hstart] at hmoney
    omega

/-! ## What the writes leave alone -/

section Frames

theorem indexBlock_frame (s : Storage) (block : Block) (height : Nat)
    (spent : Table OutPoint Coin) :
    ∃ txLocation addressHistory, indexBlock s block height spent =
      { s with txLocation := txLocation, addressHistory := addressHistory } := by
  unfold indexBlock
  induction block.transactions.zipIdx generalizing s with
  | nil => exact ⟨s.txLocation, s.addressHistory, rfl⟩
  | cons entry entries ih => exact ih _

variable [ScanOrder Hash]

omit [Crypto] in
theorem Storage.pruneUndoAtHeight_frame (s : Storage) (height : Int) :
    ∃ undo, s.pruneUndoAtHeight height = { s with undo := undo } ∧
      (∀ h d, undo.lookup h = some d → s.undo.lookup h = some d) ∧
      ∀ h, (∀ row, s.blocks.lookup h = some row → (row.height : Int) ≠ height) →
        undo.lookup h = s.undo.lookup h := by
  have hsame : ∃ undo, s = { s with undo := undo } ∧
      (∀ h d, undo.lookup h = some d → s.undo.lookup h = some d) ∧
      ∀ h, (∀ row, s.blocks.lookup h = some row → (row.height : Int) ≠ height) →
        undo.lookup h = s.undo.lookup h := ⟨s.undo, rfl, fun _ _ h => h, fun _ _ => rfl⟩
  unfold pruneUndoAtHeight
  split
  · exact hsame
  · rename_i hnonneg
    split
    · exact hsame
    · rename_i entry hentry
      obtain ⟨⟨k, row⟩, hfind, rfl⟩ := Option.map_eq_some_iff.mp hentry
      have hrow : s.blocks.lookup k = some row :=
        (mem_scan s.blocks k row).mp (List.mem_of_find?_eq_some hfind)
      have hheight := List.find?_some hfind
      simp only [Bool.and_eq_true, beq_iff_eq] at hheight
      refine ⟨_, rfl, fun h d hd => ?_, fun h hh => ?_⟩
      · rw [Table.lookup_erase_if] at hd
        split at hd
        · cases hd
        · exact hd
      · rw [Table.lookup_erase_if, if_neg]
        rintro rfl
        have hne : (row.height : Int) ≠ height := hh row hrow
        omega

/-- What a connected block leaves in the storage. -/
structure Connected (s : Storage) (block : Block) (entry : BlockIndexEntry) (st : ConnectState)
    (data : Bytes) (s' : Storage) : Prop where
  blocks : s'.blocks = s.blocks.modify entry.hash fun row => { row with inChain := true }
  headers : s'.headers = s.headers
  tipHash : s'.tipHash = s.tipHash
  pruneMark : s'.pruneMark = s.pruneMark
  utxo : s'.utxo = st.table s.utxo
  undo : ∀ h d, s'.undo.lookup h = some d →
    (h = entry.hash ∧ d = data) ∨ (h ≠ entry.hash ∧ s.undo.lookup h = some d)
  undoKept : ∀ h, (∀ row, s.blocks.lookup h = some row →
      (row.height : Int) ≠ (entry.height : Int) - (UNDO_KEEP_BLOCKS : Int)) →
    s'.undo.lookup h = if h = entry.hash then some data else s.undo.lookup h

theorem recordBlock_connected (s : Storage) (block : Block) (entry : BlockIndexEntry)
    (st : ConnectState) (data : Bytes) :
    Connected s block entry st data (recordBlock s block entry st data) := by
  obtain ⟨txLocation, addressHistory, hindex⟩ := indexBlock_frame
    { s.writeOverlay st.overlay with undo := s.undo.insert entry.hash data } block entry.height
    st.spent
  have hform : recordBlock s block entry st data = Storage.pruneUndoAtHeight
      ⟨s.blocks.modify entry.hash fun row => { row with inChain := true }, s.headers,
        st.table s.utxo, s.undo.insert entry.hash data, txLocation, addressHistory, s.tipHash,
        s.pruneMark⟩ ((entry.height : Int) - (UNDO_KEEP_BLOCKS : Int)) := by
    unfold recordBlock
    rw [hindex]
    rfl
  obtain ⟨undo, hprune, hsub, hkept⟩ := Storage.pruneUndoAtHeight_frame
    ⟨s.blocks.modify entry.hash fun row => { row with inChain := true }, s.headers,
      st.table s.utxo, s.undo.insert entry.hash data, txLocation, addressHistory, s.tipHash,
      s.pruneMark⟩ ((entry.height : Int) - (UNDO_KEEP_BLOCKS : Int))
  rw [hform, hprune]
  refine ⟨rfl, rfl, rfl, rfl, rfl, fun h d hd => ?_, fun h hh => ?_⟩
  · have hold := hsub h d hd
    rw [Table.lookup_insert_if] at hold
    by_cases he : h = entry.hash
    · rw [if_pos he] at hold
      exact .inl ⟨he, (Option.some.inj hold).symm⟩
    · rw [if_neg he] at hold
      exact .inr ⟨he, hold⟩
  · rw [← Table.lookup_insert_if]
    refine hkept h fun row hrow => ?_
    rw [Table.lookup_modify] at hrow
    by_cases he : h = entry.hash
    · rw [if_pos he] at hrow
      obtain ⟨row', hrow', rfl⟩ := Option.map_eq_some_iff.mp hrow
      exact hh row' (he ▸ hrow')
    · rw [if_neg he] at hrow
      exact hh row hrow

end Frames

/-! ## Disconnecting a block -/

/-- What a disconnected block leaves in the storage. -/
structure Disconnected (s : Storage) (entry : BlockIndexEntry) (block : Block)
    (spent : List UndoEntry) (s' : Storage) : Prop where
  blocks : s'.blocks = s.blocks.modify entry.hash fun row => { row with inChain := false }
  headers : s'.headers = s.headers
  tipHash : s'.tipHash = s.tipHash
  pruneMark : s'.pruneMark = s.pruneMark
  undo : s'.undo = s.undo
  utxo : s'.utxo = restore block.outpoints spent s.utxo

omit [Crypto] in
/-- A block is loaded iff its row has a body that parses. -/
theorem Storage.getBlock_eq_ok {s : Storage} {h : Hash} {block : Block} :
    s.getBlock h = .ok (some block) ↔ ∃ row, s.blocks.lookup h = some row ∧ row.pruned = false ∧
      Block.deserialize row.body.serialize = .ok block ∧ block = row.body := by
  unfold Storage.getBlock
  constructor
  · intro hget
    split at hget
    · cases hget
    · rename_i row hrow
      split at hget
      · cases hget
      · rename_i hpruned
        obtain ⟨b, hb, hpure⟩ := bind_eq_ok.mp hget
        obtain rfl := Option.some.inj (pure_eq_ok.mp hpure)
        rw [BlockRow.raw, if_neg hpruned] at hb
        exact ⟨row, hrow, by simpa using hpruned, hb, Block.deserialize_serialize hb⟩
  · rintro ⟨row, hrow, hpruned, hparse, -⟩
    rw [hrow]
    dsimp only
    rw [if_neg (by simp [hpruned]), BlockRow.raw, if_neg (by simp [hpruned]), hparse]
    rfl

omit [Crypto] in
theorem Storage.getUndo_eq_ok {s : Storage} {h : Hash} {undo : List UndoEntry} :
    s.getUndo h = .ok undo ↔ ∃ data, s.undo.lookup h = some data ∧ decodeUndo data = .ok undo := by
  unfold getUndo
  cases s.undo.lookup h with
  | none => simp
  | some data => simp

/-- A block is disconnected iff it can be loaded and its undo record can be read. -/
theorem disconnectBlock_eq_ok {s s' : Storage} {entry : BlockIndexEntry} {block : Block} :
    disconnectBlock s entry = .ok (s', block) ↔
      s.getBlock entry.hash = .ok (some block) ∧ ∃ undo, s.getUndo entry.hash = .ok undo ∧
        s' = ((((s.removeCoins block.outpoints).unindexTransactions block.txids).addCoins
          undo).setInChain entry.hash false) := by
  unfold disconnectBlock
  rw [bind_eq_ok]
  constructor
  · rintro ⟨loaded, hload, hbody⟩
    cases loaded with
    | none => cases hbody
    | some b =>
      obtain ⟨undo, hundo, hpure⟩ := bind_eq_ok.mp hbody
      obtain ⟨rfl, rfl⟩ := Prod.mk.inj (pure_eq_ok.mp hpure)
      exact ⟨hload, undo, hundo, rfl⟩
  · rintro ⟨hload, undo, hundo, rfl⟩
    exact ⟨some block, hload, bind_eq_ok.mpr ⟨undo, hundo, rfl⟩⟩

theorem disconnectBlock_disconnected {s s' : Storage} {entry : BlockIndexEntry} {block : Block}
    (h : disconnectBlock s entry = .ok (s', block)) :
    ∃ undo, s.getUndo entry.hash = .ok undo ∧ Disconnected s entry block undo s' := by
  obtain ⟨-, undo, hundo, rfl⟩ := disconnectBlock_eq_ok.mp h
  exact ⟨undo, hundo, rfl, rfl, rfl, rfl, rfl, rfl⟩

end ScarletCoin
