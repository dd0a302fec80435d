import ScarletCoin.Invariants.Extension
import ScarletCoin.Invariants.Selection
import ScarletCoin.Invariants.Solvency
import ScarletCoin.Rules.MergedMining
import ScarletCoin.Rules.Templates

/-!
# Templates can be mined

A block of a coinbase and of what the pool selected (`Wired.Fills`) meets the rule that blocks are
connected by, once the pool has been told of everything (`Fills.blockRule`): the coins that the pool
offers to its transactions are those that the block offers to them, the fees noted down are those
that the block leaves, and the ids are new.

So a template that is solved in time on an unchanged tip becomes the tip iff its reward reaches the
smallest output that the network allows (`Logged.template_connects`), and the block of a candidate
of merged mining does iff, besides, it still fits with its proof (`Logged.candidate_connects`).
-/

set_option autoImplicit false

namespace ScarletCoin

open Toolkit

/-! ## What a block offers -/

section Offered

variable [Crypto] {utxo : Table OutPoint Coin} {b : Block} {height : Nat}

/-- A block of distinct ids creates its coins at distinct outpoints. -/
theorem Block.coins_nodup (h : b.txids.Nodup) : ((b.coins height).map Prod.fst).Nodup := by
  have hkeys : (b.coins height).map Prod.fst = b.transactions.flatMap Transaction.outpoints := by
    rw [Block.coins, List.map_flatMap]
    exact List.flatMap_congr fun t _ => t.coins_fst height
  rw [hkeys]
  refine List.nodup_flatMap.mpr ⟨fun t _ => t.outpoints_nodup, ?_⟩
  have hpairs := List.pairwise_map.mp (show (b.transactions.map Transaction.txid).Nodup from h)
  refine hpairs.imp fun {t t'} hne o ho ho' => hne ?_
  rw [← Transaction.outpoints_txid ho, ← Transaction.outpoints_txid ho']

/-- A block of new ids offers the coins of the set unchanged. -/
theorem Block.FreshOver.offered_coin (h : b.FreshOver utxo) {o : OutPoint}
    (ho : utxo.lookup o ≠ none) : (b.offered height utxo).lookup o = utxo.lookup o := by
  refine Table.lookup_insertAll_of_notMem fun hmem => ?_
  rw [Block.coins, List.map_flatMap] at hmem
  obtain ⟨t, ht, hot⟩ := List.mem_flatMap.mp hmem
  rw [t.coins_fst] at hot
  refine h.new o ho ?_
  rw [Transaction.outpoints_txid hot]
  exact List.mem_map_of_mem ht

/-- It offers the outputs of its transactions. -/
theorem Block.FreshOver.offered_output (h : b.FreshOver utxo) {t : Transaction}
    (ht : t ∈ b.transactions) {o : OutPoint} (hid : o.txid = t.txid) {output : TxOutput}
    (hout : t.outputs[o.index.toNat]? = some output) :
    (b.offered height utxo).lookup o = some (output.toCoin height t.isCoinbase) := by
  refine Table.lookup_insertAll_of_mem (Block.coins_nodup h.distinct)
    (List.mem_flatMap.mpr ⟨t, ht, ?_⟩)
  refine List.mem_map.mpr ⟨(output, o.index.toNat), List.mem_zipIdx_iff_getElem?.mpr hout, ?_⟩
  dsimp only
  rw [UInt32.ofNat_toNat, ← hid]

end Offered

/-! ## A pool that has been told of everything -/

section Confirmed

variable [Crypto] {params : ChainParams} {U : Transaction → Prop} {c : Blockchain} {n : TreeNode}
  {rest : List TreeNode}

/-- The heights of the unspent coins fit four bytes. -/
theorem Chained.coin_height_lt (h : Chained params c (n :: rest)) (hU : Distinguished U)
    (hheld : c.storage.Holds U) {o : OutPoint} {coin : Coin}
    (hcoin : c.storage.utxo.lookup o = some coin) : coin.height < 2 ^ 32 := by
  rw [show c.storage.utxo = _ from (h.ledger (hheld.noTxidCollision hU)).utxo] at hcoin
  obtain ⟨p, hp, hmem⟩ := created_of_lookup hcoin
  obtain ⟨m, hm, t, -, rfl⟩ := mem_history.mp hp
  obtain ⟨entry, -, heq⟩ := List.mem_map.mp hmem
  have hheight : coin.height = m.height := by
    rw [← (Prod.mk.inj heq).2]
    rfl
  rw [hheight]
  exact (h.standing.based.tree.admitted (h.standing.based.active.branch.stored m hm)).height_lt

/-- A coinbase that claims the height above the tip is not confirmed. -/
theorem Chained.coinbase_new (h : Chained params c (n :: rest)) (hU : Distinguished U)
    (hheld : c.storage.Holds U) {t : Transaction} (ht : U t)
    (hclaims : coinbaseHeight t = .ok (n.height + 1)) : t.txid ∉ confirmedIds (n :: rest) := by
  intro hid
  obtain ⟨p, hp, hpid⟩ := List.mem_map.mp hid
  obtain ⟨m, hm, t', ht', rfl⟩ := mem_history.mp hp
  have hstored : c.storage.tree m.body.hash = some m := h.standing.based.active.branch.stored m hm
  obtain ⟨hcoinbase, -, hdata⟩ := spends_of_body (hU t' t (hheld _ m hstored t' ht') ht hpid)
  -- both claim their heights, and the confirmed one is at most as high as the tip
  have hadm := h.standing.based.tree.admitted hstored
  obtain ⟨cb, hcb, hheight⟩ := hadm.claims
  rw [hadm.sane.coinbase_eq ht' (hcoinbase.trans (coinbaseHeight_isCoinbase hclaims))] at hcb
  obtain rfl := Except.ok.inj hcb
  have heq := coinbaseHeight_congr hdata hheight hclaims
  have hle : m.height ≤ n.height := by
    rcases List.mem_cons.mp hm with rfl | hm
    · exact Nat.le_refl _
    · exact Nat.le_of_lt (h.standing.based.active.branch.depth_lt m hm)
  omega

end Confirmed

namespace Wired

section Ready

variable [Crypto] {params : ChainParams} {U : Transaction → Prop}

/-- What holds of a chain with its pool that has been told of everything. -/
structure Ready (params : ChainParams) (U : Transaction → Prop) (w : Wired) (n : TreeNode)
    (rest : List TreeNode) : Prop where
  chained : Chained params w.chain (n :: rest)
  held : w.chain.storage.Holds U
  sound : w.pool.Sound U w.chain.storage.utxo (confirmedIds (n :: rest))
  priced : ∀ k e, w.pool.byTxid.lookup k = some e →
    Mempool.Eligible params (n.height + 1) e.transaction ∧
      checkTransactionInputs e.transaction (w.pool.offers w.chain.storage.utxo (n.height + 1))
        (n.height + 1) params true = .ok e.fee
  once : (w.pool.values.flatMap fun e => e.transaction.prevouts).Nodup

/-- A block of a coinbase that takes the reward and all fees, and of what the pool selected. -/
structure Fills (params : ChainParams) (w : Wired) (height : Nat) (coinbase : Transaction)
    (es : List MempoolEntry) (b : Block) : Prop where
  transactions : b.transactions = coinbase :: es.map MempoolEntry.transaction
  built : coinbase.BuiltFor height (params.subsidy height + (es.map MempoolEntry.fee).sum)
  packed : w.pool.Packed ((params.maxBlockSize : Int) - (COINBASE_RESERVE : Int)) height es
  committed : merkleRoot b.txids = .ok b.header.merkleRoot

variable {w : Wired} {n : TreeNode} {rest : List TreeNode} {coinbase : Transaction}
  {es : List MempoolEntry} {b : Block}

/-- The entries of the block are pooled. -/
theorem Fills.lookup (hb : Fills params w (n.height + 1) coinbase es b)
    (hw : w.Ready params U n rest)
    {e : MempoolEntry} (he : e ∈ es) : w.pool.byTxid.lookup e.transaction.txid = some e := by
  have hlook := hw.sound.wf.mem_values.mp (hb.packed.pooled e he)
  rw [(hw.sound.wf.keyed _ e hlook).2.1]
  exact hlook

theorem Fills.notCoinbase (hb : Fills params w (n.height + 1) coinbase es b)
    (hw : w.Ready params U n rest) {e : MempoolEntry} (he : e ∈ es) :
    e.transaction.isCoinbase = false :=
  (checkTransactionInputs_eq_ok.mp (hw.priced _ e (hb.lookup hw he)).2).1.notCoinbase

/-- The ids of the block are new to the coins, and distinct. -/
theorem Fills.freshOver (hb : Fills params w (n.height + 1) coinbase es b) (hU : Distinguished U)
    (hw : w.Ready params U n rest) (hcoinbase : U coinbase) : b.FreshOver w.chain.storage.utxo := by
  have hsettled := hw.chained.settled hU hw.held
  have htxids : b.txids = coinbase.txid :: es.map fun e => e.transaction.txid := by
    rw [Block.txids, hb.transactions, List.map_cons, List.map_map]
    rfl
  refine ⟨fun o ho hmem => ?_, ?_⟩
  · have hid := hsettled.coin o ho
    rw [htxids] at hmem
    rcases List.mem_cons.mp hmem with heq | hmem
    · exact hw.chained.coinbase_new hU hw.held hcoinbase hb.built.claims (heq ▸ hid)
    · obtain ⟨e, he, heq⟩ := List.mem_map.mp hmem
      exact hw.sound.unconfirmed _ e (hb.lookup hw he) (heq ▸ hid)
  · rw [htxids]
    refine List.nodup_cons.mpr ⟨fun hmem => ?_, hb.packed.distinct⟩
    obtain ⟨e, he, heq⟩ := List.mem_map.mp hmem
    have hknown := hw.sound.known _ e (hb.lookup hw he)
    have hsame := (spends_of_body (hU _ _ hknown hcoinbase heq)).1
    rw [hb.notCoinbase hw he, hb.built.coinbase] at hsame
    cases hsame

/-- What the pool offers to a transaction of the block, the block offers to it. -/
theorem Fills.offers_eq (hb : Fills params w (n.height + 1) coinbase es b) (hU : Distinguished U)
    (hw : w.Ready params U n rest) (hcoinbase : U coinbase) {e : MempoolEntry} (he : e ∈ es)
    {o : OutPoint} (ho : o ∈ e.transaction.prevouts) :
    (b.offered (n.height + 1) w.chain.storage.utxo).lookup o =
      w.pool.offers w.chain.storage.utxo (n.height + 1) o := by
  have hfresh := hb.freshOver hU hw hcoinbase
  rcases hw.sound.funded _ e (hb.lookup hw he) o ho with hcoin | ⟨parent, hparent, hlt⟩
  · rw [hfresh.offered_coin hcoin, Mempool.offers_of_absent]
    exact hw.sound.absent_of_coin (hw.chained.settled hU hw.held) hcoin
  · -- the parent is selected too
    obtain ⟨before, after, rfl⟩ := List.append_of_mem he
    have hselected := hb.packed.parents before e after rfl o ho parent hparent
    have hmem : parent ∈ before ++ e :: after := List.mem_append_left _ hselected
    have hid : o.txid = parent.transaction.txid := by
      rw [(hw.sound.wf.keyed _ parent hparent).2.1]
    have hin : parent.transaction ∈ b.transactions := by
      rw [hb.transactions]
      exact List.mem_cons_of_mem _ (List.mem_map_of_mem hmem)
    have hout := List.getElem?_eq_getElem hlt
    rw [hfresh.offered_output hin hid hout, Mempool.offers_of_pooled hparent, hout,
      hb.notCoinbase hw hmem]
    rfl

/-- The block meets the rule that blocks are connected by. -/
theorem Fills.blockRule (hb : Fills params w (n.height + 1) coinbase es b) (hU : Distinguished U)
    (hw : w.Ready params U n rest) (hcoinbase : U coinbase) :
    BlockRule params w.chain.storage.utxo b (n.height + 1) := by
  have hspends : coinbase.spends = [] := if_pos hb.built.coinbase
  have hprevouts : ∀ e ∈ es, e.transaction.spends = e.transaction.prevouts := fun e he =>
    if_neg (by rw [hb.notCoinbase hw he]; exact Bool.false_ne_true)
  -- in the block each entry finds the coins that it was priced by
  have hpriced : ∀ e ∈ es, checkTransactionInputs e.transaction
      (b.offered (n.height + 1) w.chain.storage.utxo).lookup (n.height + 1) params true =
      .ok e.fee :=
    fun e he => checkTransactionInputs_congr (hw.priced _ e (hb.lookup hw he)).2
      fun o ho => hb.offers_eq hU hw hcoinbase he ho
  refine ⟨fun t ht => ?_, fun before t after hsplit o ho => ?_, ?_, fun t ht hcb => ?_,
    coinbase, ?_, ?_⟩
  · rw [hb.transactions] at ht
    rcases List.mem_cons.mp ht with rfl | ht
    · exact .inl hb.built.unlocked
    · obtain ⟨e, he, rfl⟩ := List.mem_map.mp ht
      exact checkTransactionFinal_iff.mp (hb.packed.final e he)
  · rw [hb.transactions] at hsplit
    cases before with
    | nil =>
      obtain ⟨rfl, -⟩ := List.cons.inj hsplit
      rw [hspends] at ho
      cases ho
    | cons first before =>
      obtain ⟨-, hrest⟩ := List.cons.inj hsplit
      obtain ⟨earlier, later, rfl, rfl, hlater⟩ := List.map_eq_append_iff.mp hrest
      obtain ⟨e, after', rfl, rfl, rfl⟩ := List.map_eq_cons_iff.mp hlater
      have he : e ∈ earlier ++ e :: after' := List.mem_append_right _ List.mem_cons_self
      rw [hprevouts e he] at ho
      -- an output is a coin of the chain, or of a parent that stands before it in the block
      rcases hw.sound.funded _ e (hb.lookup hw he) o ho with hcoin | ⟨parent, hparent, hlt⟩
      · exact .inl hcoin
      · have hselected := hb.packed.parents earlier e after' rfl o ho parent hparent
        refine .inr (List.mem_flatMap.mpr ⟨parent.transaction,
          List.mem_cons_of_mem _ (List.mem_map_of_mem hselected), List.mem_map.mpr ⟨o.index.toNat,
            List.mem_range.mpr hlt, ?_⟩⟩)
        rw [(hw.sound.wf.keyed _ parent hparent).2.1, UInt32.ofNat_toNat]
  · rw [Block.spends, hb.transactions, List.flatMap_cons, hspends, List.nil_append,
      List.flatMap_map, List.flatMap_congr hprevouts]
    exact hb.packed.once
  · rw [hb.transactions] at ht
    rcases List.mem_cons.mp ht with rfl | ht
    · rw [hb.built.coinbase] at hcb
      cases hcb
    · obtain ⟨e, he, rfl⟩ := List.mem_map.mp ht
      exact (checkTransactionInputs_eq_ok.mp (hpriced e he)).1
  · rw [Block.coinbase, hb.transactions]
  · -- each entry leaves the fee that was noted down for it
    have hfee : ∀ e ∈ es, e.transaction.fee
        (b.offered (n.height + 1) w.chain.storage.utxo).lookup = e.fee := fun e he => by
      rw [Transaction.fee, if_neg (by rw [hb.notCoinbase hw he]; exact Bool.false_ne_true),
        (checkTransactionInputs_eq_ok.mp (hpriced e he)).2]
    rw [hb.built.pays, Block.fees, hb.transactions, List.map_cons, List.sum_cons, List.map_map,
      Transaction.fee, if_pos hb.built.coinbase, Nat.zero_add]
    refine Nat.le_of_eq (congrArg (params.subsidy (n.height + 1) + ·) (congrArg List.sum ?_))
    exact List.map_congr_left fun e he => (hfee e he).symm

variable [ScanOrder Hash]

/-- A careful run makes the pool ready once it has been told of everything. -/
theorem Logged.ready (hU : Distinguished U) {w : Wired} {seen : List Transaction}
    (h : Logged params (Careful params U) w seen) (hstored : w.chain.storage.Holds U)
    (hfresh : w.stale = false) : ∃ n rest, w.Ready params U n rest := by
  have hruns : Runs params (Sparing params U) w := h.forget fun _ _ _ hcall => hcall.1
  obtain ⟨bs, hgood⟩ := hruns.good hU hstored
  obtain ⟨n, rest, rfl, htip, -⟩ := hgood.chained.standing.tip
  have hn : w.chain.storage.tree n.body.hash = some n :=
    hgood.chained.standing.based.active.branch.stored n List.mem_cons_self
  have hheight : w.chain.height = n.height := by
    rw [Blockchain.height, htip, Storage.entryAt_height hn]
  refine ⟨n, rest, hgood.chained, hstored, hgood.sound hfresh, fun k e he => ?_,
    h.runs.pool_reachable.prevouts_nodup⟩
  rw [← hheight]
  exact h.priced hU hstored hfresh he

/-! ## Submitting the block -/

omit [ScanOrder Hash] in
/-- The block is at most as large as the budget and what is reserved, and its proof. -/
theorem Fills.size_le (hb : Fills params w (n.height + 1) coinbase es b)
    (hreserve : COINBASE_RESERVE ≤ params.maxBlockSize) :
    b.size + 698 ≤ params.maxBlockSize + (Block.serializeAuxpow b.auxpow).length := by
  have hbudget := hb.packed.budget (by omega)
  have hcoinbase := hb.built.size_le
  have hsum : (b.transactions.map Transaction.size).sum =
      coinbase.size + (es.map fun e => e.transaction.size).sum := by
    rw [hb.transactions, List.map_cons, List.sum_cons, List.map_map]
    rfl
  have hle := b.size_le
  rw [hsum] at hle
  simp only [COINBASE_RESERVE] at hbudget hreserve
  omega

omit [ScanOrder Hash] in
/-- A block that is small enough and meets its target, or has a proof that stands in for it, passes
its sanity check iff its reward reaches the smallest output. -/
theorem Fills.checkSanity_iff (hb : Fills params w (n.height + 1) coinbase es b)
    (hU : Distinguished U) (hw : w.Ready params U n rest) (hcoinbase : U coinbase) {active : Bool}
    (hsize : b.size ≤ params.maxBlockSize) (hpow : (active = false ∨ b.hasAuxpow = false) →
      b.header.checkProofOfWork params.powLimit = true) :
    b.checkSanity params.powLimit params.maxBlockSize params.minOutputValue active = .ok () ↔
      params.minOutputValue ≤
        params.subsidy (n.height + 1) + (es.map MempoolEntry.fee).sum := by
  rw [← hb.built.sane, Block.checkSanity_eq_ok]
  constructor
  · rintro ⟨-, -, -, -, -, hclean, -⟩
    exact hclean coinbase (by rw [hb.transactions]; exact List.mem_cons_self)
  · intro hsane
    refine ⟨by rw [hb.transactions]; exact List.cons_ne_nil _ _, hsize, hpow, fun t ht => ?_,
      fun t ht => ?_, fun t ht => ?_, (hb.freshOver hU hw hcoinbase).distinct, hb.committed⟩
    · rw [hb.transactions] at ht
      obtain rfl := Option.some.inj ht
      exact hb.built.coinbase
    · rw [hb.transactions] at ht
      obtain ⟨e, he, rfl⟩ := List.mem_map.mp ht
      exact hb.notCoinbase hw he
    · rw [hb.transactions] at ht
      rcases List.mem_cons.mp ht with rfl | ht
      · exact hsane
      · obtain ⟨e, he, rfl⟩ := List.mem_map.mp ht
        exact (hw.priced _ e (hb.lookup hw he)).1.sane

/-- The chain is at rest on a good tip, and a new block is on top of it, in time and with the proof
it needs. -/
structure Offered (params : ChainParams) (now : Nat) (c : Blockchain) (n : TreeNode) (b : Block) :
    Prop where
  rest : c.Settled
  room : ¬ c.Crowded (c.tip.chainwork + 1)
  goodTip : c.isInvalid n.body.hash = false
  parent : b.header.prevHash = n.body.hash
  notInvalid : c.isInvalid b.hash = false
  unknown : c.storage.hasBlock b.hash = false
  proofAllowed : ¬ (b.hasAuxpow = true ∧ auxpowActiveAt params (n.height + 1) = false)
  solved : (auxpowActiveAt params (n.height + 1) = false ∨ b.hasAuxpow = false) →
    b.header.checkProofOfWork params.powLimit = true
  checkpoint : ¬ ((params.checkpoints.lookup (n.height + 1)).any (· ≠ b.hashHex)) = true
  bits : nextBitsAfter params c.storage (c.storage.entryAt n) b.header.timestamp.toNat =
    .ok b.header.bits.toNat
  median : medianTimePast params c.storage (c.storage.entryAt n) < b.header.timestamp.toNat
  clock : b.header.timestamp.toNat ≤ now + params.maxFutureTime
  proof : Blockchain.checkAuxpow params b = .ok ()
  proofLimits : ∀ a ∈ b.auxpow, a.val.WithinLimits
  work : ∃ work, blockWork b.header.bits.toNat = .ok work ∧ 0 < work ∧
    c.tip.chainwork + work < 2 ^ 256

/-- Such a block is connected iff it is small enough and its reward reaches the smallest output. -/
theorem Fills.connects_iff (hb : Fills params w (n.height + 1) coinbase es b) (hU : Distinguished U)
    (hw : w.Ready params U n rest) (hcoinbase : U coinbase) {now : Nat}
    (ho : Offered params now w.chain n b) (hwide : params.maxBlockSize < 2 ^ 64) {rounds : Nat}
    (hrounds : 2 ≤ rounds) :
    (∃ c', w.chain.addBlock params rounds now b =
        some (c', .ok ⟨.connected, b.hash, some (n.height + 1), "", false⟩) ∧
        c'.tip.hash = b.hash) ↔
      b.size ≤ params.maxBlockSize ∧ params.minOutputValue ≤
        params.subsidy (n.height + 1) + (es.map MempoolEntry.fee).sum := by
  have hs := hw.chained.standing
  have hn : w.chain.storage.tree n.body.hash = some n :=
    hs.based.active.branch.stored n List.mem_cons_self
  obtain ⟨p, hp, hknown⟩ := Storage.tree_eq_some.mp hn
  have hheight : p.height = n.height := congrArg TreeNode.height hknown
  constructor
  · rintro ⟨c', hadd, -⟩
    -- what is answered without being stored is not accepted
    rcases Blockchain.addBlock_cases hadd with ⟨e, -, -, herror⟩ | ⟨r, hanswered, hr⟩ |
      ⟨p', work, r, outcome, hplace, -, -, -⟩
    · cases herror
    · have hnot := admitBlock_not_accepted hanswered
      rw [← Except.ok.inj hr] at hnot
      cases hnot
    · obtain rfl : p' = p := Option.some.inj (hplace.parent.symm.trans (ho.parent ▸ hp))
      have hsane := hplace.sane
      have hsize := (Block.checkSanity_sane hsane).small
      rw [hheight] at hsane
      exact ⟨hsize, (hb.checkSanity_iff hU hw hcoinbase hsize ho.solved).mp hsane⟩
  · rintro ⟨hsize, hreward⟩
    obtain ⟨work, hwork, hpos, hfits⟩ := ho.work
    have hsane := (hb.checkSanity_iff hU hw hcoinbase hsize ho.solved).mpr hreward
    have hentry : p.entry b.header.prevHash = w.chain.storage.entryAt n := by
      rw [ho.parent, Storage.entryAt_of_row hp]
    have hchainwork : p.chainwork = w.chain.tip.chainwork := by
      obtain ⟨t, rest', hbs, htip, -⟩ := hs.tip
      obtain ⟨rfl, -⟩ := List.cons.inj hbs
      rw [htip, Storage.entryAt_chainwork hn, ← hknown]
      rfl
    have hfirst : b.coinbase = .ok coinbase := by
      rw [Block.coinbase, hb.transactions]
    have hcontext :
        checkContext params w.chain.storage now b (w.chain.storage.entryAt n) (n.height + 1) =
        .ok () := checkContext_ok ho.bits ho.median ho.clock hfirst hb.built.claims
    have hplace : w.chain.Placement params now b p work := by
      refine ⟨ho.notInvalid, by simpa [Storage.hasBlock] using ho.unknown, ho.parent ▸ hp, ?_, ?_,
        ho.parent ▸ ho.goodTip, ?_, ?_, ho.proof, hwork, by rw [hchainwork]; exact hfits⟩
      · rw [hheight]
        exact ho.proofAllowed
      · rw [hheight]
        exact hsane
      · rw [hheight]
        exact ho.checkpoint
      · rw [hentry, hheight]
        exact hcontext
    have hfresh := hb.freshOver hU hw hcoinbase
    have hrule := hb.blockRule hU hw hcoinbase
    rw [← hheight] at hrule
    have hchecked : ∃ st, checkBlock params w.chain.storage.utxo b (placedNode b p work).entry =
        .ok st :=
      hfresh.checkBlock_iff.mpr hrule
    obtain ⟨st, hcheck⟩ := hchecked
    obtain ⟨data, hdata⟩ := hfresh.encodeUndo_ok (Nat.lt_of_le_of_lt hsize hwide)
      (fun _ _ hcoin => hw.chained.coin_height_lt hU hw.held hcoin) hcheck
    have hclean := (Block.checkSanity_eq_ok.mp hsane).2.2.2.2.2.1
    obtain ⟨c', hadd, hs', -⟩ := hplace.addBlock_connects hs ho.parent hpos ho.rest ho.room
      (.of_clean (by rw [hb.transactions]; exact List.cons_ne_nil _ _) hclean ho.proofLimits)
      hcheck hdata hrounds
    refine ⟨c', hadd, ?_⟩
    obtain ⟨t, rest', hbs, htip, -⟩ := hs'.tip
    obtain ⟨rfl, -⟩ := List.cons.inj hbs
    rw [htip, Storage.entryAt_hash]
    rfl

/-! ## Templates -/

/-- What a template of a chain and its pool lists is what the pool selected, and its reward is the
subsidy with their fees. -/
theorem Ready.selected (hw : w.Ready params U n rest) {t : BlockTemplate}
    (ht : t.FilledFrom params w.chain (some w.pool)) : ∃ es,
      t.transactions = es.map MempoolEntry.transaction ∧
      t.coinbaseValue = params.subsidy t.height + (es.map MempoolEntry.fee).sum ∧
      w.pool.Packed ((params.maxBlockSize : Int) - (COINBASE_RESERVE : Int)) t.height es := by
  have hstart :
      w.pool.Collecting ((params.maxBlockSize : Int) - (COINBASE_RESERVE : Int)) t.height []
      ⟨[], [], 0, 0, w.pool.entries, false⟩ := Mempool.collecting_start hw.sound.wf
  obtain ⟨es, s, hloop, hcollecting, -⟩ :=
    hstart.loop_ends hw.sound.wf (Nat.le_refl w.pool.entries.length)
  obtain ⟨fees, hcollect, hvalue⟩ := ht.filled
  have hcollected :
      w.pool.collect ((params.maxBlockSize : Int) - (COINBASE_RESERVE : Int)) t.height =
      some (es.map MempoolEntry.transaction, (es.map MempoolEntry.fee).sum) := hloop
  unfold collectFor at hcollect
  simp only [hcollected] at hcollect
  obtain ⟨htransactions, hfees⟩ := Prod.mk.inj (Except.ok.inj hcollect)
  exact ⟨es, htransactions.symm, hfees ▸ hvalue, hcollecting.packed hw.sound.wf hw.once⟩

/-- The chain is at rest on a good tip, where a heavier block is looked at, and the pool has been
told of everything. Blocks have room for a coinbase. -/
structure Restful (params : ChainParams) (U : Transaction → Prop) (w : Wired) : Prop where
  held : w.chain.storage.Holds U
  told : w.stale = false
  rest : w.chain.bestCandidate = none
  room : ¬ w.chain.Crowded (w.chain.tip.chainwork + 1)
  goodTip : w.chain.isInvalid w.chain.tip.hash = false
  reserve : COINBASE_RESERVE ≤ params.maxBlockSize
  wide : params.maxBlockSize < 2 ^ 64

/-- A block that is neither stored nor remembered as invalid is submitted in time, and no checkpoint
speaks against it. Its transactions are of `U`, and its work fits the column of the database. -/
structure Timely (params : ChainParams) (U : Transaction → Prop) (now : Nat) (c : Blockchain)
    (b : Block) : Prop where
  known : ∀ t ∈ b.transactions, U t
  unknown : c.storage.hasBlock b.hash = false
  notInvalid : c.isInvalid b.hash = false
  checkpoint : ¬ ((params.checkpoints.lookup (c.tip.height + 1)).any (· ≠ b.hashHex)) = true
  clock : b.header.timestamp.toNat ≤ now + params.maxFutureTime
  work : ∀ work, blockWork b.header.bits.toNat = .ok work → c.tip.chainwork + work < 2 ^ 256

/-- The block becomes the tip, and the answer says so. -/
def BecomesTip (params : ChainParams) (rounds now : Nat) (c : Blockchain) (b : Block) : Prop :=
  ∃ c', c.addBlock params rounds now b =
    some (c', .ok ⟨.connected, b.hash, some (c.tip.height + 1), "", false⟩) ∧ c'.tip.hash = b.hash

omit [Crypto] [ScanOrder Hash] in
/-- Bits that decode to a positive target have some work. -/
theorem blockWork_pos {bits target : Nat} (htarget : bitsToTarget bits = .ok target)
    (hpos : 0 < target) : ∃ work, blockWork bits = .ok work ∧ 0 < work := by
  refine ⟨2 ^ 256 / (target + 1), ?_, Nat.div_pos ?_ (Nat.succ_pos _)⟩
  · rw [blockWork, htarget, ok_bind, if_neg hpos.ne']
    rfl
  · have hlt := bitsToTarget_lt htarget
    omega

/-- A block of a template that is submitted to the chain the template was made of, at a time that
asks for the bits of the template and with the proof that it needs, becomes the tip iff it is small
enough and its reward reaches the smallest output. Without its proof it is small enough. -/
theorem Logged.filled_connects (hU : Distinguished U) {w : Wired} {seen : List Transaction}
    (h : Logged params (Careful params U) w seen) (hrest : w.Restful params U) {t : BlockTemplate}
    (ht : t.FilledFrom params w.chain (some w.pool)) {coinbase : Transaction}
    (hcoinbase : coinbase.BuiltFor t.height t.coinbaseValue) {b : Block} {time : Nat}
    (hb : b.Assembled t.prevHash (coinbase :: t.transactions) t.bits time)
    (htime : t.minTime < time)
    (hbits : nextBitsAfter params w.chain.storage w.chain.tip time = .ok t.bits)
    {now : Nat} (hs : Timely params U now w.chain b)
    (hallowed : ¬ (b.hasAuxpow = true ∧ auxpowActiveAt params (w.chain.tip.height + 1) = false))
    (hsolved : (auxpowActiveAt params (w.chain.tip.height + 1) = false ∨ b.hasAuxpow = false) →
      b.header.checkProofOfWork params.powLimit = true)
    (hproof : Blockchain.checkAuxpow params b = .ok ())
    (hlimits : ∀ a ∈ b.auxpow, a.val.WithinLimits)
    (hpos : ∃ target, bitsToTarget b.header.bits.toNat = .ok target ∧ 0 < target) {rounds : Nat}
    (hrounds : 2 ≤ rounds) :
    b.size + 698 ≤ params.maxBlockSize + (Block.serializeAuxpow b.auxpow).length ∧
      (BecomesTip params rounds now w.chain b ↔
        b.size ≤ params.maxBlockSize ∧ params.minOutputValue ≤ t.coinbaseValue) := by
  obtain ⟨n, rest, hw⟩ := h.ready hU hrest.held hrest.told
  obtain ⟨n', rest', hbs, htip, -⟩ := hw.chained.standing.tip
  obtain ⟨rfl, rfl⟩ := List.cons.inj hbs
  have hn : w.chain.storage.tree n.body.hash = some n :=
    hw.chained.standing.based.active.branch.stored n List.mem_cons_self
  have hheight : w.chain.tip.height = n.height := by rw [htip, Storage.entryAt_height hn]
  obtain ⟨es, htransactions, hvalue, hpacked⟩ := hw.selected ht
  have hat : t.height = n.height + 1 := by rw [ht.height, hheight]
  rw [hat] at hvalue hpacked
  have hfills : w.Fills params (n.height + 1) coinbase es b :=
    ⟨by rw [hb.transactions, htransactions], by rw [← hvalue, ← hat]; exact hcoinbase, hpacked,
      hb.committed⟩
  obtain ⟨target, htarget, hpositive⟩ := hpos
  obtain ⟨work, hwork, hworkPos⟩ := blockWork_pos htarget hpositive
  have hmedian : medianTimePast params w.chain.storage (w.chain.storage.entryAt n) <
      b.header.timestamp.toNat := by
    rw [hb.timestamp, ← htip, ← ht.minTime]
    exact htime
  -- what the template took from the tip is what `add_block` asks for
  have hoffered : Offered params now w.chain n b := by
    refine ⟨Blockchain.settled_of_none hrest.rest, hrest.room, ?_, ?_, hs.notInvalid, hs.unknown,
      hheight ▸ hallowed, hheight ▸ hsolved, hheight ▸ hs.checkpoint, ?_, hmedian, hs.clock, hproof,
      hlimits, work, hwork, hworkPos, hs.work work hwork⟩
    · have hgood := hrest.goodTip
      rw [htip, Storage.entryAt_hash] at hgood
      exact hgood
    · rw [hb.parent, ht.parent, htip, Storage.entryAt_hash]
    · rw [hb.timestamp, hb.bits, ← htip]
      exact hbits
  refine ⟨hfills.size_le hrest.reserve, ?_⟩
  rw [hvalue, BecomesTip, hheight]
  exact hfills.connects_iff hU hw
    (hs.known coinbase (by rw [hb.transactions]; exact List.mem_cons_self)) hoffered
    hrest.wide hrounds

/-- **A solved template becomes the tip.** In every careful run, once the pool has been told of
everything and the chain has come to rest on a good tip: a block built from a template of the chain
and the pool, at a time that asks for the bits of the template, that meets its target and is
submitted in time on the unchanged chain, becomes the tip iff the reward of the template reaches the
smallest output. -/
theorem Logged.template_connects (hU : Distinguished U) {w : Wired} {seen : List Transaction}
    (h : Logged params (Careful params U) w seen) (hrest : w.Restful params U) {made : Nat}
    {t : BlockTemplate} (ht : createBlockTemplate params w.chain (some w.pool) made = .ok t)
    {pubkeyHash : PubkeyHash} {extra : Bytes} {timestamp : Option Nat} {nonce : Nat} {b : Block}
    (hb : t.buildBlock pubkeyHash extra timestamp nonce = .ok b)
    (hbits : nextBitsAfter params w.chain.storage w.chain.tip b.header.timestamp.toNat = .ok t.bits)
    (hsolved : b.header.checkProofOfWork params.powLimit = true) {now : Nat}
    (hs : Timely params U now w.chain b) {rounds : Nat} (hrounds : 2 ≤ rounds) :
    BecomesTip params rounds now w.chain b ↔ params.minOutputValue ≤ t.coinbaseValue := by
  have hfilled := createBlockTemplate_ok ht
  obtain ⟨coinbase, hcoinbase, hassembled, hplain⟩ := BlockTemplate.buildBlock_ok hb
  have hnone : b.hasAuxpow = false := by rw [Block.hasAuxpow, hplain]; rfl
  have hpos : ∃ target, bitsToTarget b.header.bits.toNat = .ok target ∧ 0 < target := by
    unfold BlockHeader.checkProofOfWork ScarletCoin.checkProofOfWork at hsolved
    split at hsolved
    · cases hsolved
    · rename_i target htarget
      exact ⟨target, htarget, Nat.pos_of_ne_zero (of_decide_eq_true hsolved).1⟩
  rw [hassembled.timestamp] at hbits
  obtain ⟨hsize, hiff⟩ :=
    h.filled_connects hU hrest hfilled hcoinbase hassembled (Nat.le_max_right _ _) hbits hs
    (by rw [hnone]; exact fun hand => Bool.false_ne_true hand.1) (fun _ => hsolved)
    (by rw [Blockchain.checkAuxpow, hplain])
      (by rw [hplain]; exact fun a ha => absurd ha (Option.not_mem_none a))
    hpos hrounds
  rw [hplain, Block.serializeAuxpow, List.length_nil] at hsize
  rw [hiff]
  exact and_iff_right (by omega)

/-- **A proved candidate becomes the tip.** Under the same conditions, the block of a candidate of
merged mining can be built again and has the advertised hash. With an acceptable proof of that hash,
where proofs are allowed and the target is positive, it becomes the tip iff it still fits a block
and the reward of the candidate reaches the smallest output. -/
theorem Logged.candidate_connects (hU : Distinguished U) {w : Wired} {seen : List Transaction}
    (h : Logged params (Careful params U) w seen) (hrest : w.Restful params U) {made : Nat}
    {pubkeyHash : PubkeyHash} {commitmentNonce : UInt32} {a : AuxBlockCandidate}
    (ha : createAuxBlock params w.chain (some w.pool) pubkeyHash made commitmentNonce = .ok a)
    (hactive : auxpowActiveAt params (w.chain.tip.height + 1) = true) (hpos : 0 < a.target)
    {proof : AuxPoW.Wire} (hlimits : proof.val.WithinLimits)
    (hproof : validateAuxpow proof.val a.auxBlockHash.val a.target a.chainId = .ok ()) :
    ∃ b, a.buildBlock = .ok b ∧ (b.withAuxpow proof).hash = a.auxBlockHash ∧
      ∀ now rounds, Timely params U now w.chain (b.withAuxpow proof) → 2 ≤ rounds →
        (BecomesTip params rounds now w.chain (b.withAuxpow proof) ↔
          (b.withAuxpow proof).size ≤ params.maxBlockSize ∧
          params.minOutputValue ≤ a.coinbaseValue) := by
  obtain ⟨t, b, ht, hb, hbuild, hhash, hvalue, hchain, htarget⟩ := createAuxBlock_template ha
  obtain ⟨coinbase, hcoinbase, hassembled, -⟩ := BlockTemplate.buildBlock_ok hb
  have hfilled := createBlockTemplate_ok ht
  refine ⟨b, hbuild, hhash, fun now rounds hs hrounds => ?_⟩
  have htime : max ((none : Option Nat).getD t.currentTime) (t.minTime + 1) = t.currentTime := by
    rw [Option.getD_none, Nat.max_eq_left hfilled.later]
  rw [htime] at hassembled
  have haccepted : Blockchain.checkAuxpow params (b.withAuxpow proof) = .ok () := by
    rw [← hhash, hchain] at hproof
    exact bind_eq_ok.mpr ⟨a.target, htarget, rescue_eq_ok.mpr (.inl hproof)⟩
  -- the proof stands in for the target of the block
  have hstands : (auxpowActiveAt params (w.chain.tip.height + 1) = false ∨
      (b.withAuxpow proof).hasAuxpow = false) →
        (b.withAuxpow proof).header.checkProofOfWork params.powLimit = true := by
    rintro (hoff | hplain)
    · exact absurd (hoff.symm.trans hactive) Bool.false_ne_true
    · cases hplain
  obtain ⟨-, hiff⟩ := h.filled_connects hU hrest hfilled hcoinbase (hassembled.withAuxpow proof)
    (Nat.lt_of_succ_le hfilled.later) hfilled.bits hs
    (fun hand => Bool.false_ne_true (hand.2.symm.trans hactive)) hstands haccepted
    (fun p hp => Option.some.inj hp ▸ hlimits) ⟨a.target, htarget, hpos⟩ hrounds
  rw [hiff, hvalue]

end Ready

end Wired

/-! ## On a regtest chain -/

/-- Few remembered blocks keep no round from looking at a block. -/
theorem Blockchain.not_crowded_of_few [Crypto] {c : Blockchain}
    (h : c.invalid.length < MAX_CANDIDATES) (work : Nat) : ¬ c.Crowded work := by
  rintro ⟨hs, hnodup, hlength, hall⟩
  have hsub : hs ⊆ c.invalid.map Prod.fst := by
    intro k hk
    obtain ⟨p, hp, heq⟩ := List.any_eq_true.mp (hall k hk).1
    exact List.mem_map.mpr ⟨p, hp, beq_iff_eq.mp heq⟩
  have hle := (List.Nodup.subperm hnodup hsub).length_le
  rw [List.length_map] at hle
  omega

/-- Widening the universe keeps a call careful. -/
theorem Wired.Careful.mono [Crypto] [ScanOrder Hash] {params : ChainParams}
    {U U' : Transaction → Prop}
    {seen : List Transaction} {w : Wired} {call : WiredCall} (hU : ∀ t, U t → U' t)
    (h : Careful params U seen w call) : Careful params U' seen w call := by
  cases call with
  | add now t verify => exact ⟨⟨hU t h.1.1, h.1.2⟩, hU t h.2.1, h.2.2⟩
  | _ => exact h

section Instances

attribute [local instance] Sample.crypto Sample.order

/-- Whether the conditions hold at a glance, for a universe of transactions. -/
def Sample.restful (U : List Transaction) (w : Wired) : Bool :=
  (w.chain.storage.blockRows.all fun p => p.2.body.transactions.all fun t => decide (t ∈ U)) &&
    !w.stale && w.chain.bestCandidate.isNone && w.chain.invalid.isEmpty

theorem Sample.restful_sound {U : List Transaction} {w : Wired} (h : Sample.restful U w = true) :
    w.Restful REGTEST (· ∈ U) := by
  simp only [Sample.restful, Bool.and_eq_true] at h
  obtain ⟨⟨⟨hheld, htold⟩, hrest⟩, hinvalid⟩ := h
  have hnil : w.chain.invalid = [] := List.isEmpty_iff.mp hinvalid
  refine ⟨fun k n hn t ht => ?_, by simpa using htold, Option.isNone_iff_eq_none.mp hrest,
    Blockchain.not_crowded_of_few (by rw [hnil]; decide) _, ?_, by decide, by decide⟩
  · obtain ⟨row, hrow, rfl⟩ := Storage.tree_eq_some.mp hn
    have hrows := List.all_eq_true.mp hheld (k, row) ((mem_scan _ _ _).mpr hrow)
    exact of_decide_eq_true (List.all_eq_true.mp hrows t ht)
  · rw [Blockchain.isInvalid, hnil]
    rfl

/-- Whether a block is timely at a glance, on a chain without remembered blocks. -/
def Sample.timely (U : List Transaction) (now : Nat) (c : Blockchain) (b : Block) : Bool :=
  (b.transactions.all fun t => decide (t ∈ U)) && !c.storage.hasBlock b.hash &&
    decide (b.header.timestamp.toNat ≤ now + REGTEST.maxFutureTime) &&
    (blockWork b.header.bits.toNat).toOption.any fun work =>
      decide (c.tip.chainwork + work < 2 ^ 256)

theorem Sample.timely_sound {U : List Transaction} {now : Nat} {c : Blockchain} {b : Block}
    (h : Sample.timely U now c b = true) (hinvalid : c.invalid = []) :
    Wired.Timely REGTEST (· ∈ U) now c b := by
  simp only [Sample.timely, Bool.and_eq_true] at h
  obtain ⟨⟨⟨hknown, hnew⟩, hclock⟩, hwork⟩ := h
  refine ⟨fun t ht => of_decide_eq_true (List.all_eq_true.mp hknown t ht), by
    simpa using hnew, ?_, ?_, of_decide_eq_true hclock, fun work heq => ?_⟩
  · rw [Blockchain.isInvalid, hinvalid]
    rfl
  · exact Bool.false_ne_true
  · rw [heq] at hwork
    exact of_decide_eq_true hwork

/-- The second spend is pooled in the place of the first one. -/
def Sample.spent : Option (Wired × List Transaction) :=
  (Sample.chainAfter Sample.funded).bind fun c =>
    Wired.followLogged REGTEST Sample.careful [] (Wired.start c 5000000)
      [.add 0 Sample.cheap true, .add 1 Sample.dear true]

/-- The samples with the coinbase of the next block. -/
def Sample.spoils : List Transaction :=
  (buildCoinbase 3 (52 * COIN) (Sample.payload 2) AUXPOW_EXTRA 0).toOption.toList ++ Sample.ledger

theorem Sample.spent_logged {w : Wired} {seen : List Transaction}
    (h : Sample.spent = some (w, seen)) :
    Wired.Logged REGTEST (Wired.Careful REGTEST (· ∈ Sample.spoils)) w seen := by
  obtain ⟨c, hc, hfollow⟩ := Option.bind_eq_some_iff.mp h
  have hcareful : ∀ seen w call, Sample.careful seen w call = true →
      Wired.Careful REGTEST (· ∈ Sample.spoils) seen w call := fun seen w call hcall =>
    (Sample.careful_sound seen w call hcall).mono fun t ht => List.mem_append_right _ ht
  exact (Wired.Logged.start 5000000 (Sample.chainAfter_reachable hc)).follow hcareful hfollow

theorem Sample.spoils_distinguished : Distinguished (· ∈ Sample.spoils) := by
  have hall : ∀ t ∈ Sample.spoils, ∀ t' ∈ Sample.spoils, t.txid = t'.txid →
      t.serializeBody = t'.serializeBody := by decide +kernel
  exact fun t t' ht ht' => hall t ht t' ht'

/-- A template with the second spend becomes the tip. -/
theorem Wired.Logged.template_connects_spent : ∃ w seen t b, Sample.spent = some (w, seen) ∧
    createBlockTemplate REGTEST w.chain (some w.pool) 1700000100 = .ok t ∧
    t.buildBlock (Sample.payload 2) AUXPOW_EXTRA none 0 = .ok b ∧
    b.transactions.tail = [Sample.dear] ∧ Wired.BecomesTip REGTEST 2 1700000100 w.chain b := by
  have hrun : (Sample.spent.any fun r =>
      (createBlockTemplate REGTEST r.1.chain (some r.1.pool) 1700000100).toOption.any fun t =>
        (t.buildBlock (Sample.payload 2) AUXPOW_EXTRA none 0).toOption.any fun b =>
          Sample.restful Sample.spoils r.1 && Sample.timely Sample.spoils 1700000100 r.1.chain b &&
          decide (r.1.chain.invalid = [] ∧ b.transactions.tail = [Sample.dear] ∧
            (nextBitsAfter REGTEST r.1.chain.storage r.1.chain.tip
              b.header.timestamp.toNat).toOption = some t.bits ∧
            b.header.checkProofOfWork REGTEST.powLimit = true ∧
            REGTEST.minOutputValue ≤ t.coinbaseValue)) = true := by decide +kernel
  obtain ⟨⟨w, seen⟩, hw, h₁⟩ := (Option.any_eq_true _ _).mp hrun
  obtain ⟨t, ht, h₂⟩ := (Option.any_eq_true _ _).mp h₁
  obtain ⟨b, hb, h₃⟩ := (Option.any_eq_true _ _).mp h₂
  obtain ⟨hstate, hfacts⟩ := (Bool.and_eq_true _ _).mp h₃
  obtain ⟨hrest, htimely⟩ := (Bool.and_eq_true _ _).mp hstate
  obtain ⟨hinvalid, htail, hbits, hsolved, hreward⟩ := of_decide_eq_true hfacts
  have hmade := toOption_eq_some.mp ht
  have hbuilt := toOption_eq_some.mp hb
  exact ⟨w, seen, t, b, hw, hmade, hbuilt, htail,
    ((Sample.spent_logged hw).template_connects Sample.spoils_distinguished
      (Sample.restful_sound hrest)
      hmade hbuilt (toOption_eq_some.mp hbits) hsolved (Sample.timely_sound htimely hinvalid)
      (Nat.le_refl 2)).mpr hreward⟩

/-- A proof of one block, whose parent block holds the coinbase alone. -/
def Sample.mergedProof (block : Hash) : AuxPoW :=
  ⟨plainCoinbase block, [], 0, [], 0, parentOver (plainCoinbase block).txid⟩

theorem Sample.mergedProof_limits (block : Hash) : (Sample.mergedProof block).WithinLimits := by
  have hdata : (plainCoinbase block).coinbaseData.val.length = 48 := by
    simp [plainCoinbase, mergedCoinbase, MERGED_MINING_HEADER, block.property]
  have hsize : (plainCoinbase block).size ≤ MAX_COINBASE_DATA + 2000 := by
    have hcount := AuxPoW.varint_length_le 1
    have hlength := AuxPoW.varint_length_le 48
    have hitems := AuxPoW.varint_length_le 0
    have hinput := Transaction.inputCore_length (⟨COINBASE_OUTPOINT, SEQUENCE_FINAL⟩ : InputCore)
    have houtput := Transaction.output_length Sample.reward
    simp only [Transaction.size, Transaction.serialize, Transaction.serializeBody, serializeWitness,
      Writer.varbytes, Writer.uint32, hdata]
    simp only [plainCoinbase, mergedCoinbase, TxInput.core, List.length_append, List.length_nil,
      List.flatMap_cons, List.flatMap_nil, List.append_nil, leBytes_length, hinput, houtput,
      MAX_COINBASE_DATA, MERGED_MINING_HEADER, block.property, List.length_cons, Nat.zero_add]
    clear hinput houtput hdata
    generalize (Writer.varint 0).length = x at *
    generalize (Writer.varint 1).length = y at *
    generalize (Writer.varint 48).length = z at *
    omega
  have hindex : 0 < 2 ^ 32 := by decide
  refine ⟨fun _ h => absurd h List.not_mem_nil, Nat.zero_le _, hindex,
    fun _ h => absurd h List.not_mem_nil, Nat.zero_le _, hindex, ⟨List.cons_ne_nil _ _,
      List.cons_ne_nil _ _, by rw [Sample.mergedProof, hdata]; decide, ?_⟩, hsize⟩
  intro txin htxin item hitem
  obtain rfl := List.mem_singleton.mp htxin
  cases hitem

/-- The block with the proof. -/
def Sample.proved (b : Block) : Block :=
  b.withAuxpow ⟨Sample.mergedProof b.hash, (Sample.mergedProof_limits b.hash).serializable⟩

/-- A candidate with the second spend becomes the tip. -/
theorem Wired.Logged.candidate_connects_spent : ∃ w seen a b, Sample.spent = some (w, seen) ∧
    createAuxBlock REGTEST w.chain (some w.pool) (Sample.payload 2) 1700000100 7 = .ok a ∧
    a.buildBlock = .ok b ∧ b.transactions.tail = [Sample.dear] ∧
    Wired.BecomesTip REGTEST 2 1700000100 w.chain (Sample.proved b) := by
  have hrun : (Sample.spent.any fun r =>
      (createAuxBlock REGTEST r.1.chain (some r.1.pool) (Sample.payload 2) 1700000100
        7).toOption.any fun a => a.buildBlock.toOption.any fun b =>
          Sample.restful Sample.spoils r.1 &&
          Sample.timely Sample.spoils 1700000100 r.1.chain (Sample.proved b) &&
          decide (r.1.chain.invalid = [] ∧ b.transactions.tail = [Sample.dear] ∧
            auxpowActiveAt REGTEST (r.1.chain.tip.height + 1) = true ∧ 0 < a.target ∧
            (validateAuxpow (Sample.mergedProof b.hash) a.auxBlockHash.val a.target
              a.chainId).toOption = some () ∧
            (Sample.proved b).size ≤ REGTEST.maxBlockSize ∧
            REGTEST.minOutputValue ≤ a.coinbaseValue)) = true := by decide +kernel
  obtain ⟨⟨w, seen⟩, hw, h₁⟩ := (Option.any_eq_true _ _).mp hrun
  obtain ⟨a, ha, h₂⟩ := (Option.any_eq_true _ _).mp h₁
  obtain ⟨b, hb, h₃⟩ := (Option.any_eq_true _ _).mp h₂
  obtain ⟨hstate, hfacts⟩ := (Bool.and_eq_true _ _).mp h₃
  obtain ⟨hrest, htimely⟩ := (Bool.and_eq_true _ _).mp hstate
  obtain ⟨hinvalid, htail, hactive, hpos, hproof, hsize, hreward⟩ := of_decide_eq_true hfacts
  have hmade := toOption_eq_some.mp ha
  have hbuilt := toOption_eq_some.mp hb
  obtain ⟨proof, hval⟩ : ∃ proof : AuxPoW.Wire,
      proof = ⟨Sample.mergedProof b.hash, (Sample.mergedProof_limits b.hash).serializable⟩ :=
      ⟨_, rfl⟩
  have hvalid : validateAuxpow proof.val a.auxBlockHash.val a.target a.chainId = .ok () := by
    rw [hval]
    exact toOption_eq_some.mp hproof
  obtain ⟨b', hb', -, hconnects⟩ := (Sample.spent_logged hw).candidate_connects
    Sample.spoils_distinguished (Sample.restful_sound hrest) hmade hactive hpos
    (by rw [hval]; exact Sample.mergedProof_limits b.hash) hvalid
  obtain rfl := Except.ok.inj (hbuilt.symm.trans hb')
  have hproved : b.withAuxpow proof = Sample.proved b := by rw [hval, Sample.proved]
  rw [hproved] at hconnects
  exact ⟨w, seen, a, b, hw, hmade, hbuilt, htail, (hconnects 1700000100 2
    (Sample.timely_sound htimely hinvalid) (Nat.le_refl 2)).mpr ⟨hsize, hreward⟩⟩

end Instances

end ScarletCoin
