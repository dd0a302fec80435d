import ScarletCoin.Invariants.Locks
import ScarletCoin.Rules.Declarative

/-!
# The prices of the pool

What a transaction pays is computed once, when it is let in, against the coins of the chain and of
the pool at that moment. `Mempool.Solvent` says that every pooled transaction is still well formed,
final and small enough, that it still passes the checks of its inputs, at the height of the next
block and over the coins as the pool now offers them, and that these still give the fee noted down
for it.

The coins that an input of a sound pool names do not depend on what else is pooled (`offers_eq`), so
removals and newcomers keep it, and it holds in every run of a chain with its pool in which parents
are spared (`Wired.Runs.solvent`).
-/

set_option autoImplicit false

namespace ScarletCoin

open Toolkit

section Prices

variable [Crypto] {t : Transaction} {view view' : OutPoint → Option Coin} {height : Nat}
  {params : ChainParams}

/-- The checks of the inputs look at the coins of the inputs alone. -/
theorem checkTransactionInputs_congr {verify : Bool} {fee : Nat}
    (h : checkTransactionInputs t view height params verify = .ok fee)
    (hview : ∀ o ∈ t.prevouts, view' o = view o) :
    checkTransactionInputs t view' height params verify = .ok fee := by
  obtain ⟨hrules, hfee⟩ := checkTransactionInputs_eq_ok.mp h
  have hinputs : ∀ txin ∈ t.inputs, view' txin.prevout = view txin.prevout :=
    fun txin htxin => hview _ (List.mem_map_of_mem htxin)
  have htotal : inputTotal view' t.inputs = inputTotal view t.inputs := by
    unfold inputTotal
    rw [List.map_congr_left fun txin htxin => by rw [hinputs txin htxin]]
  exact checkTransactionInputs_eq_ok.mpr ⟨hrules.congr hinputs, by rw [htotal, hfee]⟩

/-- What passes with its signatures checked passes without. -/
theorem SpendRules.unsigned {verify : Bool} (h : SpendRules t view height params verify) :
    SpendRules t view height params false := by
  refine ⟨h.notCoinbase, fun entry hentry => ?_, h.money, h.covered⟩
  obtain ⟨coin, hrule⟩ := h.inputs entry hentry
  exact ⟨coin, hrule.unspent, hrule.mature, hrule.known, fun hverify => Bool.noConfusion hverify⟩

theorem checkTransactionInputs_unsigned {verify : Bool} {fee : Nat}
    (h : checkTransactionInputs t view height params verify = .ok fee) :
    checkTransactionInputs t view height params false = .ok fee := by
  obtain ⟨hrules, hfee⟩ := checkTransactionInputs_eq_ok.mp h
  exact checkTransactionInputs_eq_ok.mpr ⟨hrules.unsigned, hfee⟩

/-- An opened transaction that passes without its signatures over known coins passes with them. -/
theorem checkTransactionInputs_signed {U : Transaction → Prop} {fee : Nat} (ht : t.Opened U)
    (hview : CoinsOf U view) (h : checkTransactionInputs t view height params false = .ok fee) :
    checkTransactionInputs t view height params true = .ok fee := by
  obtain ⟨hrules, hfee⟩ := checkTransactionInputs_eq_ok.mp h
  refine checkTransactionInputs_eq_ok.mpr ⟨⟨hrules.notCoinbase, fun entry hentry => ?_,
    hrules.money, hrules.covered⟩, hfee⟩
  obtain ⟨coin, hrule⟩ := hrules.inputs entry hentry
  exact ⟨coin, hrule.unspent, hrule.mature, hrule.known,
    fun _ => ht entry hentry coin (hview _ coin hrule.unspent)⟩

end Prices

namespace Mempool

section Offers

variable [Crypto] {U : Transaction → Prop} {utxo : Table OutPoint Coin} {ids : List Hash}
    {p q : Mempool}
  {height : Nat}

/-- The coin at an outpoint as the pool and the coins of the chain have it, whoever spends it. -/
def offers (p : Mempool) (utxo : Table OutPoint Coin) (height : Nat) (o : OutPoint) : Option Coin :=
  match p.byTxid.lookup o.txid with
  | some entry =>
      (entry.transaction.outputs[o.index.toNat]?).map fun output =>
        ⟨output.value, output.type, output.payload, height, false⟩
  | none => utxo.lookup o

omit [Crypto] in
theorem offers_of_pooled {o : OutPoint} {e : MempoolEntry} (h : p.byTxid.lookup o.txid = some e) :
    p.offers utxo height o = (e.transaction.outputs[o.index.toNat]?).map fun output =>
      ⟨output.value, output.type, output.payload, height, false⟩ := by
  rw [offers, h]

omit [Crypto] in
theorem offers_of_absent {o : OutPoint} (h : p.byTxid.lookup o.txid = none) :
    p.offers utxo height o = utxo.lookup o := by
  rw [offers, h]

omit [Crypto] in
/-- To the transaction that spends it, the view shows the coin that is offered. -/
theorem coinView_eq_offers {c : Blockchain} {ignored : List OutPoint} {o : OutPoint}
    (ho : o ∈ ignored) : p.coinView c height ignored o = p.offers c.storage.utxo height o := by
  rw [coinView, if_neg fun h => h.2 ho]
  rfl

/-- No pooled transaction is confirmed, so no coin of the chain is offered by the pool. -/
theorem Sound.absent_of_coin (hp : p.Sound U utxo ids) (hsettled : Settled U utxo ids)
    {o : OutPoint} (ho : utxo.lookup o ≠ none) : p.byTxid.lookup o.txid = none := by
  by_contra hne
  obtain ⟨e, he⟩ := Option.ne_none_iff_exists'.mp hne
  exact hp.unconfirmed _ e he (hsettled.coin o ho)

/-- What funds an input in a part of a sound pool is what the whole pool offers. -/
theorem offers_eq (hp : p.Sound U utxo ids) (hsettled : Settled U utxo ids)
    (hsub : ∀ k e, q.byTxid.lookup k = some e → p.byTxid.lookup k = some e) {o : OutPoint}
    (ho : q.Funds utxo o) : q.offers utxo height o = p.offers utxo height o := by
  rcases ho with hcoin | ⟨e, he, -⟩
  · have hnone := hp.absent_of_coin hsettled hcoin
    rw [offers_of_absent hnone, offers_of_absent]
    by_contra hne
    obtain ⟨e, he⟩ := Option.ne_none_iff_exists'.mp hne
    rw [hsub _ e he] at hnone
    cases hnone
  · rw [offers_of_pooled he, offers_of_pooled (hsub _ e he)]

/-- What is asked of a transaction alone before it may be mined at a height. -/
structure Eligible (params : ChainParams) (height : Nat) (t : Transaction) : Prop where
  sane : t.checkSanity params.minOutputValue = .ok ()
  final : checkTransactionFinal t height = true
  small : t.size ≤ params.maxBlockSize / 2

/-- Every pooled transaction is eligible and passes the checks of its inputs at a height, but for
the signatures, with the fee noted down for it. -/
structure Solvent (params : ChainParams) (utxo : Table OutPoint Coin) (height : Nat) (p : Mempool) :
    Prop where
  eligible : ∀ h e, p.byTxid.lookup h = some e → Eligible params height e.transaction
  priced : ∀ h e, p.byTxid.lookup h = some e →
    checkTransactionInputs e.transaction (p.offers utxo height) height params false = .ok e.fee

variable {params : ChainParams}

theorem solvent_of_empty (hempty : ∀ h, p.byTxid.lookup h = none) :
    p.Solvent params utxo height := by
  refine ⟨fun h e he => ?_, fun h e he => ?_⟩
  · rw [hempty h] at he
    cases he
  · rw [hempty h] at he
    cases he

/-- A sound part of a sound pool is solvent if the pool is. -/
theorem Solvent.within (h : p.Solvent params utxo height) (hp : p.Sound U utxo ids)
    (hsettled : Settled U utxo ids) (hq : q.Sound U utxo ids) (hwithin : Within q p) :
    q.Solvent params utxo height :=
  ⟨fun k e he => h.eligible k e (hwithin.sub k e he), fun k e he =>
    checkTransactionInputs_congr (h.priced k e (hwithin.sub k e he)) fun o ho =>
      offers_eq hp hsettled hwithin.sub (hq.funded k e he o ho)⟩

theorem Prunes.solvent (hprunes : Prunes p q) (h : p.Solvent params utxo height)
    (hp : p.Sound U utxo ids) (hsettled : Settled U utxo ids) : q.Solvent params utxo height :=
  h.within hp hsettled (hprunes.sound hp) (hprunes.within hp.wf)

/-- A newcomer at the price of its inputs keeps a pool solvent, if the pool with it is sound. -/
theorem Solvent.insertEntry (h : p.Solvent params utxo height) (hp : p.Sound U utxo ids)
    (hsettled : Settled U utxo ids) {t : Transaction} {fee : Nat} (now : Nat)
    (hq : (p.insertEntry (newcomer t fee now)).Sound U utxo ids)
    (hnew : p.byTxid.lookup t.txid = none) (heligible : Eligible params height t)
    (hprice : checkTransactionInputs t ((p.insertEntry (newcomer t fee now)).offers utxo height)
      height params false = .ok fee) :
    (p.insertEntry (newcomer t fee now)).Solvent params utxo height := by
  have hlook : ∀ k, (p.insertEntry (newcomer t fee now)).byTxid.lookup k =
      if k = t.txid then some (newcomer t fee now) else p.byTxid.lookup k :=
    fun k => Table.lookup_insert_if t.txid k (newcomer t fee now) p.byTxid
  have hsub : ∀ k e, p.byTxid.lookup k = some e →
      (p.insertEntry (newcomer t fee now)).byTxid.lookup k = some e := by
    intro k e he
    rw [hlook, if_neg, he]
    rintro rfl
    rw [hnew] at he
    cases he
  refine ⟨fun k e he => ?_, fun k e he => ?_⟩
  · rw [hlook] at he
    split at he
    · obtain rfl := Option.some.inj he
      exact heligible
    · exact h.eligible k e he
  · rw [hlook] at he
    split at he
    · obtain rfl := Option.some.inj he
      exact hprice
    · exact checkTransactionInputs_congr (h.priced k e he) fun o ho =>
        (offers_eq hq hsettled hsub (hp.funded k e he o ho)).symm

end Offers

section Admission

variable [Crypto] [ScanOrder Hash] {U : Transaction → Prop} {ids : List Hash} {p q : Mempool}
  {params : ChainParams} {c : Blockchain} {t : Transaction}

/-- `add` keeps a sound pool solvent, if a newcomer that passes the checks spares its parents. -/
theorem Solvent.add (h : p.Solvent params c.storage.utxo (c.height + 1))
    (hp : p.Sound U c.storage.utxo ids) (hsettled : Settled U c.storage.utxo ids) (ht : U t)
    (now : Nat) {verify : Bool} (hspares : (p.judge params c t verify).isOk = true → p.Spares t) :
    (p.add params c now t verify).1.Solvent params c.storage.utxo (c.height + 1) := by
  rcases p.add_cases params c now t verify with ⟨hsame, -⟩ |
    ⟨fee, hjudge, ⟨-, hdropped, -⟩ | ⟨-, hentered, -⟩⟩
  · rw [hsame]
    exact h
  · rw [hdropped]
    exact (p.removeAll_prunes _).solvent h hp hsettled
  · rw [hentered]
    have hspares := hspares (by rw [hjudge]; rfl)
    obtain ⟨hscreened, hprice, -⟩ := judge_eq_ok.mp hjudge
    have hprunes := p.removeAll_prunes (p.conflicts t)
    have hpruned := (hprunes.sound hp).rememberVerified t.txid
    have hsolvent : ((p.removeAll (p.conflicts t)).rememberVerified t.txid).Solvent params
        c.storage.utxo (c.height + 1) :=
      ⟨(hprunes.solvent h hp hsettled).eligible, (hprunes.solvent h hp hsettled).priced⟩
    obtain ⟨hnew, -⟩ := hp.wf.enter hscreened.absent fee now
    -- what the newcomer sees is a coin of the chain or the output of a parent that stays
    have hseen : ∀ o ∈ t.prevouts, ∃ coin, p.coinView c (c.height + 1)
        (if p.conflicts t = [] then [] else t.inputs.map TxInput.prevout) o = some coin ∧
        ((p.removeAll (p.conflicts t)).rememberVerified t.txid).Funds c.storage.utxo o := by
      intro o ho
      obtain ⟨coin, hview⟩ := price_inputs hprice o ho
      refine ⟨coin, hview, ?_⟩
      rcases funds_of_coinView hview with hcoin | ⟨e, he, hlt⟩
      · exact .inl hcoin
      · exact .inr ⟨e, removeAll_kept hp.wf he (hspares o ho), hlt⟩
    have hsound := hpruned.insertEntry hsettled fee now ht hscreened.notCoinbase
      (Transaction.checkSanity_sane hscreened.sane).inputs hnew (conflicts_cleared hp.wf)
      fun o ho => (hseen o ho).choose_spec.2
    refine (evictIfNeeded_prunes _).solvent (hsolvent.insertEntry hpruned hsettled now hsound hnew
      ⟨hscreened.sane, hscreened.final, hscreened.small⟩ ?_) hsound hsettled
    refine checkTransactionInputs_congr (checkTransactionInputs_unsigned hprice) fun o ho => ?_
    obtain ⟨coin, hview, -⟩ := hseen o ho
    rw [hview]
    obtain ⟨-, ⟨e, output, he, hout, rfl⟩ | ⟨-, hcoin⟩⟩ := coinView_eq_some.mp hview
    · have hkept := removeAll_kept hp.wf he (hspares o ho)
      have hne : o.txid ≠ (newcomer t fee now).txid := by
        intro heq
        rw [show o.txid = t.txid from heq, hscreened.absent] at he
        cases he
      have hlook : (((p.removeAll (p.conflicts t)).rememberVerified t.txid).insertEntry
          (newcomer t fee now)).byTxid.lookup o.txid = some e := by
        rw [Mempool.insertEntry, Table.lookup_insert_if, if_neg hne]
        exact hkept
      rw [offers_of_pooled hlook, hout]
      rfl
    · have hlook : c.storage.utxo.lookup o = some coin := hcoin
      rw [offers_of_absent
        (hsound.absent_of_coin hsettled (by rw [hlook]; exact Option.some_ne_none coin)), hlook]

/-- Checking a pool once more makes it solvent, whatever it was. -/
theorem Known.revalidate_solvent (hp : p.Known U) (hsettled : Settled U c.storage.utxo ids)
    (now : Nat → Nat) :
    (p.revalidate params c now).1.Solvent params c.storage.utxo (c.height + 1) :=
  (hp.revalidate_rule hsettled now (fun _ => solvent_of_empty)
    fun _ _ now _ hq ht hspares hsolvent => hsolvent.add hq hsettled ht now hspares).2

/-- A notification that comes back leaves a known pool solvent. -/
theorem Known.onEvent_solvent (hp : p.Known U) (hsettled : Settled U c.storage.utxo ids)
    (now : Nat → Nat) {event : Event} (hblock : ∀ t ∈ event.block.transactions, U t)
    (hok : (p.onEvent params c now event).2 = .ok ()) :
    (p.onEvent params c now event).1.Solvent params c.storage.utxo (c.height + 1) := by
  unfold Mempool.onEvent at hok ⊢
  cases hkind : event.kind with
  | connect =>
    have hdrop : (event.block.transactions.foldl dropConfirmed p).Known U := by
      refine List.foldlRecOn event.block.transactions dropConfirmed hp fun q hq t _ => ?_
      obtain ⟨hwf, hwithin⟩ := dropConfirmed_wf hq.wf t
      exact hq.within hwf hwithin
    exact hdrop.revalidate_solvent hsettled now
  | disconnect =>
    rw [hkind] at hok
    have hadded : (p.addAll params c now event.block.transactions.tail).1.Known U :=
      addAll_rule (Known U) (fun q t now verify ht hq =>
        hq.add (hblock t (List.mem_of_mem_tail ht)) now verify) hp
    dsimp only [blockDisconnected] at hok ⊢
    cases hadd : p.addAll params c now event.block.transactions.tail with
    | mk q answer =>
      rw [hadd] at hadded hok
      cases answer with
      | error e => cases hok
      | ok u => exact Known.revalidate_solvent hadded hsettled _

end Admission

end Mempool

/-! ## Runs -/

namespace Wired

section Runs

variable [Crypto] [ScanOrder Hash] {params : ChainParams} {U : Transaction → Prop}

/-- A chain with its pool keeps the invariant, and keeps the pool solvent while it has been told of
everything. -/
theorem Good.run_solvent {w w' : Wired} {bs : List TreeNode} (hw : w.Good params U bs)
    (hsolvent : w.stale = false →
      w.pool.Solvent params w.chain.storage.utxo (w.chain.height + 1))
    (hU : Distinguished U) {call : WiredCall} (hcall : w.Sparing params U call)
    (h : w.run params call = some w') (hstored : w'.chain.storage.Holds U)
    (hfresh : w'.stale = false) :
    w'.pool.Solvent params w'.chain.storage.utxo (w'.chain.height + 1) := by
  have hheld : w.chain.storage.Holds U :=
    fun k n hn => hstored k n ((run_chained hw.chained h).2 k n hn)
  have hsettled := hw.chained.settled hU hheld
  rcases run_cases h with ⟨now, t, verify, rfl, rfl⟩ | ⟨txid, d, rfl, rfl⟩ | ⟨now, rfl, -, rfl⟩ |
    ⟨now, event, events, rfl, hpending, hanswer⟩ | ⟨-, rfl⟩
  · exact (hsolvent hfresh).add (hw.sound hfresh) hsettled hcall.1 now hcall.2
  · -- what is left spends what it spent before
    have hrem := Mempool.remove_removal hw.known.wf txid d
    exact (hsolvent hfresh).within (hw.sound hfresh) hsettled ((hw.sound hfresh).remove hcall)
      hrem.within
  · exact hsolvent hfresh
  · obtain ⟨n, hn, hblock⟩ := hw.pending event (by rw [hpending]; exact List.mem_cons_self)
    rcases hanswer with ⟨hok, rfl⟩ | ⟨e, -, rfl⟩
    · exact hw.known.onEvent_solvent hsettled now (hblock ▸ hheld _ n hn) hok
    · -- the pool raised, so it is stale until it is told again
      cases hfresh
  · obtain ⟨bs', hchained, -, hcases⟩ := stepChain_cases hw.chained call
    rcases hcases with ⟨rfl, hquiet⟩ | ⟨events, hne, hheard, -⟩
    · -- the active blocks are the same, and so are the coins and the height
      have hutxo : (stepChain params w.chain call).storage.utxo = w.chain.storage.utxo :=
        (hchained.ledger (hstored.noTxidCollision hU)).utxo.trans
          (hw.chained.ledger (hheld.noTxidCollision hU)).utxo.symm
      have hheight : (stepChain params w.chain call).height = w.chain.height := by
        obtain ⟨t, rest, hbs, htip, -⟩ := hw.chained.standing.tip
        obtain ⟨t', rest', hbs', htip', -⟩ := hchained.standing.tip
        obtain ⟨rfl, -⟩ := List.cons.inj (hbs'.symm.trans hbs)
        have hmem : t' ∈ bs' := by
          rw [hbs]
          exact List.mem_cons_self
        rw [Blockchain.height, Blockchain.height, htip, htip',
          Storage.entryAt_height (hw.chained.standing.based.active.branch.stored t' hmem),
          Storage.entryAt_height (hchained.standing.based.active.branch.stored t' hmem)]
      have hnone : (stepChain params w.chain call).notified.drop w.chain.notified.length = [] := by
        rw [hquiet, List.drop_length]
      simp only [move, hnone, List.isEmpty_nil, Bool.not_true, Bool.or_false] at hfresh ⊢
      rw [hutxo, hheight]
      exact hsolvent hfresh
    · -- events wait, so the pool is stale
      have hdrop : (stepChain params w.chain call).notified.drop w.chain.notified.length =
          events := by
        rw [hheard, List.drop_left]
      simp only [move, hdrop] at hfresh
      cases events with
      | nil => exact absurd rfl hne
      | cons e events => simp at hfresh

/-- In every run in which parents are spared, the pool is solvent once it has been told of
everything. -/
theorem Runs.solvent (hU : Distinguished U) {w : Wired} (h : Runs params (Sparing params U) w)
    (hstored : w.chain.storage.Holds U) (hfresh : w.stale = false) :
    w.pool.Solvent params w.chain.storage.utxo (w.chain.height + 1) := by
  induction h with
  | start maxBytes hc => exact Mempool.solvent_of_empty fun _ => rfl
  | call call hruns hcall hrun ih =>
    obtain ⟨bs, hchained⟩ := hruns.chained
    have hheld := fun k n hn => hstored k n ((run_chained hchained hrun).2 k n hn)
    obtain ⟨bs₁, hgood⟩ := hruns.good hU hheld
    exact hgood.run_solvent (ih hheld) hU hcall hrun hstored hfresh

theorem Logged.mono {allowed allowed' : List Transaction → Wired → WiredCall → Prop} {w : Wired}
    {seen : List Transaction} (h : Logged params allowed w seen)
    (hmono : ∀ seen w call, allowed seen w call → allowed' seen w call) :
    Logged params allowed' w seen := by
  induction h with
  | start maxBytes hc => exact .start maxBytes hc
  | call call _ hcall hrun ih => exact .call call ih (hmono _ _ _ hcall) hrun

/-- What was handed over can be forgotten. -/
theorem Logged.forget {allowed : List Transaction → Wired → WiredCall → Prop}
    {allowed' : Wired → WiredCall → Prop} {w : Wired} {seen : List Transaction}
    (h : Logged params allowed w seen)
    (hmono : ∀ seen w call, allowed seen w call → allowed' w call) : Runs params allowed' w := by
  induction h with
  | start maxBytes hc => exact .start maxBytes hc
  | call call _ hcall hrun ih => exact .call call ih (hmono _ _ _ hcall) hrun

/-- The call spares the parents and is vouched for. -/
def Careful (params : ChainParams) (U : Transaction → Prop) (seen : List Transaction) (w : Wired)
    (call : WiredCall) : Prop :=
  w.Sparing params U call ∧ Vouched params U seen w call

/-- In every careful run, once the pool has been told of everything, every pooled transaction passes
the checks of its inputs with its signatures over the coins offered. -/
theorem Logged.priced (hU : Distinguished U) {w : Wired} {seen : List Transaction}
    (h : Logged params (Careful params U) w seen) (hstored : w.chain.storage.Holds U)
    (hfresh : w.stale = false) {k : Hash} {e : MempoolEntry}
    (he : w.pool.byTxid.lookup k = some e) :
    Mempool.Eligible params (w.chain.height + 1) e.transaction ∧
      checkTransactionInputs e.transaction (w.pool.offers w.chain.storage.utxo (w.chain.height + 1))
        (w.chain.height + 1) params true = .ok e.fee := by
  have hsolvent := (h.forget fun _ _ _ hcall => hcall.1).solvent hU hstored hfresh
  obtain ⟨bs, hvetted⟩ := (h.mono fun _ _ _ hcall => hcall.2).vetted hU hstored
  have hcoins := hvetted.known.coinsOf (hvetted.chained.coinsOf hU hstored) (w.chain.height + 1)
    e.transaction.prevouts
  -- the coins offered to the transaction are those in its view
  have hview : ∀ o ∈ e.transaction.prevouts,
      w.pool.offers w.chain.storage.utxo (w.chain.height + 1) o =
      w.pool.coinView w.chain (w.chain.height + 1) e.transaction.prevouts o :=
    fun o ho => (Mempool.coinView_eq_offers ho).symm
  have hunsigned :=
    checkTransactionInputs_congr (hsolvent.priced k e he) fun o ho => (hview o ho).symm
  exact ⟨hsolvent.eligible k e he, checkTransactionInputs_congr
    (checkTransactionInputs_signed (hvetted.guarded k e he) hcoins hunsigned) hview⟩

/-- **The pool stays in force.** In every run in which parents are spared and nothing unchecked is
let in that was not handed over before, once the pool has been told of everything, every pooled
transaction would pass the checks of the next block against the chain and the pool as they are now,
signatures included, and the fee noted down when it came is what these checks give. -/
theorem Logged.pool_in_force (hU : Distinguished U) {w : Wired} {seen : List Transaction}
    (h : Logged params (Careful params U) w seen) (hstored : w.chain.storage.Holds U)
    (hfresh : w.stale = false) :
    ∀ k e, w.pool.byTxid.lookup k = some e →
      Mempool.Eligible params (w.chain.height + 1) e.transaction ∧
      checkTransactionInputs e.transaction
        (w.pool.coinView w.chain (w.chain.height + 1) e.transaction.prevouts)
        (w.chain.height + 1) params true = .ok e.fee := by
  intro k e he
  obtain ⟨heligible, hpriced⟩ := h.priced hU hstored hfresh he
  exact ⟨heligible, checkTransactionInputs_congr hpriced fun o ho => Mempool.coinView_eq_offers ho⟩

end Runs

end Wired

section Instances

attribute [local instance] Sample.crypto Sample.order

/-- Whether a call is careful at a glance. -/
def Sample.careful (seen : List Transaction) (w : Wired) (call : WiredCall) : Bool :=
  Sample.sparing w call && Sample.vouched seen w call

theorem Sample.careful_sound (seen : List Transaction) (w : Wired) (call : WiredCall)
    (h : Sample.careful seen w call = true) :
    Wired.Careful REGTEST (· ∈ Sample.ledger) seen w call := by
  obtain ⟨hsparing, hvouched⟩ := (Bool.and_eq_true _ _).mp h
  exact ⟨Sample.sparing_sound w call hsparing, Sample.vouched_sound seen w call hvouched⟩

/-- The transactions of the samples have distinct ids. -/
theorem Sample.ledger_distinguished : Distinguished (· ∈ Sample.ledger) := by
  have hall : ∀ t ∈ Sample.ledger, ∀ t' ∈ Sample.ledger, t.txid = t'.txid →
      t.serializeBody = t'.serializeBody := by decide +kernel
  exact fun t t' ht ht' => hall t ht t' ht'

/-- It holds of a pool in which a transaction was replaced and the parent of another one was
mined. -/
theorem Wired.Logged.pool_in_force_mined :
    ∃ w seen, (Sample.chainAfter Sample.funded).bind (fun c =>
      Wired.followLogged REGTEST Sample.careful [] (Wired.start c 5000000)
        [.add 0 Sample.cheap true, .add 1 Sample.dear true, .add 2 Sample.child true,
          .submit 1700001032 Sample.mined, .round, .notify fun i => i + 3]) = some (w, seen) ∧
    w.pool.order = [Sample.child.txid] ∧
    ∀ k e, w.pool.byTxid.lookup k = some e →
      Mempool.Eligible REGTEST (w.chain.height + 1) e.transaction ∧
      checkTransactionInputs e.transaction
        (w.pool.coinView w.chain (w.chain.height + 1) e.transaction.prevouts)
        (w.chain.height + 1) REGTEST true = .ok e.fee := by
  have hrun : (((Sample.chainAfter Sample.funded).bind fun c =>
      Wired.followLogged REGTEST Sample.careful [] (Wired.start c 5000000)
        [.add 0 Sample.cheap true, .add 1 Sample.dear true, .add 2 Sample.child true,
          .submit 1700001032 Sample.mined, .round, .notify fun i => i + 3]).any fun r =>
      decide (r.1.pool.order = [Sample.child.txid] ∧ r.1.stale = false) &&
        r.1.chain.storage.blockRows.all fun p => p.2.body.transactions.all fun t =>
          decide (t ∈ Sample.ledger)) = true := by decide +kernel
  obtain ⟨⟨w, seen⟩, hw, h⟩ := (Option.any_eq_true _ _).mp hrun
  obtain ⟨hstate, hheld⟩ := (Bool.and_eq_true _ _).mp h
  obtain ⟨horder, hfresh⟩ := of_decide_eq_true hstate
  obtain ⟨c, hc, hfollow⟩ := Option.bind_eq_some_iff.mp hw
  have hlogged : Wired.Logged REGTEST (Wired.Careful REGTEST (· ∈ Sample.ledger)) w seen :=
    (Wired.Logged.start 5000000 (Sample.chainAfter_reachable hc)).follow
      Sample.careful_sound hfollow
  refine ⟨w, seen, hw, horder,
    hlogged.pool_in_force Sample.ledger_distinguished (fun k n hn t ht => ?_) hfresh⟩
  obtain ⟨row, hrow, rfl⟩ := Storage.tree_eq_some.mp hn
  have hrows := List.all_eq_true.mp hheld (k, row) ((mem_scan _ _ _).mpr hrow)
  exact of_decide_eq_true (List.all_eq_true.mp hrows t ht)

end Instances

end ScarletCoin
