import ScarletCoin.Invariants.Minable

/-!
# The locks that pooled transactions open

A transaction is `Opened` if its witnesses open the outputs it names. What a lock check reads of a
coin is the amount, the type and the payload of the output it was made from, so an opened
transaction passes the lock checks over every view of known coins, now and later. The transactions
of the active chain are opened (`Chained.opened`), and `add` lets only opened ones in as long as
whatever skips the signature checks is opened already (`Mempool.Guarded.add`).

A transaction skips them if its id is remembered, and the id says nothing of the witnesses. So
`Wired.Logged` carries the transactions that were let in or came back from disconnected blocks, and
the pool keeps to opened transactions in every run in which nothing else passes `add` unchecked
(`Wired.Logged.locks_pass`); a twin with other witnesses breaks it (`locks_fail`).
-/

set_option autoImplicit false

namespace ScarletCoin

open Toolkit

section Locks

variable [Crypto]

/-! ## Coins of known outputs -/

/-- The coin has what lock checks read of an output of one of these transactions. -/
def Coin.IsOutput (U : Transaction → Prop) (coin : Coin) (o : OutPoint) : Prop :=
  ∃ t, U t ∧ t.txid = o.txid ∧ ∃ output, t.outputs[o.index.toNat]? = some output ∧
    coin.value = output.value ∧ coin.outputType = output.type ∧ coin.payload = output.payload

/-- Every coin was made from an output of one of these transactions. -/
def CoinsOf (U : Transaction → Prop) (view : OutPoint → Option Coin) : Prop :=
  ∀ o coin, view o = some coin → coin.IsOutput U o

/-- The witnesses open every output that the transaction names. -/
def Transaction.Opened (U : Transaction → Prop) (t : Transaction) : Prop :=
  ∀ entry ∈ t.inputs.zipIdx, ∀ coin : Coin, coin.IsOutput U entry.1.prevout →
    verifyLock t entry.2 coin (SignatureHasher.start t) = .ok true

variable {U : Transaction → Prop} {t : Transaction} {view : OutPoint → Option Coin}

/-- Of a coin, a lock check reads the amount, the type and the payload. -/
theorem verifyLock_congr {coin coin' : Coin} (hvalue : coin.value = coin'.value)
    (htype : coin.outputType = coin'.outputType) (hpayload : coin.payload = coin'.payload)
    (index : Nat) (hasher : SignatureHasher) :
    verifyLock t index coin hasher = verifyLock t index coin' hasher := by
  unfold verifyLock
  rw [hvalue, htype, hpayload]

/-- The outpoint determines what lock checks read of its coin. -/
theorem Coin.IsOutput.unique (hU : Distinguished U) {coin coin' : Coin} {o : OutPoint}
    (h : coin.IsOutput U o) (h' : coin'.IsOutput U o) :
    coin.value = coin'.value ∧ coin.outputType = coin'.outputType ∧
      coin.payload = coin'.payload := by
  obtain ⟨t, ht, hid, output, hout, hvalue, htype, hpayload⟩ := h
  obtain ⟨t', ht', hid', output', hout', hvalue', htype', hpayload'⟩ := h'
  have hbody := hU t t' ht ht' (hid.trans hid'.symm)
  obtain ⟨⟨-, -, houtputs, -⟩, -⟩ := Transaction.serializeBody_selfDelimiting
    (a := t) (b := t') (x := []) (y := []) (by rw [hbody])
  rw [houtputs, hout'] at hout
  obtain rfl := Option.some.inj hout
  exact ⟨hvalue.trans hvalue'.symm, htype.trans htype'.symm, hpayload.trans hpayload'.symm⟩

/-- A transaction that met the rules with its signatures checked is opened. -/
theorem SpendRules.opened (hU : Distinguished U) {height : Nat} {params : ChainParams}
    (h : SpendRules t view height params true) (hview : CoinsOf U view) : t.Opened U := by
  intro entry hentry coin hcoin
  obtain ⟨coin', hrule⟩ := h.inputs entry hentry
  obtain ⟨hvalue, htype, hpayload⟩ := hcoin.unique hU (hview _ _ hrule.unspent)
  rw [verifyLock_congr hvalue htype hpayload]
  exact hrule.opened rfl

/-! ## Confirmed transactions -/

/-- A coin that a transaction creates is one of its outputs. -/
theorem Transaction.isOutput_of_mem_coins {height : Nat} {o : OutPoint} {coin : Coin} (ht : U t)
    (h : (o, coin) ∈ t.coins height) : coin.IsOutput U o := by
  obtain ⟨⟨output, index⟩, hmem, heq⟩ := List.mem_map.mp h
  obtain ⟨rfl, rfl⟩ := Prod.mk.inj heq
  have hout := List.mem_zipIdx_iff_getElem?.mp hmem
  have hlt : index < 2 ^ 32 :=
    Nat.lt_trans (List.getElem?_eq_some_iff.mp hout).1 t.outputs_fit
  refine ⟨t, ht, rfl, output, ?_, rfl, rfl, rfl⟩
  show t.outputs[(UInt32.ofNat index).toNat]? = some output
  rwa [UInt32.toNat_ofNat', Nat.mod_eq_of_lt hlt]

/-- The table that postings of known transactions lead to has known coins. -/
theorem coinsOf_tableAfter {ps : List (Posting Hash OutPoint Coin)}
    (h : ∀ p ∈ ps, ∃ t height, U t ∧ p = t.posting height) : CoinsOf U (tableAfter ps).lookup := by
  intro o coin hcoin
  obtain ⟨p, hp, hmem⟩ := created_of_lookup hcoin
  obtain ⟨t, height, ht, rfl⟩ := h p hp
  exact Transaction.isOutput_of_mem_coins ht hmem

variable {params : ChainParams}

theorem history_known {bs : List TreeNode} (h : ∀ n ∈ bs, ∀ t ∈ n.body.transactions, U t) :
    ∀ p ∈ history bs, ∃ t height, U t ∧ p = t.posting height := by
  intro p hp
  obtain ⟨n, hn, t, ht, rfl⟩ := mem_history.mp hp
  exact ⟨t, n.height, h n hn t ht, rfl⟩

/-- The transactions of the active chain are opened, but for the coinbases. -/
def ActiveOpened (U : Transaction → Prop) (bs : List TreeNode) : Prop :=
  ∀ n ∈ bs, ∀ t ∈ n.body.transactions, t.isCoinbase = false → t.Opened U

/-- A block that passes the checks on top of an opened chain has opened transactions. -/
theorem checkBlock_opened (hU : Distinguished U) {bs : List TreeNode} {b : TreeNode}
    {entry : BlockIndexEntry} {st : ConnectState}
    (hknown : ∀ n ∈ b :: bs, ∀ t ∈ n.body.transactions, U t)
    (hcheck : checkBlock params (tableAfter (history bs)) b.body entry = .ok st) :
    ∀ t ∈ b.body.transactions, t.isCoinbase = false → t.Opened U := by
  intro t ht hcb
  obtain ⟨st', hloop, -⟩ := bind_eq_ok.mp hcheck
  obtain ⟨before, after, hsplit⟩ := List.append_of_mem ht
  rw [hsplit] at hloop
  have hrules : SpendRules t (replay (before.map (Transaction.posting entry.height))
      ((ConnectState.over (tableAfter (history bs))).table (tableAfter (history bs)))).lookup
        entry.height params true := connectTransactions_rules rfl hloop hcb
  have hstart : (ConnectState.over (tableAfter (history bs))).table (tableAfter (history bs)) =
      tableAfter (history bs) := CoinOverlay.flush_start _ _
  rw [hstart, ← tableAfter_append] at hrules
  refine hrules.opened hU (coinsOf_tableAfter fun p hp => ?_)
  rcases List.mem_append.mp hp with hp | hp
  · obtain ⟨t', ht', rfl⟩ := List.mem_map.mp (List.mem_reverse.mp hp)
    refine ⟨t', entry.height, hknown b List.mem_cons_self t' ?_, rfl⟩
    rw [hsplit]
    exact List.mem_append_left _ ht'
  · exact history_known (fun n hn => hknown n (List.mem_cons_of_mem b hn)) p hp

/-- In every run of steps from genesis the active chain is opened. -/
theorem ChainTrace.opened {s : Storage} {g : TreeNode} (hg : Genesis params s g)
    (hU : Distinguished U) {a : Storage × List TreeNode} (h : ChainTrace params (s, [g]) a)
    (hheld : a.1.Holds U) : ActiveOpened U a.2 := by
  refine (ChainTrace.invariant (fun a => a.1.Holds U → LedgerInv a ∧ ActiveOpened U a.2) ?_ h
    hg.based (fun _ => ⟨hg.ledger, ?_⟩) hheld).2
  · intro a b hbase hinv hstep hstored
    have hold : a.1.Holds U := fun k n hn => hstored k n (hstep.tree_mono hn)
    obtain ⟨hledger, hopened⟩ := hinv hold
    refine ⟨hstep.ledger hbase (fun _ => hledger) (hstored.noTxidCollision hU), ?_⟩
    cases hstep with
    | store _ _ _ _ _ => exact hopened
    | header _ => exact hopened
    | point => exact hopened
    | prune _ _ => exact hopened
    | disconnect _ _ => exact fun n hn => hopened n (List.mem_cons_of_mem _ hn)
    | @connect s s' b n rest st data hb _ _ hcheck _ _ =>
      intro m hm
      rcases List.mem_cons.mp hm with rfl | hm
      · rw [show s.utxo = tableAfter (history (n :: rest)) from hledger.utxo] at hcheck
        refine checkBlock_opened hU (fun k hk => ?_) hcheck
        rcases List.mem_cons.mp hk with rfl | hk
        · exact hold _ k hb
        · exact hold _ k (hbase.active.branch.stored k hk)
      · exact hopened m hm
  · -- genesis has its coinbase alone
    intro n hn t ht hcb
    obtain rfl := List.mem_singleton.mp hn
    obtain ⟨coinbase, -, hts, -⟩ := ChainParams.genesisBlock_eq_ok hg.node.1
    obtain ⟨cb, others, hcbs, hcoinbase, -⟩ := hg.admitted.sane.first
    rw [hts] at hcbs ht
    obtain ⟨rfl, -⟩ := List.cons.inj hcbs
    rw [List.mem_singleton.mp ht, hcoinbase] at hcb
    cases hcb

theorem Chained.opened {c : Blockchain} {bs : List TreeNode} (h : Chained params c bs)
    (hU : Distinguished U) (hheld : c.storage.Holds U) : ActiveOpened U bs := by
  obtain ⟨s, g, hg, htrace⟩ := h.run
  exact htrace.opened hg hU hheld

theorem Chained.coinsOf {c : Blockchain} {bs : List TreeNode} (h : Chained params c bs)
    (hU : Distinguished U) (hheld : c.storage.Holds U) : CoinsOf U c.getCoin := by
  have hutxo : c.storage.utxo = tableAfter (history bs) :=
    (h.ledger (hheld.noTxidCollision hU)).utxo
  intro o coin hcoin
  rw [Blockchain.getCoin, Storage.getCoin, hutxo] at hcoin
  refine coinsOf_tableAfter (history_known fun n hn => ?_) o coin hcoin
  exact hheld _ n (h.standing.based.active.branch.stored n hn)

end Locks

/-! ## Pooled transactions -/

namespace Mempool

section Guarded

variable [Crypto]

/-- Every pooled transaction, with the witnesses it carries, passes the lock checks for the coins it
spends, as the chain and the pool have them. -/
def LocksPass (p : Mempool) (c : Blockchain) : Prop :=
  ∀ h e, p.byTxid.lookup h = some e → ∀ entry ∈ e.transaction.inputs.zipIdx, ∀ coin,
    p.coinView c (c.height + 1) e.transaction.prevouts entry.1.prevout = some coin →
      verifyLock e.transaction entry.2 coin (SignatureHasher.start e.transaction) = .ok true

/-- Every pooled transaction is opened. -/
def Guarded (U : Transaction → Prop) (p : Mempool) : Prop :=
  ∀ h e, p.byTxid.lookup h = some e → e.transaction.Opened U

variable {U : Transaction → Prop} {p q : Mempool} {c : Blockchain}

/-- What the pool shows of known coins and known transactions are known coins. -/
theorem Known.coinsOf (hp : p.Known U) (hcoins : CoinsOf U c.getCoin) (height : Nat)
    (ignored : List OutPoint) : CoinsOf U (p.coinView c height ignored) := by
  intro o coin hview
  obtain ⟨-, ⟨e, output, he, hout, rfl⟩ | ⟨-, hcoin⟩⟩ := coinView_eq_some.mp hview
  · exact ⟨e.transaction, hp.known _ e he, (hp.wf.keyed _ e he).2.1, output, hout, rfl, rfl, rfl⟩
  · exact hcoins o coin hcoin

theorem Guarded.locksPass (h : p.Guarded U) (hp : p.Known U) (hcoins : CoinsOf U c.getCoin) :
    p.LocksPass c :=
  fun k e he entry hentry coin hcoin =>
    h k e he entry hentry coin (hp.coinsOf hcoins _ _ _ coin hcoin)

theorem Guarded.within (h : p.Guarded U) (hq : Within q p) : q.Guarded U :=
  fun k e he => h k e (hq.sub k e he)

variable [ScanOrder Hash] {params : ChainParams} {t : Transaction}

/-- A transaction that passes `add` is opened, if it is so whenever its signatures are not
checked. -/
theorem Known.judge_opened (hU : Distinguished U) (hp : p.Known U) (hcoins : CoinsOf U c.getCoin)
    {verify : Bool} {fee : Nat} (h : p.judge params c t verify = .ok fee)
    (hskip : verify = false ∨ t.txid ∈ p.verified → t.Opened U) : t.Opened U := by
  obtain ⟨-, hprice, -⟩ := judge_eq_ok.mp h
  by_cases hcheck : (verify && decide (t.txid ∉ p.verified)) = true
  · rw [price, hcheck] at hprice
    exact (checkTransactionInputs_eq_ok.mp hprice).1.opened hU (hp.coinsOf hcoins _ _)
  · refine hskip ?_
    rw [Bool.and_eq_true, decide_eq_true_iff, not_and_or, not_not, Bool.not_eq_true] at hcheck
    exact hcheck

/-- `add` keeps the pool guarded. -/
theorem Guarded.add (h : p.Guarded U) (hU : Distinguished U) (hp : p.Known U)
    (hcoins : CoinsOf U c.getCoin) (now : Nat) {verify : Bool}
    (hskip : (p.judge params c t verify).isOk = true → verify = false ∨ t.txid ∈ p.verified →
      t.Opened U) : (p.add params c now t verify).1.Guarded U := by
  intro k e he
  rcases (hp.wf.add now verify).2 k e he with hold | ⟨fee, hjudge, rfl⟩
  · exact h k e hold
  · exact hp.judge_opened hU hcoins hjudge (hskip (by rw [hjudge]; rfl))

/-- Adding transactions that are opened keeps the pool guarded. -/
theorem Guarded.addAll (h : p.Guarded U) (hU : Distinguished U) (hp : p.Known U)
    (hcoins : CoinsOf U c.getCoin) {now : Nat → Nat} {ts : List Transaction}
    (hts : ∀ t ∈ ts, U t ∧ (t.isCoinbase = false → t.Opened U)) :
    (p.addAll params c now ts).1.Guarded U ∧ (p.addAll params c now ts).1.Known U := by
  refine addAll_rule (fun q => q.Guarded U ∧ q.Known U) (fun q t now verify ht hq => ?_) ⟨h, hp⟩
  obtain ⟨hknown, hopened⟩ := hts t ht
  refine ⟨hq.1.add hU hq.2 hcoins now fun hok _ => hopened ?_, hq.2.add hknown now verify⟩
  cases hjudge : q.judge params c t verify with
  | ok fee => exact (judge_eq_ok.mp hjudge).1.notCoinbase
  | error e =>
    rw [hjudge] at hok
    cases hok

theorem Guarded.revalidate (h : p.Guarded U) (hU : Distinguished U) (hp : p.Known U)
    (hcoins : CoinsOf U c.getCoin) (now : Nat → Nat) :
    (p.revalidate params c now).1.Guarded U := by
  unfold Mempool.revalidate
  split
  · exact h
  · have hclear : ∀ k e, p.clear.byTxid.lookup k ≠ some e := fun k e he => by
      rw [clear, Finmap.lookup_empty] at he
      cases he
    refine (Guarded.addAll (fun k e he => absurd he (hclear k e)) hU
      ⟨p.clear_wf, fun k e he => absurd he (hclear k e)⟩ hcoins fun t ht => ?_).1
    obtain ⟨e, hmem, rfl⟩ := List.mem_map.mp ht
    obtain ⟨k, hk⟩ := mem_values hmem
    exact ⟨hp.known k e hk, fun _ => h k e hk⟩

/-- A notification keeps the pool guarded, if what a disconnected block returns is opened. -/
theorem Guarded.onEvent (h : p.Guarded U) (hU : Distinguished U) (hp : p.Known U)
    (hcoins : CoinsOf U c.getCoin) (now : Nat → Nat) {event : Event}
    (hblock : ∀ t ∈ event.block.transactions, U t)
    (hback : event.kind = .disconnect → ∀ t ∈ event.block.transactions, t.isCoinbase = false →
      t.Opened U) : (p.onEvent params c now event).1.Guarded U := by
  unfold Mempool.onEvent
  cases hkind : event.kind with
  | connect =>
    have hdrop : ∀ (ts : List Transaction) (q : Mempool), q.Guarded U ∧ q.Known U →
        (ts.foldl dropConfirmed q).Guarded U ∧ (ts.foldl dropConfirmed q).Known U := by
      intro ts
      induction ts with
      | nil => exact fun _ hq => hq
      | cons t ts ih =>
        intro q hq
        obtain ⟨hwf, hwithin⟩ := dropConfirmed_wf hq.2.wf t
        exact ih _ ⟨hq.1.within hwithin, hq.2.within hwf hwithin⟩
    obtain ⟨hguarded, hknown⟩ := hdrop event.block.transactions p ⟨h, hp⟩
    exact hguarded.revalidate hU hknown hcoins now
  | disconnect =>
    have hadded : (p.addAll params c now event.block.transactions.tail).1.Guarded U ∧
        (p.addAll params c now event.block.transactions.tail).1.Known U :=
      h.addAll hU hp hcoins fun t ht =>
        ⟨hblock t (List.mem_of_mem_tail ht), hback hkind t (List.mem_of_mem_tail ht)⟩
    dsimp only [blockDisconnected]
    cases hadd : p.addAll params c now event.block.transactions.tail with
    | mk q answer =>
      rw [hadd] at hadded
      cases answer with
      | error e => exact hadded.1
      | ok u => exact hadded.1.revalidate hU hadded.2 hcoins _

end Guarded

end Mempool

/-! ## Runs -/

namespace Wired

section Logged

variable [Crypto] [ScanOrder Hash]

/-- The transactions that a call hands to the pool: the one that `add` lets in, or those of a
disconnected block of which the pool is told. -/
def handed (params : ChainParams) (w : Wired) : WiredCall → List Transaction
  | .add now t verify =>
      if (w.pool.add params w.chain now t verify).2.isOk = true then [t] else []
  | .notify _ =>
      match w.pending with
      | [] => []
      | event :: _ => if event.kind = .disconnect then event.block.transactions else []
  | _ => []

/-- The states that allowed calls lead to, from a reachable chain with a new pool, each with the
transactions that were handed to the pool on the way. -/
inductive Logged (params : ChainParams) (allowed : List Transaction → Wired → WiredCall → Prop) :
    Wired → List Transaction → Prop where
  | start {c : Blockchain} (maxBytes : Nat) : Reachable params c →
      Logged params allowed (start c maxBytes) []
  | call {w w' : Wired} {seen : List Transaction} (call : WiredCall) :
      Logged params allowed w seen → allowed seen w call → w.run params call = some w' →
      Logged params allowed w' (seen ++ w.handed params call)

theorem Logged.runs {params : ChainParams} {allowed : List Transaction → Wired → WiredCall → Prop}
    {w : Wired} {seen : List Transaction} (h : Logged params allowed w seen) :
    Runs params (fun _ _ => True) w := by
  induction h with
  | start maxBytes hc => exact .start maxBytes hc
  | call call _ _ hrun ih => exact .call call ih trivial hrun

/-- The chain and the pool after calls that a check lets through, with the transactions that were
handed to the pool. -/
def followLogged (params : ChainParams) (check : List Transaction → Wired → WiredCall → Bool) :
    List Transaction → Wired → List WiredCall → Option (Wired × List Transaction)
  | seen, w, [] => some (w, seen)
  | seen, w, call :: calls =>
      if check seen w call then
        (w.run params call).bind fun w' =>
          followLogged params check (seen ++ w.handed params call) w' calls
      else none

theorem Logged.follow {params : ChainParams} {allowed : List Transaction → Wired → WiredCall → Prop}
    {check : List Transaction → Wired → WiredCall → Bool}
    (hcheck : ∀ seen w call, check seen w call = true → allowed seen w call) {w w' : Wired}
    {seen seen' : List Transaction} {calls : List WiredCall} (h : Logged params allowed w seen)
    (hcalls : followLogged params check seen w calls = some (w', seen')) :
    Logged params allowed w' seen' := by
  induction calls generalizing w seen with
  | nil =>
    obtain ⟨rfl, rfl⟩ := Prod.mk.inj (Option.some.inj hcalls)
    exact h
  | cons call calls ih =>
    unfold followLogged at hcalls
    split at hcalls
    · rename_i hok
      obtain ⟨w₁, hrun, hrest⟩ := Option.bind_eq_some_iff.mp hcalls
      exact ih (.call call h (hcheck seen w call hok) hrun) hrest
    · cases hcalls

/-- Whatever passes `add` without a check of its signatures, since none is asked for or the id is
remembered, was handed to the pool before with the witnesses it carries. The transactions handed in
are of `U`. -/
def Vouched (params : ChainParams) (U : Transaction → Prop) (seen : List Transaction) (w : Wired) :
    WiredCall → Prop
  | .add _ t verify => U t ∧ ((w.pool.judge params w.chain t verify).isOk = true →
      verify = false ∨ t.txid ∈ w.pool.verified → t ∈ seen)
  | _ => True

variable {params : ChainParams} {U : Transaction → Prop}

/-- The invariant of a chain with its pool and what was handed to it. -/
structure Vetted (params : ChainParams) (U : Transaction → Prop) (w : Wired)
    (seen : List Transaction) (bs : List TreeNode) : Prop where
  chained : Chained params w.chain bs
  known : w.pool.Known U
  pending : ∀ e ∈ w.pending, ∃ n, w.chain.storage.tree n.body.hash = some n ∧ e.block = n.body
  guarded : w.pool.Guarded U
  back : ∀ e ∈ w.pending, e.kind = .disconnect → ∀ t ∈ e.block.transactions,
    t.isCoinbase = false → t.Opened U
  handed : ∀ t ∈ seen, t.isCoinbase = false → t.Opened U

/-- A call lets in only what is opened, so it hands only such transactions to the pool. -/
theorem Vetted.handed_opened {w : Wired} {seen : List Transaction} {bs : List TreeNode}
    (hw : Vetted params U w seen bs) (hU : Distinguished U) (hheld : w.chain.storage.Holds U)
    {call : WiredCall} (hcall : Vouched params U seen w call) :
    ∀ t ∈ seen ++ w.handed params call, t.isCoinbase = false → t.Opened U := by
  intro t ht hcb
  rcases List.mem_append.mp ht with ht | ht
  · exact hw.handed t ht hcb
  · cases call with
    | add now t₀ verify =>
      simp only [Wired.handed] at ht
      split at ht
      · rename_i hok
        obtain rfl := List.mem_singleton.mp ht
        rcases w.pool.add_cases params w.chain now t verify with ⟨-, e, -, herr⟩ |
          ⟨fee, hjudge, -⟩
        · rw [herr] at hok
          cases hok
        · refine hw.known.judge_opened hU (hw.chained.coinsOf hU hheld) hjudge fun hskip => ?_
          exact hw.handed t (hcall.2 (by rw [hjudge]; rfl) hskip) hcb
      · cases ht
    | notify now =>
      simp only [Wired.handed] at ht
      cases hpending : w.pending with
      | nil =>
        rw [hpending] at ht
        cases ht
      | cons event events =>
        rw [hpending] at ht
        dsimp only at ht
        split at ht
        · rename_i hkind
          exact hw.back event (by rw [hpending]; exact List.mem_cons_self) hkind t ht hcb
        · cases ht
    | _ => cases ht

/-- Every call that is vouched for keeps the invariant. -/
theorem Vetted.run {w w' : Wired} {seen : List Transaction} {bs : List TreeNode}
    (hw : Vetted params U w seen bs) (hU : Distinguished U) {call : WiredCall}
    (hcall : Vouched params U seen w call) (h : w.run params call = some w')
    (hstored : w'.chain.storage.Holds U) :
    ∃ bs', Vetted params U w' (seen ++ w.handed params call) bs' := by
  have hheld : w.chain.storage.Holds U :=
    fun k n hn => hstored k n ((run_chained hw.chained h).2 k n hn)
  have hcoins := hw.chained.coinsOf hU hheld
  have hhanded := hw.handed_opened hU hheld hcall
  rcases run_cases h with ⟨now, t, verify, rfl, rfl⟩ | ⟨txid, d, rfl, rfl⟩ | ⟨now, rfl, -, rfl⟩ |
    ⟨now, event, events, rfl, hpending, hanswer⟩ | ⟨hidle, rfl⟩
  · refine ⟨bs, hw.chained, hw.known.add hcall.1 now verify, hw.pending, ?_, hw.back, hhanded⟩
    refine hw.guarded.add hU hw.known hcoins now fun hok hskip => hw.handed t (hcall.2 hok hskip) ?_
    -- what is judged well is no coinbase, so the call names it among those handed over
    cases hjudge : w.pool.judge params w.chain t verify with
    | ok fee => exact (Mempool.judge_eq_ok.mp hjudge).1.notCoinbase
    | error e =>
      rw [hjudge] at hok
      cases hok
  · have hrem := Mempool.remove_removal hw.known.wf txid d
    exact ⟨bs, hw.chained, hw.known.within hrem.wf hrem.within, hw.pending,
      hw.guarded.within hrem.within, hw.back, hhanded⟩
  · exact ⟨bs, hw.chained, hw.known, hw.pending, hw.guarded, hw.back, hhanded⟩
  · -- what is told was disconnected or connected, and the pool forgets nothing it needs
    have hhead : event ∈ w.pending := by
      rw [hpending]
      exact List.mem_cons_self
    have htail : ∀ e ∈ events, e ∈ w.pending := fun e he => by
      rw [hpending]
      exact List.mem_cons_of_mem event he
    obtain ⟨n, hn, hblock⟩ := hw.pending event hhead
    have hknown : (w.pool.onEvent params w.chain now event).1.Known U :=
      (hw.known.onEvent (hw.chained.settled hU hheld) now (hblock ▸ hheld _ n hn)).1
    have hguarded : (w.pool.onEvent params w.chain now event).1.Guarded U :=
      hw.guarded.onEvent hU hw.known hcoins now (hblock ▸ hheld _ n hn) (hw.back event hhead)
    rcases hanswer with ⟨-, rfl⟩ | ⟨e, -, rfl⟩
    · exact ⟨bs, hw.chained, hknown, fun e he => hw.pending e (htail e he), hguarded,
        fun e he => hw.back e (htail e he), hhanded⟩
    · exact ⟨bs, hw.chained, hknown, fun e he => absurd he List.not_mem_nil, hguarded,
        fun e he => absurd he List.not_mem_nil, hhanded⟩
  · -- what is disconnected was active, so it is opened
    obtain ⟨bs', hchained, hmono, hcases⟩ := stepChain_cases hw.chained call
    rcases hcases with ⟨rfl, hquiet⟩ | ⟨events, -, hheard, hnodes⟩
    · have hnone : (stepChain params w.chain call).notified.drop w.chain.notified.length = [] := by
        rw [hquiet, List.drop_length]
      refine ⟨_, hchained, hw.known, fun e he => ?_, hw.guarded, fun e he => ?_, hhanded⟩
      · simp only [move, hnone, List.not_mem_nil] at he
      · simp only [move, hnone, List.not_mem_nil] at he
    · have hdrop : (stepChain params w.chain call).notified.drop w.chain.notified.length =
          events := by
        rw [hheard, List.drop_left]
      refine ⟨bs', hchained, hw.known, fun e he => ?_, hw.guarded, fun e he hkind => ?_, hhanded⟩
      · simp only [move, hdrop] at he
        obtain ⟨n, hn, hblock, -⟩ := hnodes e he
        exact ⟨n, hmono _ n hn, hblock⟩
      · simp only [move, hdrop] at he
        obtain ⟨n, -, hblock, hactive⟩ := hnodes e he
        rw [hblock]
        exact hw.chained.opened hU hheld n (hactive hkind)

/-- In every run that is vouched for the invariant holds. -/
theorem Logged.vetted (hU : Distinguished U) {w : Wired} {seen : List Transaction}
    (h : Logged params (Vouched params U) w seen) (hstored : w.chain.storage.Holds U) :
    ∃ bs, Vetted params U w seen bs := by
  induction h with
  | @start c maxBytes hc =>
    obtain ⟨s, g, bs, hg, htrace, hs⟩ := hc.run
    have hnone : ∀ k e, (Mempool.create maxBytes).byTxid.lookup k ≠ some e := fun k e he => by
      rw [Mempool.create, Finmap.lookup_empty] at he
      cases he
    exact ⟨bs, ⟨⟨s, g, hg, htrace⟩, hs⟩,
      ⟨Mempool.create_wf maxBytes, fun k e he => absurd he (hnone k e)⟩,
      fun e he => absurd he List.not_mem_nil, fun k e he => absurd he (hnone k e),
      fun e he => absurd he List.not_mem_nil, fun t ht => absurd ht List.not_mem_nil⟩
  | @call w w' seen call hlogged hcall hrun ih =>
    obtain ⟨bs, hchained⟩ := hlogged.runs.chained
    obtain ⟨bs₁, hvetted⟩ := ih fun k n hn => hstored k n ((run_chained hchained hrun).2 k n hn)
    exact hvetted.run hU hcall hrun hstored

/-- **Pool signature soundness**, in every run in which whatever passes `add` without a check of its
signatures was handed to the pool before with the same witnesses. -/
theorem Logged.locks_pass (hU : Distinguished U) {w : Wired} {seen : List Transaction}
    (h : Logged params (Vouched params U) w seen) (hstored : w.chain.storage.Holds U) :
    w.pool.LocksPass w.chain := by
  obtain ⟨bs, hw⟩ := h.vetted hU hstored
  exact hw.guarded.locksPass hw.known (hw.chained.coinsOf hU hstored)

end Logged

end Wired

section Instances

attribute [local instance] Sample.crypto Sample.order

/-! ## A twin without witnesses -/

/-- What makes a call vouched for at a glance. -/
def Sample.vouched (seen : List Transaction) (w : Wired) : WiredCall → Bool
  | .add _ t verify => decide (t ∈ Sample.ledger) &&
      ((verify && decide (t.txid ∉ w.pool.verified)) || decide (t ∈ seen))
  | _ => true

theorem Sample.vouched_sound (seen : List Transaction) (w : Wired) (call : WiredCall)
    (h : Sample.vouched seen w call = true) :
    Wired.Vouched REGTEST (· ∈ Sample.ledger) seen w call := by
  cases call with
  | add now t verify =>
    obtain ⟨hmem, hseen⟩ := (Bool.and_eq_true _ _).mp h
    refine ⟨of_decide_eq_true hmem, fun _ hskip => ?_⟩
    rcases (Bool.or_eq_true _ _).mp hseen with hcheck | hseen
    · obtain ⟨hverify, hnew⟩ := (Bool.and_eq_true _ _).mp hcheck
      rcases hskip with hoff | hmem
      · rw [hoff] at hverify
        cases hverify
      · exact absurd hmem (of_decide_eq_true hnew)
    · exact of_decide_eq_true hseen
  | _ => trivial

/-- It holds of a pool into which a transaction came back after it had been removed. -/
theorem Wired.Logged.locks_pass_returned :
    ∃ w seen, (Sample.chainAfter Sample.funded).bind (fun c =>
      Wired.followLogged REGTEST Sample.vouched [] (Wired.start c 5000000)
        [.add 0 Sample.cheap true, .remove Sample.cheap.txid true, .add 1 Sample.cheap true]) =
      some (w, seen) ∧
    w.pool.order = [Sample.cheap.txid] ∧ w.pool.LocksPass w.chain := by
  have hrun : (((Sample.chainAfter Sample.funded).bind fun c =>
      Wired.followLogged REGTEST Sample.vouched [] (Wired.start c 5000000)
        [.add 0 Sample.cheap true, .remove Sample.cheap.txid true,
          .add 1 Sample.cheap true]).any fun r =>
      decide (r.1.pool.order = [Sample.cheap.txid] ∧
        ∀ p ∈ r.1.chain.storage.blockRows, ∀ t ∈ p.2.body.transactions, t ∈ Sample.ledger)) =
      true := by decide +kernel
  obtain ⟨⟨w, seen⟩, hw, h⟩ := (Option.any_eq_true _ _).mp hrun
  obtain ⟨horder, hheld⟩ := of_decide_eq_true h
  obtain ⟨c, hc, hfollow⟩ := Option.bind_eq_some_iff.mp hw
  have hU : Distinguished (· ∈ Sample.ledger) := by
    have hall : ∀ t ∈ Sample.ledger, ∀ t' ∈ Sample.ledger, t.txid = t'.txid →
        t.serializeBody = t'.serializeBody := by decide +kernel
    exact fun t t' ht ht' => hall t ht t' ht'
  have hlogged : Wired.Logged REGTEST (Wired.Vouched REGTEST (· ∈ Sample.ledger)) w seen :=
    (Wired.Logged.start 5000000 (Sample.chainAfter_reachable hc)).follow
      Sample.vouched_sound hfollow
  refine ⟨w, seen, hw, horder, Wired.Logged.locks_pass hU hlogged fun k n hn t ht => ?_⟩
  obtain ⟨row, hrow, rfl⟩ := Storage.tree_eq_some.mp hn
  exact hheld (k, row) ((mem_scan _ _ _).mpr hrow) t ht

theorem Sample.oneInput_fits (txin : TxInput) : [txin].length < 2 ^ 32 := by simp

/-- The cheap spend without its witness. -/
def Sample.bare : Transaction :=
  { Sample.cheap with
    inputs := [⟨⟨Sample.purse.txid, 0⟩, 0, [], Sample.noItems_fit⟩]
    inputs_fit := Sample.oneInput_fits _ }

/-- Whether a call, if it is `add`, asks for the signatures to be checked. -/
def Sample.verifying : WiredCall → Bool
  | .add _ _ verify => verify
  | _ => true

/-- After the cheap spend has been pooled and removed, it is let in without its witness, though all
signatures are to be checked. -/
theorem locks_fail : ∃ w, Wired.Runs REGTEST (fun _ call => ∀ now t, call ≠ .add now t false) w ∧
    ¬ w.pool.LocksPass w.chain := by
  have hrun : ((Sample.wiredAfter (fun _ call => Sample.verifying call)
      [.add 0 Sample.cheap true, .remove Sample.cheap.txid true, .add 1 Sample.bare true]).any
        fun w => decide ((w.pool.byTxid.lookup Sample.bare.txid).map MempoolEntry.transaction =
          some Sample.bare) &&
        ((w.pool.coinView w.chain (w.chain.height + 1) Sample.bare.prevouts
          ⟨Sample.purse.txid, 0⟩).any fun coin =>
            decide (coin.outputType = OUTPUT_P2SH))) = true := by decide +kernel
  obtain ⟨w, hw, h⟩ := (Option.any_eq_true _ _).mp hrun
  obtain ⟨hin, hcoin⟩ := (Bool.and_eq_true _ _).mp h
  refine ⟨w, Sample.wiredAfter_runs (fun w call hok now t heq => ?_) hw, fun hpass => ?_⟩
  · subst heq
    cases hok
  · obtain ⟨e, he, htx⟩ := Option.map_eq_some_iff.mp (of_decide_eq_true hin)
    obtain ⟨coin, hview, htype⟩ := (Option.any_eq_true _ _).mp hcoin
    have hlock := hpass _ e he (⟨⟨Sample.purse.txid, 0⟩, 0, [], Sample.noItems_fit⟩, 0)
      (by rw [htx]; exact List.mem_cons_self) coin (by rw [htx]; exact hview)
    -- a script-hash lock is not opened by an empty witness
    rw [htx, verifyLock, if_neg (by rw [of_decide_eq_true htype]; decide)] at hlock
    cases hlock

end Instances

end ScarletCoin
