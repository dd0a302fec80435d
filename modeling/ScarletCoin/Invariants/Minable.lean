import ScarletCoin.Core.Wiring
import ScarletCoin.Invariants.Pool
import ScarletCoin.Invariants.Unspent

/-!
# What is pooled can be mined

`Mempool.Minable` says that every input of a pooled transaction spends an unspent coin of the chain
or an output of another pooled transaction, that no transaction depends on itself, however
indirectly, and that no outpoint is spent twice. The invariant behind it is `Mempool.Sound`:
besides, no pooled transaction is confirmed, and none depends on one that came later.

Removals with descendants keep it, a newcomer keeps it unless it spends an output of what it
replaces, and checking the pool once more establishes it from the books alone
(`Mempool.Known.revalidate`). So a chain with its pool keeps it as long as no transaction that
passes the checks of `add` spends an output of a pooled transaction that it conflicts with or of a
descendant of one (`Wired.Runs.minable_of_spared`); such a replacement leaves the pool with an input
that nothing provides (`minable_fails`).
-/

set_option autoImplicit false

namespace ScarletCoin

open Toolkit

section Ledger

variable [Crypto]

/-! ## What the pool relies on -/

/-- Transactions of one id have one body. -/
def Distinguished (U : Transaction → Prop) : Prop :=
  ∀ t t', U t → U t' → t.txid = t'.txid → t.serializeBody = t'.serializeBody

/-- Every transaction of a stored block is one of these. -/
def Storage.Holds (s : Storage) (U : Transaction → Prop) : Prop :=
  ∀ k n, s.tree k = some n → ∀ t ∈ n.body.transactions, U t

/-- The ids of the transactions of a branch. -/
def confirmedIds (bs : List TreeNode) : List Hash := (history bs).map Posting.id

/-- A coin belongs to a confirmed transaction, and what a confirmed transaction spends is gone and
belongs to confirmed transactions. -/
structure Settled (U : Transaction → Prop) (utxo : Table OutPoint Coin) (ids : List Hash) :
    Prop where
  coin : ∀ o, utxo.lookup o ≠ none → o.txid ∈ ids
  spent : ∀ t, U t → t.isCoinbase = false → t.txid ∈ ids → ∀ o ∈ t.prevouts,
    utxo.lookup o = none ∧ o.txid ∈ ids

/-- A chain that steps lead to from genesis. -/
structure Chained (params : ChainParams) (c : Blockchain) (bs : List TreeNode) : Prop where
  run : ∃ s g, Genesis params s g ∧ ChainTrace params (s, [g]) (c.storage, bs)
  standing : Standing params c bs

variable {params : ChainParams} {U : Transaction → Prop} {c : Blockchain} {bs : List TreeNode}

theorem Storage.Holds.noTxidCollision {s : Storage} (hU : Distinguished U) (h : s.Holds U) :
    s.NoTxidCollision :=
  fun k k' n n' hn hn' t ht t' ht' => hU t t' (h k n hn t ht) (h k' n' hn' t' ht')

theorem Chained.ledger (h : Chained params c bs) (hcol : c.storage.NoTxidCollision) :
    LedgerInv (c.storage, bs) := by
  obtain ⟨s, g, hg, htrace⟩ := h.run
  exact htrace.ledger hg hcol

theorem Chained.settled (h : Chained params c bs) (hU : Distinguished U)
    (hstored : c.storage.Holds U) : Settled U c.storage.utxo (confirmedIds bs) := by
  have hledger := h.ledger (hstored.noTxidCollision hU)
  have hutxo : c.storage.utxo = tableAfter (history bs) := hledger.utxo
  refine ⟨fun o ho => ?_, fun t ht hcb hid o ho => ?_⟩
  · rw [hutxo] at ho
    exact owner_mem history_owned ho
  · obtain ⟨p, hp, hpid⟩ := List.mem_map.mp hid
    obtain ⟨n, hn, t', ht', rfl⟩ := mem_history.mp hp
    have hknown := hstored _ n (h.standing.based.active.branch.stored n hn) t' ht'
    obtain ⟨hcoinbase, hprev, -⟩ := spends_of_body (hU t' t hknown ht hpid)
    have hspent : o ∈ (t'.posting n.height).spends := by
      rw [Transaction.posting, Transaction.spends, if_neg (by rw [hcoinbase, hcb]; simp), hprev]
      exact ho
    exact ⟨hutxo ▸ spent_gone history_owned hledger.covered hledger.ids hp hspent,
      owner_mem_of_spent history_owned hledger.covered hp hspent⟩

end Ledger

namespace Mempool

section Soundness

variable [Crypto]

/-- What is pooled can be mined. -/
structure Minable (p : Mempool) (c : Blockchain) : Prop where
  funded : ∀ h e, p.byTxid.lookup h = some e → ∀ o ∈ e.transaction.prevouts,
    c.getCoin o ≠ none ∨ ∃ e', p.byTxid.lookup o.txid = some e' ∧
      o.index.toNat < e'.transaction.outputs.length
  acyclic : ∀ h, ¬ Relation.TransGen p.DependsOn h h
  once : ∀ h h' e e', p.byTxid.lookup h = some e → p.byTxid.lookup h' = some e' →
    ∀ o ∈ e.transaction.prevouts, o ∈ e'.transaction.prevouts → h = h'

/-- What an input names is an unspent coin or an output of a pooled transaction. -/
def Funds (p : Mempool) (utxo : Table OutPoint Coin) (o : OutPoint) : Prop :=
  utxo.lookup o ≠ none ∨ ∃ e, p.byTxid.lookup o.txid = some e ∧
    o.index.toNat < e.transaction.outputs.length

/-- The transactions that may be pooled: of these, and no coinbases. -/
structure Known (U : Transaction → Prop) (p : Mempool) : Prop where
  wf : p.Wf
  known : ∀ h e, p.byTxid.lookup h = some e → U e.transaction

/-- The invariant of a pool over a chain with these coins and these confirmed ids. -/
structure Sound (U : Transaction → Prop) (utxo : Table OutPoint Coin) (ids : List Hash)
    (p : Mempool) : Prop extends Known U p where
  funded : ∀ h e, p.byTxid.lookup h = some e → ∀ o ∈ e.transaction.prevouts, p.Funds utxo o
  unconfirmed : ∀ h e, p.byTxid.lookup h = some e → h ∉ ids
  irrefl : ∀ h, ¬ p.DependsOn h h
  sorted : p.order.Pairwise fun a b => ¬ p.DependsOn a b

variable {U : Transaction → Prop} {utxo : Table OutPoint Coin} {ids : List Hash} {p q : Mempool}

/-- A pool in which none depends on one that came later has no cycles. -/
theorem Sound.acyclic (hp : p.Sound U utxo ids) (h : Hash) :
    ¬ Relation.TransGen p.DependsOn h h := by
  have hstep : ∀ a b, p.DependsOn a b → p.order.idxOf b < p.order.idxOf a := by
    intro a b hab
    obtain ⟨e, he, hb, -⟩ := id hab
    have hamem : a ∈ p.order := (hp.wf.listed a).mpr (by rw [he]; exact Option.some_ne_none e)
    have hbmem : b ∈ p.order := (hp.wf.listed b).mpr hb
    have ha := List.idxOf_lt_length_of_mem hamem
    have hb := List.idxOf_lt_length_of_mem hbmem
    rcases Nat.lt_trichotomy (p.order.idxOf a) (p.order.idxOf b) with hlt | heq | hlt
    · have hnot := List.pairwise_iff_getElem.mp hp.sorted _ _ ha hb hlt
      rw [List.getElem_idxOf, List.getElem_idxOf] at hnot
      exact absurd hab hnot
    · obtain rfl := (List.idxOf_inj hamem).mp heq
      exact absurd hab (hp.irrefl a)
    · exact hlt
  have hdesc : ∀ a b, Relation.TransGen p.DependsOn a b → p.order.idxOf b < p.order.idxOf a := by
    intro a b hab
    induction hab with
    | single hone => exact hstep _ _ hone
    | tail _ hone ih => exact (hstep _ _ hone).trans ih
  exact fun hcycle => Nat.lt_irrefl _ (hdesc h h hcycle)

theorem Sound.minable {c : Blockchain} (hp : p.Sound U c.storage.utxo ids) : p.Minable c :=
  ⟨hp.funded, hp.acyclic, fun _ _ _ _ he he' _ ho ho' => hp.wf.spends_once he he' ho ho'⟩

/-- An empty pool is sound. -/
theorem sound_of_empty (hp : p.Wf) (hempty : ∀ h, p.byTxid.lookup h = none) :
    p.Sound U utxo ids := by
  have hnone : ∀ {h : Hash} {e : MempoolEntry}, p.byTxid.lookup h ≠ some e := by
    intro h e he
    rw [hempty h] at he
    cases he
  refine ⟨⟨hp, fun _ _ he => absurd he hnone⟩, fun _ _ he => absurd he hnone,
    fun _ _ he => absurd he hnone, fun h ⟨e, he, _⟩ => hnone he, ?_⟩
  refine List.Pairwise.imp (R := fun _ _ => True) (fun _ hdep => ?_)
    (List.pairwise_of_forall fun _ _ => trivial)
  obtain ⟨e, he, -⟩ := hdep
  exact hnone he

/-! ## Removals -/

theorem Known.within (hp : p.Known U) (hq : q.Wf) (h : Within q p) : q.Known U :=
  ⟨hq, fun k e he => hp.known k e (h.sub k e he)⟩

/-- A part of a sound pool is sound if its inputs are funded. -/
theorem Sound.within (hp : p.Sound U utxo ids) (hq : q.Wf) (h : Within q p)
    (hfunded : ∀ k e, q.byTxid.lookup k = some e → ∀ o ∈ e.transaction.prevouts, q.Funds utxo o) :
    q.Sound U utxo ids :=
  ⟨hp.toKnown.within hq h, hfunded, fun k e he => hp.unconfirmed k e (h.sub k e he),
    fun k hk => hp.irrefl k (h.dependsOn hk),
    (hp.sorted.sublist h.order).imp fun hnot hdep => hnot (h.dependsOn hdep)⟩

/-- A removal keeps a pool sound, if it takes the descendants too or there are none. -/
theorem Sound.remove (hp : p.Sound U utxo ids) {txid : Hash} {d : Bool}
    (hd : d = true ∨ ∀ u, ¬ p.DependsOn u txid) : (p.remove txid d).1.Sound U utxo ids := by
  have hrem := remove_removal hp.wf txid d
  refine hp.within hrem.wf hrem.within fun u e' hu o ho => ?_
  have hold := hrem.within.sub u e' hu
  rcases hp.funded u e' hold o ho with hcoin | ⟨e, he, hlt⟩
  · exact .inl hcoin
  · by_cases hgone : o.txid ∈ (p.remove txid d).2
    · exfalso
      have hdep : p.DependsOn u o.txid :=
        ⟨e', hold, by rw [he]; exact Option.some_ne_none e, o, ho, rfl⟩
      cases d with
      | true =>
        have hle := hrem.closed rfl u e' hu o ho hgone e he
        omega
      | false =>
        rw [hrem.alone rfl _ hgone] at hdep
        exact hd.resolve_left Bool.false_ne_true u hdep
    · exact .inr ⟨e, hrem.kept _ e he hgone, hlt⟩

theorem Prunes.sound (h : Prunes p q) (hp : p.Sound U utxo ids) : q.Sound U utxo ids :=
  h.keeps (fun q => q.Sound U utxo ids) (fun _ _ hq => hq.remove (.inl rfl)) hp

/-! ## Newcomers -/

/-- A newcomer whose inputs are funded and that spends what no entry spends keeps a pool sound. -/
theorem Sound.insertEntry (hp : p.Sound U utxo ids) (hsettled : Settled U utxo ids)
    {t : Transaction} (fee now : Nat) (ht : U t) (hcb : t.isCoinbase = false) (hin : t.inputs ≠ [])
    (hnew : p.byTxid.lookup t.txid = none) (hfree : ∀ o ∈ t.prevouts, p.spentBy.lookup o = none)
    (hfunded : ∀ o ∈ t.prevouts, p.Funds utxo o) :
    (p.insertEntry (newcomer t fee now)).Sound U utxo ids := by
  have hlook : ∀ k, (p.insertEntry (newcomer t fee now)).byTxid.lookup k =
      if k = t.txid then some (newcomer t fee now) else p.byTxid.lookup k :=
    fun k => Table.lookup_insert_if t.txid k (newcomer t fee now) p.byTxid
  -- what a confirmed transaction spends is neither unspent nor pooled
  have hunconfirmed : t.txid ∉ ids := by
    intro hid
    obtain ⟨txin, rest, hinputs⟩ := List.exists_cons_of_ne_nil hin
    have ho : txin.prevout ∈ t.prevouts := by
      rw [Transaction.prevouts, hinputs]
      exact List.mem_cons_self
    obtain ⟨hgone, howner⟩ := hsettled.spent t ht hcb hid _ ho
    rcases hfunded _ ho with hcoin | ⟨e, he, -⟩
    · exact hcoin hgone
    · exact hp.unconfirmed _ e he howner
  -- so nothing pooled depends on the newcomer
  have hnone : ∀ h, ¬ (p.insertEntry (newcomer t fee now)).DependsOn h t.txid := by
    rintro h ⟨e, he, -, o, ho, hid⟩
    have hfund : p.Funds utxo o := by
      rw [hlook] at he
      split at he
      · obtain rfl := Option.some.inj he
        exact hfunded o ho
      · exact hp.funded h e he o ho
    rcases hfund with hcoin | ⟨e', he', -⟩
    · exact hunconfirmed (hid ▸ hsettled.coin o hcoin)
    · rw [hid, hnew] at he'
      cases he'
  have hback : ∀ a b, a ≠ t.txid → b ≠ t.txid →
      (p.insertEntry (newcomer t fee now)).DependsOn a b → p.DependsOn a b := by
    rintro a b ha hb ⟨e, he, hb', o, ho, hid⟩
    rw [hlook, if_neg ha] at he
    rw [hlook, if_neg hb] at hb'
    exact ⟨e, he, hb', o, ho, hid⟩
  have hgrow : ∀ o, p.Funds utxo o → (p.insertEntry (newcomer t fee now)).Funds utxo o := by
    rintro o (hcoin | ⟨e, he, hlt⟩)
    · exact .inl hcoin
    · refine .inr ⟨e, ?_, hlt⟩
      rw [hlook, if_neg, he]
      intro hid
      rw [hid, hnew] at he
      cases he
  refine ⟨⟨hp.wf.insertEntry fee now hnew hfree, fun k e he => ?_⟩, fun k e he o ho => hgrow o ?_,
    fun k e he => ?_, fun k hk => ?_, ?_⟩
  · rw [hlook] at he
    split at he
    · obtain rfl := Option.some.inj he
      exact ht
    · exact hp.known k e he
  · rw [hlook] at he
    split at he
    · obtain rfl := Option.some.inj he
      exact hfunded o ho
    · exact hp.funded k e he o ho
  · rw [hlook] at he
    split at he
    · rename_i hk
      rw [hk]
      exact hunconfirmed
    · exact hp.unconfirmed k e he
  · by_cases hkt : k = t.txid
    · exact hnone k (hkt ▸ hk)
    · exact hp.irrefl k (hback k k hkt hkt hk)
  · refine List.pairwise_append.mpr ⟨?_, List.pairwise_singleton _ _, fun a ha b hb hdep => ?_⟩
    · refine hp.sorted.imp_of_mem fun {a b} ha hb hnot hdep => hnot ?_
      have hne : ∀ k ∈ p.order, k ≠ t.txid := by
        rintro k hk rfl
        exact (hp.wf.listed _).mp hk hnew
      exact hback a b (hne a ha) (hne b hb) hdep
    · rw [List.mem_singleton.mp hb] at hdep
      exact hnone a hdep

variable [ScanOrder Hash] {params : ChainParams} {c : Blockchain} {t : Transaction}

/-- A newcomer spends no output of a pooled transaction that it conflicts with, nor of a
descendant. -/
def Spares (p : Mempool) (t : Transaction) : Prop :=
  ∀ o ∈ t.prevouts, ∀ h ∈ p.conflicts t, ¬ p.Descends o.txid h

omit [Crypto] [ScanOrder Hash] in
/-- A coin of the view is an output of a pooled transaction, or a coin of the chain under the id of
none; and the pool does not spend it, or it is to be ignored that it does. -/
theorem coinView_eq_some {height : Nat} {ignored : List OutPoint} {o : OutPoint} {coin : Coin} :
    p.coinView c height ignored o = some coin ↔
      (o ∈ ignored ∨ p.spentBy.lookup o = none) ∧
      ((∃ e output, p.byTxid.lookup o.txid = some e ∧
          e.transaction.outputs[o.index.toNat]? = some output ∧
          coin = ⟨output.value, output.type, output.payload, height, false⟩) ∨
        p.byTxid.lookup o.txid = none ∧ c.getCoin o = some coin) := by
  unfold coinView
  have hguard : ((p.spentBy.lookup o).isSome = true ∧ o ∉ ignored) ↔
      ¬ (o ∈ ignored ∨ p.spentBy.lookup o = none) := by
    rw [not_or, Option.isSome_iff_ne_none, and_comm]
  rw [if_congr hguard rfl rfl, ite_not]
  by_cases hfree : o ∈ ignored ∨ p.spentBy.lookup o = none
  · rw [if_pos hfree]
    cases he : p.byTxid.lookup o.txid with
    | none => simp [hfree]
    | some e =>
      dsimp only
      rw [Option.map_eq_some_iff]
      constructor
      · rintro ⟨output, hout, rfl⟩
        exact ⟨hfree, .inl ⟨e, output, rfl, hout, rfl⟩⟩
      · rintro ⟨-, ⟨e', output, he', hout, rfl⟩ | ⟨hnone, -⟩⟩
        · obtain rfl := Option.some.inj he'
          exact ⟨output, hout, rfl⟩
        · cases hnone
  · rw [if_neg hfree]
    simp [hfree]

omit [Crypto] [ScanOrder Hash] in
/-- What the view shows is funded. -/
theorem funds_of_coinView {height : Nat} {ignored : List OutPoint} {o : OutPoint} {coin : Coin}
    (h : p.coinView c height ignored o = some coin) : p.Funds c.storage.utxo o := by
  obtain ⟨-, ⟨e, output, he, hout, -⟩ | ⟨-, hcoin⟩⟩ := coinView_eq_some.mp h
  · exact .inr ⟨e, he, (List.getElem?_eq_some_iff.mp hout).1⟩
  · refine .inl ?_
    rw [show c.storage.utxo.lookup o = some coin from hcoin]
    exact Option.some_ne_none coin

/-- Every input of a transaction with a price is in view. -/
theorem price_inputs {check : Bool} {fee : Nat} (h : p.price params c t check = .ok fee) :
    ∀ o ∈ t.prevouts, ∃ coin, p.coinView c (c.height + 1)
      (if p.conflicts t = [] then [] else t.inputs.map TxInput.prevout) o = some coin := by
  intro o ho
  obtain ⟨txin, hmem, rfl⟩ := List.mem_map.mp ho
  obtain ⟨index, hin⟩ := List.mem_iff_getElem?.mp hmem
  have hrules := (checkTransactionInputs_eq_ok.mp h).1
  obtain ⟨coin, hrule⟩ := hrules.inputs (txin, index) (List.mem_zipIdx_iff_getElem?.mpr hin)
  exact ⟨coin, hrule.unspent⟩

/-- `add` keeps the pool to known transactions. -/
theorem Known.add (hp : p.Known U) (ht : U t) (now : Nat) (verify : Bool) :
    (p.add params c now t verify).1.Known U := by
  obtain ⟨hwf, hentries⟩ := @Wf.add _ p _ params c t hp.wf now verify
  refine ⟨hwf, fun h e he => ?_⟩
  rcases hentries h e he with hold | ⟨fee, -, rfl⟩
  · exact hp.known h e hold
  · exact ht

omit [ScanOrder Hash] in
theorem Sound.rememberVerified (hp : p.Sound U utxo ids) (h : Hash) :
    (p.rememberVerified h).Sound U utxo ids :=
  ⟨⟨hp.wf.rememberVerified h, hp.known⟩, hp.funded, hp.unconfirmed, hp.irrefl, hp.sorted⟩

/-- `add` keeps a pool sound, if a newcomer that passes the checks spares its parents. -/
theorem Sound.add (hp : p.Sound U c.storage.utxo ids) (hsettled : Settled U c.storage.utxo ids)
    (ht : U t) (now : Nat) {verify : Bool}
    (hspares : (p.judge params c t verify).isOk = true → p.Spares t) :
    (p.add params c now t verify).1.Sound U c.storage.utxo ids := by
  rcases p.add_cases params c now t verify with ⟨hsame, -⟩ |
    ⟨fee, hjudge, ⟨-, hdropped, -⟩ | ⟨-, hentered, -⟩⟩
  · rw [hsame]
    exact hp
  · rw [hdropped]
    exact (p.removeAll_prunes _).sound hp
  · rw [hentered]
    have hspares := hspares (by rw [hjudge]; rfl)
    obtain ⟨hscreened, hprice, -⟩ := judge_eq_ok.mp hjudge
    have hpruned := (p.removeAll_prunes (p.conflicts t)).sound hp
    obtain ⟨hnew, -⟩ := hp.wf.enter hscreened.absent fee now
    refine (evictIfNeeded_prunes _).sound
      ((hpruned.rememberVerified t.txid).insertEntry hsettled fee
      now ht hscreened.notCoinbase (Transaction.checkSanity_sane hscreened.sane).inputs hnew
      (conflicts_cleared hp.wf) fun o ho => ?_)
    -- a parent in the pool is none of the transactions that were dropped
    obtain ⟨coin, hview⟩ := price_inputs hprice o ho
    rcases funds_of_coinView hview with hcoin | ⟨e, he, hlt⟩
    · exact .inl hcoin
    · exact .inr ⟨e, removeAll_kept hp.wf he (hspares o ho), hlt⟩

/-! ## Notifications -/

omit [Crypto] [ScanOrder Hash] in
theorem absent_of_empty (hempty : p.byTxid.keys = ∅) (h : Hash) : p.byTxid.lookup h = none :=
  Finmap.lookup_eq_none.mpr fun hmem => by
    rw [← Finmap.mem_keys, hempty] at hmem
    exact Finset.notMem_empty h hmem

/-- Where the pool holds only transactions of a pool with good books, one more of them conflicts
with nothing. -/
theorem conflicts_of_pooled (hp : p.Wf) (hq : q.Wf)
    (hold : ∀ h e, q.byTxid.lookup h = some e → ∃ e₀, p.byTxid.lookup h = some e₀ ∧
      e₀.transaction = e.transaction) {k : Hash} {e₀ : MempoolEntry}
    (hk : p.byTxid.lookup k = some e₀) (habsent : q.byTxid.lookup e₀.transaction.txid = none) :
    q.conflicts e₀.transaction = [] := by
  refine List.eq_nil_iff_forall_not_mem.mpr fun h hh => ?_
  obtain ⟨o, ho, hmark⟩ := mem_conflicts.mp hh
  obtain ⟨e, he, hoe⟩ := (hq.spent o h).mp hmark
  obtain ⟨e₁, he₁, htx⟩ := hold h e he
  have hkh : k = h := hp.spends_once hk he₁ ho (htx ▸ hoe)
  rw [(hp.keyed k e₀ hk).2.1, hkh, he] at habsent
  cases habsent

/-- A known pool that is checked once more is sound, and it has what an empty pool has and what is
kept by adding a transaction that spares its parents. -/
theorem Known.revalidate_rule (hp : p.Known U) (hsettled : Settled U c.storage.utxo ids)
    (now : Nat → Nat) {P : Mempool → Prop}
    (hempty : ∀ q : Mempool, (∀ h, q.byTxid.lookup h = none) → P q)
    (hadd : ∀ q t now verify, q.Sound U c.storage.utxo ids → U t →
      ((q.judge params c t verify).isOk = true → q.Spares t) → P q →
      P (q.add params c now t verify).1) :
    (p.revalidate params c now).1.Sound U c.storage.utxo ids ∧
      P (p.revalidate params c now).1 := by
  unfold Mempool.revalidate
  split
  · rename_i hnone
    exact ⟨sound_of_empty hp.wf (absent_of_empty hnone), hempty p (absent_of_empty hnone)⟩
  -- the pool grows by transactions that were pooled, so it never finds a conflict
  refine (addAll_rule (fun q => (q.Sound U c.storage.utxo ids ∧ P q) ∧
    ∀ h e, q.byTxid.lookup h = some e → ∃ e₀, p.byTxid.lookup h = some e₀ ∧
      e₀.transaction = e.transaction) ?_
    ⟨⟨sound_of_empty p.clear_wf fun _ => rfl, hempty _ fun _ => rfl⟩, ?_⟩).1
  · rintro q t now verify ht ⟨⟨hq, hP⟩, hold⟩
    obtain ⟨e₀, hmem, rfl⟩ := List.mem_map.mp ht
    obtain ⟨k, hk⟩ := mem_values hmem
    have hknown := hp.known k e₀ hk
    have hspares : (q.judge params c e₀.transaction verify).isOk = true →
        q.Spares e₀.transaction := by
      intro hok o _ h hh
      cases hjudge : q.judge params c e₀.transaction verify with
      | ok fee =>
        rw [conflicts_of_pooled hp.wf hq.wf hold hk (judge_eq_ok.mp hjudge).1.absent] at hh
        cases hh
      | error e =>
        rw [hjudge] at hok
        cases hok
    refine ⟨⟨hq.add hsettled hknown now hspares, hadd q _ now verify hq hknown hspares hP⟩,
      fun h e he => ?_⟩
    rcases (hq.wf.add now verify).2 h e he with hin | ⟨fee, -, rfl⟩
    · exact hold h e hin
    · have hh := ((hq.wf.add now verify).1.keyed h _ he).1
      rw [show (newcomer e₀.transaction fee now).txid = k from (hp.wf.keyed k e₀ hk).2.1] at hh
      exact ⟨e₀, hh ▸ hk, rfl⟩
  · intro h e he
    cases he

/-- Checking a pool once more makes it sound, whatever it was. -/
theorem Known.revalidate (hp : p.Known U) (hsettled : Settled U c.storage.utxo ids)
    (now : Nat → Nat) : (p.revalidate params c now).1.Sound U c.storage.utxo ids :=
  (hp.revalidate_rule hsettled now (fun _ _ => trivial) fun _ _ _ _ _ _ _ h => h).1

/-- A notification keeps the pool to known transactions, and one that comes back leaves it sound. -/
theorem Known.onEvent (hp : p.Known U) (hsettled : Settled U c.storage.utxo ids) (now : Nat → Nat)
    {event : Event} (hblock : ∀ t ∈ event.block.transactions, U t) :
    (p.onEvent params c now event).1.Known U ∧ ((p.onEvent params c now event).2 = .ok () →
      (p.onEvent params c now event).1.Sound U c.storage.utxo ids) := by
  unfold Mempool.onEvent
  cases event.kind with
  | connect =>
    have hdrop : ∀ (ts : List Transaction) (q : Mempool), q.Known U →
        (ts.foldl dropConfirmed q).Known U := by
      intro ts
      induction ts with
      | nil => exact fun _ hq => hq
      | cons t ts ih =>
        intro q hq
        obtain ⟨hwf, hwithin⟩ := dropConfirmed_wf hq.wf t
        exact ih _ (hq.within hwf hwithin)
    have hsound : ((event.block.transactions.foldl dropConfirmed p).revalidate params c
        now).1.Sound U c.storage.utxo ids :=
      (hdrop event.block.transactions p hp).revalidate hsettled now
    exact ⟨hsound.toKnown, fun _ => hsound⟩
  | disconnect =>
    have hadded : (p.addAll params c now event.block.transactions.tail).1.Known U :=
      addAll_rule (Known U) (fun q t now verify ht hq =>
        hq.add (hblock t (List.mem_of_mem_tail ht)) now verify) hp
    dsimp only [blockDisconnected]
    cases hadd : p.addAll params c now event.block.transactions.tail with
    | mk q answer =>
      rw [hadd] at hadded
      cases answer with
      | error e => exact ⟨hadded, fun h => nomatch h⟩
      | ok u =>
        have hsound : (q.revalidate params c fun i =>
            now (event.block.transactions.length + i)).1.Sound U c.storage.utxo ids :=
          Known.revalidate hadded hsettled _
        exact ⟨hsound.toKnown, fun _ => hsound⟩

end Soundness

end Mempool

/-! ## Runs -/

section Runs

variable [Crypto] [ScanOrder Hash] {params : ChainParams} {U : Transaction → Prop}

/-- What a step of the chain does: the active blocks stay and nobody is told anything, or listeners
are told of stored blocks; the disconnected ones were active. -/
theorem stepChain_cases {c : Blockchain} {bs : List TreeNode} (h : Chained params c bs)
    (call : WiredCall) : ∃ bs', Chained params (Wired.stepChain params c call) bs' ∧
      (∀ k n, c.storage.tree k = some n →
        (Wired.stepChain params c call).storage.tree k = some n) ∧
      ((bs' = bs ∧ (Wired.stepChain params c call).notified = c.notified) ∨
        ∃ events, events ≠ [] ∧
          (Wired.stepChain params c call).notified = c.notified ++ events ∧
          ∀ e ∈ events, ∃ n, c.storage.tree n.body.hash = some n ∧ e.block = n.body ∧
            (e.kind = .disconnect → n ∈ bs)) := by
  obtain ⟨⟨s, g, hg, htrace⟩, hs⟩ := h
  -- what leaves the branch and the events as they are: all but a round that switches
  have hquiet : ∀ c' : Blockchain, ChainTrace params (c.storage, bs) (c'.storage, bs) →
      Standing params c' bs → c'.notified = c.notified →
      ∃ bs', Chained params c' bs' ∧ (∀ k n, c.storage.tree k = some n →
        c'.storage.tree k = some n) ∧ ((bs' = bs ∧ c'.notified = c.notified) ∨
        ∃ events, events ≠ [] ∧ c'.notified = c.notified ++ events ∧
          ∀ e ∈ events, ∃ n, c.storage.tree n.body.hash = some n ∧ e.block = n.body ∧
            (e.kind = .disconnect → n ∈ bs)) :=
    fun c' hstep hs' hsame => ⟨bs, ⟨⟨s, g, hg, htrace.trans hstep⟩, hs'⟩,
      fun k n hn => hstep.tree_mono hn, .inl ⟨rfl, hsame⟩⟩
  have hstay := hquiet c .refl hs rfl
  cases call with
  | add now t verify => exact hstay
  | remove txid d => exact hstay
  | notify now => exact hstay
  | submit now b =>
    unfold Wired.stepChain
    dsimp only
    cases haccept : c.admitBlock params now b with
    | error e => exact hstay
    | ok admission =>
      cases admission with
      | answered c' r =>
        rcases Blockchain.admitBlock_answered haccept with rfl | ⟨reason, rfl⟩
        · exact hstay
        · exact hquiet _ .refl (hs.of_eq rfl rfl) rfl
      | stored c' height =>
        obtain ⟨p, work, hplace, -, rfl⟩ := Blockchain.admitBlock_eq_stored.mp haccept
        obtain ⟨hstep, hs'⟩ := hplace.standing hs
        exact hquiet _ (.single hstep) hs' rfl
  | addHeader header =>
    unfold Wired.stepChain
    dsimp only
    cases hadd : c.addHeader params header with
    | error e => exact hstay
    | ok out =>
      obtain ⟨c', answer⟩ := out
      have hrun : (Call.addHeader header).run params c = some c' := by
        unfold Call.run
        dsimp only
        rw [hadd]
      rcases Blockchain.addHeader_cases hadd with rfl | ⟨p, work, -, -, -, -, rfl⟩
      · exact hstay
      · have hstep : ChainStep params (c.storage, bs) ((c.placeHeader header p work).storage, bs) :=
          .header _
        obtain ⟨n, rest, hbs, hn, hpoint⟩ := hs.tip
        exact hquiet _ (.single hstep) ⟨hstep.based hs.based, n, rest, hbs, hn, hpoint⟩ rfl
  | prune keepBlocks =>
    have hprune : ChainTrace params (c.storage, bs) ((c.prune params keepBlocks).1.storage, bs) ∧
        Standing params (c.prune params keepBlocks).1 bs := prune_standing hs
    refine hquiet _ hprune.1 hprune.2 ?_
    show (c.prune params keepBlocks).1.notified = c.notified
    unfold Blockchain.prune
    dsimp only
    split <;> rfl
  | round =>
    unfold Wired.stepChain
    dsimp only
    cases hround : activateRound params ⟨c, false⟩ with
    | halt out =>
      obtain ⟨c', answer⟩ := out
      obtain rfl := activateRound_halt hround
      exact hstay
    | next a =>
      obtain ⟨c', r⟩ := a
      obtain ⟨bs', hstep, hs'⟩ := activateRound_standing hs hround
      obtain ⟨new, gone, old, t, w, hbs, ha, ⟨s', events, hswitch, rfl⟩ |
          ⟨hash, message, -, rfl⟩⟩ :=
        activateRound_cases hs hround
      · -- the round switched: the blocks left, from the tip down, then the blocks joined
        obtain ⟨s₁, s₂, -, -, -, -, rfl⟩ := switchTo_parts ha.fork ha.from_tip ha.to_top hswitch
        refine ⟨bs', ⟨⟨s, g, hg, htrace.trans hstep⟩, hs'⟩, fun k n hn => hstep.tree_mono hn,
          .inr ⟨_, ?_, rfl, ?_⟩⟩
        · -- the candidate is heavier than the tip, so it is another block
          intro hnil
          obtain ⟨hgone, hnew⟩ := List.append_eq_nil_iff.mp hnil
          rw [heard, List.map_eq_nil_iff] at hgone
          rw [heard, List.map_eq_nil_iff, List.reverse_eq_nil_iff] at hnew
          subst hgone
          subst hnew
          obtain rfl : t = w := Option.some.inj (ha.from_tip.symm.trans ha.to_top)
          have hstored := ha.fork.based.active.branch.stored t (List.mem_of_head? ha.from_tip)
          have hlt := ha.heavier
          rw [ha.tip, Storage.entryAt_chainwork hstored] at hlt
          exact Nat.lt_irrefl _ hlt
        · intro e he
          rw [heard, heard, List.mem_append, List.mem_map, List.mem_map] at he
          rcases he with ⟨n, hn, rfl⟩ | ⟨n, hn, rfl⟩
          · exact ⟨n, ha.fork.based.active.branch.stored n (List.mem_append_left _ hn), rfl,
              fun _ => hbs ▸ List.mem_append_left _ hn⟩
          · exact ⟨n, ha.fork.path.stored n (List.mem_append_left _ (List.mem_reverse.mp hn)), rfl,
              fun hkind => by cases hkind⟩
      · -- the branch failed: it is only remembered
        have hstorage := c.invalidate_storage hash message
        refine hquiet _ ?_ (hs.of_eq hstorage (c.invalidate_tip hash message)) ?_
        · rw [hstorage]
        · cases c
          rfl

namespace Wired

/-- No transaction that passes the checks of `add` spends an output of a pooled transaction that it
conflicts with, or of a descendant of one, and what is removed without its descendants has none. The
transactions handed in are of `U`. -/
def Sparing (params : ChainParams) (U : Transaction → Prop) (w : Wired) : WiredCall → Prop
  | .add _ t verify =>
      U t ∧ ((w.pool.judge params w.chain t verify).isOk = true → w.pool.Spares t)
  | .remove txid withDescendants =>
      withDescendants = true ∨ ∀ u, ¬ w.pool.DependsOn u txid
  | _ => True

/-- The invariant of a chain with its pool. -/
structure Good (params : ChainParams) (U : Transaction → Prop) (w : Wired) (bs : List TreeNode) :
    Prop where
  chained : Chained params w.chain bs
  known : w.pool.Known U
  pending : ∀ e ∈ w.pending, ∃ n, w.chain.storage.tree n.body.hash = some n ∧ e.block = n.body
  sound : w.stale = false → w.pool.Sound U w.chain.storage.utxo (confirmedIds bs)

/-- A call leads to a chain that steps lead to, and forgets no stored block. -/
theorem run_chained {w w' : Wired} {bs : List TreeNode} (hchain : Chained params w.chain bs)
    {call : WiredCall} (h : w.run params call = some w') :
    (∃ bs', Chained params w'.chain bs') ∧ ∀ k n, w.chain.storage.tree k = some n →
      w'.chain.storage.tree k = some n := by
  obtain ⟨bs', hchain', hmono, -⟩ := stepChain_cases hchain call
  rcases run_cases h with ⟨now, t, verify, -, rfl⟩ | ⟨txid, d, -, rfl⟩ | ⟨now, -, -, rfl⟩ |
    ⟨now, event, events, -, -, ⟨-, rfl⟩ | ⟨e, -, rfl⟩⟩ | ⟨-, rfl⟩
  · exact ⟨⟨bs, hchain⟩, fun _ _ hn => hn⟩
  · exact ⟨⟨bs, hchain⟩, fun _ _ hn => hn⟩
  · exact ⟨⟨bs, hchain⟩, fun _ _ hn => hn⟩
  · exact ⟨⟨bs, hchain⟩, fun _ _ hn => hn⟩
  · exact ⟨⟨bs, hchain⟩, fun _ _ hn => hn⟩
  · exact ⟨⟨bs', hchain'⟩, hmono⟩

/-- In every run the chain is one that steps lead to. -/
theorem Runs.chained {allowed : Wired → WiredCall → Prop} {w : Wired} (h : Runs params allowed w) :
    ∃ bs, Chained params w.chain bs := by
  induction h with
  | start maxBytes hc =>
    obtain ⟨s, g, bs, hg, htrace, hs⟩ := hc.run
    exact ⟨bs, ⟨s, g, hg, htrace⟩, hs⟩
  | call call _ _ hrun ih =>
    obtain ⟨bs, hchained⟩ := ih
    exact (run_chained hchained hrun).1

/-- Every call that spares the parents keeps the invariant. -/
theorem Good.run {w w' : Wired} {bs : List TreeNode} (hw : w.Good params U bs)
    (hU : Distinguished U) {call : WiredCall} (hcall : w.Sparing params U call)
    (h : w.run params call = some w') (hstored : w'.chain.storage.Holds U) :
    ∃ bs', w'.Good params U bs' := by
  have hheld : w.chain.storage.Holds U :=
    fun k n hn => hstored k n ((run_chained hw.chained h).2 k n hn)
  have hsettled := hw.chained.settled hU hheld
  rcases run_cases h with ⟨now, t, verify, rfl, rfl⟩ | ⟨txid, d, rfl, rfl⟩ | ⟨now, rfl, -, rfl⟩ |
    ⟨now, event, events, rfl, hpending, hanswer⟩ | ⟨-, rfl⟩
  · exact ⟨bs, hw.chained, hw.known.add hcall.1 now verify, hw.pending,
      fun hstale => (hw.sound hstale).add hsettled hcall.1 now hcall.2⟩
  · have hrem := Mempool.remove_removal hw.known.wf txid d
    exact ⟨bs, hw.chained, hw.known.within hrem.wf hrem.within, hw.pending,
      fun hstale => (hw.sound hstale).remove hcall⟩
  · exact ⟨bs, hw⟩
  · obtain ⟨n, hn, hblock⟩ := hw.pending event (by rw [hpending]; exact List.mem_cons_self)
    have hevent := @Mempool.Known.onEvent _ U _ w.pool _ params w.chain hw.known hsettled now event
      (hblock ▸ hheld _ n hn)
    rcases hanswer with ⟨hok, rfl⟩ | ⟨e, -, rfl⟩
    · refine ⟨bs, hw.chained, hevent.1, fun e he => hw.pending e ?_, fun _ => hevent.2 hok⟩
      rw [hpending]
      exact List.mem_cons_of_mem event he
    · exact ⟨bs, hw.chained, hevent.1, fun e he => absurd he List.not_mem_nil,
        fun hstale => nomatch hstale⟩
  · obtain ⟨bs', hchained, hmono, hcases⟩ := stepChain_cases hw.chained call
    rcases hcases with ⟨rfl, hquiet⟩ | ⟨events, hne, hheard, hnodes⟩
    · -- the coins are those of the same active blocks
      have hutxo : (stepChain params w.chain call).storage.utxo = w.chain.storage.utxo :=
        (hchained.ledger (hstored.noTxidCollision hU)).utxo.trans
          (hw.chained.ledger (hheld.noTxidCollision hU)).utxo.symm
      have hnone : (stepChain params w.chain call).notified.drop w.chain.notified.length = [] := by
        rw [hquiet, List.drop_length]
      refine ⟨_, hchained, hw.known, fun e he => ?_, fun hstale => ?_⟩
      · simp only [move, hnone, List.not_mem_nil] at he
      · simp only [move, hnone, List.isEmpty_nil, Bool.not_true, Bool.or_false] at hstale ⊢
        rw [hutxo]
        exact hw.sound hstale
    · -- events wait, so the pool is stale and owes nothing
      have hdrop : (stepChain params w.chain call).notified.drop w.chain.notified.length =
          events := by
        rw [hheard, List.drop_left]
      refine ⟨bs', hchained, hw.known, fun e he => ?_, fun hstale => ?_⟩
      · simp only [move, hdrop] at he
        obtain ⟨n, hn, hblock, -⟩ := hnodes e he
        exact ⟨n, hmono _ n hn, hblock⟩
      · simp only [move, hdrop] at hstale
        cases events with
        | nil => exact absurd rfl hne
        | cons e events => simp at hstale

/-- In every run that spares the parents the invariant holds. -/
theorem Runs.good (hU : Distinguished U) {w : Wired} (h : Runs params (Sparing params U) w)
    (hstored : w.chain.storage.Holds U) : ∃ bs, w.Good params U bs := by
  induction h with
  | start maxBytes hc =>
    have hrun : Runs params (Sparing params U) (Wired.start _ maxBytes) := .start maxBytes hc
    obtain ⟨bs, hchained⟩ := hrun.chained
    have hwf := Mempool.create_wf maxBytes
    have hempty : ∀ h, (Mempool.create maxBytes).byTxid.lookup h = none := fun _ => rfl
    exact ⟨bs, hchained, ⟨hwf, fun h e he => nomatch (hempty h).symm.trans he⟩,
      fun e he => absurd he List.not_mem_nil, fun _ => Mempool.sound_of_empty hwf hempty⟩
  | call call hruns hcall hrun ih =>
    obtain ⟨bs, hchained⟩ := hruns.chained
    obtain ⟨bs₁, hgood⟩ := ih fun k n hn => hstored k n ((run_chained hchained hrun).2 k n hn)
    exact hgood.run hU hcall hrun hstored

/-- **Pool contents are always minable**, in every run in which no transaction that passes the
checks of `add` spends an output of a pooled transaction that it conflicts with or of a descendant
of one. -/
theorem Runs.minable_of_spared (hU : Distinguished U) {w : Wired}
    (h : Runs params (Sparing params U) w) (hstored : w.chain.storage.Holds U)
    (hstep : w.stale = false) : w.pool.Minable w.chain := by
  obtain ⟨bs, hgood⟩ := h.good hU hstored
  exact (hgood.sound hstep).minable

end Wired

end Runs

section Instances

attribute [local instance] Sample.crypto Sample.order

/-! ## A replacement that spends what it replaces -/

/-- A block with that coinbase, and one above it, after which the coin can be spent. -/
def Sample.funded : List Call :=
  let b₁ := Sample.block Sample.genesisHash 0x207FFFFF 1700000012 [Sample.purse] (by simp)
  [Sample.submit b₁, Sample.submit (Sample.regtestBlock b₁.hash 2 0)]

/-- The funded chain with a new pool, after calls that a check lets through. -/
def Sample.wiredAfter (check : Wired → WiredCall → Bool) (calls : List WiredCall) : Option Wired :=
  (Sample.chainAfter Sample.funded).bind fun c =>
    (Wired.start c 5000000).follow REGTEST check calls

theorem Sample.wiredAfter_runs {allowed : Wired → WiredCall → Prop}
    {check : Wired → WiredCall → Bool} (hcheck : ∀ w call, check w call = true → allowed w call)
    {calls : List WiredCall} {w : Wired} (h : Sample.wiredAfter check calls = some w) :
    Wired.Runs REGTEST allowed w := by
  obtain ⟨c, hc, hfollow⟩ := Option.bind_eq_some_iff.mp h
  exact (Wired.Runs.start 5000000 (Sample.chainAfter_reachable hc)).follow hcheck hfollow

theorem Sample.dear_fits : 48 * COIN ≤ MAX_MONEY := by decide

theorem Sample.dear_single : [(⟨Sample.purse.txid, 0⟩ : OutPoint)].length < 2 ^ 32 :=
  Sample.one_fits _

/-- A spend of the coin of higher fee than `Sample.cheap`. -/
def Sample.dear : Transaction :=
  Sample.move [⟨Sample.purse.txid, 0⟩] (Sample.open (48 * COIN) Sample.dear_fits) Sample.dear_single

/-- A child of the second. -/
def Sample.child : Transaction :=
  Sample.move [⟨Sample.dear.txid, 0⟩] (Sample.open (47 * COIN)
    (Sample.nearly_fits Sample.le_fifty.2.2)) (Sample.one_fits _)

theorem Sample.twofold_fits : 49 * COIN ≤ MAX_MONEY := by decide

/-- A spend of the coin together with the output of the first, which spends the same coin. -/
def Sample.twofold : Transaction :=
  Sample.move [⟨Sample.purse.txid, 0⟩, ⟨Sample.cheap.txid, 0⟩]
    (Sample.open (49 * COIN) Sample.twofold_fits) (Sample.two_fit _ _)

/-- The transactions of the blocks of these runs and the submitted ones. -/
def Sample.ledger : List Transaction :=
  REGTEST.genesisCoinbase.toOption.toList ++ [Sample.purse, Sample.coinbase 2 0 Sample.reward,
    Sample.coinbase 3 0 Sample.reward, Sample.cheap, Sample.dear, Sample.child]

/-- What makes a call sparing at a glance: a newcomer with conflicts has no parents in the pool. -/
def Sample.sparing (w : Wired) : WiredCall → Bool
  | .add _ t _ => decide (t ∈ Sample.ledger) &&
      decide (∀ o ∈ t.prevouts, ∀ h ∈ w.pool.conflicts t,
        o.txid ≠ h ∧ w.pool.byTxid.lookup o.txid = none)
  | .remove _ withDescendants => withDescendants
  | _ => true

theorem Sample.sparing_sound (w : Wired) (call : WiredCall) (h : Sample.sparing w call = true) :
    w.Sparing REGTEST (· ∈ Sample.ledger) call := by
  cases call with
  | add now t verify =>
    obtain ⟨hmem, hfree⟩ := (Bool.and_eq_true _ _).mp h
    refine ⟨of_decide_eq_true hmem, fun _ o ho k hk hdesc => ?_⟩
    obtain ⟨hne, habsent⟩ := of_decide_eq_true hfree o ho k hk
    rcases hdesc.cases_head with heq | ⟨b, ⟨e, he, -⟩, -⟩
    · exact hne heq
    · rw [habsent] at he
      cases he
  | remove txid d => exact .inl h
  | _ => trivial

/-- A block that mines the second spend. -/
def Sample.mined : Block :=
  let b₁ := Sample.block Sample.genesisHash 0x207FFFFF 1700000012 [Sample.purse] (by simp)
  let b₂ := Sample.regtestBlock b₁.hash 2 0
  Sample.block b₂.hash 0x207FFFFF 1700000032 [Sample.coinbase 3 0 Sample.reward, Sample.dear]
    (by simp)

/-- It holds of a pool in which a transaction was replaced and the parent of another one was
mined. -/
theorem Wired.minable_of_spared_mined : ∃ w, Sample.wiredAfter Sample.sparing
      [.add 0 Sample.cheap true, .add 1 Sample.dear true, .add 2 Sample.child true,
        .submit 1700001032 Sample.mined, .round, .notify fun i => i + 3] = some w ∧
    w.pool.order = [Sample.child.txid] ∧ w.pool.Minable w.chain := by
  have hrun : ((Sample.wiredAfter Sample.sparing
      [.add 0 Sample.cheap true, .add 1 Sample.dear true, .add 2 Sample.child true,
        .submit 1700001032 Sample.mined, .round, .notify fun i => i + 3]).any fun w =>
      decide (w.pool.order = [Sample.child.txid] ∧ w.stale = false ∧
        ∀ p ∈ w.chain.storage.blockRows, ∀ t ∈ p.2.body.transactions, t ∈ Sample.ledger)) =
        true := by
    decide +kernel
  obtain ⟨w, hw, h⟩ := (Option.any_eq_true _ _).mp hrun
  obtain ⟨horder, hfresh, hheld⟩ := of_decide_eq_true h
  have hU : Distinguished (· ∈ Sample.ledger) := by
    have hall : ∀ t ∈ Sample.ledger, ∀ t' ∈ Sample.ledger, t.txid = t'.txid →
        t.serializeBody = t'.serializeBody := by decide +kernel
    exact fun t t' ht ht' => hall t ht t' ht'
  refine ⟨w, hw, horder, Wired.Runs.minable_of_spared hU
    (Sample.wiredAfter_runs Sample.sparing_sound hw) (fun k n hn t ht => ?_) hfresh⟩
  obtain ⟨row, hrow, rfl⟩ := Storage.tree_eq_some.mp hn
  exact hheld (k, row) ((mem_scan _ _ _).mpr hrow) t ht

/-- The replacement removes the transaction whose output it spends: an input of the pool is left
that nothing provides. -/
theorem minable_fails : ∃ w, Wired.Runs REGTEST (fun _ _ => True) w ∧ w.stale = false ∧
    ¬ w.pool.Minable w.chain := by
  have hrun : ((Sample.wiredAfter (fun _ _ => true)
      [.add 0 Sample.cheap true, .add 1 Sample.twofold true]).any fun w =>
      decide (w.stale = false ∧
        (w.pool.byTxid.lookup Sample.twofold.txid).map MempoolEntry.transaction =
          some Sample.twofold ∧
        w.pool.byTxid.lookup Sample.cheap.txid = none ∧
        w.chain.getCoin ⟨Sample.cheap.txid, 0⟩ = none)) = true := by decide +kernel
  obtain ⟨w, hw, h⟩ := (Option.any_eq_true _ _).mp hrun
  obtain ⟨hfresh, hin, hgone, hcoin⟩ := of_decide_eq_true h
  refine ⟨w, Sample.wiredAfter_runs (fun _ _ _ => trivial) hw, hfresh, fun hminable => ?_⟩
  obtain ⟨e, he, htx⟩ := Option.map_eq_some_iff.mp hin
  have ho : (⟨Sample.cheap.txid, 0⟩ : OutPoint) ∈ e.transaction.prevouts := by
    rw [htx]
    exact List.mem_cons_of_mem _ List.mem_cons_self
  rcases hminable.funded _ e he _ ho with hthere | ⟨e', he', -⟩
  · exact hthere hcoin
  · rw [hgone] at he'
    cases he'

end Instances

end ScarletCoin
