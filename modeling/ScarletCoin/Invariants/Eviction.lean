import ScarletCoin.Invariants.PoolFees
import ScarletCoin.Toolkit.Eviction

/-!
# What the pool evicts

The entries of the pool as a list, in which an entry hangs on another if it spends one of its
outputs. Removing transactions with their descendants takes out what hangs on them
(`Mempool.removeAll_values`), and when the pool is too large, entries are evicted in the order of
their fee rates (`Mempool.evictIfNeeded_values`).

So `add` returns an entry that the pool holds iff the newcomer outlasts that eviction, among the
entries that it does not replace (`Mempool.Reachable.add_pooled_iff`). A newcomer of a low fee rate,
or with a parent of a low fee rate, may be evicted by the call that accepted it
(`Mempool.add_unpooled`).
-/

set_option autoImplicit false

namespace ScarletCoin

open Toolkit

/-- The first transaction spends an output of the second. -/
def MempoolEntry.SpendsFrom (a b : MempoolEntry) : Prop :=
  ∃ o ∈ a.transaction.prevouts, o.txid = b.txid ∧ o.index.toNat < b.transaction.outputs.length

namespace Mempool

section Entries

variable [Crypto] {p q : Mempool}

/-! ## Removal -/

omit [Crypto] in
theorem under_of_child {a b e : MempoolEntry} (ha : a ∈ p.values) (hb : b ∈ p.values)
    {o : OutPoint} (ho : o ∈ a.transaction.prevouts) (htxid : o.txid = b.txid)
    (hlt : o.index.toNat < b.transaction.outputs.length)
    (h : Under MempoolEntry.SpendsFrom p.values b e) : Under MempoolEntry.SpendsFrom p.values a e :=
  .head ⟨ha, hb, o, ho, htxid, hlt⟩ h

/-- Every one of these transactions hangs on the one that was to be removed. -/
def Doomed (p : Mempool) (txid : Hash) (ks : List Hash) : Prop :=
  ∀ k ∈ ks, ∀ e, p.byTxid.lookup k = some e → ∃ r ∈ p.values, r.txid = txid ∧
    Under MempoolEntry.SpendsFrom p.values e r

/-- What a round of the removal puts on the stack hangs on what it takes out. -/
theorem Doomed.take (hp : p.Wf) {txid k : Hash} {pending gone : List Hash}
    (hrun : Removing true p txid (k :: pending) q gone)
    (h : Doomed p txid (k :: pending ++ gone)) {q' : Mempool} {uncovered : List Hash}
    (hk : removeOne true q k = some (q', uncovered)) :
    Doomed p txid (uncovered ++ pending ++ (gone ++ [k])) := by
  obtain ⟨e, he, hout⟩ := Option.map_eq_some_iff.mp hk
  obtain ⟨rfl, rfl⟩ := Prod.mk.inj hout
  have hpk := hrun.within.sub k e he
  obtain ⟨r, hr, htxid, hunder⟩ := h k (by simp) e hpk
  intro u hu a ha
  by_cases hold : u ∈ k :: pending ++ gone
  · exact h u hold a ha
  · have hnew : u ∈ ((q.takeOut k e).spenders k e.transaction).reverse := by
      simp only [List.mem_append, List.mem_cons, List.cons_append, not_or]
        at hu hold
      tauto
    obtain ⟨o, hok, hlt, hmark⟩ := mem_spenders.mp (List.mem_reverse.mp hnew)
    obtain ⟨a', ha', ho⟩ := ((hrun.wf.takeOut he).spent o u).mp hmark
    have hsame := ((q.takeOut_within k e).trans hrun.within).sub u a' ha'
    obtain rfl := Option.some.inj (ha.symm.trans hsame)
    have hkeyed := (hp.keyed k e hpk).1
    have haval : a ∈ p.values := hp.mem_values.mpr ((hp.keyed u a ha).1.symm ▸ ha)
    have heval : e ∈ p.values := hp.mem_values.mpr (hkeyed.symm ▸ hpk)
    exact ⟨r, hr, htxid, under_of_child haval heval ho (hok.trans hkeyed.symm) hlt hunder⟩

/-- What a removal takes out hangs on what was to be removed. -/
theorem remove_doomed (hp : p.Wf) (txid : Hash) : Doomed p txid (p.remove txid true).2 := by
  have hstart : Removing true p txid [txid] p [] :=
    ⟨hp, .refl p, fun k hk => List.mem_singleton.mp hk ▸ .refl,
      fun _ _ he _ => he, fun _ hk => absurd hk List.not_mem_nil, .inl List.mem_cons_self,
      fun hd => absurd hd (by simp), fun _ _ _ _ _ _ _ hgo => absurd hgo List.not_mem_nil⟩
  have hself : Doomed p txid ([txid] ++ []) := by
    intro k hk e he
    obtain rfl := List.mem_singleton.mp hk
    have hkey := (hp.keyed k e he).1
    exact ⟨e, hp.mem_values.mpr (hkey.symm ▸ he), hkey, .refl⟩
  have hend : Removing true p txid [] (p.remove txid true).1 (p.remove txid true).2 ∧
      Doomed p txid ([] ++ (p.remove txid true).2) := by
    refine cascade_rule (fun pending q gone => Removing true p txid pending q gone ∧
      Doomed p txid (pending ++ gone)) outputCount ?_ ?_
      (by rw [List.length_singleton]; omega) ⟨hstart, hself⟩
    · exact fun k pending q gone h hk =>
        ⟨h.1.skip hk, fun u hu => h.2 u (List.mem_cons_of_mem k hu)⟩
    · exact fun k pending q gone q' uncovered h hk =>
        ⟨(h.1.take hk).1, (h.1.take hk).2, Doomed.take hp h.1 h.2 hk⟩
  exact hend.2

/-- Removing a transaction leaves what does not hang on it. -/
theorem remove_values (hp : p.Wf) (txid : Hash) : (p.remove txid true).1.values =
    clearOf MempoolEntry.SpendsFrom p.values (p.values.filter fun e => e.txid = txid) := by
  classical
  have hrem := remove_removal hp txid true
  have hgone := remove_doomed hp txid
  refine (eq_filter_of_sublist (hrem.within.values_sublist hrem.wf) hp.values_nodup _
    fun e he => ?_)
  rw [decide_eq_true_iff, hrem.wf.mem_values]
  have hlook := hp.mem_values.mp he
  constructor
  · -- nothing that stays hangs on what is gone
    intro hstays r hr hunder
    obtain ⟨hrval, hrtxid⟩ := List.mem_filter.mp hr
    have hrgone : (p.remove txid true).1.byTxid.lookup r.txid = none := by
      rw [of_decide_eq_true hrtxid]
      exact hrem.root
    induction hunder using Relation.ReflTransGen.head_induction_on with
    | refl =>
      rw [hrgone] at hstays
      cases hstays
    | @head a b hstep hrest ih =>
      obtain ⟨-, hb, o, ho, htxid, hlt⟩ := hstep
      have hblook := hp.mem_values.mp hb
      have hbstays : (p.remove txid true).1.byTxid.lookup b.txid = some b := by
        refine hrem.kept _ b hblook fun hmem => ?_
        have hle := hrem.closed rfl _ a hstays o ho (htxid ▸ hmem) b (htxid ▸ hblook)
        omega
      exact ih hb hblook hbstays
  · intro hfree
    refine hrem.kept _ e hlook fun hmem => ?_
    obtain ⟨r, hr, htxid, hunder⟩ := hgone _ hmem e hlook
    exact hfree r (List.mem_filter.mpr ⟨hr, decide_eq_true htxid⟩) hunder

/-- Removing transactions one after the other leaves what hangs on none of them. -/
theorem removeAll_values (hp : p.Wf) (hs : List Hash) : (p.removeAll hs).values =
    clearOf MempoolEntry.SpendsFrom p.values (p.values.filter fun e => e.txid ∈ hs) := by
  induction hs generalizing p with
  | nil =>
    have hnone : (p.values.filter fun e => decide (e.txid ∈ ([] : List Hash))) = [] :=
      List.filter_eq_nil_iff.mpr fun e _ => by simp
    rw [hnone, clearOf_nil]
    rfl
  | cons h hs ih =>
    have hstep : p.removeAll (h :: hs) = (p.remove h).1.removeAll hs := rfl
    rw [hstep, ih (remove_removal hp h true).wf, remove_values hp h, clearOf_clearOf]
    refine clearOf_congr fun e he => ⟨fun hfree r hr hunder => ?_, fun hfree r hr => ?_⟩
    · obtain ⟨hrval, hrtxid⟩ := List.mem_filter.mp hr
      rcases List.mem_cons.mp (of_decide_eq_true hrtxid) with heq | hmem
      · exact hfree r (List.mem_append_left _
          (List.mem_filter.mpr ⟨hrval, decide_eq_true heq⟩)) hunder
      · -- unless it went with the first, it is still there to be removed
        by_cases hgone : ∃ a ∈ p.values.filter (fun e => decide (e.txid = h)),
            Under MempoolEntry.SpendsFrom p.values r a
        · obtain ⟨a, ha, hra⟩ := hgone
          exact hfree a (List.mem_append_left _ ha) (hunder.trans hra)
        · refine hfree r (List.mem_append_right _ (List.mem_filter.mpr ⟨?_, decide_eq_true hmem⟩))
            hunder
          exact mem_clearOf.mpr ⟨hrval, fun a ha hra => hgone ⟨a, ha, hra⟩⟩
    · refine hfree r (List.mem_filter.mpr ?_)
      rcases List.mem_append.mp hr with hr | hr
      · obtain ⟨hrval, hrtxid⟩ := List.mem_filter.mp hr
        exact ⟨hrval, decide_eq_true (List.mem_cons.mpr (.inl (of_decide_eq_true hrtxid)))⟩
      · obtain ⟨hrval, hrtxid⟩ := List.mem_filter.mp hr
        exact ⟨(clearOf_sublist _).mem hrval,
          decide_eq_true (List.mem_cons_of_mem h (of_decide_eq_true hrtxid))⟩

/-! ## Eviction -/

/-- Removing an entry that was there when the eviction began. -/
theorem remove_entry_values (hp : p.Wf) (hq : q.Wf) (hwithin : Within q p) {a : MempoolEntry}
    (ha : a ∈ p.values) :
    (q.remove a.txid).1.values = clearOf MempoolEntry.SpendsFrom q.values [a] := by
  rw [remove_values hq a.txid]
  have hsub := hwithin.values_sublist hq
  refine clearOf_congr fun e he => ⟨fun hfree r hr hunder => ?_, fun hfree r hr => ?_⟩
  · obtain rfl := List.mem_singleton.mp hr
    exact hfree r (List.mem_filter.mpr ⟨hunder.target_mem he, decide_eq_true rfl⟩) hunder
  · obtain ⟨hrval, hrtxid⟩ := List.mem_filter.mp hr
    obtain rfl := hp.txid_injective (hsub.mem hrval) ha (of_decide_eq_true hrtxid)
    exact hfree r (List.mem_singleton_self r)

/-- The loop of the eviction. -/
theorem evictLoop_values (hp : p.Wf) {order : List MempoolEntry}
    (horder : ∀ a ∈ order, a ∈ p.values) (hq : q.Wf) (hwithin : Within q p) :
    (order.foldl (fun q entry => if q.totalBytes ≤ q.maxBytes then q else (q.remove entry.txid).1)
      q).values = evict MempoolEntry.SpendsFrom MempoolEntry.size p.maxBytes order q.values := by
  induction order generalizing q with
  | nil => rfl
  | cons a order ih =>
    have hrest := fun b hb => horder b (List.mem_cons_of_mem a hb)
    have hlight : q.totalBytes ≤ q.maxBytes ↔
        (q.values.map MempoolEntry.size).sum ≤ p.maxBytes := by
      rw [hq.totalBytes_eq, hwithin.limit, Nat.cast_le]
    rw [List.foldl_cons, evict]
    by_cases hfits : (q.values.map MempoolEntry.size).sum ≤ p.maxBytes
    · rw [if_pos (hlight.mpr hfits), if_pos hfits, ih hrest hq hwithin]
      cases order with
      | nil => rfl
      | cons b order => rw [evict, if_pos hfits]
    · rw [if_neg (mt hlight.mp hfits), if_neg hfits]
      have hrem := remove_removal hq a.txid true
      rw [ih hrest hrem.wf (hrem.within.trans hwithin),
        remove_entry_values hp hq hwithin (horder a List.mem_cons_self)]

/-- What the eviction leaves. -/
theorem evictIfNeeded_values (hp : p.Wf) : p.evictIfNeeded.values =
    evict MempoolEntry.SpendsFrom MempoolEntry.size p.maxBytes
      (p.values.insertionSort cheaper) p.values := by
  have hlight : p.totalBytes ≤ p.maxBytes ↔
      (p.values.map MempoolEntry.size).sum ≤ p.maxBytes := by
    rw [hp.totalBytes_eq, Nat.cast_le]
  unfold evictIfNeeded
  by_cases hfits : (p.values.map MempoolEntry.size).sum ≤ p.maxBytes
  · rw [if_pos (hlight.mpr hfits)]
    cases p.values.insertionSort cheaper with
    | nil => rfl
    | cons a order => rw [evict, if_pos hfits]
  · rw [if_neg (mt hlight.mp hfits)]
    exact evictLoop_values hp (fun a ha => (List.mem_insertionSort cheaper).mp ha) hp (.refl p)

end Entries

/-! ## Admission -/

section Admission

variable [Crypto] [ScanOrder Hash] {params : ChainParams} {p : Mempool}

omit [ScanOrder Hash] in
/-- The entries that compete for room when a transaction has come: those that it does not replace,
and its own. -/
noncomputable def contenders (p : Mempool) (t : Transaction) (fee now : Nat) : List MempoolEntry :=
  clearOf MempoolEntry.SpendsFrom p.values
    (p.values.filter fun r => r.transaction.prevouts.any fun o => o ∈ t.prevouts) ++
  [newcomer t fee now]

/-- The newcomer outlasts the eviction: for every contender that it spends from, however indirectly,
and for itself, those that hang on nothing cheaper than that one fit into the pool. -/
def FindsRoom (p : Mempool) (t : Transaction) (fee now : Nat) : Prop :=
  Outlasts MempoolEntry.SpendsFrom MempoolEntry.size p.maxBytes
    ((p.contenders t fee now).insertionSort cheaper) (p.contenders t fee now) (newcomer t fee now)

/-- The entries when the newcomer is in and nothing has been evicted. -/
theorem Wf.enter_values (hp : p.Wf) {t : Transaction} (habsent : p.byTxid.lookup t.txid = none)
    (fee now : Nat) :
    (((p.removeAll (p.conflicts t)).rememberVerified t.txid).insertEntry
      (newcomer t fee now)).values = p.contenders t fee now := by
  have hprunes := p.removeAll_prunes (p.conflicts t)
  have hwf := hprunes.wf hp
  obtain ⟨hnew, -⟩ := hp.enter habsent fee now
  have hsame : p.values.filter (fun e => decide (e.txid ∈ p.conflicts t)) =
      p.values.filter fun r => r.transaction.prevouts.any fun o => o ∈ t.prevouts := by
    refine List.filter_congr fun e he => ?_
    rw [Bool.eq_iff_iff, decide_eq_true_iff, mem_conflicts, List.any_eq_true]
    have hlook := hp.mem_values.mp he
    constructor
    · rintro ⟨o, ho, hmark⟩
      obtain ⟨e', he', hoe⟩ := (hp.spent o _).mp hmark
      obtain rfl := Option.some.inj (hlook.symm.trans he')
      exact ⟨o, hoe, decide_eq_true ho⟩
    · rintro ⟨o, hoe, ho⟩
      exact ⟨o, of_decide_eq_true ho, (hp.spent o _).mpr ⟨e, hlook, hoe⟩⟩
  have hkept : (p.removeAll (p.conflicts t)).order.filterMap
      ((p.removeAll (p.conflicts t)).byTxid.insert t.txid (newcomer t fee now)).lookup =
      (p.removeAll (p.conflicts t)).values := by
    refine List.filterMap_congr fun k hk => ?_
    rw [Table.lookup_insert_if, if_neg]
    rintro rfl
    exact (hwf.listed _).mp hk hnew
  have hlist : (((p.removeAll (p.conflicts t)).rememberVerified t.txid).insertEntry
      (newcomer t fee now)).values = ((p.removeAll (p.conflicts t)).order ++ [t.txid]).filterMap
        ((p.removeAll (p.conflicts t)).byTxid.insert t.txid (newcomer t fee now)).lookup := rfl
  unfold contenders
  rw [hlist, List.filterMap_append, hkept, removeAll_values hp (p.conflicts t), hsame]
  congr 1
  simp [Table.lookup_insert_if]

/-- **An accepted transaction is in the pool exactly if it finds room**: whenever a transaction
passes the checks of `add` with the fee for its size, it has to outlast the eviction among the
entries that it does not replace. -/
theorem Reachable.add_pooled_iff (h : Reachable params p) (c : Blockchain) (now : Nat)
    (t : Transaction) (verify : Bool) :
    (∀ entry, (p.add params c now t verify).2 = .ok entry →
      (p.add params c now t verify).1.byTxid.lookup t.txid = some entry) ↔
    ∀ fee, p.judge params c t verify = .ok fee → minimumFee params t.size ≤ fee →
      p.FindsRoom t fee now := by
  have hp := h.wf
  rcases p.add_cases params c now t verify with ⟨-, e, hjudge, hanswer⟩ |
    ⟨fee, hjudge, ⟨hlow, -, m, hanswer⟩ | ⟨hpaid, hentered, hanswer⟩⟩
  · rw [hanswer, hjudge]
    exact ⟨fun _ fee hfee => (nomatch hfee), fun _ entry hentry => (nomatch hentry)⟩
  · rw [hanswer, hjudge]
    refine ⟨fun _ fee' hfee hpaid => ?_, fun _ entry hentry => (nomatch hentry)⟩
    obtain rfl := Except.ok.inj hfee
    omega
  · have habsent := (judge_eq_ok.mp hjudge).1.absent
    obtain ⟨-, hwf⟩ := hp.enter habsent fee now
    have hlimit : (((p.removeAll (p.conflicts t)).rememberVerified t.txid).insertEntry
        (newcomer t fee now)).maxBytes = p.maxBytes :=
      ((p.removeAll_prunes (p.conflicts t)).within hp).limit
    have hpooled : (p.add params c now t verify).1.byTxid.lookup t.txid =
        some (newcomer t fee now) ↔ p.FindsRoom t fee now := by
      have hmem := ((evictIfNeeded_prunes _).wf hwf).mem_values (e := newcomer t fee now)
      rw [evictIfNeeded_values hwf, hlimit, hp.enter_values habsent, mem_evict] at hmem
      rw [hentered]
      exact hmem.symm.trans
        (and_iff_right (List.mem_append_right _ (List.mem_singleton_self _)))
    rw [hanswer, hjudge]
    constructor
    · intro hheld fee' hfee _
      obtain rfl := Except.ok.inj hfee
      exact hpooled.mp (hheld _ rfl)
    · intro hroom entry hentry
      obtain rfl := Except.ok.inj hentry
      exact hpooled.mpr (hroom fee rfl hpaid)

end Admission

end Mempool

section Instances

attribute [local instance] Sample.crypto Sample.order

/-- A pool for a hundred bytes with one transaction of 83 bytes. -/
def Sample.crowded (c : Blockchain) : Mempool :=
  ((Mempool.create 100).add REGTEST c 0 Sample.dear true).1

theorem Sample.crowded_reachable (c : Blockchain) : (Sample.crowded c).Reachable REGTEST :=
  (Mempool.Reachable.create 100).add c 0 Sample.dear true

/-- A transaction of a lower fee rate comes to such a pool. -/
theorem Mempool.add_pooled_iff_crowded : ∃ c, Sample.chainAfter Sample.funded = some c ∧
    (Sample.crowded c).order = [Sample.dear.txid] ∧
    ((∀ entry, ((Sample.crowded c).add REGTEST c 1 Sample.child true).2 = .ok entry →
        ((Sample.crowded c).add REGTEST c 1 Sample.child true).1.byTxid.lookup Sample.child.txid =
          some entry) ↔
      ∀ fee, (Sample.crowded c).judge REGTEST c Sample.child true = .ok fee →
        Mempool.minimumFee REGTEST Sample.child.size ≤ fee →
        (Sample.crowded c).FindsRoom Sample.child fee 1) := by
  have hrun : ((Sample.chainAfter Sample.funded).any fun c =>
      decide ((Sample.crowded c).order = [Sample.dear.txid])) = true := by decide +kernel
  obtain ⟨c, hc, hcond⟩ := (Option.any_eq_true _ _).mp hrun
  exact ⟨c, hc, of_decide_eq_true hcond,
    (Sample.crowded_reachable c).add_pooled_iff c 1 Sample.child true⟩

/-- It is accepted and not in the pool. -/
theorem Mempool.add_unpooled : ∃ (c : Blockchain) (p : Mempool) (entry : MempoolEntry),
    Sample.chainAfter Sample.funded = some c ∧
    p.Reachable REGTEST ∧ (p.add REGTEST c 1 Sample.child true).2 = .ok entry ∧
    entry.transaction = Sample.child ∧
    (p.add REGTEST c 1 Sample.child true).1.byTxid.lookup Sample.child.txid = none := by
  have hrun : ((Sample.chainAfter Sample.funded).any fun c =>
      ((Sample.crowded c).add REGTEST c 1 Sample.child true).2.toOption.any fun entry =>
        decide (entry.transaction = Sample.child ∧
          ((Sample.crowded c).add REGTEST c 1 Sample.child true).1.byTxid.lookup
            Sample.child.txid = none)) = true := by decide +kernel
  obtain ⟨c, hc, hcond⟩ := (Option.any_eq_true _ _).mp hrun
  obtain ⟨entry, hentry, hfacts⟩ := (Option.any_eq_true _ _).mp hcond
  obtain ⟨htransaction, hgone⟩ := of_decide_eq_true hfacts
  exact ⟨c, Sample.crowded c, entry, hc, Sample.crowded_reachable c, toOption_eq_some.mp hentry,
    htransaction, hgone⟩

end Instances

end ScarletCoin
