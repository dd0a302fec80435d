import ScarletCoin.Core.Mempool
import ScarletCoin.Rules.Spending

/-!
# The books of the memory pool

`Mempool.Wf` says that the indexes of the pool agree with its entries: every entry stands under its
own id, the list of arrivals has every id once, an outpoint is marked as spent exactly if an entry
spends it, and the byte count is the sum of the sizes. Every operation keeps it.

`Mempool.Removal` describes a removal with descendants: what is removed descends from the
transaction that was to be removed, everything else stays, and nothing that stays spends an output
of what is gone (`Mempool.remove_removal`). `Mempool.add_cases` is the inversion of `add`.
-/

set_option autoImplicit false

namespace ScarletCoin

open Toolkit

/-- The outpoints that the inputs of a transaction name. -/
def Transaction.prevouts (t : Transaction) : List OutPoint := t.inputs.map TxInput.prevout

namespace Mempool

/-! ## Indexes -/

section Books

variable [Crypto]

/-- The indexes of the pool agree with its entries. -/
structure Wf (p : Mempool) : Prop where
  keyed : ∀ h e, p.byTxid.lookup h = some e →
    e.txid = h ∧ e.transaction.txid = h ∧ e.size = e.transaction.size
  listed : ∀ h, h ∈ p.order ↔ p.byTxid.lookup h ≠ none
  nodup : p.order.Nodup
  spent : ∀ o h, p.spentBy.lookup o = some h ↔
    ∃ e, p.byTxid.lookup h = some e ∧ o ∈ e.transaction.prevouts
  total : p.totalBytes = (Table.total MempoolEntry.size p.byTxid : Nat)

theorem create_wf (maxBytes : Nat) : (create maxBytes).Wf where
  keyed h e he := by simp [create] at he
  listed h := by simp [create]
  nodup := List.nodup_nil
  spent o h := by simp [create]
  total := rfl

theorem clear_wf (p : Mempool) : p.clear.Wf where
  keyed h e he := by simp [clear] at he
  listed h := by simp [clear]
  nodup := List.nodup_nil
  spent o h := by simp [clear]
  total := rfl

/-- No two entries spend one outpoint. -/
theorem Wf.spends_once {p : Mempool} (hp : p.Wf) {h h' : Hash} {e e' : MempoolEntry}
    (he : p.byTxid.lookup h = some e) (he' : p.byTxid.lookup h' = some e') {o : OutPoint}
    (ho : o ∈ e.transaction.prevouts) (ho' : o ∈ e'.transaction.prevouts) : h = h' :=
  Option.some.inj (((hp.spent o h).mpr ⟨e, he, ho⟩).symm.trans ((hp.spent o h').mpr ⟨e', he', ho'⟩))

/-! ## Taking one transaction out -/

omit [Crypto] in
theorem lookup_unspend (spentBy : Table OutPoint Hash) (txid : Hash) (inputs : List TxInput)
    (o : OutPoint) : (unspend spentBy txid inputs).lookup o =
      if o ∈ inputs.map TxInput.prevout ∧ spentBy.lookup o = some txid then none
      else spentBy.lookup o := by
  induction inputs generalizing spentBy with
  | nil => simp [unspend]
  | cons txin inputs ih =>
    have hstep : unspend spentBy txid (txin :: inputs) =
        unspend (if spentBy.lookup txin.prevout = some txid then spentBy.erase txin.prevout
          else spentBy) txid inputs := rfl
    rw [hstep, ih]
    by_cases hmark : spentBy.lookup txin.prevout = some txid
    · rw [if_pos hmark, Table.lookup_erase_if]
      by_cases ho : o = txin.prevout
      · rw [if_pos ho,
          if_pos (⟨by rw [List.map_cons, ho]; exact List.mem_cons_self, by rw [ho, hmark]⟩ :
          o ∈ (txin :: inputs).map TxInput.prevout ∧ spentBy.lookup o = some txid), ite_self]
      · rw [if_neg ho]
        refine if_congr ?_ rfl rfl
        rw [List.map_cons, List.mem_cons, or_iff_right ho]
    · rw [if_neg hmark]
      refine if_congr ?_ rfl rfl
      rw [List.map_cons, List.mem_cons]
      constructor
      · rintro ⟨hmem, hown⟩
        exact ⟨.inr hmem, hown⟩
      · rintro ⟨rfl | hmem, hown⟩
        · exact absurd hown hmark
        · exact ⟨hmem, hown⟩

/-- Taking a transaction out keeps the books. -/
theorem Wf.takeOut {p : Mempool} (hp : p.Wf) {h : Hash} {e : MempoolEntry}
    (he : p.byTxid.lookup h = some e) : (p.takeOut h e).Wf where
  keyed k e' hk := by
    rw [Mempool.takeOut, Table.lookup_erase_if] at hk
    split at hk
    · cases hk
    · exact hp.keyed k e' hk
  listed k := by
    rw [Mempool.takeOut, hp.nodup.mem_erase_iff, hp.listed, Table.lookup_erase_if]
    -- only the marks of the transaction that is taken out are erased
    by_cases hk : k = h
    · simp [hk]
    · simp [hk]
  nodup := hp.nodup.erase h
  spent o k := by
    rw [Mempool.takeOut, lookup_unspend, Table.lookup_erase_if]
    by_cases hk : k = h
    · subst hk
      rw [if_pos rfl]
      constructor
      · intro hmark
        split at hmark
        · cases hmark
        · rename_i hnot
          obtain ⟨e', he', ho⟩ := (hp.spent o k).mp hmark
          obtain rfl := Option.some.inj (he.symm.trans he')
          exact absurd ⟨ho, hmark⟩ hnot
      · rintro ⟨e', hnone, -⟩
        cases hnone
    · rw [if_neg hk, ← hp.spent o k]
      constructor
      · intro hmark
        split at hmark
        · cases hmark
        · exact hmark
      · intro hmark
        rw [if_neg, hmark]
        rintro ⟨-, hown⟩
        exact hk (Option.some.inj (hmark.symm.trans hown))
  total := by
    have hsum := Table.total_erase MempoolEntry.size he
    have htotal := hp.total
    simp only [Mempool.takeOut]
    omega

/-- A pool that has some of the entries of another one. -/
structure Within (q p : Mempool) : Prop where
  sub : ∀ h e, q.byTxid.lookup h = some e → p.byTxid.lookup h = some e
  order : q.order.Sublist p.order
  limit : q.maxBytes = p.maxBytes
  verified : q.verified = p.verified

omit [Crypto] in
theorem Within.refl (p : Mempool) : Within p p := ⟨fun _ _ h => h, List.Sublist.refl _, rfl, rfl⟩

omit [Crypto] in
theorem Within.trans {p q r : Mempool} (h : Within r q) (h' : Within q p) : Within r p :=
  ⟨fun k e he => h'.sub k e (h.sub k e he), h.order.trans h'.order, h.limit.trans h'.limit,
    h.verified.trans h'.verified⟩

omit [Crypto] in
theorem takeOut_within (p : Mempool) (h : Hash) (e : MempoolEntry) : Within (p.takeOut h e) p := by
  refine ⟨fun k e' hk => ?_, List.erase_sublist, rfl, rfl⟩
  rw [takeOut, Table.lookup_erase_if] at hk
  split at hk
  · cases hk
  · exact hk

/-! ## The list of entries -/

section Values

variable {p q : Mempool}

theorem Wf.mem_values (hp : p.Wf) {e : MempoolEntry} :
    e ∈ p.values ↔ p.byTxid.lookup e.txid = some e := by
  unfold values
  rw [List.mem_filterMap]
  constructor
  · rintro ⟨k, -, hk⟩
    rwa [(hp.keyed k e hk).1]
  · intro he
    exact ⟨e.txid, (hp.listed _).mpr (by rw [he]; exact Option.some_ne_none e), he⟩

theorem Wf.values_txid (hp : p.Wf) : p.values.map MempoolEntry.txid = p.order := by
  have hlisted : ∀ k ∈ p.order, (p.byTxid.lookup k).map MempoolEntry.txid = some k := by
    intro k hk
    obtain ⟨e, he⟩ := Option.ne_none_iff_exists'.mp ((hp.listed k).mp hk)
    rw [he, Option.map_some, (hp.keyed k e he).1]
  unfold values
  rw [List.map_filterMap, List.filterMap_congr hlisted]
  exact List.filterMap_some

theorem Wf.values_nodup (hp : p.Wf) : p.values.Nodup :=
  List.Nodup.of_map MempoolEntry.txid (hp.values_txid ▸ hp.nodup)

theorem Wf.txid_injective (hp : p.Wf) {a b : MempoolEntry} (ha : a ∈ p.values) (hb : b ∈ p.values)
    (h : a.txid = b.txid) : a = b := by
  have ha' := hp.mem_values.mp ha
  rw [h, hp.mem_values.mp hb] at ha'
  exact (Option.some.inj ha').symm

/-- A pool with some of the entries lists them in the same order. -/
theorem Within.values_sublist (h : Within q p) (hq : q.Wf) : q.values.Sublist p.values := by
  have hsame : q.values = q.order.filterMap p.byTxid.lookup := by
    refine List.filterMap_congr fun k hk => ?_
    obtain ⟨e, he⟩ := Option.ne_none_iff_exists'.mp ((hq.listed k).mp hk)
    rw [he, h.sub k e he]
  rw [hsame]
  exact h.order.filterMap _

theorem Wf.totalBytes_eq (hp : p.Wf) :
    p.totalBytes = ((p.values.map MempoolEntry.size).sum : Nat) := by
  rw [hp.total, Table.total_eq_sum MempoolEntry.size hp.nodup hp.listed]
  rfl

end Values

/-! ## Removal -/

/-- The first of two pooled transactions has an input from the second. -/
def DependsOn (p : Mempool) (h k : Hash) : Prop :=
  ∃ e, p.byTxid.lookup h = some e ∧ p.byTxid.lookup k ≠ none ∧
    ∃ o ∈ e.transaction.prevouts, o.txid = k

/-- The first transaction is the second, or depends on it through pooled transactions. -/
def Descends (p : Mempool) : Hash → Hash → Prop := Relation.ReflTransGen p.DependsOn

omit [Crypto] in
theorem Within.dependsOn {p q : Mempool} (h : Within q p) {a b : Hash} (hab : q.DependsOn a b) :
    p.DependsOn a b := by
  obtain ⟨e, he, hb, o, ho, rfl⟩ := hab
  obtain ⟨e', he'⟩ := Option.ne_none_iff_exists'.mp hb
  exact ⟨e, h.sub a e he, by rw [h.sub _ e' he']; exact Option.some_ne_none _, o, ho, rfl⟩

omit [Crypto] in
theorem Within.descends {p q : Mempool} (h : Within q p) {a b : Hash} (hab : q.Descends a b) :
    p.Descends a b := Relation.ReflTransGen.mono (fun _ _ => h.dependsOn) _ _ hab

/-- A removal of the transactions `gone` from `p`, with all that spends them if
`withDescendants`. -/
structure Removal (withDescendants : Bool) (p : Mempool) (txid : Hash) (q : Mempool)
    (gone : List Hash) : Prop where
  wf : q.Wf
  within : Within q p
  descends : ∀ k ∈ gone, p.Descends k txid
  kept : ∀ k e, p.byTxid.lookup k = some e → k ∉ gone → q.byTxid.lookup k = some e
  absent : ∀ k ∈ gone, q.byTxid.lookup k = none
  root : q.byTxid.lookup txid = none
  alone : withDescendants = false → ∀ k ∈ gone, k = txid
  closed : withDescendants = true → ∀ u e', q.byTxid.lookup u = some e' →
    ∀ o ∈ e'.transaction.prevouts, o.txid ∈ gone → ∀ e, p.byTxid.lookup o.txid = some e →
      e.transaction.outputs.length ≤ o.index.toNat

omit [Crypto] in
theorem mem_spenders {p : Mempool} {k u : Hash} {t : Transaction} :
    u ∈ p.spenders k t ↔ ∃ o : OutPoint, o.txid = k ∧ o.index.toNat < t.outputs.length ∧
      p.spentBy.lookup o = some u := by
  unfold spenders
  rw [List.mem_filterMap]
  constructor
  · rintro ⟨i, hi, hu⟩
    have hlt := List.mem_range.mp hi
    refine ⟨⟨k, UInt32.ofNat i⟩, rfl, ?_, hu⟩
    show (UInt32.ofNat i).toNat < _
    rwa [UInt32.toNat_ofNat', Nat.mod_eq_of_lt (Nat.lt_trans hlt t.outputs_fit)]
  · rintro ⟨⟨txid, index⟩, rfl, hlt, hu⟩
    refine ⟨index.toNat, List.mem_range.mpr hlt, ?_⟩
    rwa [UInt32.ofNat_toNat]

/-- What holds while the loop of `remove` runs. -/
structure Removing (withDescendants : Bool) (p : Mempool) (txid : Hash) (pending : List Hash)
    (q : Mempool) (gone : List Hash) : Prop where
  wf : q.Wf
  within : Within q p
  descends : ∀ k ∈ pending ++ gone, p.Descends k txid
  kept : ∀ k e, p.byTxid.lookup k = some e → k ∉ gone → q.byTxid.lookup k = some e
  absent : ∀ k ∈ gone, q.byTxid.lookup k = none
  root : txid ∈ pending ∨ q.byTxid.lookup txid = none
  alone : withDescendants = false → ∀ k ∈ pending ++ gone, k = txid
  closed : withDescendants = true → ∀ u e', q.byTxid.lookup u = some e' → u ∉ pending →
    ∀ o ∈ e'.transaction.prevouts, o.txid ∈ gone → ∀ e, p.byTxid.lookup o.txid = some e →
      e.transaction.outputs.length ≤ o.index.toNat

variable {d : Bool} {p q : Mempool} {txid k : Hash} {pending gone : List Hash}

/-- A round that finds nothing takes its id off the stack. -/
theorem Removing.skip (h : Removing d p txid (k :: pending) q gone)
    (hk : removeOne d q k = none) : Removing d p txid pending q gone := by
  have hnone : q.byTxid.lookup k = none := Option.map_eq_none_iff.mp hk
  refine ⟨h.wf, h.within, fun k' hk' => h.descends k' (List.mem_cons_of_mem k hk'), h.kept,
    h.absent, ?_, fun hd k' hk' => h.alone hd k' (List.mem_cons_of_mem k hk'),
    fun hd u e' hu hpend => ?_⟩
  · rcases h.root with hroot | hroot
    · rcases List.mem_cons.mp hroot with rfl | hroot
      · exact .inr hnone
      · exact .inl hroot
    · exact .inr hroot
  · refine h.closed hd u e' hu fun hmem => ?_
    rcases List.mem_cons.mp hmem with rfl | hmem
    · rw [hnone] at hu
      cases hu
    · exact hpend hmem

/-- A round that takes a transaction out makes the pool smaller by the outputs it follows. -/
theorem Removing.take (h : Removing d p txid (k :: pending) q gone) {q' : Mempool}
    {uncovered : List Hash} (hk : removeOne d q k = some (q', uncovered)) :
    q'.outputCount + uncovered.length ≤ q.outputCount ∧
      Removing d p txid (uncovered ++ pending) q' (gone ++ [k]) := by
  obtain ⟨e, he, hout⟩ := Option.map_eq_some_iff.mp hk
  obtain ⟨rfl, huncovered⟩ := Prod.mk.inj hout
  have hwf := h.wf.takeOut he
  have hwithin := q.takeOut_within k e
  have hpk := h.within.sub k e he
  have hdesc := h.descends k List.mem_cons_self
  have hgone : (q.takeOut k e).byTxid.lookup k = none := by
    rw [Mempool.takeOut, Table.lookup_erase_if, if_pos rfl]
  -- what is uncovered spends an output of what is taken out, and only where descendants go
  have hchild : ∀ u ∈ uncovered, d = true ∧ ∃ o : OutPoint, o.txid = k ∧
      o.index.toNat < e.transaction.outputs.length ∧
        (q.takeOut k e).spentBy.lookup o = some u := by
    intro u hu
    rw [← huncovered] at hu
    cases d with
    | false => cases hu
    | true => exact ⟨rfl, mem_spenders.mp (List.mem_reverse.mp hu)⟩
  constructor
  · -- each output is spent by one transaction, so no more is uncovered than outputs are lost
    have hsum := Table.total_erase (fun e : MempoolEntry => e.transaction.outputs.length) he
    have hlen : uncovered.length ≤ e.transaction.outputs.length := by
      rw [← huncovered]
      cases d with
      | false => exact Nat.zero_le _
      | true =>
        rw [if_pos rfl, List.length_reverse]
        exact (List.length_filterMap_le _ _).trans (Nat.le_of_eq List.length_range)
    unfold outputCount
    simp only [Mempool.takeOut]
    omega
  · refine ⟨hwf, hwithin.trans h.within, fun k' hk' => ?_, fun k' e' hk' hnot => ?_,
      fun k' hk' => ?_, ?_, fun hd k' hk' => ?_, fun hd u e' hu hpend o ho hgo e₀ he₀ => ?_⟩
    · rw [List.append_assoc, List.mem_append] at hk'
      rcases hk' with hk' | hk'
      · -- what goes on the stack spends an output of what was taken out
        obtain ⟨-, o, rfl, -, hmark⟩ := hchild k' hk'
        obtain ⟨e', he', ho⟩ := (hwf.spent o k').mp hmark
        refine .head ⟨e', (hwithin.trans h.within).sub k' e' he', ?_, o, ho, rfl⟩ hdesc
        rw [hpk]
        exact Option.some_ne_none e
      · refine h.descends k' ?_
        rw [List.mem_append, List.mem_append, List.mem_singleton] at hk'
        rw [List.cons_append, List.mem_cons, List.mem_append]
        tauto
    · rw [List.mem_append, List.mem_singleton, not_or] at hnot
      rw [Mempool.takeOut, Table.lookup_erase_if, if_neg hnot.2]
      exact h.kept k' e' hk' hnot.1
    · rw [List.mem_append, List.mem_singleton] at hk'
      rcases hk' with hk' | rfl
      · rw [Mempool.takeOut, Table.lookup_erase_if, h.absent k' hk', ite_self]
      · exact hgone
    · -- the root is taken out now, or it still waits, or it is gone already
      by_cases hroot : txid = k
      · exact .inr (hroot ▸ hgone)
      · rcases h.root with hmem | hnone
        · exact .inl (List.mem_append_right _ ((List.mem_cons.mp hmem).resolve_left hroot))
        · refine .inr ?_
          rw [Mempool.takeOut, Table.lookup_erase_if, hnone, ite_self]
    · rw [List.append_assoc, List.mem_append] at hk'
      rcases hk' with hk' | hk'
      · exact absurd (hchild k' hk').1 (by rw [hd]; exact Bool.false_ne_true)
      · refine h.alone hd k' ?_
        rw [List.mem_append, List.mem_append, List.mem_singleton] at hk'
        rw [List.cons_append, List.mem_cons, List.mem_append]
        tauto
    · rw [List.mem_append, List.mem_singleton] at hgo
      rcases hgo with hgo | hgo
      · refine h.closed hd u e' (hwithin.sub u e' hu) (fun hmem => ?_) o ho hgo e₀ he₀
        rcases List.mem_cons.mp hmem with rfl | hmem
        · rw [hgone] at hu
          cases hu
        · exact hpend (List.mem_append_right _ hmem)
      · obtain rfl : e = e₀ := Option.some.inj (hpk.symm.trans (hgo ▸ he₀))
        -- a spender of an output that exists would have been put on the stack
        by_contra hlt
        refine hpend (List.mem_append_left _ ?_)
        rw [← huncovered, if_pos hd, List.mem_reverse]
        exact mem_spenders.mpr ⟨o, hgo, Nat.not_le.mp hlt, (hwf.spent o u).mpr ⟨e', hu, ho⟩⟩

/-- What `remove` does. -/
theorem remove_removal (hp : p.Wf) (txid : Hash) (d : Bool) :
    Removal d p txid (p.remove txid d).1 (p.remove txid d).2 := by
  have hstart : Removing d p txid [txid] p [] :=
    ⟨hp, .refl p, fun k hk => List.mem_singleton.mp hk ▸ .refl,
      fun _ _ he _ => he, fun _ hk => absurd hk List.not_mem_nil, .inl List.mem_cons_self,
      fun _ k hk => List.mem_singleton.mp hk,
      fun _ _ _ _ _ _ _ hgo => absurd hgo List.not_mem_nil⟩
  have hend : Removing d p txid [] (p.remove txid d).1 (p.remove txid d).2 :=
    cascade_rule (Removing d p txid) outputCount (fun _ _ _ _ h hk => h.skip hk)
      (fun _ _ _ _ _ _ h hk => h.take hk) (by rw [List.length_singleton]; omega) hstart
  exact ⟨hend.wf, hend.within, hend.descends, hend.kept, hend.absent,
    hend.root.resolve_left List.not_mem_nil, hend.alone,
    fun hd u e' hu => hend.closed hd u e' hu List.not_mem_nil⟩

/-! ## Removals one after the other -/

/-- The pool after removals with descendants. -/
inductive Prunes (p : Mempool) : Mempool → Prop where
  | refl : Prunes p p
  | remove {q : Mempool} (h : Hash) : Prunes p q → Prunes p (q.remove h).1

omit [Crypto] in
/-- What a removal with descendants keeps, removals keep. -/
theorem Prunes.keeps (h : Prunes p q) (P : Mempool → Prop)
    (hstep : ∀ q txid, P q → P (q.remove txid).1) (hp : P p) : P q := by
  induction h with
  | refl => exact hp
  | remove txid _ ih => exact hstep _ txid ih

theorem Prunes.wf (h : Prunes p q) (hp : p.Wf) : q.Wf :=
  h.keeps Wf (fun _ txid hq => (remove_removal hq txid true).wf) hp

theorem Prunes.within (h : Prunes p q) (hp : p.Wf) : Within q p :=
  (h.keeps (fun q => q.Wf ∧ Within q p) (fun _ txid hq =>
    ⟨(remove_removal hq.1 txid true).wf, (remove_removal hq.1 txid true).within.trans hq.2⟩)
    ⟨hp, .refl p⟩).2

omit [Crypto] in
theorem removeAll_prunes (p : Mempool) (hs : List Hash) : Prunes p (p.removeAll hs) := by
  have hfold : ∀ (hs : List Hash) (q : Mempool), Prunes p q → Prunes p (q.removeAll hs) := by
    intro hs
    induction hs with
    | nil => exact fun _ h => h
    | cons h hs ih => exact fun q hq => ih _ (hq.remove h)
  exact hfold hs p .refl

/-- None of the transactions that were to be removed is left. -/
theorem removeAll_absent (hp : p.Wf) {hs : List Hash} {h : Hash} (hh : h ∈ hs) :
    (p.removeAll hs).byTxid.lookup h = none := by
  induction hs generalizing p with
  | nil => cases hh
  | cons k hs ih =>
    have hrem := remove_removal hp k true
    rcases List.mem_cons.mp hh with rfl | hh
    · -- it is gone after the first removal and does not come back
      cases hlook : ((p.remove h).1.removeAll hs).byTxid.lookup h with
      | none => exact hlook
      | some e =>
        have hback := (((p.remove h).1.removeAll_prunes hs).within hrem.wf).sub h e hlook
        rw [hrem.root] at hback
        cases hback
    · exact ih hrem.wf hh

/-- What descends from none of the transactions that were to be removed is left. -/
theorem removeAll_kept (hp : p.Wf) {hs : List Hash} {k : Hash} {e : MempoolEntry}
    (he : p.byTxid.lookup k = some e) (hk : ∀ h ∈ hs, ¬ p.Descends k h) :
    (p.removeAll hs).byTxid.lookup k = some e := by
  induction hs generalizing p with
  | nil => exact he
  | cons h hs ih =>
    have hrem := remove_removal hp h true
    refine ih hrem.wf (hrem.kept k e he fun hgone => ?_) fun h' hh' hdesc => ?_
    · exact hk h List.mem_cons_self (hrem.descends k hgone)
    · exact hk h' (List.mem_cons_of_mem h hh') (hrem.within.descends hdesc)

omit [Crypto] in
theorem evictIfNeeded_prunes (p : Mempool) : Prunes p p.evictIfNeeded := by
  have hfold : ∀ (es : List MempoolEntry) (q : Mempool), Prunes p q →
      Prunes p (es.foldl (fun p entry =>
        if p.totalBytes ≤ p.maxBytes then p else (p.remove entry.txid).1) q) := by
    intro es
    induction es with
    | nil => exact fun _ h => h
    | cons e es ih =>
      intro q hq
      refine ih _ ?_
      dsimp only
      split
      · exact hq
      · exact hq.remove e.txid
  unfold evictIfNeeded
  split
  · exact .refl
  · exact hfold _ p .refl

theorem dropSpender_wf (hp : p.Wf) (o : OutPoint) :
    (p.dropSpender o).Wf ∧ Within (p.dropSpender o) p := by
  unfold dropSpender
  cases p.spentBy.lookup o with
  | none => exact ⟨hp, .refl p⟩
  | some conflict =>
    have hrem := remove_removal hp conflict true
    exact ⟨hrem.wf, hrem.within⟩

/-- Dropping what a transaction of a block confirms or invalidates keeps the books. -/
theorem dropConfirmed_wf (hp : p.Wf) (t : Transaction) :
    (p.dropConfirmed t).Wf ∧ Within (p.dropConfirmed t) p := by
  have hfold : ∀ (inputs : List TxInput) (q : Mempool), q.Wf ∧ Within q p →
      (inputs.foldl (fun p txin => p.dropSpender txin.prevout) q).Wf ∧
      Within (inputs.foldl (fun p txin => p.dropSpender txin.prevout) q) p := by
    intro inputs
    induction inputs with
    | nil => exact fun _ h => h
    | cons txin inputs ih =>
      intro q hq
      have hone := dropSpender_wf hq.1 txin.prevout
      exact ih _ ⟨hone.1, hone.2.trans hq.2⟩
  have hfirst := remove_removal hp t.txid false
  exact hfold t.inputs _ ⟨hfirst.wf, hfirst.within⟩

/-! ## Admission -/

/-- The entry of a newcomer. -/
def newcomer (t : Transaction) (fee now : Nat) : MempoolEntry := ⟨t, t.txid, fee, t.size, now⟩

/-- A newcomer that spends what no entry spends keeps the books. -/
theorem Wf.insertEntry (hp : p.Wf) {t : Transaction} (fee now : Nat)
    (hnew : p.byTxid.lookup t.txid = none)
    (hfree : ∀ o ∈ t.prevouts, p.spentBy.lookup o = none) :
    (p.insertEntry (newcomer t fee now)).Wf where
  keyed h e he := by
    rw [Mempool.insertEntry, Table.lookup_insert_if] at he
    split at he
    · rename_i heq
      obtain rfl := Option.some.inj he
      exact ⟨heq.symm, heq.symm, rfl⟩
    · exact hp.keyed h e he
  listed h := by
    rw [Mempool.insertEntry, List.mem_append, List.mem_singleton, hp.listed, Table.lookup_insert_if]
    by_cases hh : h = (newcomer t fee now).txid
    · simp [hh]
    · simp [hh]
  nodup := by
    refine List.nodup_append.mpr ⟨hp.nodup, List.nodup_singleton _, fun a ha b hb hab => ?_⟩
    rw [List.mem_singleton.mp hb] at hab
    rw [hab] at ha
    exact (hp.listed _).mp ha hnew
  spent o h := by
    have hmap : (newcomer t fee now).transaction.inputs.map (fun txin =>
        (txin.prevout, (newcomer t fee now).txid)) = t.prevouts.map fun o => (o, t.txid) := by
      rw [Transaction.prevouts, List.map_map]
      rfl
    rw [Mempool.insertEntry, hmap, Table.lookup_insertAll_const, Table.lookup_insert_if]
    -- an output of the newcomer was free; the spenders of the others stay
    by_cases ho : o ∈ t.prevouts
    · rw [if_pos ho]
      constructor
      · intro h'
        obtain rfl := Option.some.inj h'
        exact ⟨newcomer t fee now, if_pos rfl, ho⟩
      · rintro ⟨e, he, hoe⟩
        split at he
        · rename_i heq
          exact congrArg some heq.symm
        · have hmark := (hp.spent o h).mpr ⟨e, he, hoe⟩
          rw [hfree o ho] at hmark
          cases hmark
    · rw [if_neg ho, hp.spent o h]
      constructor
      · rintro ⟨e, he, hoe⟩
        refine ⟨e, ?_, hoe⟩
        rw [if_neg, he]
        rintro rfl
        exact absurd (he.symm.trans hnew) (Option.some_ne_none e)
      · rintro ⟨e, he, hoe⟩
        split at he
        · obtain rfl := Option.some.inj he
          exact absurd hoe ho
        · exact ⟨e, he, hoe⟩
  total := by
    have hnot : (newcomer t fee now).txid ∉ p.byTxid := Finmap.lookup_eq_none.mp hnew
    have hsum := Table.total_insert_of_notMem MempoolEntry.size hnot
      (v := newcomer t fee now)
    have htotal := hp.total
    simp only [Mempool.insertEntry]
    omega

omit [Crypto] in
theorem Wf.rememberVerified [Crypto] (hp : p.Wf) (h : Hash) : (p.rememberVerified h).Wf :=
  ⟨hp.keyed, hp.listed, hp.nodup, hp.spent, hp.total⟩

variable [ScanOrder Hash]

omit [Crypto] in
/-- The conflicting transactions are those marked at the outpoints spent. -/
theorem mem_conflicts {t : Transaction} {h : Hash} :
    h ∈ p.conflicts t ↔ ∃ o ∈ t.prevouts, p.spentBy.lookup o = some h := by
  unfold conflicts
  have hscan : ∀ t' : Table Hash Unit, h ∈ (scan t').map Prod.fst ↔ t'.lookup h = some () := by
    intro t'
    rw [List.mem_map]
    constructor
    · rintro ⟨⟨k, u⟩, hmem, rfl⟩
      exact (mem_scan t' k u).mp hmem
    · exact fun hlook => ⟨(h, ()), (mem_scan t' h ()).mpr hlook, rfl⟩
  rw [hscan, Table.lookup_insertAll_const]
  simp only [Finmap.lookup_empty, ite_eq_left_iff, reduceCtorEq, imp_false, not_not,
    List.mem_filterMap, Transaction.prevouts, List.mem_map]
  constructor
  · rintro ⟨txin, hmem, hmark⟩
    exact ⟨txin.prevout, ⟨txin, hmem, rfl⟩, hmark⟩
  · rintro ⟨o, ⟨txin, hmem, rfl⟩, hmark⟩
    exact ⟨txin, hmem, hmark⟩

/-- The checks that come first: the transaction is new, well formed, no coinbase, not known to be
confirmed, final in the next block, and not too large. -/
structure Screened (p : Mempool) (params : ChainParams) (c : Blockchain) (t : Transaction) :
    Prop where
  absent : p.byTxid.lookup t.txid = none
  sane : t.checkSanity params.minOutputValue = .ok ()
  notCoinbase : t.isCoinbase = false
  unconfirmed : c.getTransaction t.txid = .ok none
  final : checkTransactionFinal t (c.height + 1) = true
  small : t.size ≤ params.maxBlockSize / 2

variable {params : ChainParams} {c : Blockchain} {t : Transaction}

omit [ScanOrder Hash] in
theorem screen_eq_ok : p.screen params c t = .ok () ↔ Screened p params c t := by
  unfold screen
  rw [raiseIf_bind_eq_ok, bind_eq_ok]
  constructor
  · rintro ⟨habsent, ⟨⟩, hsane, h₁⟩
    obtain ⟨hcb, h₂⟩ := raiseIf_bind_eq_ok.mp h₁
    obtain ⟨found, hfound, h₃⟩ := bind_eq_ok.mp h₂
    obtain ⟨hnone, h₄⟩ := raiseIf_bind_eq_ok.mp h₃
    obtain ⟨hfinal, h₅⟩ := raiseIf_bind_eq_ok.mp h₄
    have hsmall := raiseIf_eq_ok.mp h₅
    refine ⟨by simpa using habsent, ?_, by simpa using hcb, ?_, by simpa using hfinal,
      Nat.not_lt.mp hsmall⟩
    · rcases rescue_eq_ok.mp hsane with hok | ⟨e, -, hcaught⟩
      · exact hok
      · cases e <;> cases hcaught
    · rw [hfound]
      cases found with
      | none => rfl
      | some _ => exact absurd rfl hnone
  · rintro ⟨habsent, hsane, hcb, hnone, hfinal, hsmall⟩
    refine ⟨by simp [habsent], ⟨⟩, rescue_eq_ok.mpr (.inl hsane), ?_⟩
    refine raiseIf_bind_eq_ok.mpr ⟨by simp [hcb], bind_eq_ok.mpr ⟨none, hnone, ?_⟩⟩
    refine raiseIf_bind_eq_ok.mpr ⟨by simp, raiseIf_bind_eq_ok.mpr ⟨by simp [hfinal], ?_⟩⟩
    exact raiseIf_eq_ok.mpr (Nat.not_lt.mpr hsmall)

/-- A transaction is judged fit iff it passes every check. -/
theorem judge_eq_ok {verify : Bool} {fee : Nat} :
    p.judge params c t verify = .ok fee ↔ Screened p params c t ∧
      p.price params c t (verify && decide (t.txid ∉ p.verified)) = .ok fee ∧
      (p.conflicts t ≠ [] → p.checkReplacement t fee t.size (p.conflicts t) = .ok ()) := by
  unfold judge
  rw [bind_eq_ok]
  constructor
  · rintro ⟨⟨⟩, hscreen, h₁⟩
    obtain ⟨fee', hprice, h₂⟩ := bind_eq_ok.mp h₁
    split at h₂
    · rename_i hnone
      obtain rfl := pure_eq_ok.mp h₂
      exact ⟨screen_eq_ok.mp hscreen, hprice, fun hne => absurd hnone hne⟩
    · obtain ⟨⟨⟩, hreplace, h₃⟩ := bind_eq_ok.mp h₂
      obtain rfl := pure_eq_ok.mp h₃
      exact ⟨screen_eq_ok.mp hscreen, hprice, fun _ => hreplace⟩
  · rintro ⟨hscreen, hprice, hreplace⟩
    refine ⟨⟨⟩, screen_eq_ok.mpr hscreen, bind_eq_ok.mpr ⟨fee, hprice, ?_⟩⟩
    by_cases hnone : p.conflicts t = []
    · rw [if_pos hnone]
      rfl
    · rw [if_neg hnone]
      exact bind_eq_ok.mpr ⟨⟨⟩, hreplace hnone, rfl⟩

/-- What `add` can do: refuse and change nothing, drop the conflicting transactions and refuse, or
drop them and take the newcomer in. -/
theorem add_cases (p : Mempool) (params : ChainParams) (c : Blockchain) (now : Nat)
    (t : Transaction) (verify : Bool) :
    ((p.add params c now t verify).1 = p ∧ ∃ e, p.judge params c t verify = .error e ∧
      (p.add params c now t verify).2 = .error e) ∨
    ∃ fee, p.judge params c t verify = .ok fee ∧
      ((fee < minimumFee params t.size ∧
          (p.add params c now t verify).1 = p.removeAll (p.conflicts t) ∧
          ∃ m, (p.add params c now t verify).2 = .error (.mempool m)) ∨
        (minimumFee params t.size ≤ fee ∧
          (p.add params c now t verify).1 = (((p.removeAll (p.conflicts t)).rememberVerified
            t.txid).insertEntry (newcomer t fee now)).evictIfNeeded ∧
          (p.add params c now t verify).2 = .ok (newcomer t fee now))) := by
  unfold add
  cases hjudge : p.judge params c t verify with
  | error e => exact .inl ⟨rfl, e, rfl, rfl⟩
  | ok fee =>
    refine .inr ⟨fee, rfl, ?_⟩
    dsimp only
    by_cases hlow : fee < minimumFee params t.size
    · rw [if_pos hlow]
      exact .inl ⟨hlow, rfl, _, rfl⟩
    · rw [if_neg hlow]
      exact .inr ⟨Nat.not_lt.mp hlow, rfl, rfl⟩

/-- Once the conflicting transactions are gone, nothing pooled spends what the newcomer spends. -/
theorem conflicts_cleared (hp : p.Wf) :
    ∀ o ∈ t.prevouts, (p.removeAll (p.conflicts t)).spentBy.lookup o = none := by
  intro o ho
  have hprunes := p.removeAll_prunes (p.conflicts t)
  cases hmark : (p.removeAll (p.conflicts t)).spentBy.lookup o with
  | none => rfl
  | some h =>
    obtain ⟨e, he, hoe⟩ := ((hprunes.wf hp).spent o h).mp hmark
    have hold := (hp.spent o h).mpr ⟨e, (hprunes.within hp).sub h e he, hoe⟩
    rw [removeAll_absent hp (mem_conflicts.mpr ⟨o, ho, hold⟩)] at he
    cases he

/-- The books when the conflicting transactions are gone and the newcomer is about to enter. -/
theorem Wf.enter (hp : p.Wf) (habsent : p.byTxid.lookup t.txid = none) (fee now : Nat) :
    (p.removeAll (p.conflicts t)).byTxid.lookup t.txid = none ∧
      (((p.removeAll (p.conflicts t)).rememberVerified t.txid).insertEntry
        (newcomer t fee now)).Wf := by
  have hprunes := p.removeAll_prunes (p.conflicts t)
  have hnew : (p.removeAll (p.conflicts t)).byTxid.lookup t.txid = none := by
    cases hlook : (p.removeAll (p.conflicts t)).byTxid.lookup t.txid with
    | none => rfl
    | some e =>
      have hold := (hprunes.within hp).sub _ e hlook
      rw [habsent] at hold
      cases hold
  exact ⟨hnew, ((hprunes.wf hp).rememberVerified t.txid).insertEntry fee now hnew
    (conflicts_cleared hp)⟩

/-- `add` keeps the books, and what is pooled then was pooled before or is the newcomer. -/
theorem Wf.add (hp : p.Wf) (now : Nat) (verify : Bool) :
    (p.add params c now t verify).1.Wf ∧
      ∀ h e, (p.add params c now t verify).1.byTxid.lookup h = some e →
        p.byTxid.lookup h = some e ∨
          ∃ fee, p.judge params c t verify = .ok fee ∧ e = newcomer t fee now := by
  rcases p.add_cases params c now t verify with ⟨hsame, -⟩ |
    ⟨fee, hjudge, ⟨-, hdropped, -⟩ | ⟨-, hentered, -⟩⟩
  · rw [hsame]
    exact ⟨hp, fun _ _ he => .inl he⟩
  · rw [hdropped]
    have hprunes := p.removeAll_prunes (p.conflicts t)
    exact ⟨hprunes.wf hp, fun h e he => .inl ((hprunes.within hp).sub h e he)⟩
  · rw [hentered]
    obtain ⟨-, hwf⟩ := hp.enter (judge_eq_ok.mp hjudge).1.absent fee now
    have hevict := evictIfNeeded_prunes
      (((p.removeAll (p.conflicts t)).rememberVerified t.txid).insertEntry (newcomer t fee now))
    refine ⟨hevict.wf hwf, fun h e he => ?_⟩
    have hin := (hevict.within hwf).sub h e he
    rw [Mempool.insertEntry, Table.lookup_insert_if] at hin
    split at hin
    · exact .inr ⟨fee, hjudge, (Option.some.inj hin).symm⟩
    · exact .inl (((p.removeAll_prunes _).within hp).sub h e hin)

/-! ## Adding one after the other -/

/-- What every addition keeps, adding transactions one after the other keeps. -/
theorem addAll_rule (P : Mempool → Prop) {ts : List Transaction}
    (hstep : ∀ q t now verify, t ∈ ts → P q → P (q.add params c now t verify).1)
    {now : Nat → Nat} (hp : P p) : P (p.addAll params c now ts).1 := by
  induction ts generalizing p now with
  | nil => exact hp
  | cons t ts ih =>
    have hone := hstep p t (now 0) (decide (t.txid ∉ p.verified)) List.mem_cons_self hp
    have hrest := fun q t now verify ht =>
      hstep q t now verify (List.mem_cons_of_mem _ ht)
    unfold addAll
    cases hadd : p.add params c (now 0) t (decide (t.txid ∉ p.verified)) with
    | mk q answer =>
      rw [hadd] at hone
      cases answer with
      | ok e => exact ih hrest hone
      | error e =>
        dsimp only
        split
        · exact ih hrest hone
        · exact hone

omit [Crypto] [ScanOrder Hash] in
theorem mem_values {e : MempoolEntry} (h : e ∈ p.values) : ∃ k, p.byTxid.lookup k = some e := by
  obtain ⟨k, -, hk⟩ := List.mem_filterMap.mp h
  exact ⟨k, hk⟩

omit [ScanOrder Hash] in
theorem dropConfirmed_rule (P : Mempool → Prop)
    (hremove : ∀ q txid d, P q → P (q.remove txid d).1) (hp : P p) (t : Transaction) :
    P (p.dropConfirmed t) := by
  have hspender : ∀ q o, P q → P (q.dropSpender o) := by
    intro q o hq
    unfold dropSpender
    cases q.spentBy.lookup o with
    | none => exact hq
    | some conflict => exact hremove q conflict true hq
  exact List.foldlRecOn t.inputs _ (hremove p t.txid false hp) fun q hq txin _ => hspender q _ hq

/-- What additions, removals and clearing keep, the notifications of the chain keep. -/
theorem onEvent_rule (P : Mempool → Prop)
    (hadd : ∀ q t now verify, P q → P (q.add params c now t verify).1)
    (hremove : ∀ q txid d, P q → P (q.remove txid d).1) (hclear : ∀ q : Mempool, P q → P q.clear)
    (hp : P p) (now : Nat → Nat) (event : Event) : P (p.onEvent params c now event).1 := by
  have hall : ∀ (ts : List Transaction) (q : Mempool) (now : Nat → Nat), P q →
      P (q.addAll params c now ts).1 := fun ts q now hq =>
    addAll_rule P (fun q t now verify _ => hadd q t now verify) hq
  have hagain : ∀ (q : Mempool) (now : Nat → Nat), P q → P (q.revalidate params c now).1 := by
    intro q now hq
    unfold revalidate
    split
    · exact hq
    · exact hall _ _ now (hclear q hq)
  unfold onEvent
  cases event.kind with
  | connect =>
    exact hagain _ now (List.foldlRecOn event.block.transactions dropConfirmed hp
      fun q hq t _ => dropConfirmed_rule P hremove hq t)
  | disconnect =>
    have hadded := hall event.block.transactions.tail p now hp
    dsimp only [blockDisconnected]
    cases hrun : p.addAll params c now event.block.transactions.tail with
    | mk q answer =>
      rw [hrun] at hadded
      cases answer with
      | error e => exact hadded
      | ok u => exact hagain q _ hadded

/-! ## Reachable pools -/

/-- The pools that additions, removals and clearing lead to from an empty one, whatever the chains
that the additions are checked against. -/
inductive Reachable (params : ChainParams) : Mempool → Prop where
  | create (maxBytes : Nat) : Reachable params (create maxBytes)
  | add {p : Mempool} (c : Blockchain) (now : Nat) (t : Transaction) (verifySignatures : Bool) :
      Reachable params p → Reachable params (p.add params c now t verifySignatures).1
  | remove {p : Mempool} (txid : Hash) (withDescendants : Bool) :
      Reachable params p → Reachable params (p.remove txid withDescendants).1
  | clear {p : Mempool} : Reachable params p → Reachable params p.clear

/-- The notifications of the chain are made of these. -/
theorem Reachable.onEvent (h : Reachable params p) (c : Blockchain) (now : Nat → Nat)
    (event : Event) : Reachable params (p.onEvent params c now event).1 :=
  onEvent_rule (Reachable params) (fun _ t now verify hq => hq.add c now t verify)
    (fun _ txid d hq => hq.remove txid d) (fun _ hq => hq.clear) h now event

theorem Reachable.wf (h : Reachable params p) : p.Wf := by
  induction h with
  | create maxBytes => exact create_wf maxBytes
  | add c now t verify _ ih => exact (ih.add now verify).1
  | remove txid d _ ih => exact (remove_removal ih txid d).wf
  | clear _ _ => exact clear_wf _

/-- What holds of every transaction that is judged fit holds of every pooled one. -/
theorem Reachable.forall_entries (P : Transaction → Prop)
    (hnew : ∀ (q : Mempool) c t verify fee, q.judge params c t verify = .ok fee → P t)
    (h : Reachable params p) : ∀ k e, p.byTxid.lookup k = some e → P e.transaction := by
  induction h with
  | create maxBytes => exact fun k e he => by simp [Mempool.create] at he
  | @add q c now t verify hq ih =>
    intro k e he
    rcases (hq.wf.add now verify).2 k e he with hold | ⟨fee, hjudge, rfl⟩
    · exact ih k e hold
    · exact hnew q c t verify fee hjudge
  | remove txid d hq ih =>
    exact fun k e he => ih k e ((remove_removal hq.wf txid d).within.sub k e he)
  | clear _ _ => exact fun k e he => by simp [Mempool.clear] at he

end Books

end Mempool

end ScarletCoin
