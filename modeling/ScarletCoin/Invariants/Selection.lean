import ScarletCoin.Invariants.Minable
import ScarletCoin.Invariants.PoolFees

/-!
# The selection for a block

`collect` passes over the entries in the order of their fee rates until a pass selects nothing.
`Mempool.Collecting` is what holds between two entries: what is selected is closed under pooled
parents, in order and within the budget, and every final entry is selected or still a candidate. A
pass that selects nothing has found every candidate too large, not final, or without a parent
(`Mempool.Collecting.full`), and every other pass takes a candidate away. So `collect` ends with a
selection to which nothing can be added (`Mempool.collect_packed`).
-/

set_option autoImplicit false

namespace ScarletCoin

open Toolkit

namespace Mempool

section Collect

variable [Crypto] {p : Mempool} {maxBytes : Int} {height : Nat}

/-! ## What is selected -/

/-- Entries in an order in which they can be mined at a height, within a budget. -/
structure Packed (p : Mempool) (maxBytes : Int) (height : Nat) (es : List MempoolEntry) : Prop where
  pooled : ∀ e ∈ es, e ∈ p.values
  distinct : (es.map fun e => e.transaction.txid).Nodup
  parents : ∀ before e after, es = before ++ e :: after → ∀ o ∈ e.transaction.prevouts,
    ∀ parent, p.byTxid.lookup o.txid = some parent → parent ∈ before
  once : (es.flatMap fun e => e.transaction.prevouts).Nodup
  final : ∀ e ∈ es, checkTransactionFinal e.transaction height = true
  budget : 0 ≤ maxBytes → (((es.map fun e => e.transaction.size).sum : Nat) : Int) ≤ maxBytes

/-- No entry that is final and whose parents are selected still fits. -/
def Full (p : Mempool) (maxBytes : Int) (height : Nat) (es : List MempoolEntry) : Prop :=
  ∀ e ∈ p.values, e ∉ es → checkTransactionFinal e.transaction height = true →
    (∀ o ∈ e.transaction.prevouts, ∀ parent, p.byTxid.lookup o.txid = some parent → parent ∈ es) →
    maxBytes < (((es.map fun e => e.transaction.size).sum + e.transaction.size : Nat) : Int)

/-- What holds while `collect` runs: the state shows the entries selected so far, and every final
entry is one of them or still a candidate. -/
structure Collecting (p : Mempool) (maxBytes : Int) (height : Nat) (es : List MempoolEntry)
    (s : Selection) : Prop where
  selected : s.selected = es.map MempoolEntry.transaction
  ids : s.selectedIds = es.map MempoolEntry.txid
  fee : s.totalFee = (es.map MempoolEntry.fee).sum
  used : s.used = (es.map MempoolEntry.size).sum
  nodup : (es ++ s.candidates).Nodup
  pooled : ∀ e ∈ es ++ s.candidates, e ∈ p.values
  parents : ∀ before e after, es = before ++ e :: after → ∀ o ∈ e.transaction.prevouts,
    ∀ parent, p.byTxid.lookup o.txid = some parent → parent ∈ before
  final : ∀ e ∈ es, checkTransactionFinal e.transaction height = true
  budget : 0 ≤ maxBytes → ((s.used : Nat) : Int) ≤ maxBytes
  left : ∀ e ∈ p.values, checkTransactionFinal e.transaction height = true → e ∈ es ++ s.candidates

/-- Why an entry is passed over. -/
def PassedOver (p : Mempool) (maxBytes : Int) (height : Nat) (s : Selection) (e : MempoolEntry) :
    Prop :=
  maxBytes < ((s.used + e.size : Nat) : Int) ∨ checkTransactionFinal e.transaction height = false ∨
    ¬ ∀ parent ∈ p.parents e.transaction, parent ∈ s.selectedIds

/-! ## One entry -/

omit [Crypto] in
theorem mem_parents {t : Transaction} {k : Hash} :
    k ∈ p.parents t ↔ ∃ o ∈ t.prevouts, o.txid = k ∧ p.byTxid.lookup k ≠ none := by
  unfold Mempool.parents Transaction.prevouts
  rw [List.mem_filter, List.mem_map]
  constructor
  · rintro ⟨⟨txin, hin, rfl⟩, hsome⟩
    exact ⟨txin.prevout, List.mem_map_of_mem hin, rfl, Option.isSome_iff_ne_none.mp hsome⟩
  · rintro ⟨o, ho, rfl, hne⟩
    obtain ⟨txin, hin, rfl⟩ := List.mem_map.mp ho
    exact ⟨⟨txin, hin, rfl⟩, Option.isSome_iff_ne_none.mpr hne⟩

/-- If the parents of an entry are among the selected ids, they are selected. -/
theorem Collecting.mem_of_parents (hp : p.Wf) {es : List MempoolEntry} {s : Selection}
    (h : Collecting p maxBytes height es s) {e : MempoolEntry}
    (hparents : ∀ parent ∈ p.parents e.transaction, parent ∈ s.selectedIds) {o : OutPoint}
    (ho : o ∈ e.transaction.prevouts) {parent : MempoolEntry}
    (hparent : p.byTxid.lookup o.txid = some parent) : parent ∈ es := by
  have hid := hparents o.txid
    (mem_parents.mpr ⟨o, ho, rfl, by rw [hparent]; exact Option.some_ne_none parent⟩)
  rw [h.ids] at hid
  obtain ⟨x, hx, htxid⟩ := List.mem_map.mp hid
  have hlook := hp.mem_values.mp (h.pooled x (List.mem_append_left _ hx))
  rw [htxid, hparent] at hlook
  exact Option.some.inj hlook ▸ hx

/-- Looking at a candidate keeps the invariant. It selects the candidate, or passes over it, and
then the selection stays the same. -/
theorem Collecting.consider (hp : p.Wf) {es : List MempoolEntry} {s : Selection}
    (h : Collecting p maxBytes height es s) {e : MempoolEntry} (he : e ∈ s.candidates) :
    ∃ es', Collecting p maxBytes height es' (p.consider maxBytes height s e) ∧
      (p.consider maxBytes height s e).candidates.Sublist s.candidates ∧
      (∀ x ∈ s.candidates, x ≠ e → x ∈ (p.consider maxBytes height s e).candidates) ∧
      (((p.consider maxBytes height s e).progressed = s.progressed ∧
          (p.consider maxBytes height s e).selectedIds = s.selectedIds ∧
          (p.consider maxBytes height s e).used = s.used ∧ PassedOver p maxBytes height s e) ∨
        ((p.consider maxBytes height s e).progressed = true ∧
          (p.consider maxBytes height s e).candidates.length < s.candidates.length)) := by
  have hperm : (es ++ [e] ++ s.candidates.erase e).Perm (es ++ s.candidates) := by
    rw [List.append_assoc]
    exact (List.perm_cons_erase he).symm.append_left es
  unfold Mempool.consider
  -- too large for what is left
  by_cases hfits : maxBytes < ((s.used + e.size : Nat) : Int)
  · rw [if_pos hfits]
    exact ⟨es, h, List.Sublist.refl _, fun _ hx _ => hx, .inl ⟨rfl, rfl, rfl, .inl hfits⟩⟩
  rw [if_neg hfits]
  -- not final: dropped from the candidates
  by_cases hfinal : checkTransactionFinal e.transaction height = false
  · rw [if_pos hfinal]
    have hsub : (es ++ s.candidates.erase e).Sublist (es ++ s.candidates) :=
      List.erase_sublist.append_left es
    refine ⟨es, ?_, List.erase_sublist, fun x hx hne => (List.mem_erase_of_ne hne).mpr hx,
      .inl ⟨rfl, rfl, rfl, .inr (.inl hfinal)⟩⟩
    refine ⟨h.selected, h.ids, h.fee, h.used, h.nodup.sublist hsub,
      fun x hx => h.pooled x (hsub.mem hx), h.parents, h.final, h.budget, fun x hx hxfinal => ?_⟩
    rcases List.mem_append.mp (h.left x hx hxfinal) with hmem | hmem
    · exact List.mem_append_left _ hmem
    · refine List.mem_append_right _ ((List.mem_erase_of_ne ?_).mpr hmem)
      rintro rfl
      rw [hfinal] at hxfinal
      cases hxfinal
  rw [if_neg hfinal]
  -- selected, if all its parents in the pool are
  have hall : (p.parents e.transaction).all s.selectedIds.contains = true ↔
      ∀ parent ∈ p.parents e.transaction, parent ∈ s.selectedIds := by
    simp only [List.all_eq_true, List.contains_iff_mem]
  by_cases hparents : ∀ parent ∈ p.parents e.transaction, parent ∈ s.selectedIds
  · rw [if_neg (not_not.mpr (hall.mpr hparents))]
    refine ⟨es ++ [e], ?_, List.erase_sublist, fun x hx hne => (List.mem_erase_of_ne hne).mpr hx,
      .inr ⟨rfl, ?_⟩⟩
    · refine ⟨?_, ?_, ?_, ?_, hperm.nodup_iff.mpr h.nodup,
        fun x hx => h.pooled x (hperm.mem_iff.mp hx), fun before a after hsplit => ?_,
        fun x hx => ?_, fun _ => Int.not_lt.mp hfits,
        fun x hx hxfinal => hperm.mem_iff.mpr (h.left x hx hxfinal)⟩
      · simp [h.selected]
      · simp [h.ids]
      · simp [h.fee]
      · simp [h.used]
      · intro o ho parent hparent
        rcases List.eq_nil_or_concat after with rfl | ⟨after', x, rfl⟩
        · obtain ⟨rfl, hlast⟩ := List.append_inj' hsplit rfl
          obtain rfl := List.singleton_inj.mp hlast
          exact h.mem_of_parents hp hparents ho hparent
        · rw [List.concat_eq_append, ← List.cons_append, ← List.append_assoc] at hsplit
          obtain ⟨hes, -⟩ := List.append_inj' hsplit rfl
          exact h.parents before a after' hes o ho parent hparent
      · rcases List.mem_append.mp hx with hx | hx
        · exact h.final x hx
        · rw [List.mem_singleton.mp hx]
          exact Bool.not_eq_false _ ▸ hfinal
    · rw [List.length_erase_of_mem he]
      have hpos := List.length_pos_of_mem he
      omega
  · rw [if_pos (mt hall.mp hparents)]
    exact ⟨es, h, List.Sublist.refl _, fun _ hx _ => hx,
      .inl ⟨rfl, rfl, rfl, .inr (.inr hparents)⟩⟩

/-! ## One pass -/

/-- A pass keeps the invariant. It takes a candidate away, or selects nothing and passes over them
all. -/
theorem Collecting.pass (hp : p.Wf) {es : List MempoolEntry} {s : Selection}
    (h : Collecting p maxBytes height es s) {todo : List MempoolEntry} (htodo : todo.Nodup)
    (hsub : ∀ e ∈ todo, e ∈ s.candidates) :
    ∃ es', Collecting p maxBytes height es' (todo.foldl (p.consider maxBytes height) s) ∧
      (todo.foldl (p.consider maxBytes height) s).candidates.Sublist s.candidates ∧
      (((todo.foldl (p.consider maxBytes height) s).progressed = s.progressed ∧
          (todo.foldl (p.consider maxBytes height) s).selectedIds = s.selectedIds ∧
          (todo.foldl (p.consider maxBytes height) s).used = s.used ∧
          ∀ e ∈ todo, PassedOver p maxBytes height s e) ∨
        ((todo.foldl (p.consider maxBytes height) s).progressed = true ∧
          (todo.foldl (p.consider maxBytes height) s).candidates.length <
          s.candidates.length)) := by
  induction todo generalizing es s with
  | nil =>
    exact ⟨es, h, List.Sublist.refl _,
      .inl ⟨rfl, rfl, rfl, fun e he => absurd he List.not_mem_nil⟩⟩
  | cons e todo ih =>
    obtain ⟨hnot, hrest⟩ := List.nodup_cons.mp htodo
    obtain ⟨es₁, h₁, hsub₁, hkept, hone⟩ := h.consider hp (hsub e List.mem_cons_self)
    have htodo₁ : ∀ x ∈ todo, x ∈ (p.consider maxBytes height s e).candidates := fun x hx =>
      hkept x (hsub x (List.mem_cons_of_mem e hx)) fun heq => hnot (heq ▸ hx)
    obtain ⟨es₂, h₂, hsub₂, hothers⟩ := ih h₁ hrest htodo₁
    refine ⟨es₂, h₂, hsub₂.trans hsub₁, ?_⟩
    rw [List.foldl_cons]
    rcases hothers with ⟨hprogress, hids, hused, hover⟩ | ⟨hprogress, hlt⟩
    · rcases hone with ⟨hprogress₁, hids₁, hused₁, hover₁⟩ | ⟨hprogress₁, hlt₁⟩
      · refine .inl ⟨hprogress.trans hprogress₁, hids.trans hids₁, hused.trans hused₁,
          fun x hx => ?_⟩
        rcases List.mem_cons.mp hx with rfl | hx
        · exact hover₁
        · have hx' := hover x hx
          unfold PassedOver at hx' ⊢
          rwa [hids₁, hused₁] at hx'
      · exact .inr ⟨hprogress.trans hprogress₁, Nat.lt_of_le_of_lt hsub₂.length_le hlt₁⟩
    · exact .inr ⟨hprogress, Nat.lt_of_lt_of_le hlt hsub₁.length_le⟩

/-- After a pass that selects nothing, nothing can be added. -/
theorem Collecting.full (hp : p.Wf) {es : List MempoolEntry} {s : Selection}
    (h : Collecting p maxBytes height es s)
    (hover : ∀ e ∈ s.candidates, PassedOver p maxBytes height s e) : Full p maxBytes height es := by
  have hsizes : es.map (fun e => e.transaction.size) = es.map MempoolEntry.size :=
    List.map_congr_left fun e he => by
      have hlook := hp.mem_values.mp (h.pooled e (List.mem_append_left _ he))
      exact (hp.keyed _ e hlook).2.2.symm
  intro e he hnot hfinal hparents
  have hlook := hp.mem_values.mp he
  have hcandidate : e ∈ s.candidates :=
    (List.mem_append.mp (h.left e he hfinal)).resolve_left hnot
  rcases hover e hcandidate with hlarge | hlocked | hmissing
  · rw [hsizes, ← h.used, ← (hp.keyed _ e hlook).2.2]
    exact hlarge
  · rw [hfinal] at hlocked
    cases hlocked
  · refine absurd (fun k hk => ?_) hmissing
    obtain ⟨o, ho, rfl, hne⟩ := mem_parents.mp hk
    obtain ⟨parent, hparent⟩ := Option.ne_none_iff_exists'.mp hne
    rw [h.ids, ← (hp.keyed _ parent hparent).1]
    exact List.mem_map_of_mem (hparents o ho parent hparent)

/-- What is selected can be mined in that order. -/
theorem Collecting.packed (hp : p.Wf)
    (honce : (p.values.flatMap fun e => e.transaction.prevouts).Nodup) {es : List MempoolEntry}
    {s : Selection} (h : Collecting p maxBytes height es s) : Packed p maxBytes height es := by
  have hpooled : ∀ e ∈ es, e ∈ p.values := fun e he => h.pooled e (List.mem_append_left _ he)
  have hlook : ∀ e ∈ es, p.byTxid.lookup e.txid = some e := fun e he =>
    hp.mem_values.mp (hpooled e he)
  have hnodup : es.Nodup := h.nodup.sublist (List.sublist_append_left es s.candidates)
  refine ⟨hpooled, ?_, h.parents, ?_, h.final, fun hbudget => ?_⟩
  · refine hnodup.map_on fun a ha b hb heq => ?_
    rw [(hp.keyed _ a (hlook a ha)).2.1, (hp.keyed _ b (hlook b hb)).2.1] at heq
    exact hp.txid_injective (hpooled a ha) (hpooled b hb) heq
  · -- two entries never spend one outpoint, and none spends an outpoint twice
    refine List.nodup_flatMap.mpr ⟨fun e he => (List.nodup_flatMap.mp honce).1 e (hpooled e he), ?_⟩
    refine hnodup.pairwise_of_forall_ne fun a ha b hb hne o hoa hob => hne ?_
    have htxid := hp.spends_once (hlook a ha) (hlook b hb) hoa hob
    exact hp.txid_injective (hpooled a ha) (hpooled b hb) htxid
  · have hsizes : es.map (fun e => e.transaction.size) = es.map MempoolEntry.size :=
      List.map_congr_left fun e he => (hp.keyed _ e (hlook e he)).2.2.symm
    rw [hsizes, ← h.used]
    exact h.budget hbudget

/-! ## The whole run -/

/-- A round goes on with fewer candidates, or halts with a selection to which nothing can be
added. -/
theorem Collecting.round (hp : p.Wf) {es : List MempoolEntry} {s : Selection}
    (h : Collecting p maxBytes height es s) :
    ∃ es' s', Collecting p maxBytes height es' s' ∧
      ((p.collectRound maxBytes height s = .next s' ∧ s'.candidates.length < s.candidates.length) ∨
        (p.collectRound maxBytes height s =
            .halt (es'.map MempoolEntry.transaction, (es'.map MempoolEntry.fee).sum) ∧
          Full p maxBytes height es')) := by
  have hstart : Collecting p maxBytes height es { s with progressed := false } :=
    ⟨h.selected, h.ids, h.fee, h.used, h.nodup, h.pooled, h.parents, h.final, h.budget, h.left⟩
  have hnodup : s.candidates.Nodup := h.nodup.sublist (List.sublist_append_right es s.candidates)
  obtain ⟨es', h', hsub, hpass⟩ := hstart.pass hp hnodup fun e he => he
  refine ⟨es', _, h', ?_⟩
  unfold collectRound
  dsimp only
  rcases hpass with ⟨hidle, hids, hused, hover⟩ | ⟨hprogress, hlt⟩
  · rw [hidle, h'.selected, h'.fee]
    refine .inr ⟨rfl, h'.full hp fun e he => ?_⟩
    have hone := hover e (hsub.mem he)
    unfold PassedOver at hone ⊢
    rwa [hids, hused]
  · rw [hprogress]
    exact .inl ⟨rfl, hlt⟩

/-- With as many rounds as candidates, and one more, the loop ends. -/
theorem Collecting.loop_ends (hp : p.Wf) {n : Nat} {es : List MempoolEntry} {s : Selection}
    (h : Collecting p maxBytes height es s) (hn : s.candidates.length ≤ n) :
    ∃ es' s', loop (p.collectRound maxBytes height) (n + 1) s =
        some (es'.map MempoolEntry.transaction, (es'.map MempoolEntry.fee).sum) ∧
      Collecting p maxBytes height es' s' ∧ Full p maxBytes height es' := by
  induction n generalizing es s with
  | zero =>
    obtain ⟨es', s', h', ⟨-, hlt⟩ | ⟨hhalt, hfull⟩⟩ := h.round hp
    · omega
    · exact ⟨es', s', loop_succ_halt hhalt, h', hfull⟩
  | succ n ih =>
    obtain ⟨es₁, s₁, h₁, ⟨hnext, hlt⟩ | ⟨hhalt, hfull⟩⟩ := h.round hp
    · rw [loop_succ_next hnext]
      exact ih h₁ (by omega)
    · exact ⟨es₁, s₁, loop_succ_halt hhalt, h₁, hfull⟩

omit [Crypto] in
theorem entries_perm (p : Mempool) : p.entries.Perm p.values :=
  List.perm_insertionSort dearer p.values

/-- Before the first round nothing is selected and every entry is a candidate. -/
theorem collecting_start (hp : p.Wf) :
    Collecting p maxBytes height [] ⟨[], [], 0, 0, p.entries, false⟩ := by
  have hperm := p.entries_perm
  refine ⟨rfl, rfl, rfl, rfl, hperm.nodup_iff.mpr hp.values_nodup, fun e he => hperm.mem_iff.mp he,
    fun before e after hsplit => ?_, fun e he => absurd he List.not_mem_nil, fun hbudget => hbudget,
    fun e he _ => hperm.mem_iff.mpr he⟩
  exact absurd hsplit (by simp)

/-- **The selection for a block.** If the pooled transactions spend no outpoint twice, `collect`
ends, for every budget and height. It returns distinct pooled transactions that are final, every one
after its pooled parents, that spend no outpoint twice and stay within the budget, with the sum of
their fees; and no further final transaction whose parents are selected fits. Cycles of dependencies
do no harm. -/
theorem collect_packed (hp : p.Wf)
    (honce : (p.values.flatMap fun e => e.transaction.prevouts).Nodup) (maxBytes : Int)
    (height : Nat) :
    ∃ es, p.collect maxBytes height =
        some (es.map MempoolEntry.transaction, (es.map MempoolEntry.fee).sum) ∧
      Packed p maxBytes height es ∧ Full p maxBytes height es := by
  obtain ⟨es, s, hloop, h, hfull⟩ :=
    (collecting_start hp).loop_ends hp (Nat.le_refl p.entries.length)
  exact ⟨es, hloop, h.packed hp honce, hfull⟩

/-- The transactions of a reachable pool spend no outpoint twice. -/
theorem Reachable.prevouts_nodup [ScanOrder Hash] {params : ChainParams} (h : p.Reachable params) :
    (p.values.flatMap fun e => e.transaction.prevouts).Nodup := by
  have hp := h.wf
  have hclean : ∀ k e, p.byTxid.lookup k = some e → e.transaction.prevouts.Nodup := by
    refine h.forall_entries (fun t => t.prevouts.Nodup) fun q c t verify fee hjudge => ?_
    have hscreened := (judge_eq_ok.mp hjudge).1
    exact (Transaction.checkSanity_sane hscreened.sane).distinct hscreened.notCoinbase
  have hlook : ∀ e ∈ p.values, p.byTxid.lookup e.txid = some e := fun e he => hp.mem_values.mp he
  refine List.nodup_flatMap.mpr ⟨fun e he => hclean _ e (hlook e he), ?_⟩
  refine hp.values_nodup.pairwise_of_forall_ne fun a ha b hb hne o hoa hob => hne ?_
  exact hp.txid_injective ha hb (hp.spends_once (hlook a ha) (hlook b hb) hoa hob)

end Collect

end Mempool

section Instances

attribute [local instance] Sample.crypto Sample.order

/-- A parent and its child, which pays a lower fee rate, are selected in this order. -/
theorem Mempool.collect_packed_family : ∃ w es, Sample.wiredAfter (fun _ _ => true)
      [.add 0 Sample.dear true, .add 1 Sample.child true] = some w ∧
    es.map MempoolEntry.transaction = [Sample.dear, Sample.child] ∧
    w.pool.collect 1000 3 =
      some (es.map MempoolEntry.transaction, (es.map MempoolEntry.fee).sum) ∧
    Mempool.Packed w.pool 1000 3 es ∧ Mempool.Full w.pool 1000 3 es := by
  have hrun : ((Sample.wiredAfter (fun _ _ => true)
      [.add 0 Sample.dear true, .add 1 Sample.child true]).any fun w =>
      decide ((w.pool.collect 1000 3).map Prod.fst = some [Sample.dear, Sample.child])) = true := by
    decide +kernel
  obtain ⟨w, hw, hcond⟩ := (Option.any_eq_true _ _).mp hrun
  have hruns : Wired.Runs REGTEST (fun _ _ => True) w :=
    Sample.wiredAfter_runs (fun _ _ _ => trivial) hw
  obtain ⟨es, hcollect, hpacked, hfull⟩ := Mempool.collect_packed hruns.pool_reachable.wf
    hruns.pool_reachable.prevouts_nodup 1000 3
  have hselected := of_decide_eq_true hcond
  rw [hcollect, Option.map_some] at hselected
  exact ⟨w, es, hw, Option.some.inj hselected, hcollect, hpacked, hfull⟩

end Instances

end ScarletCoin
