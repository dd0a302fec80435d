import ScarletCoin.Invariants.Runs
import ScarletCoin.Rules.Failures

/-!
# What is remembered as invalid

As long as no body has been dropped, a failing switch blames a block of the new branch
(`switchTo_blames`), and what the activation then remembers are that block and blocks built on it
(`invalidateFrom_marks`). So a block of the active chain is never remembered, and the tip only gains
work: `Unblemished` is kept by every submitted block (`addBlock_unblemished`).
-/

set_option autoImplicit false

namespace ScarletCoin

open Toolkit

variable [Crypto]

/-- No stored block has lost its body. -/
def Storage.Unpruned (s : Storage) : Prop := ∀ h, s.prunedAt h ≠ some true

/-! ## Whom a failing switch blames -/

section Blames

variable {params : ChainParams} {s : Storage}

/-- Unwinding blocks that have their bodies blames nobody. -/
theorem unwind_quiet {gone old : List TreeNode} (hold : old ≠ []) {e : PyError}
    (hbase : Based params (s, gone ++ old)) (hwhole : s.Unpruned) (h : unwind s gone = .error e) :
    e.Quiet := by
  induction gone generalizing s with
  | nil => cases h
  | cons b gone ih =>
    have hstored : s.tree b.body.hash = some b := hbase.active.branch.stored b List.mem_cons_self
    rcases bind_eq_error.mp h with hdis | ⟨⟨s₁, block⟩, hdis, hrest⟩
    · obtain ⟨row, hrow, -⟩ := Storage.tree_eq_some.mp hstored
      have hbody : row.pruned = false := by
        have hnot := hwhole b.body.hash
        rw [Storage.prunedAt, hrow] at hnot
        simpa using hnot
      exact disconnectBlock_quiet (by rw [Storage.entryAt_hash]; exact hrow) hbody hdis
    · obtain ⟨m, rest, hm⟩ : ∃ m rest, gone ++ old = m :: rest := by
        cases hgo : gone ++ old with
        | nil => exact absurd (List.append_eq_nil_iff.mp hgo).2 hold
        | cons m rest => exact ⟨m, rest, rfl⟩
      have hbase' : Based params (s, b :: m :: rest) := by
        rw [← hm]
        exact hbase
      obtain ⟨-, hstep⟩ := disconnectBlock_step hbase' hdis
      have hbase₁ := hstep.based hbase'
      rw [← hm] at hbase₁
      obtain ⟨undo, -, hdone⟩ := disconnectBlock_disconnected hdis
      refine ih hbase₁ (fun k => ?_) hrest
      rw [Storage.prunedAt_modify hdone.blocks fun _ => rfl]
      exact hwhole k

variable [ScanOrder Hash]

/-- Extending the chain blames one of the new blocks, or nobody. -/
theorem extend_blames {ns : List TreeNode} {e : PyError} (h : extend params s ns = .error e) :
    e.Quiet ∨ ∃ n ∈ ns, ∃ message, e = .connect n.body.hash message := by
  induction ns generalizing s with
  | nil => cases h
  | cons n ns ih =>
    rcases bind_eq_error.mp h with hload | ⟨loaded, -, h₁⟩
    · exact .inl (Storage.getBlock_quiet hload)
    cases loaded with
    | none => exact .inr ⟨n, List.mem_cons_self, _, (Except.error.inj h₁).symm⟩
    | some block =>
      rcases bind_eq_error.mp h₁ with hcon | ⟨s₁, -, hrest⟩
      · rcases connectBlock_blames hcon with hquiet | ⟨message, rfl⟩
        · exact .inl hquiet
        · exact .inr ⟨n, List.mem_cons_self, message, by rw [Storage.entryAt_hash]⟩
      · rcases ih hrest with hquiet | ⟨m, hm, hmessage⟩
        · exact .inl hquiet
        · exact .inr ⟨m, List.mem_cons_of_mem n hm, hmessage⟩

/-- A failing switch blames a block of the new branch. -/
theorem switchTo_blames {invalid : Hash → Bool} {new gone old : List TreeNode} {t w : TreeNode}
    (hf : Fork params s new gone old) (ht : (gone ++ old).head? = some t)
    (hw : (new ++ old).head? = some w) (hwhole : s.Unpruned) {h : Hash} {message : String}
    (hfail : switchTo params s invalid (s.entryAt t) (s.entryAt w) = .error (.connect h message)) :
    ∃ n ∈ new, n.body.hash = h := by
  rw [switchTo_eq hf ht hw] at hfail
  split at hfail
  · rename_i n hn
    injection Except.error.inj hfail with hh _
    exact ⟨n, List.mem_of_find?_eq_some hn, hh⟩
  · rcases bind_eq_error.mp hfail with hun | ⟨s₁, -, h₁⟩
    · cases unwind_quiet hf.common hf.based hwhole hun
    · cases hex : extend params s₁ new.reverse with
      | ok s₂ =>
        rw [hex] at h₁
        cases h₁
      | error e =>
        rw [hex] at h₁
        have he : e = .connect h message := Except.error.inj h₁
        rcases extend_blames hex with hquiet | ⟨n, hn, message', hblame⟩
        · rw [he] at hquiet
          cases hquiet
        · injection he.symm.trans hblame with hh _
          exact ⟨n, List.mem_reverse.mp hn, hh.symm⟩

end Blames

/-! ## What the activation remembers -/

section Marks

omit [Crypto]

/-- The hashes that are remembered. -/
def rememberedHashes (invalid : List (Hash × String)) : List Hash := invalid.map Prod.fst

theorem any_remembered {invalid : List (Hash × String)} {x : Hash} :
    (invalid.any fun p => p.1 == x) = true ↔ x ∈ rememberedHashes invalid := by
  rw [List.any_eq_true, rememberedHashes, List.mem_map]
  refine exists_congr fun p => and_congr_right fun _ => ?_
  rw [beq_iff_eq]

theorem Blockchain.isInvalid_iff {c : Blockchain} {x : Hash} :
    c.isInvalid x = true ↔ x ∈ rememberedHashes c.invalid := any_remembered

theorem Blockchain.mem_setInvalid {invalid : List (Hash × String)} {h x : Hash} {reason : String} :
    x ∈ rememberedHashes (setInvalid invalid h reason) ↔ x ∈ rememberedHashes invalid ∨ x = h := by
  unfold setInvalid
  split
  · rename_i hknown
    have hkeys : rememberedHashes (invalid.map fun p => if p.1 == h then (h, reason) else p) =
        rememberedHashes invalid := by
      unfold rememberedHashes
      rw [List.map_map]
      refine List.map_congr_left fun p _ => ?_
      dsimp only [Function.comp]
      split
      · rename_i hp
        exact (beq_iff_eq.mp hp).symm
      · rfl
    rw [hkeys]
    refine ⟨.inl, ?_⟩
    rintro (hx | rfl)
    · exact hx
    · exact any_remembered.mp hknown
  · rw [rememberedHashes, List.map_append, List.mem_append, List.map_singleton,
      List.mem_singleton]
    rfl

theorem Blockchain.mem_evictOldest {invalid : List (Hash × String)} {x : Hash}
    (h : x ∈ rememberedHashes (evictOldest invalid)) : x ∈ rememberedHashes invalid := by
  obtain ⟨p, hp, hx⟩ := List.mem_map.mp h
  exact List.mem_map.mpr ⟨p, List.mem_of_mem_drop hp, hx⟩

variable [ScanOrder Hash]

theorem Storage.mem_childrenOf {s : Storage} {h : Hash} {e : BlockIndexEntry}
    (he : e ∈ s.childrenOf h) : ∃ row, s.blocks.lookup e.hash = some row ∧
      row.body.header.prevHash = h := by
  obtain ⟨⟨k, row⟩, hmem, rfl⟩ := List.mem_map.mp he
  obtain ⟨hrow, hprev⟩ := List.mem_filter.mp hmem
  exact ⟨row, (mem_scan s.blocks k row).mp hrow, beq_iff_eq.mp hprev⟩

/-- What the search over the descendants remembers has every property that passes from the hashes it
starts with to stored children. -/
theorem Blockchain.invalidateFrom_marks {s : Storage} (P : Hash → Prop)
    (hchild : ∀ h, P h → ∀ e ∈ s.childrenOf h, P e.hash) {rounds : Nat}
    {pending invalid : List (Hash × String)} (hpending : ∀ p ∈ pending, P p.1) {x : Hash}
    (hx : x ∈ rememberedHashes (invalidateFrom s rounds pending invalid)) :
    x ∈ rememberedHashes invalid ∨ P x := by
  induction rounds generalizing pending invalid with
  | zero => exact .inl hx
  | succ rounds ih =>
    cases pending with
    | nil => exact .inl hx
    | cons p pending =>
      obtain ⟨current, why⟩ := p
      have hrest : ∀ q ∈ pending, P q.1 := fun q hq => hpending q (List.mem_cons_of_mem _ hq)
      have hcurrent : P current := hpending _ List.mem_cons_self
      unfold invalidateFrom at hx
      split at hx
      · exact ih hrest hx
      · have hstack : ∀ q ∈ ((s.childrenOf current).map fun child =>
            (child.hash, s!"builds on an invalid block: {why}")).reverse ++ pending, P q.1 := by
          intro q hq
          rcases List.mem_append.mp hq with hq | hq
          · obtain ⟨e, he, rfl⟩ := List.mem_map.mp (List.mem_reverse.mp hq)
            exact hchild current hcurrent e he
          · exact hrest q hq
        rcases ih hstack hx with hold | hnew
        · rcases mem_setInvalid.mp hold with hold | rfl
          · exact .inl hold
          · exact .inr hcurrent
        · exact .inr hnew

theorem Blockchain.invalidate_marks {c : Blockchain} (P : Hash → Prop)
    (hchild : ∀ h, P h → ∀ e ∈ c.storage.childrenOf h, P e.hash) {h x : Hash} {reason : String}
    (hh : P h) (hx : (c.invalidate h reason).isInvalid x = true) : c.isInvalid x = true ∨ P x := by
  have hpending : ∀ p ∈ [(h, reason)], P p.1 := by
    intro p hp
    rw [List.mem_singleton.mp hp]
    exact hh
  rw [isInvalid_iff, c.invalidate_invalid] at hx
  rw [isInvalid_iff]
  exact (invalidateFrom_marks P hchild hpending hx).imp_left mem_evictOldest

end Marks

/-! ## The active chain is never remembered -/

variable [ScanOrder Hash] {params : ChainParams}

/-- A standing chain without dropped bodies whose active blocks are not remembered as invalid. -/
structure Unblemished (params : ChainParams) (c : Blockchain) (bs : List TreeNode) : Prop where
  standing : Standing params c bs
  whole : c.storage.Unpruned
  active : ∀ n ∈ bs, c.isInvalid n.body.hash = false

omit [ScanOrder Hash] in
/-- A stored child of a block off the active chain is off it too. Only genesis names the null hash
as its parent, and no stored block has that hash. -/
theorem Based.child_off {s : Storage} {bs : List TreeNode} (h : Based params (s, bs)) {k j : Hash}
    {row : BlockRow} (hk : k ≠ nullHash) (hoff : ∀ n ∈ bs, n.body.hash ≠ k)
    (hrow : s.blocks.lookup j = some row) (hprev : row.body.header.prevHash = k) :
    ∀ n ∈ bs, n.body.hash ≠ j := by
  rintro n hn rfl
  -- an active block above genesis has an active parent
  obtain ⟨above, below, hbs⟩ := List.append_of_mem hn
  have hbranch : Branch (lineage params) s.tree (n :: below) := by
    have hall := h.active.branch
    rw [show (s, bs).2 = bs from rfl, hbs] at hall
    exact hall.suffix (List.cons_ne_nil _ _)
  have hheader : n.body.header.prevHash = k := by
    have hstored : s.tree n.body.hash = some n := hbranch.stored n List.mem_cons_self
    rw [Storage.tree_eq_some.mpr ⟨row, hrow, rfl⟩] at hstored
    rw [← Option.some.inj hstored]
    exact hprev
  cases below with
  | nil => exact hk (hheader.symm.trans (Branch.root_prevHash hbranch))
  | cons p below =>
    have hlink : n.body.header.prevHash = p.body.hash := hbranch.prev_head
    refine hoff p ?_ (hlink.symm.trans hheader)
    rw [hbs]
    simp

/-- A switch keeps every body. -/
theorem switchTo_prunedAt {s s' : Storage} {invalid : Hash → Bool}
    {tip tip' candidate : BlockIndexEntry} {events : List Event}
    (h : switchTo params s invalid tip candidate = .ok (s', tip', events)) :
    s'.prunedAt = s.prunedAt := by
  refine switchTo_keeps Storage.prunedAt (fun hdis => ?_) (fun hcon => ?_) (fun _ _ => rfl) h
  · obtain ⟨undo, -, hdone⟩ := disconnectBlock_disconnected hdis
    exact Storage.prunedAt_modify hdone.blocks fun _ => rfl
  · obtain ⟨st, data, -, -, rfl⟩ := connectBlock_eq_ok.mp hcon
    exact Storage.prunedAt_modify (recordBlock_connected _ _ _ st data).blocks fun _ => rfl

/-- A round of the activation keeps the active chain unremembered, and the tip gains work. -/
theorem activateRound_unblemished {c c' : Blockchain} {bs : List TreeNode} {r r' : Bool}
    (hu : Unblemished params c bs) (hnull : c.storage.hasBlock nullHash = false)
    (h : activateRound params ⟨c, r⟩ = .next ⟨c', r'⟩) :
    ∃ bs', ChainTrace params (c.storage, bs) (c'.storage, bs') ∧ Unblemished params c' bs' ∧
      c.tip.chainwork ≤ c'.tip.chainwork := by
  obtain ⟨new, gone, old, t, w, hbs, ha, ⟨s, events, hswitch, rfl⟩ | ⟨hash, message, hfail, rfl⟩⟩ :=
    activateRound_cases hu.standing h
  · obtain ⟨htrace, -, hpoint⟩ := switchTo_trace ha.fork ha.from_tip ha.to_top hswitch
    have hclean : ∀ n ∈ new, c.isInvalid n.body.hash = false := by
      rw [switchTo_eq ha.fork ha.from_tip ha.to_top] at hswitch
      split at hswitch
      · cases hswitch
      · rename_i hnone
        intro n hn
        exact (Bool.not_eq_true _).mp (List.find?_eq_none.mp hnone n hn)
    obtain ⟨rest, hrest⟩ := List.head?_eq_some_iff.mp ha.to_top
    rw [← hbs] at htrace
    have hbase := htrace.based hu.standing.based
    have hstored : s.tree w.body.hash = some w :=
      hbase.active.branch.stored w (List.mem_of_head? ha.to_top)
    refine ⟨new ++ old, htrace, ⟨⟨hbase, w, rest, hrest, rfl, hpoint⟩, fun k => ?_, fun n hn => ?_⟩,
      ?_⟩
    · rw [switchTo_prunedAt hswitch]
      exact hu.whole k
    · rcases List.mem_append.mp hn with hn | hn
      · exact hclean n hn
      · exact hu.active n (hbs ▸ List.mem_append_right gone hn)
    · rw [Storage.entryAt_chainwork hstored]
      exact Nat.le_of_lt ha.heavier
  · have hstorage := c.invalidate_storage hash message
    have hbase := hu.standing.based
    obtain ⟨n, hn, rfl⟩ := switchTo_blames ha.fork ha.from_tip ha.to_top hu.whole hfail
    have hstored : c.storage.tree n.body.hash = some n :=
      ha.fork.path.stored n (List.mem_append_left _ hn)
    -- whatever is remembered now is a stored block off the active chain
    let P : Hash → Prop := fun k => c.storage.hasBlock k = true ∧ ∀ m ∈ bs, m.body.hash ≠ k
    have hchild : ∀ k, P k → ∀ e ∈ c.storage.childrenOf k, P e.hash := by
      rintro k ⟨hk, hoff⟩ e he
      obtain ⟨row, hrow, hprev⟩ := Storage.mem_childrenOf he
      have hne : k ≠ nullHash := by
        rintro rfl
        rw [hnull] at hk
        cases hk
      exact ⟨Storage.hasBlock_iff.mpr ⟨_, Storage.tree_eq_some.mpr ⟨row, hrow, rfl⟩⟩,
        hbase.child_off hne hoff hrow hprev⟩
    have hblamed : P n.body.hash := by
      refine ⟨Storage.hasBlock_iff.mpr ⟨n, hstored⟩, fun m hm heq => ?_⟩
      have hm' : c.storage.tree m.body.hash = some m := hbase.active.branch.stored m hm
      have hsame := hbase.tree.eq_of_hash hm' hstored heq
      exact ha.fork.apart n hn (hbs ▸ hsame ▸ hm)
    refine ⟨bs, ?_, ⟨hu.standing.of_eq hstorage (c.invalidate_tip _ _), ?_, fun m hm => ?_⟩, ?_⟩
    · rw [hstorage]
    · rw [hstorage]
      exact hu.whole
    · by_contra hbad
      rcases Blockchain.invalidate_marks P hchild hblamed ((Bool.not_eq_false _).mp hbad) with
        hold | ⟨-, hoff⟩
      · rw [hu.active m hm] at hold
        cases hold
      · exact hoff m hm rfl
    · rw [c.invalidate_tip]

omit [ScanOrder Hash] in
/-- A hash that is unknown after some steps was unknown before them. -/
theorem hasBlock_of_trace {a b : Storage × List TreeNode} (h : ChainTrace params a b)
    {k : Hash} (hk : b.1.hasBlock k = false) : a.1.hasBlock k = false := by
  rw [← Bool.not_eq_true] at hk ⊢
  intro hstored
  obtain ⟨n, hn⟩ := Storage.hasBlock_iff.mp hstored
  exact hk (Storage.hasBlock_iff.mpr ⟨n, h.tree_mono hn⟩)

/-- So does a run of the activation. -/
theorem visits_unblemished {a b : Activation} {bs : List TreeNode}
    (hu : Unblemished params a.chain bs) (hnull : b.chain.storage.hasBlock nullHash = false)
    (h : Visits (activateRound params) a b) :
    ∃ bs', ChainTrace params (a.chain.storage, bs) (b.chain.storage, bs') ∧
      Unblemished params b.chain bs' ∧ a.chain.tip.chainwork ≤ b.chain.tip.chainwork := by
  induction h with
  | start => exact ⟨bs, .refl, hu, Nat.le_refl _⟩
  | @step b b' hvisits hnext ih =>
    obtain ⟨bs₁, -, hs₁⟩ := visits_standing hu.standing hvisits
    obtain ⟨bs₂, htrace₂, -⟩ := activateRound_standing hs₁ hnext
    have hnull₁ := hasBlock_of_trace htrace₂ hnull
    obtain ⟨bs₃, htrace₃, hu₃, hwork₃⟩ := ih hnull₁
    obtain ⟨bs₄, htrace₄, hu₄, hwork₄⟩ := activateRound_unblemished hu₃ hnull₁ hnext
    exact ⟨bs₄, htrace₃.trans htrace₄, hu₄, hwork₃.trans hwork₄⟩

/-- A block that is stored already is answered and nothing is remembered. -/
theorem Blockchain.admitBlock_remembers {now : Nat} {c c' : Blockchain} {b : Block}
    {r : AddBlockResult} (h : c.admitBlock params now b = .ok (.answered c' r)) :
    c' = c ∨ (c.storage.hasBlock b.hash = false ∧ ∃ reason, c' = c.remember b.hash reason) := by
  rcases admitBlock_answered h with rfl | ⟨reason, rfl⟩
  · exact .inl rfl
  · cases hstored : c.storage.hasBlock b.hash with
    | false => exact .inr ⟨rfl, reason, rfl⟩
    | true =>
      unfold admitBlock at h
      split at h
      · injection Except.ok.inj h with hc _
        exact .inl hc.symm
      · injection Except.ok.inj h with hc _
        exact .inl hc.symm

/-- A submitted block keeps the active chain unremembered, and the tip only gains work. -/
theorem addBlock_unblemished {rounds now : Nat} {c c' : Blockchain} {b : Block}
    {bs : List TreeNode} {answer : Except PyError AddBlockResult} (hu : Unblemished params c bs)
    (hnull : c'.storage.hasBlock nullHash = false)
    (h : c.addBlock params rounds now b = some (c', answer)) :
    ∃ bs', ChainTrace params (c.storage, bs) (c'.storage, bs') ∧ Unblemished params c' bs' ∧
      c.tip.chainwork ≤ c'.tip.chainwork := by
  rcases Blockchain.addBlock_cases h with ⟨e, -, rfl, -⟩ | ⟨r, haccept, -⟩ |
    ⟨p, work, r, outcome, hplace, hvisits, -, -⟩
  · exact ⟨bs, .refl, hu, Nat.le_refl _⟩
  · rcases Blockchain.admitBlock_remembers haccept with rfl | ⟨hunknown, reason, rfl⟩
    · exact ⟨bs, .refl, hu, Nat.le_refl _⟩
    · refine ⟨bs, .refl, ⟨hu.standing.of_eq rfl rfl, hu.whole, fun n hn => ?_⟩, Nat.le_refl _⟩
      by_contra hbad
      have hmem := Blockchain.isInvalid_iff.mp ((Bool.not_eq_false _).mp hbad)
      rcases Blockchain.mem_setInvalid.mp hmem with hold | heq
      · have hactive := hu.active n hn
        rw [Blockchain.isInvalid_iff.mpr hold] at hactive
        cases hactive
      · -- an active block is stored
        have hstored : c.storage.tree n.body.hash = some n :=
          hu.standing.based.active.branch.stored n hn
        rw [← heq, Storage.hasBlock_iff.mpr ⟨n, hstored⟩] at hunknown
        cases hunknown
  · obtain ⟨hstep, hs₁⟩ := hplace.standing hu.standing
    have hu₁ : Unblemished params (c.place b p work) bs := by
      refine ⟨hs₁, fun k => ?_, hu.active⟩
      unfold Blockchain.place Storage.prunedAt
      dsimp only
      rw [Table.lookup_insert_if]
      split
      · simp
      · exact hu.whole k
    obtain ⟨bs', htrace, hu', hwork⟩ :=
      visits_unblemished (a := ⟨c.place b p work, false⟩) hu₁ hnull hvisits
    exact ⟨bs', htrace.head hstep, hu', hwork⟩

end ScarletCoin
