import ScarletCoin.Invariants.Activation

/-!
# Most work

A branch connects if every block above genesis passes the checks over the coins that the blocks
below it leave (`Connects`). A switch that fails blames a block whose branch does not connect
(`switchTo_breaks`), so as long as no body is dropped, a stored block is remembered as invalid only
if its branch does not connect (`Reachable.remembered_broken`).

If every submitted block is answered, the activation has come to rest after each call
(`Answered.settled`): no stored branch that connects has more work than the active chain, unless
sixty-four stored blocks that are at least as heavy are all on branches that do not connect
(`Answered.tip_mostWork`). So the work of the tip does not depend on the order in which the blocks
came (`Answered.tips_agree`).
-/

set_option autoImplicit false

namespace ScarletCoin

open Toolkit

/-! ## Branches that connect -/

section Breaks

variable [Crypto]

/-- Every block above the first one passes the checks over the coins below it. -/
def Connects (params : ChainParams) : List TreeNode → Prop
  | b :: n :: rest =>
      (∃ st, checkBlock params (tableAfter (history (n :: rest))) b.body b.entry = .ok st) ∧
        Connects params (n :: rest)
  | _ => True

variable {params : ChainParams}

/-- The active chain connects. -/
theorem Replayable.connects {bs : List TreeNode} (h : Replayable params bs) :
    Connects params bs := by
  induction bs with
  | nil => trivial
  | cons b bs ih =>
    cases bs with
    | nil => trivial
    | cons n rest =>
      obtain ⟨⟨st, -, hcheck, -, -⟩, hrest⟩ := h
      exact ⟨⟨st, hcheck⟩, ih hrest⟩

variable [ScanOrder Hash] {s : Storage}

/-- A block that is blamed when it is connected does not pass its checks. -/
theorem connectBlock_unchecked {block : Block} {entry : BlockIndexEntry} {h : Hash}
    {message : String}
    (hfail : connectBlock params s block entry = .error (.connect h message)) (st : ConnectState) :
    checkBlock params s.utxo block entry ≠ .ok st := by
  intro hcheck
  obtain ⟨st', hloop, h₁⟩ := bind_eq_ok.mp hcheck
  obtain ⟨coinbase, hcoinbase, h₂⟩ := bind_eq_ok.mp h₁
  obtain ⟨hreward, -⟩ := raiseIf_bind_eq_ok.mp h₂
  unfold connectBlock at hfail
  rcases bind_eq_error.mp hfail with hloop' | ⟨st₁, hloop', h₃⟩
  · cases hloop.symm.trans hloop'
  obtain rfl := Except.ok.inj (hloop.symm.trans hloop')
  rcases bind_eq_error.mp h₃ with hnone | ⟨coinbase', hcoinbase', h₄⟩
  · cases hcoinbase.symm.trans hnone
  obtain rfl := Except.ok.inj (hcoinbase.symm.trans hcoinbase')
  rcases raiseIf_bind_eq_error.mp h₄ with ⟨hless, -⟩ | ⟨-, h₅⟩
  · exact hreward hless
  -- the checks pass, so the exception is that of the undo record, which blames nobody
  rcases bind_eq_error.mp h₅ with hput | ⟨s₁, -, hpure⟩
  · rcases bind_eq_error.mp hput with hdata | ⟨data, -, hpure⟩
    · cases encodeUndo_quiet hdata
    · cases hpure
  · cases hpure

/-- Extending the chain fails on a block that does not pass its checks over the coins below it. -/
theorem extend_breaks {g : TreeNode} {s₀ : Storage} (hg : Genesis params s₀ g) {o : TreeNode}
    {rest ns : List TreeNode} (htrace : ChainTrace params (s₀, [g]) (s, o :: rest))
    (hcol : s.NoTxidCollision) (hwhole : s.Unpruned)
    (hstored : ∀ n ∈ ns, s.tree n.body.hash = some n)
    (hstack : Stacked o ns) {h : Hash} {message : String}
    (hfail : extend params s ns = .error (.connect h message)) :
    ∃ done n later, ns = done ++ n :: later ∧ n.body.hash = h ∧
      ¬ Connects params (n :: (done.reverse ++ o :: rest)) := by
  induction ns generalizing s o rest with
  | nil => cases hfail
  | cons n ns ih =>
    have hbase := htrace.based hg.based
    have hn : s.tree n.body.hash = some n := hstored n List.mem_cons_self
    obtain ⟨row, hrow, hknown⟩ := Storage.tree_eq_some.mp hn
    rcases bind_eq_error.mp hfail with hload | ⟨loaded, hload, h₁⟩
    · cases Storage.getBlock_quiet hload
    cases loaded with
    | none =>
      -- the body is there
      unfold Storage.getBlock at hload
      rw [hrow] at hload
      have hbody : row.pruned = false := by
        have hnot := hwhole n.body.hash
        rw [Storage.prunedAt, hrow] at hnot
        simpa using hnot
      dsimp only at hload
      rw [if_neg (by simp [hbody])] at hload
      obtain ⟨b, -, hpure⟩ := bind_eq_ok.mp hload
      cases pure_eq_ok.mp hpure
    | some block =>
      rcases bind_eq_error.mp h₁ with hcon | ⟨s₁, hcon, hrest⟩
      · refine ⟨[], n, ns, rfl, ?_, ?_⟩
        · rcases connectBlock_blames hcon with hquiet | ⟨message', heq⟩
          · cases hquiet
          · injection heq with hh _
            rw [hh, Storage.entryAt_hash]
        · rintro ⟨⟨st, hcheck⟩, -⟩
          obtain ⟨row', hrow', -, -, hbody⟩ := Storage.getBlock_eq_ok.mp hload
          obtain rfl := Option.some.inj (hrow.symm.trans hrow')
          have hblock : block = n.body := by
            rw [hbody, ← hknown]
            rfl
          have hutxo : s.utxo = tableAfter (history (o :: rest)) := (htrace.ledger hg hcol).utxo
          refine connectBlock_unchecked hcon st ?_
          rw [hblock, hutxo, ← hcheck]
          exact checkBlock_congr Storage.entryAt_hash (Storage.entryAt_height hn)
      · obtain ⟨-, hstep⟩ : _ ∧ ChainStep params (s, o :: rest) (s₁, n :: o :: rest) :=
          connectBlock_step hn hstack.1 hstack.2.1 hload hcon
        have htree : s₁.tree = s.tree := by
          obtain ⟨st, data, -, -, rfl⟩ := connectBlock_eq_ok.mp hcon
          exact Storage.tree_modify (recordBlock_connected _ _ _ st data).blocks fun _ => rfl
        have hpruned : s₁.prunedAt = s.prunedAt := by
          obtain ⟨st, data, -, -, rfl⟩ := connectBlock_eq_ok.mp hcon
          exact Storage.prunedAt_modify (recordBlock_connected _ _ _ st data).blocks fun _ => rfl
        obtain ⟨done, m, later, hns, hhash, hbreaks⟩ := ih (htrace.tail hstep)
          (NoTxidCollision.of_tree (fun k m hm => htree ▸ hm) hcol) (fun k => hpruned ▸ hwhole k)
          (fun m hm => htree ▸ hstored m (List.mem_cons_of_mem n hm)) hstack.2.2 hrest
        refine ⟨n :: done, m, later, by rw [hns]; rfl, hhash, ?_⟩
        rw [List.reverse_cons, List.append_assoc]
        exact hbreaks

omit [ScanOrder Hash] in
theorem unwind_tree {gone : List TreeNode} {s' : Storage} (h : unwind s gone = .ok s') :
    s'.tree = s.tree := by
  induction gone generalizing s with
  | nil => rw [Except.ok.inj h]
  | cons b gone ih =>
    obtain ⟨⟨s₁, block⟩, hdis, hrest⟩ := bind_eq_ok.mp h
    obtain ⟨undo, -, hdone⟩ := disconnectBlock_disconnected hdis
    rw [ih hrest, Storage.tree_modify hdone.blocks fun _ => rfl]

/-- A switch that blames a block blames one whose branch does not connect, or one that is
remembered. -/
theorem switchTo_breaks {g t w : TreeNode} {s₀ : Storage} (hg : Genesis params s₀ g)
    {new gone old : List TreeNode} (htrace : ChainTrace params (s₀, [g]) (s, gone ++ old))
    (hcol : s.NoTxidCollision) (hwhole : s.Unpruned) {invalid : Hash → Bool}
    (hf : Fork params s new gone old) (ht : (gone ++ old).head? = some t)
    (hw : (new ++ old).head? = some w) {h : Hash} {message : String}
    (hfail : switchTo params s invalid (s.entryAt t) (s.entryAt w) = .error (.connect h message)) :
    ∃ above n below, new ++ old = above ++ n :: below ∧ n.body.hash = h ∧
      (invalid h = true ∨ ¬ Connects params (n :: below)) := by
  rw [switchTo_eq hf ht hw] at hfail
  split at hfail
  · rename_i n hn
    obtain ⟨above, rest, rfl⟩ := List.append_of_mem (List.mem_of_find?_eq_some hn)
    injection Except.error.inj hfail with hh _
    refine ⟨above, n, rest ++ old, by simp, hh, .inl ?_⟩
    rw [← hh]
    exact List.find?_some (p := fun m : TreeNode => invalid m.body.hash) hn
  · rcases bind_eq_error.mp hfail with hun | ⟨s₁, hun, h₁⟩
    · cases unwind_quiet hf.common hf.based hwhole hun
    · cases hex : extend params s₁ new.reverse with
      | ok s₂ =>
        rw [hex] at h₁
        cases h₁
      | error e =>
        rw [hex] at h₁
        obtain rfl : e = .connect h message := Except.error.inj h₁
        obtain ⟨o, below, rfl⟩ := List.exists_cons_of_ne_nil hf.common
        have hdown := unwind_trace hf.common hf.based hun
        have htree := unwind_tree hun
        obtain ⟨done, n, later, hns, hhash, hbreaks⟩ := extend_breaks hg (htrace.trans hdown)
          (NoTxidCollision.of_tree (fun k m hm => htree ▸ hm) hcol)
          (fun k => unwind_prunedAt hun ▸ hwhole k)
          (fun n hn => htree ▸ hf.path.stored n (List.mem_append_left _ (List.mem_reverse.mp hn)))
          (Branch.stacked hf.path) hex
        refine ⟨later.reverse, n, done.reverse ++ o :: below, ?_, hhash, .inr hbreaks⟩
        rw [← List.reverse_reverse new, hns]
        simp

end Breaks

/-! ## What is remembered does not connect -/

section Rest

variable [Crypto] [ScanOrder Hash] {params : ChainParams}

/-- Every stored branch that ends in the block breaks a rule. -/
def Broken (params : ChainParams) (s : Storage) (h : Hash) : Prop :=
  ∀ n below, Branch (lineage params) s.tree (n :: below) → n.body.hash = h →
    ¬ Connects params (n :: below)

omit [ScanOrder Hash] in
/-- More stored blocks leave a broken block broken. -/
theorem Broken.of_tree {s s' : Storage} {h : Hash} (hb : Broken params s h)
    (htree : ∀ k n, s.tree k = some n → s'.tree k = some n) (hT : GoodTree params s.tree)
    (hT' : GoodTree params s'.tree) (hstored : s.hasBlock h = true) : Broken params s' h := by
  intro n below hpath hn
  obtain ⟨m, hm⟩ := Storage.hasBlock_iff.mp hstored
  obtain ⟨rest, hrest⟩ := hT.wellRooted.exists_branch hm
  have hkey : m.body.hash = h := hT.keyed hm
  have hsame : n = m :=
    hT'.eq_of_hash (hpath.stored n List.mem_cons_self) (htree _ _ hm) (hn.trans hkey.symm)
  subst hsame
  rw [hpath.tail_unique (hrest.mono htree)]
  exact hb n rest hrest hn

omit [ScanOrder Hash] in
theorem Broken.of_tree_eq {s s' : Storage} {h : Hash} (hb : Broken params s h)
    (htree : s'.tree = s.tree) : Broken params s' h := by
  intro n below hpath
  rw [htree] at hpath
  exact hb n below hpath

/-- A block stored on top of a broken one is broken. -/
theorem Broken.child {s : Storage} {h : Hash} (hb : Broken params s h) (hnull : h ≠ nullHash)
    {e : BlockIndexEntry} (he : e ∈ s.childrenOf h) : Broken params s e.hash := by
  intro n below hpath hn hconnects
  obtain ⟨row, hrow, hprev⟩ := Storage.mem_childrenOf he
  have hstored : s.tree n.body.hash = some n := hpath.stored n List.mem_cons_self
  have hheader : n.body.header.prevHash = h := by
    rw [hn, Storage.tree_eq_some.mpr ⟨row, hrow, rfl⟩] at hstored
    rw [← Option.some.inj hstored]
    exact hprev
  cases below with
  | nil => exact hnull (hheader.symm.trans (Branch.root_prevHash hpath))
  | cons p rest =>
    have hlink : n.body.header.prevHash = p.body.hash := hpath.prev_head
    exact hb p rest hpath.tail (hlink.symm.trans hheader) hconnects.2

/-- A remembered block that is stored is broken. -/
def Justified (params : ChainParams) (c : Blockchain) : Prop :=
  ∀ h, c.isInvalid h = true → c.storage.hasBlock h = true → Broken params c.storage h

omit [Crypto] [ScanOrder Hash] in
theorem Storage.hasBlock_of_tree {s s' : Storage} (htree : s'.tree = s.tree) (h : Hash) :
    s'.hasBlock h = s.hasBlock h := by
  rw [Bool.eq_iff_iff, hasBlock_iff, hasBlock_iff, htree]

omit [ScanOrder Hash] in
/-- A chain with the same tree that remembers the same is as justified. -/
theorem Justified.of_tree {c c' : Blockchain} (hj : Justified params c)
    (htree : c'.storage.tree = c.storage.tree) (hinvalid : c'.invalid = c.invalid) :
    Justified params c' := by
  intro h hh hstored
  rw [Blockchain.isInvalid, hinvalid] at hh
  rw [Storage.hasBlock_of_tree htree] at hstored
  exact (hj h hh hstored).of_tree_eq htree

/-- A chain at the end of a run that has kept every body, in which ids do not collide. -/
structure Kept (params : ChainParams) (c : Blockchain) (bs : List TreeNode) : Prop where
  standing : Standing params c bs
  run : ∃ s g, Genesis params s g ∧ ChainTrace params (s, [g]) (c.storage, bs)
  whole : c.storage.Unpruned
  apart : c.storage.NoTxidCollision
  rootless : c.storage.hasBlock nullHash = false

/-- A round of the activation remembers only broken blocks. -/
theorem activateRound_justified {c c' : Blockchain} {bs : List TreeNode} {r r' : Bool}
    (hk : Kept params c bs) (hj : Justified params c)
    (h : activateRound params ⟨c, r⟩ = .next ⟨c', r'⟩) :
    ∃ bs', Kept params c' bs' ∧ Justified params c' := by
  obtain ⟨s₀, g, hg, htrace⟩ := hk.run
  obtain ⟨new, gone, old, t, w, rfl, ha, ⟨s, events, hswitch, rfl⟩ | ⟨hash, message, hfail, rfl⟩⟩ :=
    activateRound_cases hk.standing h
  · obtain ⟨hsteps, -, hpoint⟩ := switchTo_trace ha.fork ha.from_tip ha.to_top hswitch
    -- a switch stores nothing, and nothing new is remembered
    obtain ⟨rest, hrest⟩ := List.head?_eq_some_iff.mp ha.to_top
    have htree := switchTo_tree hswitch
    refine ⟨new ++ old, ⟨⟨hsteps.based ha.fork.based, w, rest, hrest, rfl, hpoint⟩,
      ⟨s₀, g, hg, htrace.trans hsteps⟩, fun k => ?_, ?_, ?_⟩, hj.of_tree htree rfl⟩
    · rw [switchTo_prunedAt hswitch]
      exact hk.whole k
    · exact NoTxidCollision.of_tree (fun k m hm => htree ▸ hm) hk.apart
    · exact (Storage.hasBlock_of_tree htree nullHash).trans hk.rootless
  · have hstorage := c.invalidate_storage hash message
    refine ⟨gone ++ old, ⟨hk.standing.of_eq hstorage (c.invalidate_tip hash message), ?_, ?_, ?_,
      ?_⟩, ?_⟩
    · rw [hstorage]
      exact ⟨s₀, g, hg, htrace⟩
    · rw [hstorage]
      exact hk.whole
    · rw [hstorage]
      exact hk.apart
    · rw [hstorage]
      exact hk.rootless
    · -- the block that is blamed is broken, and so is whatever is built on it
      obtain ⟨above, n, below, hpath, rfl, hwhy⟩ :=
        switchTo_breaks hg htrace hk.apart hk.whole ha.fork ha.from_tip ha.to_top hfail
      have hbranch : Branch (lineage params) c.storage.tree (n :: below) :=
        (hpath ▸ ha.fork.path).suffix (List.cons_ne_nil _ _)
      have hstored : c.storage.hasBlock n.body.hash = true :=
        Storage.hasBlock_iff.mpr ⟨n, hbranch.stored n List.mem_cons_self⟩
      -- remembered before, or its connection failed on this branch
      have hbroken : Broken params c.storage n.body.hash := by
        rcases hwhy with hknown | hbreaks
        · exact hj _ hknown hstored
        · intro m rest hm heq
          obtain rfl := hk.standing.based.tree.eq_of_hash (hm.stored m List.mem_cons_self)
            (hbranch.stored n List.mem_cons_self) heq
          rwa [hm.tail_unique hbranch]
      have hchild : ∀ k, c.storage.hasBlock k = true ∧ Broken params c.storage k →
          ∀ e ∈ c.storage.childrenOf k,
            c.storage.hasBlock e.hash = true ∧ Broken params c.storage e.hash := by
        rintro k ⟨hk', hb⟩ e he
        obtain ⟨row, hrow, -⟩ := Storage.mem_childrenOf he
        have hne : k ≠ nullHash := by
          rintro rfl
          rw [hk.rootless] at hk'
          cases hk'
        exact ⟨Storage.hasBlock_iff.mpr ⟨_, Storage.tree_eq_some.mpr ⟨row, hrow, rfl⟩⟩,
          hb.child hne he⟩
      intro k hk' hstored'
      rw [hstorage] at hstored' ⊢
      rcases Blockchain.invalidate_marks _ hchild ⟨hstored, hbroken⟩ hk' with hold | ⟨-, hnew⟩
      · exact hj k hold hstored'
      · exact hnew

/-! ## Runs -/

omit [ScanOrder Hash] in
/-- A step brings no body back. -/
theorem ChainStep.unpruned {a b : Storage × List TreeNode} (h : ChainStep params a b)
    (hb : b.1.Unpruned) : a.1.Unpruned := by
  cases h with
  | @store s bs n p hnew _ _ _ _ =>
    intro k
    by_cases hk : k = n.body.hash
    · have hnone : s.prunedAt k = none := by
        rw [hk, Storage.prunedAt, Option.map_eq_none_iff]
        exact Option.map_eq_none_iff.mp hnew
      show s.prunedAt k ≠ some true
      rw [hnone]
      exact (Option.some_ne_none true).symm
    · have hsame : (s.insertNode n).prunedAt k = s.prunedAt k := by
        rw [Storage.prunedAt, Storage.insertNode, Table.lookup_insert_if, if_neg hk,
          Storage.prunedAt]
      exact hsame ▸ hb k
  | header headers => exact hb
  | point => exact hb
  | @prune s s' n rest bound _ hpruned =>
    intro k
    rcases hpruned.rows k with heq | ⟨-, row, -, heq⟩
    · have hsame : s'.prunedAt k = s.prunedAt k := by rw [Storage.prunedAt, heq, Storage.prunedAt]
      exact hsame ▸ hb k
    · refine absurd ?_ (hb k)
      show s'.prunedAt k = some true
      rw [Storage.prunedAt, heq]
      rfl
  | @disconnect s s' b n rest undo _ hdis =>
    have hsame : s'.prunedAt = s.prunedAt := Storage.prunedAt_modify hdis.blocks fun _ => rfl
    exact fun k => hsame ▸ hb k
  | @connect s s' b n rest st data _ _ _ _ _ hcon =>
    have hsame : s'.prunedAt = s.prunedAt := Storage.prunedAt_modify hcon.blocks fun _ => rfl
    exact fun k => hsame ▸ hb k

omit [ScanOrder Hash] in
theorem ChainTrace.unpruned {a b : Storage × List TreeNode} (h : ChainTrace params a b)
    (hb : b.1.Unpruned) : a.1.Unpruned := by
  induction h with
  | refl => exact hb
  | tail _ hstep ih => exact ih (hstep.unpruned hb)

omit [ScanOrder Hash] in
/-- What a chain has kept at the end of some steps it had before them. -/
theorem Kept.of_trace {c c' : Blockchain} {bs bs' : List TreeNode} (hs : Standing params c bs)
    (hrun : ∃ s g, Genesis params s g ∧ ChainTrace params (s, [g]) (c.storage, bs))
    (h : ChainTrace params (c.storage, bs) (c'.storage, bs')) (hwhole : c'.storage.Unpruned)
    (hapart : c'.storage.NoTxidCollision) (hrootless : c'.storage.hasBlock nullHash = false) :
    Kept params c bs :=
  ⟨hs, hrun, h.unpruned hwhole, NoTxidCollision.of_tree (fun _ _ hm => h.tree_mono hm) hapart,
    hasBlock_of_trace h hrootless⟩

/-- Pruning touches neither the tree nor the tip nor what is remembered. -/
theorem Blockchain.prune_keeps (params : ChainParams) (c : Blockchain) (keepBlocks : Int) :
    (c.prune params keepBlocks).1.storage.tree = c.storage.tree ∧
      (c.prune params keepBlocks).1.invalid = c.invalid ∧
      (c.prune params keepBlocks).1.tip = c.tip := by
  unfold prune
  dsimp only
  split
  · exact ⟨rfl, rfl, rfl⟩
  · exact ⟨(Storage.pruneTo_pruned c.storage _).tree_eq, rfl, rfl⟩

/-- A call that drops no body remembers only broken blocks. -/
theorem Call.run_justified {c c' : Blockchain} {op : Call} {bs : List TreeNode}
    (hk : Kept params c bs) (hj : Justified params c) (hwhole : c'.storage.Unpruned)
    (hapart : c'.storage.NoTxidCollision) (hrootless : c'.storage.hasBlock nullHash = false)
    (h : op.run params c = some c') : Justified params c' := by
  have hs := hk.standing
  cases op with
  | addBlock rounds now b =>
    obtain ⟨⟨c₁, answer⟩, hadd, rfl⟩ := Option.map_eq_some_iff.mp h
    rcases Blockchain.addBlock_cases hadd with ⟨e, -, rfl, -⟩ | ⟨r, haccept, -⟩ |
      ⟨p, work, r, outcome, hplace, hvisits, -, -⟩
    · exact hj
    · rcases Blockchain.admitBlock_remembers haccept with rfl | ⟨hunknown, reason, rfl⟩
      · exact hj
      · intro k hk' hstored
        rcases Blockchain.mem_setInvalid.mp (Blockchain.isInvalid_iff.mp hk') with hold | rfl
        · exact hj k (Blockchain.isInvalid_iff.mpr hold) hstored
        · cases (show c.storage.hasBlock b.hash = true from hstored).symm.trans hunknown
    · obtain ⟨hstep, hs₁⟩ := hplace.standing hs
      obtain ⟨bs₁, htrace, -⟩ := visits_standing (a := ⟨c.place b p work, false⟩) hs₁ hvisits
      obtain ⟨s₀, g, hg, hstart⟩ := hk.run
      have hk₁ : Kept params (c.place b p work) bs :=
        .of_trace hs₁ ⟨s₀, g, hg, hstart.tail hstep⟩ htrace hwhole hapart hrootless
      have hj₁ : Justified params (c.place b p work) := by
        intro k hk' hstored
        -- a block that is remembered is not stored again
        have hne : k ≠ b.hash := by
          rintro rfl
          exact Bool.false_ne_true (hplace.notInvalid.symm.trans hk')
        have hbefore : c.storage.hasBlock k = true := by
          rw [Storage.hasBlock, Blockchain.place, Table.lookup_insert_if, if_neg hne] at hstored
          exact hstored
        exact (hj k hk' hbefore).of_tree (fun _ _ hn => hstep.tree_mono hn) hs.based.tree
          hs₁.based.tree hbefore
      obtain ⟨bs', -, hj'⟩ := hvisits.invariant
        (fun a => ∃ bs', Kept params a.chain bs' ∧ Justified params a.chain) ⟨bs, hk₁, hj₁⟩
        fun a a' _ ha hnext => by
          obtain ⟨_, hka, hja⟩ := ha
          exact activateRound_justified hka hja hnext
      exact hj'
  | addHeader header =>
    rcases Call.run_addHeader h with rfl | ⟨p, work, rfl⟩
    · exact hj
    · exact hj.of_tree rfl rfl
  | prune keepBlocks =>
    obtain rfl := Option.some.inj h
    obtain ⟨htree, hinvalid, -⟩ := c.prune_keeps params keepBlocks
    exact hj.of_tree htree hinvalid

/-- On a reachable chain that has kept every body, what is remembered of the stored blocks is
broken. -/
theorem Reachable.justified {c : Blockchain} (h : Reachable params c) (hwhole : c.storage.Unpruned)
    (hapart : c.storage.NoTxidCollision) (hrootless : c.storage.hasBlock nullHash = false) :
    Justified params c := by
  induction h with
  | create hc =>
    obtain ⟨-, -, -, hinvalid⟩ := Blockchain.create_standing hc
    intro k hk
    rw [Blockchain.isInvalid, hinvalid] at hk
    cases hk
  | call op hreach hop ih =>
    obtain ⟨s, g, bs, hg, hstart, hs⟩ := hreach.run
    obtain ⟨bs', htrace, -⟩ := Call.run_standing hs hop
    have hk := Kept.of_trace hs ⟨s, g, hg, hstart⟩ htrace hwhole hapart hrootless
    exact Call.run_justified hk (ih hk.whole hk.apart hk.rootless) hwhole hapart hrootless hop

/-- **What is remembered does not connect.** On a reachable chain that has kept every body, no
stored branch that ends in a block remembered as invalid connects: some block of it breaks a rule
over the coins below. -/
theorem Reachable.remembered_broken {c : Blockchain} (h : Reachable params c)
    (hwhole : c.storage.Unpruned) (hapart : c.storage.NoTxidCollision)
    (hrootless : c.storage.hasBlock nullHash = false) {n : TreeNode} {below : List TreeNode}
    (hknown : c.isInvalid n.body.hash = true)
    (hbranch : Branch (lineage params) c.storage.tree (n :: below)) :
    ¬ Connects params (n :: below) := by
  have hstored := hbranch.stored n List.mem_cons_self
  exact h.justified hwhole hapart hrootless _ hknown (Storage.hasBlock_iff.mpr ⟨n, hstored⟩) n
    below hbranch rfl

/-! ## Where the activation comes to rest -/

/-- A round looks at no block of the work `w`: as many remembered blocks are at least as heavy. -/
def Blockchain.Crowded (c : Blockchain) (w : Nat) : Prop :=
  ∃ hs : List Hash, hs.Nodup ∧ hs.length = MAX_CANDIDATES ∧
    ∀ h ∈ hs, c.isInvalid h = true ∧ ∃ m, c.storage.tree h = some m ∧ w ≤ m.chainwork

/-- Each stored block that beats the tip is remembered, or a round does not get to look at it. -/
def Blockchain.Settled (c : Blockchain) : Prop :=
  ∀ h n, c.storage.tree h = some n → c.tip.chainwork < n.chainwork →
    c.isInvalid h = true ∨ c.Crowded n.chainwork

omit [Crypto] in
theorem Storage.nodup_bestEntries (s : Storage) (limit : Nat) :
    ((s.bestEntries limit).map BlockIndexEntry.hash).Nodup := by
  have hall : (s.blockRows.map fun p => p.2.entry p.1).map BlockIndexEntry.hash =
      s.blockRows.map Prod.fst := by
    rw [List.map_map]
    rfl
  have hperm :=
    (List.perm_insertionSort Storage.moreWork (s.blockRows.map fun p => p.2.entry p.1)).map
    BlockIndexEntry.hash
  rw [hall] at hperm
  exact (hperm.nodup_iff.mpr (nodup_scan s.blocks)).sublist ((List.take_sublist _ _).map _)

omit [Crypto] in
/-- Where a round finds no candidate, the activation has come to rest. -/
theorem Blockchain.settled_of_none {c : Blockchain} (h : c.bestCandidate = none) : c.Settled := by
  intro k n hn hwork
  obtain ⟨row, hrow, rfl⟩ := Storage.tree_eq_some.mp hn
  have hsorted := bestEntries_sorted c.storage MAX_CANDIDATES
  rcases mem_bestEntries hrow MAX_CANDIDATES with hmem | ⟨hlength, hall⟩
  · exact .inl (firstCandidate_none hsorted h hmem hwork)
  · refine .inr ⟨(c.storage.bestEntries MAX_CANDIDATES).map BlockIndexEntry.hash,
      c.storage.nodup_bestEntries _, by rw [List.length_map, hlength], fun x hx => ?_⟩
    obtain ⟨e, he, rfl⟩ := List.mem_map.mp hx
    have hle := hall e he
    have hbeats : c.tip.chainwork < row.chainwork := hwork
    refine ⟨firstCandidate_none hsorted h he (by omega), ?_⟩
    obtain ⟨row', hrow', heq⟩ := Storage.bestEntries_stored he
    refine ⟨row'.known, Storage.tree_eq_some.mpr ⟨row', hrow', rfl⟩, ?_⟩
    rw [heq] at hle
    exact hle

omit [Crypto] [ScanOrder Hash] in
/-- Remembering more keeps the activation at rest. -/
theorem Blockchain.Settled.of_tree {c c' : Blockchain} (h : c.Settled)
    (htree : c'.storage.tree = c.storage.tree) (htip : c'.tip = c.tip)
    (hinvalid : ∀ k, c.isInvalid k = true → c'.isInvalid k = true) : c'.Settled := by
  intro k n hn hwork
  rw [htree] at hn
  rw [htip] at hwork
  rcases h k n hn hwork with hknown | ⟨hs, hnodup, hlength, hall⟩
  · exact .inl (hinvalid k hknown)
  · refine .inr ⟨hs, hnodup, hlength, fun x hx => ⟨hinvalid x (hall x hx).1, ?_⟩⟩
    rw [htree]
    exact (hall x hx).2

/-- The call does not raise. -/
def Call.Answers (params : ChainParams) (c : Blockchain) : Call → Prop
  | .addBlock rounds now b => ∃ c' r, c.addBlock params rounds now b = some (c', .ok r)
  | .addHeader _ => True
  | .prune _ => True

/-- The states that calls lead to from a new chain when no submitted block makes one raise. -/
inductive Answered (params : ChainParams) : Blockchain → Prop where
  | create {c : Blockchain} : Blockchain.create params = .ok c → Answered params c
  | call {c c' : Blockchain} (op : Call) :
      Answered params c → op.Answers params c → op.run params c = some c' → Answered params c'

theorem Answered.reachable {c : Blockchain} (h : Answered params c) : Reachable params c := by
  induction h with
  | create hc => exact .create hc
  | call op _ _ hop ih => exact .call op ih hop

/-- A round that halts with an answer found no candidate. -/
theorem activateRound_halt_none {c c' : Blockchain} {r flag : Bool}
    (h : activateRound params ⟨c, r⟩ = .halt (c', .ok flag)) : c.bestCandidate = none := by
  unfold activateRound at h
  dsimp only at h
  split at h
  · assumption
  · split at h
    · cases h
    · cases h
    · injection h with h
      cases (Prod.mk.inj h).2

theorem Call.run_settled {c c' : Blockchain} {op : Call} (hc : c.Settled)
    (hanswers : op.Answers params c) (h : op.run params c = some c') : c'.Settled := by
  cases op with
  | addBlock rounds now b =>
    obtain ⟨⟨c₁, answer⟩, hadd, rfl⟩ := Option.map_eq_some_iff.mp h
    obtain ⟨c₂, r, hok⟩ := hanswers
    rw [hok] at hadd
    obtain ⟨rfl, rfl⟩ := Prod.mk.inj (Option.some.inj hadd)
    rcases Blockchain.addBlock_cases hok with ⟨e, -, rfl, -⟩ | ⟨r', haccept, -⟩ |
      ⟨p, work, flag, outcome, -, -, hhalt, hanswer⟩
    · exact hc
    · rcases Blockchain.admitBlock_remembers haccept with rfl | ⟨-, reason, rfl⟩
      · exact hc
      · exact hc.of_tree rfl rfl fun k hk => Blockchain.isInvalid_iff.mpr
          (Blockchain.mem_setInvalid.mpr (.inl (Blockchain.isInvalid_iff.mp hk)))
    · cases outcome with
      | error e => cases hanswer
      | ok flag' => exact Blockchain.settled_of_none (activateRound_halt_none hhalt)
  | addHeader header =>
    rcases Call.run_addHeader h with rfl | ⟨p, work, rfl⟩
    · exact hc
    · exact hc.of_tree rfl rfl fun _ hk => hk
  | prune keepBlocks =>
    obtain rfl := Option.some.inj h
    obtain ⟨htree, hinvalid, htip⟩ := c.prune_keeps params keepBlocks
    refine hc.of_tree htree htip fun k hk => ?_
    rw [Blockchain.isInvalid, hinvalid]
    exact hk

omit [ScanOrder Hash] in
/-- A new chain has genesis only. -/
theorem Blockchain.create_settled {c : Blockchain} (h : Blockchain.create params = .ok c) :
    c.Settled := by
  obtain ⟨g, hg, hs, -⟩ := Blockchain.create_standing h
  obtain ⟨t, rest, hbs, htip, -⟩ := hs.tip
  obtain ⟨rfl, -⟩ := List.cons.inj hbs
  have hstored : c.storage.tree g.body.hash = some g :=
    hs.based.active.branch.stored g List.mem_cons_self
  intro k n hn hwork
  obtain ⟨row, hrow, rfl⟩ := Storage.tree_eq_some.mp hn
  rw [htip, Storage.entryAt_chainwork hstored] at hwork
  rw [show c.storage.blocks = _ from hg.blocks, Table.lookup_insert_if] at hrow
  split at hrow
  · rw [← Option.some.inj hrow] at hwork
    exact absurd hwork (Nat.lt_irrefl _)
  · cases hrow

theorem Answered.settled {c : Blockchain} (h : Answered params c) : c.Settled := by
  induction h with
  | create hc => exact Blockchain.create_settled hc
  | call op _ hanswers hop ih => exact Call.run_settled ih hanswers hop

/-- So many stored blocks of the work `w` or more are broken that a round looks at no block of this
work. -/
def Storage.Blocked (params : ChainParams) (s : Storage) (w : Nat) : Prop :=
  ∃ hs : List Hash, hs.Nodup ∧ hs.length = MAX_CANDIDATES ∧
    ∀ k ∈ hs, Broken params s k ∧ ∃ m, s.tree k = some m ∧ w ≤ m.chainwork

/-- The active chain of a reachable chain connects, block by block. -/
theorem Reachable.tip_connects {c : Blockchain} (h : Reachable params c)
    (hapart : c.storage.NoTxidCollision) :
    ∃ t rest, c.tip = c.storage.entryAt t ∧ c.tip.chainwork = t.chainwork ∧
      Branch (lineage params) c.storage.tree (t :: rest) ∧ Connects params (t :: rest) := by
  obtain ⟨s, g, bs, hg, htrace, hs⟩ := h.run
  obtain ⟨t, rest, rfl, htip, -⟩ := hs.tip
  have hbranch := hs.based.active.branch
  have hwork : c.tip.chainwork = t.chainwork := by
    rw [htip, Storage.entryAt_chainwork (hbranch.stored t List.mem_cons_self)]
  exact ⟨t, rest, htip, hwork, hbranch, (htrace.replayable hg hapart).connects⟩

/-- On an answered chain, a stored branch that connects and is heavier than the tip is blocked. -/
theorem Answered.blocked {c : Blockchain} (h : Answered params c) (hwhole : c.storage.Unpruned)
    (hapart : c.storage.NoTxidCollision) (hrootless : c.storage.hasBlock nullHash = false)
    {n : TreeNode}
    {below : List TreeNode} (hpath : Branch (lineage params) c.storage.tree (n :: below))
    (hconnects : Connects params (n :: below)) (hbeats : c.tip.chainwork < n.chainwork) :
    c.storage.Blocked params n.chainwork := by
  have hjustified := h.reachable.justified hwhole hapart hrootless
  have hn : c.storage.tree n.body.hash = some n := hpath.stored n List.mem_cons_self
  rcases h.settled _ n hn hbeats with hknown | ⟨hs', hnodup, hlength, hall⟩
  · have hbroken := hjustified _ hknown (Storage.hasBlock_iff.mpr ⟨n, hn⟩)
    exact absurd hconnects (hbroken n below hpath rfl)
  · refine ⟨hs', hnodup, hlength, fun k hk => ?_⟩
    obtain ⟨hknown, m, hm, hwork⟩ := hall k hk
    exact ⟨hjustified k hknown (Storage.hasBlock_iff.mpr ⟨m, hm⟩), m, hm, hwork⟩

/-- **The chain with the most work.** As long as no body is dropped and every submitted block is
answered, the active chain connects, and no stored branch that connects has more work, unless
sixty-four stored blocks that are at least as heavy are on branches that do not connect. -/
theorem Answered.tip_mostWork {c : Blockchain} (h : Answered params c) (hwhole : c.storage.Unpruned)
    (hapart : c.storage.NoTxidCollision) (hrootless : c.storage.hasBlock nullHash = false) :
    ∃ t rest, c.tip = c.storage.entryAt t ∧ Branch (lineage params) c.storage.tree (t :: rest) ∧
      Connects params (t :: rest) ∧
      ∀ n below, Branch (lineage params) c.storage.tree (n :: below) →
        Connects params (n :: below) →
        n.chainwork ≤ t.chainwork ∨ c.storage.Blocked params n.chainwork := by
  obtain ⟨t, rest, htip, hwork, hbranch, hconnected⟩ := h.reachable.tip_connects hapart
  refine ⟨t, rest, htip, hbranch, hconnected, fun n below hpath hconnects => ?_⟩
  by_cases hle : n.chainwork ≤ t.chainwork
  · exact .inl hle
  · exact .inr (h.blocked hwhole hapart hrootless hpath hconnects (hwork ▸ not_le.mp hle))

omit [ScanOrder Hash] in
/-- What is blocked depends on the stored blocks alone. -/
theorem Storage.Blocked.of_tree {s s' : Storage} {w : Nat} (h : s.Blocked params w)
    (htree : s'.tree = s.tree) : s'.Blocked params w := by
  obtain ⟨hs, hnodup, hlength, hall⟩ := h
  refine ⟨hs, hnodup, hlength, fun k hk => ?_⟩
  obtain ⟨hbroken, m, hm, hle⟩ := hall k hk
  exact ⟨fun n below hpath hn => hbroken n below (htree ▸ hpath) hn, m, htree ▸ hm, hle⟩

/-- **The order of the blocks does not matter.** Two chains that have come to store the same blocks,
in whatever order and with whatever else they were asked, have tips of the same work, unless
sixty-four broken blocks are heavier than one of the tips. -/
theorem Answered.tips_agree {c₁ c₂ : Blockchain} (h₁ : Answered params c₁) (h₂ : Answered params c₂)
    (htree : c₁.storage.tree = c₂.storage.tree) (hwhole₁ : c₁.storage.Unpruned)
    (hwhole₂ : c₂.storage.Unpruned) (hapart : c₁.storage.NoTxidCollision)
    (hrootless : c₁.storage.hasBlock nullHash = false) :
    c₁.tip.chainwork = c₂.tip.chainwork ∨
      c₁.storage.Blocked params (min c₁.tip.chainwork c₂.tip.chainwork + 1) := by
  have hapart₂ : c₂.storage.NoTxidCollision := fun k k' n n' hn hn' =>
    hapart k k' n n' (htree ▸ hn) (htree ▸ hn')
  have hrootless₂ : c₂.storage.hasBlock nullHash = false := by
    rw [← hrootless, Storage.hasBlock_of_tree htree]
  obtain ⟨t₁, rest₁, -, hwork₁, hpath₁, hconnects₁⟩ := h₁.reachable.tip_connects hapart
  obtain ⟨t₂, rest₂, -, hwork₂, hpath₂, hconnects₂⟩ := h₂.reachable.tip_connects hapart₂
  -- a lighter tip must have been kept from the heavier one
  have hlighter : ∀ {v w : Nat} {s : Storage}, v < w → s.Blocked params w →
      s.Blocked params (v + 1) := by
    rintro v w s hlt ⟨hs, hnodup, hlength, hall⟩
    exact ⟨hs, hnodup, hlength, fun k hk => ⟨(hall k hk).1, (hall k hk).2.imp fun m hm =>
      ⟨hm.1, Nat.le_trans hlt hm.2⟩⟩⟩
  rcases Nat.lt_trichotomy c₁.tip.chainwork c₂.tip.chainwork with hlt | heq | hlt
  · right
    rw [Nat.min_eq_left hlt.le]
    rw [hwork₂] at hlt
    exact hlighter hlt (h₁.blocked hwhole₁ hapart hrootless (htree ▸ hpath₂) hconnects₂ hlt)
  · exact .inl heq
  · right
    rw [Nat.min_eq_right hlt.le]
    rw [hwork₁] at hlt
    have hblocked := h₂.blocked hwhole₂ hapart₂ hrootless₂ (htree ▸ hpath₁) hconnects₁ hlt
    exact (hlighter hlt hblocked).of_tree htree

end Rest

section Instances

attribute [local instance] Sample.crypto Sample.order

theorem Storage.unpruned_of_rows {s : Storage} (h : (s.blockRows.all fun p => !p.2.pruned) = true) :
    s.Unpruned := by
  intro k hk
  obtain ⟨row, hrow, hpruned⟩ := Option.map_eq_some_iff.mp hk
  have hbody := List.all_eq_true.mp h (k, row) ((mem_scan s.blocks k row).mpr hrow)
  rw [show (k, row).2.pruned = true from hpruned] at hbody
  cases hbody

/-- The submitted block does not raise. -/
def Sample.answers (c : Blockchain) : Call → Bool
  | .addBlock rounds now b => (c.addBlock REGTEST rounds now b).any fun p => p.2.toOption.isSome
  | .addHeader _ => true
  | .prune _ => true

theorem Sample.answers_sound {c : Blockchain} {op : Call} (h : Sample.answers c op = true) :
    op.Answers REGTEST c := by
  cases op with
  | addBlock rounds now b =>
    obtain ⟨⟨c', answer⟩, hadd, hanswer⟩ := (Option.any_eq_true _ _).mp h
    obtain ⟨r, hr⟩ := Option.isSome_iff_exists.mp hanswer
    obtain rfl : answer = .ok r := toOption_eq_some.mp hr
    exact ⟨c', r, hadd⟩
  | addHeader header => trivial
  | prune keepBlocks => trivial

theorem Sample.answered_of_checked {ops : List Call} {c : Blockchain}
    (h : Sample.checkedAfter Sample.answers ops = some c) : Answered REGTEST c :=
  Sample.checkedAfter_runs (fun _ hc => .create hc)
    (fun _ _ _ ha hcheck hop => .call _ ha (Sample.answers_sound hcheck) hop) h

/-- What a chain must show for its memory and its tip to be judged. -/
def Sample.judgeable (c : Blockchain) : Bool :=
  (c.storage.blockRows.all fun p => !p.2.pruned) && decide c.storage.NoTxidCollision &&
    !c.storage.hasBlock nullHash

theorem Sample.judgeable_sound {c : Blockchain} (h : Sample.judgeable c = true) :
    c.storage.Unpruned ∧ c.storage.NoTxidCollision ∧ c.storage.hasBlock nullHash = false := by
  obtain ⟨h, hnull⟩ := Bool.and_eq_true_iff.mp h
  obtain ⟨hrows, hapart⟩ := Bool.and_eq_true_iff.mp h
  exact ⟨Storage.unpruned_of_rows hrows, of_decide_eq_true hapart, (Bool.not_eq_true' _).mp hnull⟩

/-- The block that mints too much is stored and remembered. -/
theorem remembered_broken_refused : ∃ c, Sample.chainAfter Sample.refused = some c ∧
    c.isInvalid greedyBlock.hash = true ∧ c.storage.hasBlock greedyBlock.hash = true ∧
    ∀ n below, c.isInvalid n.body.hash = true →
      Branch (lineage REGTEST) c.storage.tree (n :: below) → ¬ Connects REGTEST (n :: below) := by
  have hrun : ((Sample.chainAfter Sample.refused).any fun c => Sample.judgeable c &&
      decide (c.isInvalid greedyBlock.hash = true ∧ c.storage.hasBlock greedyBlock.hash = true)) =
      true := by
    decide +kernel
  obtain ⟨c, hc, h⟩ := (Option.any_eq_true _ _).mp hrun
  obtain ⟨hjudge, hgreedy⟩ := Bool.and_eq_true_iff.mp h
  obtain ⟨hknown, hstored⟩ := of_decide_eq_true hgreedy
  obtain ⟨hwhole, hapart, hrootless⟩ := Sample.judgeable_sound hjudge
  exact ⟨c, hc, hknown, hstored, fun n below =>
    (Sample.chainAfter_reachable hc).remembered_broken hwhole hapart hrootless⟩

theorem tip_mostWork_refused : ∃ c, Sample.checkedAfter Sample.answers Sample.refused = some c ∧
    c.height = 1 ∧
    ∃ t rest, c.tip = c.storage.entryAt t ∧ Branch (lineage REGTEST) c.storage.tree (t :: rest) ∧
      Connects REGTEST (t :: rest) ∧
      ∀ n below, Branch (lineage REGTEST) c.storage.tree (n :: below) →
        Connects REGTEST (n :: below) →
        n.chainwork ≤ t.chainwork ∨ c.storage.Blocked REGTEST n.chainwork := by
  have hrun : ((Sample.checkedAfter Sample.answers Sample.refused).any
      fun c => Sample.judgeable c && decide (c.height = 1)) = true := by
    decide +kernel
  obtain ⟨c, hc, h⟩ := (Option.any_eq_true _ _).mp hrun
  obtain ⟨hjudge, hheight⟩ := Bool.and_eq_true_iff.mp h
  obtain ⟨hwhole, hapart, hrootless⟩ := Sample.judgeable_sound hjudge
  exact ⟨c, hc, of_decide_eq_true hheight,
    (Sample.answered_of_checked hc).tip_mostWork hwhole hapart hrootless⟩

/-- The blocks of `Sample.overtaken` in another order. -/
def Sample.shuffled : List Call :=
  let a₁ := Sample.regtestBlock Sample.genesisHash 1 0
  let a₂ := Sample.regtestBlock a₁.hash 2 0
  let b₁ := Sample.regtestBlock Sample.genesisHash 1 1
  let b₂ := Sample.regtestBlock b₁.hash 2 1
  let b₃ := Sample.regtestBlock b₂.hash 3 1
  [Sample.submit b₁, Sample.submit a₁, Sample.submit b₂, Sample.submit b₃, Sample.submit a₂]

/-- What is known of the stored blocks, as data. -/
def Sample.treeRows (s : Storage) : List (Hash × Nat × Nat × Block) :=
  s.blockRows.map fun p => (p.1, p.2.height, p.2.chainwork, p.2.body)

theorem Sample.tree_eq_of_rows {s s' : Storage} (h : Sample.treeRows s = Sample.treeRows s') :
    s.tree = s'.tree := by
  have hmem : ∀ (s : Storage) (k : Hash) (n : TreeNode),
      s.tree k = some n ↔ (k, n.height, n.chainwork, n.body) ∈ Sample.treeRows s := by
    intro s k n
    rw [Storage.tree_eq_some, Sample.treeRows, List.mem_map]
    constructor
    · rintro ⟨row, hrow, rfl⟩
      exact ⟨(k, row), (mem_scan s.blocks k row).mpr hrow, rfl⟩
    · rintro ⟨⟨k', row⟩, hrow, heq⟩
      simp only [Prod.mk.injEq] at heq
      obtain ⟨rfl, hheight, hwork, hbody⟩ := heq
      exact ⟨row, (mem_scan s.blocks k' row).mp hrow, by rw [BlockRow.known, hheight, hwork, hbody]⟩
  funext k
  refine Option.ext fun n => ?_
  rw [hmem, hmem, h]

/-- It holds of two chains of which one switched branches and the other never left the heavier
one. -/
theorem tips_agree_shuffled : ∃ c₁ c₂,
    Sample.checkedAfter Sample.answers Sample.overtaken = some c₁ ∧
    Sample.checkedAfter Sample.answers Sample.shuffled = some c₂ ∧
    c₁.notified ≠ c₂.notified ∧ (c₁.tip.chainwork = c₂.tip.chainwork ∨
      c₁.storage.Blocked REGTEST (min c₁.tip.chainwork c₂.tip.chainwork + 1)) := by
  have hrun : ((Sample.checkedAfter Sample.answers Sample.overtaken).any fun c₁ =>
      (Sample.checkedAfter Sample.answers Sample.shuffled).any fun c₂ =>
        Sample.judgeable c₁ && Sample.judgeable c₂ &&
          decide (c₁.notified.length ≠ c₂.notified.length) &&
          decide (Sample.treeRows c₁.storage = Sample.treeRows c₂.storage)) = true := by
    decide +kernel
  obtain ⟨c₁, hc₁, h⟩ := (Option.any_eq_true _ _).mp hrun
  obtain ⟨c₂, hc₂, h⟩ := (Option.any_eq_true _ _).mp h
  simp only [Bool.and_eq_true, decide_eq_true_eq] at h
  obtain ⟨⟨⟨hjudge₁, hjudge₂⟩, hheard⟩, hrows⟩ := h
  obtain ⟨hwhole₁, hapart, hrootless⟩ := Sample.judgeable_sound hjudge₁
  obtain ⟨hwhole₂, -, -⟩ := Sample.judgeable_sound hjudge₂
  exact ⟨c₁, c₂, hc₁, hc₂, fun heq => hheard (congrArg List.length heq),
    (Sample.answered_of_checked hc₁).tips_agree (Sample.answered_of_checked hc₂)
      (Sample.tree_eq_of_rows hrows) hwhole₁ hwhole₂ hapart hrootless⟩

end Instances

end ScarletCoin
