import ScarletCoin.Invariants.Switch

/-!
# Runs of a chain

The calls on a chain are sequences of steps. `Standing c bs` says how a chain `c` stands between two
calls: the tree is good, `bs` is the active chain, and the tip in memory and the stored tip value
both name its first node. A round of the activation loop keeps a chain standing
(`activateRound_standing`), so does every call (`Call.run_standing`), and a new chain stands on
genesis alone (`Blockchain.create_standing`). Hence every reachable chain stands at the end of a
sequence of steps from genesis (`Reachable.run`).
-/

set_option autoImplicit false

namespace ScarletCoin

open Toolkit

variable [Crypto]

/-- How a chain stands between two calls. -/
structure Standing (params : ChainParams) (c : Blockchain) (bs : List TreeNode) : Prop where
  based : Based params (c.storage, bs)
  tip : ∃ n rest, bs = n :: rest ∧ c.tip = c.storage.entryAt n ∧
    c.storage.tipHash = some n.body.hash

/-- The storage and the first node that a new chain starts from. -/
structure Genesis (params : ChainParams) (s : Storage) (g : TreeNode) : Prop where
  node : IsGenesis params g
  admitted : Admitted params 0 g.body
  bounded : g.chainwork < 2 ^ 256
  blocks : s.blocks = (∅ : Table Hash BlockRow).insert g.body.hash
    ⟨0, g.chainwork, true, false, g.body, g.body.transactions.length⟩
  headers : s.headers = ∅
  utxo : s.utxo = Table.insertAll (g.body.transactions.flatMap fun t => t.coins 0) ∅
  undo : ∃ data, encodeUndo [] = .ok data ∧ s.undo = (∅ : Table Hash Bytes).insert g.body.hash data
  tipHash : s.tipHash = some g.body.hash

section NoScan

/-- The only row of a new chain is genesis. -/
theorem Genesis.tree_eq {params : ChainParams} {s : Storage} {g : TreeNode}
    (h : Genesis params s g) {k : Hash} {n : TreeNode} :
    s.tree k = some n ↔ k = g.body.hash ∧ n = g := by
  have hg : (⟨0, g.chainwork, g.body⟩ : TreeNode) = g := by
    have hzero := h.node.2.1
    cases g
    cases hzero
    rfl
  unfold Storage.tree
  rw [h.blocks, Table.lookup_insert_if]
  by_cases hk : k = g.body.hash
  · rw [if_pos hk, Option.map_some, Option.some.injEq]
    constructor
    · rintro rfl
      exact ⟨hk, hg⟩
    · rintro ⟨-, rfl⟩
      exact hg
  · rw [if_neg hk, Finmap.lookup_empty]
    simp [hk]

/-- A new chain is based on genesis. -/
theorem Genesis.based {params : ChainParams} {s : Storage} {g : TreeNode}
    (h : Genesis params s g) : Based params (s, [g]) := by
  have hzero := h.node.2.1
  refine ⟨⟨fun hn => ?_, fun hn => ?_, fun hn => ?_, fun hn => ?_⟩, ?_, fun {k row} hrow => ?_⟩
  · obtain ⟨rfl, rfl⟩ := h.tree_eq.mp hn
    rfl
  · obtain ⟨rfl, rfl⟩ := h.tree_eq.mp hn
    exact .inl h.node
  · obtain ⟨rfl, rfl⟩ := h.tree_eq.mp hn
    rw [hzero]
    exact h.admitted
  · obtain ⟨rfl, rfl⟩ := h.tree_eq.mp hn
    exact h.bounded
  · exact .root (h.tree_eq.mpr ⟨rfl, rfl⟩) h.node.1 hzero
  · have hn := h.tree_eq.mp (Storage.tree_eq_some.mpr ⟨row, hrow, rfl⟩)
    refine iff_of_true ?_ (List.mem_singleton.mpr hn.2)
    rw [show (s, [g]).1.blocks = _ from h.blocks, Table.lookup_insert_if, if_pos hn.1] at hrow
    rw [← Option.some.inj hrow]

end NoScan

omit [Crypto] in
/-- The coinbase of the genesis block claims height zero. -/
theorem genesisCoinbase_height {params : ChainParams} {t : Transaction}
    (h : params.genesisCoinbase = .ok t) : coinbaseHeight t = .ok 0 := by
  obtain ⟨output, -, h₁⟩ := bind_eq_ok.mp h
  obtain ⟨data, hdata, h₂⟩ := bind_eq_ok.mp h₁
  obtain rfl := pure_eq_ok.mp h₂
  unfold encodeCoinbaseData at hdata
  rw [if_neg (by decide)] at hdata
  dsimp only at hdata
  split at hdata
  · obtain rfl := Except.ok.inj hdata
    refine raiseIf_bind_eq_ok.mpr ⟨?_, raiseIf_bind_eq_ok.mpr ⟨?_, ?_⟩⟩
    · simp [Transaction.isCoinbase, OutPoint.isNull, COINBASE_OUTPOINT]
    · simp [HEIGHT_PREFIX_SIZE]
    · have htake : (leBytes HEIGHT_PREFIX_SIZE 0 ++ params.genesisMessage).take HEIGHT_PREFIX_SIZE =
          leBytes HEIGHT_PREFIX_SIZE 0 := List.take_left' (leBytes_length _ _)
      rw [pure_eq_ok, htake]
      rfl
  · cases hdata

/-- The genesis path adds the outputs of the block; of the rest it writes only indexes. -/
theorem applyBlockState_frame (s : Storage) (b : Block) (height : Nat) :
    ∃ txLocation addressHistory, applyBlockState s b height ∅ =
      ⟨s.blocks, s.headers, Table.insertAll (b.transactions.flatMap fun t => t.coins height) s.utxo,
        s.undo, txLocation, addressHistory, s.tipHash, s.pruneMark⟩ := by
  obtain ⟨txLocation, addressHistory, hindex⟩ := indexBlock_frame
    (s.addCoins (b.transactions.flatMap fun t => t.coins height)) b height ∅
  exact ⟨txLocation, addressHistory, hindex⟩

/-- The storage of a new chain. -/
def startStorage (b : Block) (work : Nat) (data : Bytes) (txLocation : Table Hash TxLocation)
    (addressHistory : Table (PubkeyHash × Hash) HistoryRow) : Storage where
  blocks := (∅ : Table Hash BlockRow).insert b.hash ⟨0, work, true, false, b, b.transactions.length⟩
  headers := ∅
  utxo := Table.insertAll (b.transactions.flatMap fun t => t.coins 0) ∅
  undo := (∅ : Table Hash Bytes).insert b.hash data
  txLocation := txLocation
  addressHistory := addressHistory
  tipHash := some b.hash
  pruneMark := none

/-- A new chain is made from a genesis block that passes its checks. -/
theorem Blockchain.create_eq_ok {params : ChainParams} {c : Blockchain}
    (h : Blockchain.create params = .ok c) :
    ∃ b work data txLocation addressHistory, params.genesisBlock = .ok b ∧
      b.checkSanity params.powLimit params.maxBlockSize 0 false = .ok () ∧
      blockWork b.header.bits.toNat = .ok work ∧ work < 2 ^ 256 ∧ encodeUndo [] = .ok data ∧
      c = ⟨startStorage b work data txLocation addressHistory,
        BlockRow.entry b.hash ⟨0, work, true, false, b, b.transactions.length⟩, [], []⟩ := by
  obtain ⟨b, hb, h₁⟩ := bind_eq_ok.mp h
  obtain ⟨_, hsane, h₂⟩ := bind_eq_ok.mp h₁
  obtain ⟨work, hwork, h₃⟩ := bind_eq_ok.mp h₂
  obtain ⟨⟨s, entry⟩, hput, h₄⟩ := bind_eq_ok.mp h₃
  obtain ⟨hfit, hstored⟩ := raiseIf_bind_eq_ok.mp hput
  obtain ⟨rfl, rfl⟩ := Prod.mk.inj (pure_eq_ok.mp hstored)
  obtain ⟨s', hundo, h₅⟩ := bind_eq_ok.mp h₄
  obtain ⟨data, hdata, hwrite⟩ := bind_eq_ok.mp hundo
  let row : BlockRow := ⟨0, work, true, false, b, b.transactions.length⟩
  obtain ⟨txLocation, addressHistory, hframe⟩ := applyBlockState_frame
    { Storage.empty with blocks := Storage.empty.blocks.insert b.hash row } b 0
  refine ⟨b, work, data, txLocation, addressHistory, hb, hsane, hwork, Nat.not_le.mp hfit,
    hdata, ?_⟩
  rw [← pure_eq_ok.mp h₅, ← pure_eq_ok.mp hwrite]
  simp only [row] at hframe
  rw [hframe]
  rfl

/-- A new chain starts from genesis and stands on it. -/
theorem Blockchain.create_standing {params : ChainParams} {c : Blockchain}
    (h : Blockchain.create params = .ok c) :
    ∃ g, Genesis params c.storage g ∧ Standing params c [g] ∧ c.invalid = [] := by
  obtain ⟨b, work, data, txLocation, addressHistory, hb, hsane, hwork, hfit, hdata, hc⟩ :=
    create_eq_ok h
  obtain ⟨coinbase, hcoinbase, hts, -⟩ := ChainParams.genesisBlock_eq_ok hb
  have hfirst : b.coinbase = .ok coinbase := by
    unfold Block.coinbase
    rw [hts]
  have hadm : Admitted params 0 b := ⟨Block.checkSanity_sane hsane, coinbase, hfirst,
      genesisCoinbase_height hcoinbase⟩
  have hgen : IsGenesis params ⟨0, work, b⟩ := ⟨hb, rfl, hwork⟩
  have hgenesis : Genesis params (startStorage b work data txLocation addressHistory)
      ⟨0, work, b⟩ :=
    { node := hgen
      admitted := hadm
      bounded := hfit
      blocks := rfl
      headers := rfl
      utxo := rfl
      undo := ⟨data, hdata, rfl⟩
      tipHash := rfl }
  subst hc
  refine ⟨⟨0, work, b⟩, hgenesis, ⟨hgenesis.based, ⟨0, work, b⟩, [], rfl, ?_, rfl⟩, rfl⟩
  have hrow : (startStorage b work data txLocation addressHistory).blocks.lookup b.hash =
      some ⟨0, work, true, false, b, b.transactions.length⟩ := Finmap.lookup_insert _
  exact (Storage.entryAt_of_row (n := ⟨0, work, b⟩) hrow).symm

/-! ## Rounds of the activation -/

section Rounds

variable [ScanOrder Hash] {params : ChainParams}

omit [Crypto] in
theorem Storage.bestEntries_stored {s : Storage} {limit : Nat} {e : BlockIndexEntry}
    (h : e ∈ s.bestEntries limit) : ∃ row, s.blocks.lookup e.hash = some row ∧
      e = row.entry e.hash := by
  have hmem := (List.mem_insertionSort _).mp (List.mem_of_mem_take h)
  obtain ⟨⟨k, row⟩, hrow, rfl⟩ := List.mem_map.mp hmem
  exact ⟨row, (mem_scan s.blocks k row).mp hrow, rfl⟩

omit [Crypto] [ScanOrder Hash] in
theorem Blockchain.firstCandidate_spec {c : Blockchain} {entries : List BlockIndexEntry}
    {e : BlockIndexEntry} (h : c.firstCandidate entries = some e) :
    e ∈ entries ∧ c.tip.chainwork < e.chainwork ∧ c.isInvalid e.hash = false := by
  induction entries with
  | nil => cases h
  | cons x entries ih =>
    unfold firstCandidate at h
    split at h
    · cases h
    · rename_i hwork
      split at h
      · obtain ⟨hmem, hrest⟩ := ih h
        exact ⟨List.mem_cons_of_mem x hmem, hrest⟩
      · rename_i hvalid
        obtain rfl := Option.some.inj h
        exact ⟨List.mem_cons_self, Nat.not_le.mp hwork, Bool.not_eq_true _ ▸ hvalid⟩

/-- A candidate is a stored node with more work than the tip that is not remembered. -/
theorem Blockchain.bestCandidate_node {c : Blockchain} {bs : List TreeNode}
    (hs : Standing params c bs) {e : BlockIndexEntry} (h : c.bestCandidate = some e) :
    ∃ w, c.storage.tree w.body.hash = some w ∧ e = c.storage.entryAt w ∧
      c.tip.chainwork < w.chainwork ∧ c.isInvalid w.body.hash = false := by
  obtain ⟨hmem, hwork, hvalid⟩ := firstCandidate_spec h
  obtain ⟨row, hrow, he⟩ := Storage.bestEntries_stored hmem
  have htree := Storage.tree_eq_some.mpr ⟨row, hrow, rfl⟩
  have hkey : row.known.body.hash = e.hash := hs.based.tree.keyed htree
  have hrow' : c.storage.blocks.lookup row.known.body.hash = some row := by rw [hkey, hrow]
  refine ⟨row.known, Storage.tree_eq_some.mpr ⟨row, hrow', rfl⟩, ?_, ?_, by rw [hkey, hvalid]⟩
  · rw [Storage.entryAt_of_row hrow', hkey]
    exact he
  · rw [he] at hwork
    exact hwork

omit [ScanOrder Hash] in
/-- The branch of a stored node leaves the active chain at a fork. -/
theorem Standing.fork {c : Blockchain} {bs : List TreeNode} (hs : Standing params c bs)
    {w : TreeNode} (hw : c.storage.tree w.body.hash = some w) :
    ∃ new gone old, bs = gone ++ old ∧ (new ++ old).head? = some w ∧
      Fork params c.storage new gone old := by
  obtain ⟨rest, hpath⟩ := hs.based.tree.wellRooted.exists_branch hw
  obtain ⟨new, gone, old, hsplit, hbs, hold, hnew⟩ :=
    hpath.fork hs.based.tree.wellRooted hs.based.active.branch
  refine ⟨new, gone, old, hbs, by rw [← hsplit]; rfl, ?_, ?_, hold, ?_⟩
  · exact hbs ▸ hs.based
  · exact hsplit ▸ hpath
  · exact hbs ▸ hnew

omit [Crypto] in
theorem Blockchain.invalidate_storage (c : Blockchain) (h : Hash) (message : String) :
    (c.invalidate h message).storage = c.storage := by
  cases c
  rfl

omit [Crypto] in
theorem Blockchain.invalidate_tip (c : Blockchain) (h : Hash) (message : String) :
    (c.invalidate h message).tip = c.tip := by
  cases c
  rfl

omit [Crypto] in
theorem Blockchain.invalidate_notified (c : Blockchain) (h : Hash) (message : String) :
    (c.invalidate h message).notified = c.notified := by
  cases c
  rfl

omit [Crypto] in
theorem Blockchain.invalidate_invalid (c : Blockchain) (h : Hash) (message : String) :
    (c.invalidate h message).invalid = invalidateFrom c.storage (c.storage.blockCount + 2)
      [(h, message)] (evictOldest c.invalid) := by
  simp only [invalidate]

/-- The switch that a round of the activation tries, for the candidate `w` and the tip `t`. -/
structure Attempt (params : ChainParams) (c : Blockchain) (new gone old : List TreeNode)
    (t w : TreeNode) : Prop where
  fork : Fork params c.storage new gone old
  from_tip : (gone ++ old).head? = some t
  to_top : (new ++ old).head? = some w
  tip : c.tip = c.storage.entryAt t
  candidate : c.bestCandidate = some (c.storage.entryAt w)
  heavier : c.tip.chainwork < w.chainwork
  valid : c.isInvalid w.body.hash = false

/-- What a round of the activation does that does not end it: the switch succeeds, or the block it
blames is remembered. -/
theorem activateRound_cases {c c' : Blockchain} {bs : List TreeNode} {r r' : Bool}
    (hs : Standing params c bs) (h : activateRound params ⟨c, r⟩ = .next ⟨c', r'⟩) :
    ∃ new gone old t w, bs = gone ++ old ∧ Attempt params c new gone old t w ∧
      ((∃ s events, switchTo params c.storage c.isInvalid (c.storage.entryAt t)
            (c.storage.entryAt w) = .ok (s, s.entryAt w, events) ∧
          c' = ⟨s, s.entryAt w, c.invalid, c.notified ++ events⟩) ∨
        ∃ hash message, switchTo params c.storage c.isInvalid (c.storage.entryAt t)
            (c.storage.entryAt w) = .error (.connect hash message) ∧
          c' = c.invalidate hash message) := by
  unfold activateRound at h
  dsimp only at h
  split at h
  · cases h
  · rename_i candidate hcand
    obtain ⟨w, hw, rfl, hwork, hvalid⟩ := Blockchain.bestCandidate_node hs hcand
    obtain ⟨new, gone, old, hbs, hhead, hf⟩ := hs.fork hw
    obtain ⟨t, rest, ht, htip, -⟩ := hs.tip
    have htop : (gone ++ old).head? = some t := by rw [← hbs, ht]; rfl
    refine ⟨new, gone, old, t, w, hbs, ⟨hf, htop, hhead, htip, hcand, hwork, hvalid⟩, ?_⟩
    rw [htip] at h
    split at h
    · rename_i s tip events hswitch
      injection h with h'
      injection h' with hc _
      obtain ⟨-, rfl, -⟩ := switchTo_trace hf htop hhead hswitch
      exact .inl ⟨s, events, hswitch, hc.symm⟩
    · rename_i hash message hfail
      injection h with h'
      injection h' with hc _
      exact .inr ⟨hash, message, hfail, hc.symm⟩
    · cases h

/-- A round of the activation leads to a standing chain, by steps. -/
theorem activateRound_standing {c c' : Blockchain} {bs : List TreeNode} {r r' : Bool}
    (hs : Standing params c bs) (h : activateRound params ⟨c, r⟩ = .next ⟨c', r'⟩) :
    ∃ bs', ChainTrace params (c.storage, bs) (c'.storage, bs') ∧ Standing params c' bs' := by
  obtain ⟨new, gone, old, t, w, hbs, ha, ⟨s, events, hswitch, rfl⟩ | ⟨hash, message, -, rfl⟩⟩ :=
    activateRound_cases hs h
  · obtain ⟨htrace, -, hpoint⟩ := switchTo_trace ha.fork ha.from_tip ha.to_top hswitch
    rw [← hbs] at htrace
    obtain ⟨rest, hrest⟩ := List.head?_eq_some_iff.mp ha.to_top
    exact ⟨new ++ old, htrace, htrace.based hs.based, w, rest, hrest, rfl, hpoint⟩
  · have hstorage := c.invalidate_storage hash message
    obtain ⟨n, rest, hn, htip, hpoint⟩ := hs.tip
    refine ⟨bs, ?_, ?_, n, rest, hn, ?_, ?_⟩
    · rw [hstorage]
    · rw [hstorage]
      exact hs.based
    · rw [c.invalidate_tip, hstorage, htip]
    · rw [hstorage, hpoint]

/-- A round that ends the activation leaves the chain as it is. -/
theorem activateRound_halt {c c' : Blockchain} {r : Bool} {answer : Except PyError Bool}
    (h : activateRound params ⟨c, r⟩ = .halt (c', answer)) : c' = c := by
  unfold activateRound at h
  dsimp only at h
  split at h
  · injection h with h'
    exact (Prod.mk.inj h').1.symm
  · split at h
    · cases h
    · cases h
    · injection h with h'
      exact (Prod.mk.inj h').1.symm

/-- Every chain that a run of the activation visits is reached by steps and stands. -/
theorem visits_standing {a b : Activation} {bs : List TreeNode} (hs : Standing params a.chain bs)
    (h : Visits (activateRound params) a b) :
    ∃ bs', ChainTrace params (a.chain.storage, bs) (b.chain.storage, bs') ∧
      Standing params b.chain bs' := by
  refine h.invariant (fun b => ∃ bs',
    ChainTrace params (a.chain.storage, bs) (b.chain.storage, bs') ∧
    Standing params b.chain bs') ⟨bs, .refl, hs⟩ ?_
  rintro ⟨c, r⟩ ⟨c', r'⟩ - ⟨bs₁, htrace, hs₁⟩ hnext
  obtain ⟨bs₂, htrace₂, hs₂⟩ := activateRound_standing hs₁ hnext
  exact ⟨bs₂, htrace.trans htrace₂, hs₂⟩

/-! ## Calls -/

omit [ScanOrder Hash] in
/-- A chain with the storage and the tip of a standing one stands. -/
theorem Standing.of_eq {c c' : Blockchain} {bs : List TreeNode} (hs : Standing params c bs)
    (hstorage : c'.storage = c.storage) (htip : c'.tip = c.tip) : Standing params c' bs := by
  obtain ⟨hbase, n, rest, hbs, hn, hpoint⟩ := hs
  refine ⟨?_, n, rest, hbs, ?_, ?_⟩
  · rw [hstorage]
    exact hbase
  · rw [htip, hstorage, hn]
  · rw [hstorage, hpoint]

/-- A block that is placed is a node of the new tree. -/
def placedNode (b : Block) (p : BlockRow) (work : Nat) : TreeNode :=
  ⟨p.height + 1, p.chainwork + work, b⟩

/-- Placing a block is a step, and the chain stands as before. -/
theorem Blockchain.Placement.standing {now : Nat} {c : Blockchain} {b : Block} {p : BlockRow}
    {work : Nat} {bs : List TreeNode} (hs : Standing params c bs)
    (hp : c.Placement params now b p work) :
    ChainStep params (c.storage, bs) ((c.place b p work).storage, bs) ∧
      Standing params (c.place b p work) bs := by
  have hnew : c.storage.tree b.hash = none := by
    unfold Storage.tree
    rw [hp.unknown]
    rfl
  have hparent : c.storage.tree b.header.prevHash = some p.known :=
    Storage.tree_eq_some.mpr ⟨p, hp.parent, rfl⟩
  have hstep : ChainStep params (c.storage, bs) ((c.place b p work).storage, bs) :=
    .store (n := placedNode b p work) hnew hparent ⟨rfl, work, hp.workEq, rfl⟩ hp.admitted hp.fits
  obtain ⟨n, rest, hbs, hn, hpoint⟩ := hs.tip
  refine ⟨hstep, hstep.based hs.based, n, rest, hbs, ?_, hpoint⟩
  have hstored : c.storage.tree n.body.hash = some n :=
    hs.based.active.branch.stored n (hbs ▸ List.mem_cons_self)
  obtain ⟨row, hrow, -⟩ := Storage.tree_eq_some.mp hstored
  have hne : n.body.hash ≠ b.hash := by
    intro heq
    rw [heq, hnew] at hstored
    cases hstored
  have hrow' : (c.place b p work).storage.blocks.lookup n.body.hash = some row := by
    rw [← hrow]
    exact Finmap.lookup_insert_of_ne _ hne
  rw [Storage.entryAt_of_row hrow', ← Storage.entryAt_of_row hrow]
  exact hn

/-- What a submitted block does: it is answered or raises without being stored, or it is stored and
the activation runs. -/
theorem Blockchain.addBlock_cases {rounds now : Nat} {c c' : Blockchain} {b : Block}
    {answer : Except PyError AddBlockResult}
    (h : c.addBlock params rounds now b = some (c', answer)) :
    (∃ e, c.admitBlock params now b = .error e ∧ c' = c ∧ answer = .error e) ∨
    (∃ r, c.admitBlock params now b = .ok (.answered c' r) ∧ answer = .ok r) ∨
    ∃ p work r outcome, c.Placement params now b p work ∧
      Visits (activateRound params) ⟨c.place b p work, false⟩ ⟨c', r⟩ ∧
      activateRound params ⟨c', r⟩ = .halt (c', outcome) ∧
      answer = outcome.map fun reorganised => c'.answer b.hash (p.height + 1) reorganised := by
  unfold addBlock at h
  split at h
  · rename_i e haccept
    obtain ⟨rfl, rfl⟩ := Prod.mk.inj (Option.some.inj h)
    exact .inl ⟨e, haccept, rfl, rfl⟩
  · rename_i c₁ r haccept
    obtain ⟨rfl, rfl⟩ := Prod.mk.inj (Option.some.inj h)
    exact .inr (.inl ⟨r, haccept, rfl⟩)
  · rename_i c₁ height haccept
    obtain ⟨p, work, hplace, rfl, rfl⟩ := admitBlock_eq_stored.mp haccept
    obtain ⟨⟨c₂, outcome⟩, hloop, heq⟩ := Option.map_eq_some_iff.mp h
    obtain ⟨rfl, rfl⟩ := Prod.mk.inj heq
    obtain ⟨⟨c₃, r⟩, hvisits, hhalt⟩ := loop_eq_some hloop
    obtain rfl := activateRound_halt hhalt
    exact .inr (.inr ⟨p, work, r, outcome, hplace, hvisits, hhalt, rfl⟩)

/-- A submitted block leads to a standing chain, by steps. -/
theorem addBlock_standing {rounds now : Nat} {c c' : Blockchain} {b : Block} {bs : List TreeNode}
    {answer : Except PyError AddBlockResult} (hs : Standing params c bs)
    (h : c.addBlock params rounds now b = some (c', answer)) :
    ∃ bs', ChainTrace params (c.storage, bs) (c'.storage, bs') ∧ Standing params c' bs' := by
  rcases Blockchain.addBlock_cases h with ⟨e, -, rfl, -⟩ | ⟨r, haccept, -⟩ |
    ⟨p, work, r, outcome, hplace, hvisits, -, -⟩
  · exact ⟨bs, .refl, hs⟩
  · rcases Blockchain.admitBlock_answered haccept with rfl | ⟨reason, rfl⟩
    · exact ⟨bs, .refl, hs⟩
    · exact ⟨bs, .refl, hs.of_eq rfl rfl⟩
  · obtain ⟨hstep, hs₁⟩ := hplace.standing hs
    obtain ⟨bs', htrace, hs'⟩ := visits_standing (a := ⟨c.place b p work, false⟩) hs₁ hvisits
    exact ⟨bs', htrace.head hstep, hs'⟩

/-- The chain after a header has been stored on top of a block or of another header. -/
def Blockchain.placeHeader (c : Blockchain) (header : BlockHeader) (p : ChainNode) (work : Nat) :
    Blockchain :=
  let row : HeaderRow := ⟨p.height + 1, p.chainwork + work, header⟩
  { c with storage := { c.storage with headers := c.storage.headers.insert header.hash row } }

omit [ScanOrder Hash] in
/-- What an announced header does: nothing, or it is stored. -/
theorem Blockchain.addHeader_cases {c c' : Blockchain} {header : BlockHeader}
    {answer : Option String} (h : c.addHeader params header = .ok (c', answer)) :
    c' = c ∨ ∃ p work, c.storage.hasBlock header.hash = false ∧
      c.storage.hasHeader header.hash = false ∧ c.storage.node header.prevHash = some p ∧
      blockWork header.bits.toNat = .ok work ∧ c' = c.placeHeader header p work := by
  unfold Blockchain.addHeader at h
  split at h
  · obtain ⟨rfl, -⟩ := Prod.mk.inj (Except.ok.inj h)
    exact .inl rfl
  · rename_i hunknown
    dsimp only at h
    split at h
    · obtain ⟨rfl, -⟩ := Prod.mk.inj (Except.ok.inj h)
      exact .inl rfl
    split at h
    · obtain ⟨rfl, -⟩ := Prod.mk.inj (Except.ok.inj h)
      exact .inl rfl
    · rename_i p hp
      obtain ⟨expected, -, h₁⟩ := bind_eq_ok.mp h
      split at h₁
      · obtain ⟨rfl, -⟩ := Prod.mk.inj (pure_eq_ok.mp h₁)
        exact .inl rfl
      · obtain ⟨work, hwork, h₂⟩ := bind_eq_ok.mp h₁
        obtain ⟨s, hput, h₃⟩ := bind_eq_ok.mp h₂
        obtain ⟨-, hstored⟩ := raiseIf_bind_eq_ok.mp hput
        obtain rfl := pure_eq_ok.mp hstored
        obtain ⟨rfl, -⟩ := Prod.mk.inj (pure_eq_ok.mp h₃)
        simp only [Bool.or_eq_true, not_or, Bool.not_eq_true] at hunknown
        exact .inr ⟨p, work, hunknown.1, hunknown.2, hp, hwork, rfl⟩

omit [ScanOrder Hash] in
/-- Storing a header is a step, and the chain stands as before. -/
theorem Blockchain.placeHeader_standing {c : Blockchain} {header : BlockHeader} {p : ChainNode}
    {work : Nat} {bs : List TreeNode} (hs : Standing params c bs) :
    ChainStep params (c.storage, bs) ((c.placeHeader header p work).storage, bs) ∧
      Standing params (c.placeHeader header p work) bs := by
  have hstep : ChainStep params (c.storage, bs) ((c.placeHeader header p work).storage, bs) :=
    .header _
  obtain ⟨n, rest, hbs, hn, hpoint⟩ := hs.tip
  exact ⟨hstep, hstep.based hs.based, n, rest, hbs, hn, hpoint⟩

/-- A call that announces a header leads to the chain itself or to the chain with the header. -/
theorem Call.run_addHeader {c c' : Blockchain} {header : BlockHeader}
    (h : (Call.addHeader header).run params c = some c') :
    c' = c ∨ ∃ p work, c' = c.placeHeader header p work := by
  unfold Call.run at h
  dsimp only at h
  split at h
  · rename_i c₁ answer hadd
    obtain rfl := Option.some.inj h
    rcases Blockchain.addHeader_cases hadd with rfl | ⟨p, work, -, -, -, -, rfl⟩
    · exact .inl rfl
    · exact .inr ⟨p, work, rfl⟩
  · exact .inl (Option.some.inj h).symm

omit [Crypto] [ScanOrder Hash] in
/-- Pruning leaves at least the last two blocks of the active chain alone. -/
theorem two_le_minPruneKeep (params : ChainParams) : 2 ≤ Blockchain.minPruneKeep params := by
  unfold Blockchain.minPruneKeep
  split
  · exact Nat.le_max_left _ _
  · decide

/-- Pruning is a step, and the chain stands as before. -/
theorem prune_standing {c : Blockchain} {keepBlocks : Int} {bs : List TreeNode}
    (hs : Standing params c bs) :
    ChainTrace params (c.storage, bs) ((c.prune params keepBlocks).1.storage, bs) ∧
      Standing params (c.prune params keepBlocks).1 bs := by
  obtain ⟨n, rest, hbs, hn, hpoint⟩ := hs.tip
  have hstored : c.storage.tree n.body.hash = some n :=
    hs.based.active.branch.stored n (hbs ▸ List.mem_cons_self)
  unfold Blockchain.prune
  dsimp only
  split
  · exact ⟨.refl, hs⟩
  · rename_i hhorizon
    rw [hn, Storage.entryAt_height hstored] at hhorizon ⊢
    have hkeep := two_le_minPruneKeep params
    generalize hb : ((n.height : Int) -
      max (Blockchain.minPruneKeep params : Int) keepBlocks).toNat = bound
    have hbound : bound + 2 ≤ n.height := by omega
    have hpruned := Storage.pruneTo_pruned c.storage bound
    have hstep : ChainStep params (c.storage, bs) ((c.storage.pruneTo bound).1, bs) := by
      rw [hbs]
      exact .prune hbound hpruned
    refine ⟨.single hstep, hstep.based hs.based, n, rest, hbs, ?_, hpruned.tipHash.trans hpoint⟩
    -- the tip is too high to lose its body
    obtain ⟨row, hrow, hknown⟩ := Storage.tree_eq_some.mp hstored
    have hrow' : (c.storage.pruneTo bound).1.blocks.lookup n.body.hash = some row := by
      rcases hpruned.rows n.body.hash with heq | ⟨⟨row', hrow', -, hle⟩, -⟩
      · rw [heq, hrow]
      · rw [hrow] at hrow'
        obtain rfl := Option.some.inj hrow'
        have hheight : row.height = n.height := congrArg TreeNode.height hknown
        omega
    rw [Storage.entryAt_of_row hrow', ← Storage.entryAt_of_row hrow]

/-- Every call leads to a standing chain, by steps. -/
theorem Call.run_standing {c c' : Blockchain} {op : Call} {bs : List TreeNode}
    (hs : Standing params c bs) (h : op.run params c = some c') :
    ∃ bs', ChainTrace params (c.storage, bs) (c'.storage, bs') ∧ Standing params c' bs' := by
  cases op with
  | addBlock rounds now b =>
    obtain ⟨⟨c₁, answer⟩, hadd, rfl⟩ := Option.map_eq_some_iff.mp h
    exact addBlock_standing hs hadd
  | addHeader header =>
    rcases Call.run_addHeader h with rfl | ⟨p, work, rfl⟩
    · exact ⟨bs, .refl, hs⟩
    · obtain ⟨hstep, hs'⟩ := Blockchain.placeHeader_standing hs
      exact ⟨bs, .single hstep, hs'⟩
  | prune keepBlocks =>
    obtain rfl := Option.some.inj h
    exact ⟨bs, prune_standing hs⟩

/-- So does a list of calls. -/
theorem runCalls_standing {c c' : Blockchain} {ops : List Call}
    {bs : List TreeNode} (hs : Standing params c bs)
    (h : runCalls params c ops = some c') :
    ∃ bs', ChainTrace params (c.storage, bs) (c'.storage, bs') ∧ Standing params c' bs' := by
  induction ops generalizing c bs with
  | nil =>
    obtain rfl := Option.some.inj h
    exact ⟨bs, .refl, hs⟩
  | cons op ops ih =>
    obtain ⟨c₁, hop, hrest⟩ := Option.bind_eq_some_iff.mp h
    obtain ⟨bs₁, htrace₁, hs₁⟩ := Call.run_standing hs hop
    obtain ⟨bs₂, htrace₂, hs₂⟩ := ih hs₁ hrest
    exact ⟨bs₂, htrace₁.trans htrace₂, hs₂⟩

/-- Every reachable chain stands at the end of a sequence of steps from genesis. -/
theorem Reachable.run {c : Blockchain} (h : Reachable params c) :
    ∃ s g bs, Genesis params s g ∧ ChainTrace params (s, [g]) (c.storage, bs) ∧
      Standing params c bs := by
  induction h with
  | create hc =>
    obtain ⟨g, hg, hs, -⟩ := Blockchain.create_standing hc
    exact ⟨_, g, [g], hg, .refl, hs⟩
  | call op _ hop ih =>
    obtain ⟨s, g, bs, hg, htrace, hs⟩ := ih
    obtain ⟨bs', htrace', hs'⟩ := Call.run_standing hs hop
    exact ⟨s, g, bs', hg, htrace.trans htrace', hs'⟩

/-! ## What the writes keep -/

/-- The writes of a chain keep `P`: storing a block off the active chain, storing headers, writing
the tip value, disconnecting the tip, and connecting a loaded block on top of it. -/
structure Carried (params : ChainParams) (P : Storage × List TreeNode → Prop) : Prop where
  store : ∀ {s : Storage} {bs : List TreeNode} {n : TreeNode}, Based params (s, bs) → P (s, bs) →
    ChainStep params (s, bs) (s.insertNode n, bs) → s.tree n.body.hash = none →
    P (s.insertNode n, bs)
  header : ∀ {s : Storage} {bs : List TreeNode} (headers : Table Hash HeaderRow), P (s, bs) →
    P ({ s with headers := headers }, bs)
  point : ∀ {s : Storage} {bs : List TreeNode} (h : Hash), P (s, bs) → P (s.setTip h, bs)
  disconnect : ∀ {s s' : Storage} {b n : TreeNode} {rest : List TreeNode},
    Based params (s, b :: n :: rest) → P (s, b :: n :: rest) →
    disconnectBlock s (s.entryAt b) = .ok (s', b.body) → P (s', n :: rest)
  connect : ∀ {s s' : Storage} {b n : TreeNode} {rest : List TreeNode},
    Based params (s, n :: rest) → P (s, n :: rest) → s.tree b.body.hash = some b →
    b.body.header.prevHash = n.body.hash → b.height = n.height + 1 →
    s.getBlock b.body.hash = .ok (some b.body) →
    connectBlock params s b.body (s.entryAt b) = .ok s' → P (s', b :: n :: rest)

namespace Carried

variable {P : Storage × List TreeNode → Prop}

theorem unwind (hP : Carried params P) {s s' : Storage} {gone old : List TreeNode} (hold : old ≠ [])
    (hbase : Based params (s, gone ++ old)) (hs : P (s, gone ++ old))
    (h : ScarletCoin.unwind s gone = .ok s') : P (s', old) := by
  induction gone generalizing s with
  | nil =>
    obtain rfl := Except.ok.inj h
    exact hs
  | cons b gone ih =>
    obtain ⟨⟨s₁, block⟩, hdis, hrest⟩ := bind_eq_ok.mp h
    obtain ⟨m, rest, hm⟩ : ∃ m rest, gone ++ old = m :: rest := by
      cases hgo : gone ++ old with
      | nil => exact absurd (List.append_eq_nil_iff.mp hgo).2 hold
      | cons m rest => exact ⟨m, rest, rfl⟩
    rw [List.cons_append, hm] at hbase hs
    obtain ⟨rfl, hstep⟩ := disconnectBlock_step hbase hdis
    have hbase₁ := hstep.based hbase
    have hs₁ := hP.disconnect hbase hs hdis
    rw [← hm] at hbase₁ hs₁
    exact ih hbase₁ hs₁ hrest

theorem extend (hP : Carried params P) {s s' : Storage} {ns rest : List TreeNode} {o : TreeNode}
    (hbase : Based params (s, o :: rest)) (hs : P (s, o :: rest))
    (hstored : ∀ n ∈ ns, s.tree n.body.hash = some n) (hstack : Stacked o ns)
    (h : ScarletCoin.extend params s ns = .ok s') : P (s', ns.reverse ++ o :: rest) := by
  induction ns generalizing s o rest with
  | nil =>
    obtain rfl := Except.ok.inj h
    exact hs
  | cons n ns ih =>
    obtain ⟨loaded, hload, hbody⟩ := bind_eq_ok.mp h
    cases loaded with
    | none => cases hbody
    | some block =>
      obtain ⟨s₁, hcon, hrest⟩ := bind_eq_ok.mp hbody
      have hn := hstored n List.mem_cons_self
      obtain ⟨rfl, hstep⟩ : _ ∧ ChainStep params (s, o :: rest) (s₁, n :: o :: rest) :=
        connectBlock_step hn hstack.1 hstack.2.1 hload hcon
      have hs₁ := hP.connect hbase hs hn hstack.1 hstack.2.1 hload hcon
      have hrec := ih (hstep.based hbase) hs₁
        (fun m hm => hstep.tree_mono (hstored m (List.mem_cons_of_mem n hm))) hstack.2.2 hrest
      rwa [List.reverse_cons, List.append_assoc]

theorem switchTo (hP : Carried params P) {s s' : Storage} {invalid : Hash → Bool}
    {new gone old : List TreeNode} {t w : TreeNode} {tip : BlockIndexEntry} {events : List Event}
    (hf : Fork params s new gone old) (ht : (gone ++ old).head? = some t)
    (hw : (new ++ old).head? = some w) (hs : P (s, gone ++ old))
    (h : ScarletCoin.switchTo params s invalid (s.entryAt t) (s.entryAt w) =
      .ok (s', tip, events)) : P (s', new ++ old) := by
  obtain ⟨s₁, s₂, hun, hex, rfl, -, -⟩ := switchTo_parts hf ht hw h
  obtain ⟨hbase, hpath, hold, -⟩ := hf
  have htrace := unwind_trace hold hbase hun
  have hs₁ := hP.unwind hold hbase hs hun
  obtain ⟨o, below, rfl⟩ := List.exists_cons_of_ne_nil hold
  have hs₂ := hP.extend (htrace.based hbase) hs₁ (fun n hn => htrace.tree_mono
    (hpath.stored n (List.mem_append_left _ (List.mem_reverse.mp hn)))) (Branch.stacked hpath) hex
  rw [List.reverse_reverse] at hs₂
  exact hP.point w.body.hash hs₂

theorem activateRound (hP : Carried params P) {c c' : Blockchain} {bs : List TreeNode} {r r' : Bool}
    (hs : Standing params c bs) (hc : P (c.storage, bs))
    (h : ScarletCoin.activateRound params ⟨c, r⟩ = .next ⟨c', r'⟩) :
    ∃ bs', Standing params c' bs' ∧ P (c'.storage, bs') := by
  obtain ⟨new, gone, old, t, w, rfl, ha, ⟨s, events, hswitch, rfl⟩ | ⟨hash, message, -, rfl⟩⟩ :=
    activateRound_cases hs h
  · obtain ⟨htrace, -, hpoint⟩ := switchTo_trace ha.fork ha.from_tip ha.to_top hswitch
    obtain ⟨rest, hrest⟩ := List.head?_eq_some_iff.mp ha.to_top
    exact ⟨new ++ old, ⟨htrace.based hs.based, w, rest, hrest, rfl, hpoint⟩,
      hP.switchTo ha.fork ha.from_tip ha.to_top hc hswitch⟩
  · refine ⟨gone ++ old,
      hs.of_eq (c.invalidate_storage hash message) (c.invalidate_tip hash message), ?_⟩
    rw [c.invalidate_storage hash message]
    exact hc

theorem addBlock (hP : Carried params P) {rounds now : Nat} {c c' : Blockchain} {b : Block}
    {bs : List TreeNode} {answer : Except PyError AddBlockResult} (hs : Standing params c bs)
    (hc : P (c.storage, bs)) (h : c.addBlock params rounds now b = some (c', answer)) :
    ∃ bs', Standing params c' bs' ∧ P (c'.storage, bs') := by
  rcases Blockchain.addBlock_cases h with ⟨e, -, rfl, -⟩ | ⟨r, haccept, -⟩ |
    ⟨p, work, r, outcome, hplace, hvisits, -, -⟩
  · exact ⟨bs, hs, hc⟩
  · rcases Blockchain.admitBlock_answered haccept with rfl | ⟨reason, rfl⟩
    · exact ⟨bs, hs, hc⟩
    · exact ⟨bs, hs.of_eq rfl rfl, hc⟩
  · obtain ⟨hstep, hs₁⟩ := hplace.standing hs
    have hnew : c.storage.tree b.hash = none := by
      unfold Storage.tree
      rw [hplace.unknown]
      rfl
    have hplaced : P ((c.place b p work).storage, bs) :=
      hP.store (n := placedNode b p work) hs.based hc hstep hnew
    refine hvisits.invariant (fun a => ∃ bs', Standing params a.chain bs' ∧
      P (a.chain.storage, bs')) ⟨bs, hs₁, hplaced⟩ ?_
    rintro ⟨c₁, r₁⟩ ⟨c₂, r₂⟩ - ⟨bs₁, hs₁, hc₁⟩ hnext
    exact hP.activateRound hs₁ hc₁ hnext

/-- Every call keeps `P`, if pruning does. -/
theorem call (hP : Carried params P) {c c' : Blockchain} {op : Call} {bs : List TreeNode}
    (hs : Standing params c bs) (hc : P (c.storage, bs))
    (hprune : ∀ keepBlocks, op = .prune keepBlocks →
      P ((c.prune params keepBlocks).1.storage, bs))
    (h : op.run params c = some c') : ∃ bs', Standing params c' bs' ∧ P (c'.storage, bs') := by
  cases op with
  | addBlock rounds now b =>
    obtain ⟨⟨c₁, answer⟩, hadd, rfl⟩ := Option.map_eq_some_iff.mp h
    exact hP.addBlock hs hc hadd
  | addHeader header =>
    rcases Call.run_addHeader h with rfl | ⟨p, work, rfl⟩
    · exact ⟨bs, hs, hc⟩
    · exact ⟨bs, (Blockchain.placeHeader_standing hs).2, hP.header _ hc⟩
  | prune keepBlocks =>
    obtain rfl := Option.some.inj h
    exact ⟨bs, (prune_standing hs).2, hprune keepBlocks rfl⟩

end Carried

end Rounds

end ScarletCoin
