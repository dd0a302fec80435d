import ScarletCoin.Core.Locator
import ScarletCoin.Invariants.Frontier

/-!
# Ways down to genesis

The blocks and headers that a node knows form one tree on genesis (`Storage.Rooted`), as far as
hash256 tells them apart. So from each of them there is one way down by the parents (`Trail`,
`Storage.Rooted.wellRooted`), with heights that count its length and works that add up, and a loop
that follows the parents sees this way and nothing else.
-/

set_option autoImplicit false

namespace ScarletCoin

open Toolkit

section Paths

variable [Crypto]

/-! ## What is known -/

/-- The hash of a header, and what a node shows of it. -/
structure Shows (h : Hash) (n : ChainNode) (x : BlockHeader) : Prop where
  hash : x.hash = h
  key : n.hash = h
  prev : n.prevHash = x.prevHash
  bits : n.bits = x.bits.toNat
  timestamp : n.timestamp = x.timestamp.toNat

/-- Every known block or header is genesis or lies on a known one. -/
structure Storage.Rooted (params : ChainParams) (s : Storage) : Prop where
  null : s.node nullHash = none
  shows : ∀ h n, s.node h = some n → ∃ x, s.headerOf h = some x ∧ Shows h n x
  linked : ∀ h n, s.node h = some n →
    (n.height = 0 ∧ n.prevHash = nullHash ∧ params.genesisHash = .ok h ∧
        blockWork n.bits = .ok n.chainwork) ∨
      ∃ p work, s.node n.prevHash = some p ∧ n.height = p.height + 1 ∧
        blockWork n.bits = .ok work ∧ n.chainwork = p.chainwork + work
  bounded : ∀ h n, s.node h = some n → n.chainwork < 2 ^ 256
  genesis : ∃ g n, params.genesisHash = .ok g ∧ s.node g = some n ∧ n.height = 0

/-- The rows of the stored headers: each under its hash, with a work that the database can hold. -/
def Storage.HeadersFit (s : Storage) : Prop :=
  ∀ h r, s.headers.lookup h = some r → r.header.hash = h ∧ r.chainwork < 2 ^ 256

variable [ScanOrder Hash] {params : ChainParams}

omit [ScanOrder Hash] in
/-- A header that is stored has a work that the database can hold. -/
theorem Blockchain.addHeader_headersFit {c c' : Blockchain} {header : BlockHeader}
    {answer : Option String} (hfit : c.storage.HeadersFit)
    (h : c.addHeader params header = .ok (c', answer)) : c'.storage.HeadersFit := by
  unfold Blockchain.addHeader at h
  split at h
  · obtain ⟨rfl, -⟩ := Prod.mk.inj (Except.ok.inj h)
    exact hfit
  · dsimp only at h
    split at h
    · obtain ⟨rfl, -⟩ := Prod.mk.inj (Except.ok.inj h)
      exact hfit
    split at h
    · obtain ⟨rfl, -⟩ := Prod.mk.inj (Except.ok.inj h)
      exact hfit
    · rename_i p hp
      obtain ⟨expected, -, h₁⟩ := bind_eq_ok.mp h
      split at h₁
      · obtain ⟨rfl, -⟩ := Prod.mk.inj (pure_eq_ok.mp h₁)
        exact hfit
      · obtain ⟨work, -, h₂⟩ := bind_eq_ok.mp h₁
        obtain ⟨s, hput, h₃⟩ := bind_eq_ok.mp h₂
        obtain ⟨hsmall, hstored⟩ := raiseIf_bind_eq_ok.mp hput
        obtain rfl := pure_eq_ok.mp hstored
        obtain ⟨rfl, -⟩ := Prod.mk.inj (pure_eq_ok.mp h₃)
        intro k r hr
        rw [Table.lookup_insert_if] at hr
        split at hr
        · rename_i hk
          obtain rfl := Option.some.inj hr
          exact ⟨hk.symm, Nat.not_le.mp hsmall⟩
        · exact hfit k r hr

/-- The rows of the headers of a reachable chain fit. -/
theorem Reachable.headersFit {c : Blockchain} (h : Reachable params c) : c.storage.HeadersFit := by
  induction h with
  | create hc =>
    obtain ⟨g, hg, -, -⟩ := Blockchain.create_standing hc
    intro k r hr
    rw [hg.headers] at hr
    cases hr
  | @call c c' op _ hop ih =>
    unfold Storage.HeadersFit
    cases op with
    | addBlock rounds now b =>
      obtain ⟨⟨c₁, answer⟩, hadd, rfl⟩ := Option.map_eq_some_iff.mp hop
      rw [addBlock_headers hadd]
      exact ih
    | addHeader header =>
      unfold Call.run at hop
      dsimp only at hop
      split at hop
      · rename_i c₁ answer hadd
        obtain rfl := Option.some.inj hop
        exact Blockchain.addHeader_headersFit ih hadd
      · obtain rfl := Option.some.inj hop
        exact ih
    | prune keepBlocks =>
      obtain rfl := Option.some.inj hop
      unfold Blockchain.prune
      dsimp only
      split
      · exact ih
      · rw [(Storage.pruneTo_pruned c.storage _).headers]
        exact ih

/-- No call drops a block or a header. -/
theorem Call.run_kept {c c' : Blockchain} {op : Call} {bs : List TreeNode}
    (hs : Standing params c bs) (h : op.run params c = some c') :
    (∀ k n, c.storage.tree k = some n → c'.storage.tree k = some n) ∧
      ∀ k r, c.storage.headers.lookup k = some r → c'.storage.headers.lookup k = some r := by
  obtain ⟨bs', htrace, -⟩ := Call.run_standing hs h
  refine ⟨fun k n hn => htrace.tree_mono hn, fun k r hr => ?_⟩
  cases op with
  | addBlock rounds now b =>
    obtain ⟨⟨c₁, answer⟩, hadd, rfl⟩ := Option.map_eq_some_iff.mp h
    rw [addBlock_headers hadd]
    exact hr
  | addHeader header =>
    unfold Call.run at h
    dsimp only at h
    split at h
    · rename_i c₁ answer hadd
      obtain rfl := Option.some.inj h
      rcases Blockchain.addHeader_cases hadd with rfl | ⟨p, work, -, hnew, -, -, rfl⟩
      · exact hr
      · unfold Blockchain.placeHeader
        rw [Table.lookup_insert_if, if_neg, hr]
        rintro rfl
        rw [Storage.hasHeader, hr] at hnew
        cases hnew
    · obtain rfl := Option.some.inj h
      exact hr
  | prune keepBlocks =>
    obtain rfl := Option.some.inj h
    unfold Blockchain.prune
    dsimp only
    split
    · exact hr
    · rw [(Storage.pruneTo_pruned c.storage _).headers]
      exact hr

/-- The headers of a reachable chain weigh what they should, if hash256 tells apart what is
stored. -/
theorem Reachable.headersWeighed {c : Blockchain} (h : Reachable params c)
    (hapart : c.storage.HashesApart) : c.storage.HeadersWeighed := by
  induction h with
  | create hc =>
    obtain ⟨g, hg, -, -⟩ := Blockchain.create_standing hc
    intro k r hr
    rw [hg.headers] at hr
    cases hr
  | @call c c' op hreach hop ih =>
    obtain ⟨_, _, bs, -, -, hs⟩ := hreach.run
    obtain ⟨htree, hheaders⟩ := Call.run_kept hs hop
    have hnull : c.storage.hasBlock nullHash = false := by
      by_contra hthere
      obtain ⟨n, hn⟩ := Storage.hasBlock_iff.mp (Bool.not_eq_false _ ▸ hthere)
      have hthere' := Storage.hasBlock_iff.mpr ⟨n, htree _ _ hn⟩
      rw [hapart.null] at hthere'
      cases hthere'
    -- hashes that are apart after the call were apart before it
    have hw := ih ⟨hnull, fun k r n hr hn => hapart.same k r n (hheaders k r hr) (htree k n hn)⟩
    cases op with
    | addBlock rounds now b =>
      obtain ⟨⟨c₁, answer⟩, hadd, rfl⟩ := Option.map_eq_some_iff.mp hop
      have hkept : c.storage.NodesKept c₁.storage := addBlock_nodesKept hs hw
        (fun r hr n hn => hapart.same b.hash r n (hheaders _ r hr) hn) hadd
      exact hw.of_kept hkept (addBlock_headers hadd)
    | addHeader header =>
      unfold Call.run at hop
      dsimp only at hop
      split at hop
      · rename_i c₁ answer hadd
        obtain rfl := Option.some.inj hop
        rcases Blockchain.addHeader_cases hadd with rfl | ⟨p, work, hblock, hnew, hp, hwork, rfl⟩
        · exact hw
        · exact (placeHeader_kept hblock hnew hp hwork hw).2
      · obtain rfl := Option.some.inj hop
        exact hw
    | prune keepBlocks =>
      obtain rfl := Option.some.inj hop
      have hsame : (c.prune params keepBlocks).1.storage.tree = c.storage.tree ∧
          (c.prune params keepBlocks).1.storage.headers = c.storage.headers := by
        unfold Blockchain.prune
        dsimp only
        split
        · exact ⟨rfl, rfl⟩
        · exact ⟨(Storage.pruneTo_pruned c.storage _).tree_eq,
            (Storage.pruneTo_pruned c.storage _).headers⟩
      refine hw.of_kept (fun k n hn => ?_) hsame.2
      rw [Storage.node_congr hsame.1 hsame.2]
      exact hn

/-! ## What is known is rooted -/

omit [Crypto] [ScanOrder Hash] in
theorem Storage.headerOf_eq_tree (s : Storage) (h : Hash) :
    s.headerOf h = (match s.tree h with
      | some n => some n.body.header
      | none => (s.headers.lookup h).map HeaderRow.header) := by
  unfold headerOf getEntry tree headerEntry
  cases s.blocks.lookup h <;> rfl

/-- What a reachable chain knows is rooted, if hash256 tells it apart. -/
theorem Reachable.rooted {c : Blockchain} (h : Reachable params c) (hapart : c.storage.HashesApart)
    (hnull : c.storage.node nullHash = none) : c.storage.Rooted params := by
  obtain ⟨_, _, bs, -, -, hs⟩ := h.run
  have hT := hs.based.tree
  have hw := h.headersWeighed hapart
  have hfit := h.headersFit
  have hgenesis : ∀ w : TreeNode, params.genesisBlock = .ok w.body →
      params.genesisHash = .ok w.body.hash := by
    intro w hw
    rw [ChainParams.genesisHash, hw, ok_bind]
    rfl
  refine ⟨hnull, fun k n hn => ?_, fun k n hn => ?_, fun k n hn => ?_, ?_⟩
  · -- a node shows a stored block, or the header that is stored for it
    rw [Storage.node_eq_tree] at hn
    rw [Storage.headerOf_eq_tree]
    cases hblock : c.storage.tree k with
    | some w =>
      rw [hblock] at hn
      obtain rfl := Option.some.inj hn
      exact ⟨_, rfl, ⟨hT.keyed hblock, rfl, rfl, rfl, rfl⟩⟩
    | none =>
      rw [hblock] at hn
      obtain ⟨r, hr, rfl⟩ := Option.map_eq_some_iff.mp hn
      rw [hr]
      exact ⟨r.header, rfl, ⟨(hfit k r hr).1, rfl, rfl, rfl, rfl⟩⟩
  · rw [Storage.node_eq_tree] at hn
    split at hn
    · rename_i w hw'
      obtain rfl := Option.some.inj hn
      rcases hT.linked hw' with ⟨hg, hzero, hwork⟩ | ⟨p, hp, hheight, work, hwork, hsum⟩
      · obtain ⟨_, -, -, hprev, -, -⟩ := ChainParams.genesisBlock_eq_ok hg
        exact .inl ⟨hzero, hprev, hT.keyed hw' ▸ hgenesis w hg, hwork⟩
      · refine .inr ⟨p.chainNode w.body.header.prevHash, work, ?_, hheight, hwork, hsum⟩
        rw [Storage.node_eq_tree,
          show (w.chainNode k).prevHash = w.body.header.prevHash from rfl, hp]
    · obtain ⟨r, hr, rfl⟩ := Option.map_eq_some_iff.mp hn
      obtain ⟨-, p, work, hp, hwork, hheight, hsum⟩ := hw k r hr
      exact .inr ⟨p, work, hp, hheight, hwork, hsum⟩
  · rw [Storage.node_eq_tree] at hn
    split at hn
    · rename_i w hw'
      obtain rfl := Option.some.inj hn
      exact hT.bounded hw'
    · obtain ⟨r, hr, rfl⟩ := Option.map_eq_some_iff.mp hn
      exact (hfit k r hr).2
  · -- the block at the bottom of the active branch is the genesis block
    obtain ⟨n, rest, hbs, -, -⟩ := hs.tip
    have hbranch : Branch (lineage params) c.storage.tree bs := hs.based.active.branch
    obtain ⟨w, hwmem, hzero⟩ := hbranch.exists_depth (d := 0) (by rw [hbs]; simp)
    have hstored : c.storage.tree w.body.hash = some w := hbranch.stored w hwmem
    rcases hT.linked hstored with ⟨hg, -, -⟩ | ⟨p, -, hheight, -⟩
    · refine ⟨_, w.chainNode w.body.hash, hgenesis w hg, ?_, hzero⟩
      rw [Storage.node_eq_tree, hstored]
    · rw [show w.height = 0 from hzero] at hheight
      omega

/-! ## The way down -/

/-- The links of blocks and headers. -/
def nodeLineage (params : ChainParams) : Lineage Hash ChainNode where
  key n := n.hash
  prev n := n.prevHash
  depth n := n.height
  root n := params.genesisHash = .ok n.hash

/-- The nodes from a tip down to genesis. -/
abbrev Trail (params : ChainParams) (s : Storage) (ns : List ChainNode) : Prop :=
  Branch (nodeLineage params) s.node ns

namespace Storage.Rooted

variable {s : Storage} (hs : s.Rooted params)

include hs

omit [ScanOrder Hash]

theorem keyed {h : Hash} {n : ChainNode} (hn : s.node h = some n) : n.hash = h := by
  obtain ⟨x, -, hx⟩ := hs.shows h n hn
  exact hx.key

theorem wellRooted : WellRooted (nodeLineage params) s.node where
  keyed hn := hs.keyed hn
  linked := by
    intro k n hn
    rcases hs.linked k n hn with ⟨hzero, -, hg, -⟩ | ⟨p, -, hp, hheight, -⟩
    · exact .inl ⟨by rw [← hs.keyed hn] at hg; exact hg, hzero⟩
    · exact .inr ⟨p, hp, hheight⟩
  rootUnique := by
    intro k n k' n' hn hn' hg hg'
    have hkey : n.hash = n'.hash := Except.ok.inj (Eq.trans (Eq.symm hg) hg')
    rw [← hs.keyed hn, hkey, hs.keyed hn', hn'] at hn
    exact (Option.some.inj hn).symm

/-- A node at height zero is genesis. -/
theorem genesis_of_zero {h : Hash} {n : ChainNode} (hn : s.node h = some n) (hzero : n.height = 0) :
    n.prevHash = nullHash ∧ params.genesisHash = .ok h ∧ blockWork n.bits = .ok n.chainwork := by
  rcases hs.linked h n hn with ⟨-, hrest⟩ | ⟨p, -, -, hheight, -⟩
  · exact hrest
  · omega

/-- The parent of a node of a trail is the next node. -/
theorem prev_eq {n : ChainNode} {rest : List ChainNode} (ht : Trail params s (n :: rest)) :
    s.node n.prevHash = rest.head? := by
  cases ht with
  | root hn _ hzero =>
    rw [(hs.genesis_of_zero hn hzero).1, hs.null]
    rfl
  | child hp _ hprev _ =>
    have hstored := hp.stored _ List.mem_cons_self
    rw [show n.prevHash = _ from hprev, hstored]
    rfl

end Storage.Rooted

omit [ScanOrder Hash] in
/-- A walk that follows parents has rounds enough. -/
theorem Trail.length_lt {s : Storage} {ns : List ChainNode} (ht : Trail params s ns) :
    ns.length < s.nodeRounds := by
  have hnodup : (ns.map ChainNode.hash).Nodup := by
    refine List.Nodup.map_on ?_ ht.nodup
    intro n hn m hm heq
    have hstored : s.node n.hash = some n := ht.stored n hn
    rw [heq, show s.node m.hash = some m from ht.stored m hm] at hstored
    exact (Option.some.inj hstored).symm
  have hsub : (ns.map ChainNode.hash).toFinset ⊆ s.blocks.keys ∪ s.headers.keys := by
    intro h hmem
    obtain ⟨n, hn, rfl⟩ := List.mem_map.mp (List.mem_toFinset.mp hmem)
    have hstored : s.node n.hash = some n := ht.stored n hn
    rw [Storage.node_eq_tree] at hstored
    rw [Finset.mem_union, Finmap.mem_keys, Finmap.mem_keys]
    split at hstored
    · rename_i w hw
      obtain ⟨row, hrow, -⟩ := Storage.tree_eq_some.mp hw
      exact .inl (Finmap.mem_of_lookup_eq_some hrow)
    · obtain ⟨r, hr, -⟩ := Option.map_eq_some_iff.mp hstored
      exact .inr (Finmap.mem_of_lookup_eq_some hr)
  have hcard := Finset.card_le_card hsub
  rw [List.toFinset_card_of_nodup hnodup, List.length_map] at hcard
  have hunion := Finset.card_union_le s.blocks.keys s.headers.keys
  unfold Storage.nodeRounds
  omega

end Paths

end ScarletCoin
