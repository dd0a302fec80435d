import ScarletCoin.Invariants.HeaderPaths
import ScarletCoin.Invariants.RequiredBits
import ScarletCoin.Net.Framing
import ScarletCoin.Toolkit.Ladder

/-!
# What a locator lists

Both locators list a ladder of hashes down one branch, and genesis: that of the active chain
(`Standing.locator_eq`), and that of the best header chain where it is longer (`headerLocator_eq`).
-/

set_option autoImplicit false

namespace ScarletCoin

open Toolkit

section Locators

variable [Crypto] {params : ChainParams}

/-! ## The loop over nodes -/

section Headers

variable {s : Storage} (hs : s.Rooted params)

include hs

/-- The loop over nodes, `distance` nodes below the last one that was listed. -/
theorem headerLocatorLoop_eq {ns : List ChainNode} (hns : ns = [] ∨ Trail params s ns)
    {rounds k : Nat}
    (hrounds : ns.length ≤ rounds) {distance : Nat} (hdistance : distance < gap k)
    {hashes : List Hash} (hk : hashes.length = k) :
    headerLocatorLoop s rounds ns.head? (gap k) distance hashes =
      .ok (hashes ++ (rungs k (ns.drop (if distance = 0 then 0 else gap k - distance))).map
        ChainNode.hash) := by
  induction ns generalizing rounds k distance hashes with
  | nil => cases rounds <;> simp [headerLocatorLoop]
  | cons n rest ih =>
    have htrail : Trail params s (n :: rest) := hns.resolve_left (List.cons_ne_nil n rest)
    obtain ⟨rounds, rfl⟩ : ∃ r, rounds = r + 1 := ⟨rounds - 1, by simp at hrounds; omega⟩
    have hrest : rest = [] ∨ Trail params s rest := by
      cases rest with
      | nil => exact .inl rfl
      | cons p below => exact .inr htrail.tail
    have hlen : rest.length ≤ rounds := by simpa using hrounds
    -- the loop stops at a null parent, which is known to nobody
    have hnext : (if n.prevHash ≠ nullHash then s.node n.prevHash else none) = rest.head? := by
      split
      · exact hs.prev_eq htrail
      · rename_i hnull
        rw [← hs.prev_eq htrail, not_not.mp hnull, hs.null]
    rw [List.head?_cons, headerLocatorLoop, hnext]
    by_cases hzero : distance = 0
    · subst hzero
      have hlisted : (hashes ++ [n.hash]).length = k + 1 := by simp [hk]
      have hstep : (if 10 ≤ (hashes ++ [n.hash]).length then gap k * 2 else gap k) =
          gap (k + 1) := by
        rw [hlisted, gap_succ]
      have hdrop : rest.drop (if (if gap (k + 1) ≤ 1 then 0 else 1) = 0 then 0
          else gap (k + 1) - if gap (k + 1) ≤ 1 then 0 else 1) =
          (n :: rest).drop (gap (k + 1)) := by
        obtain ⟨g, hg⟩ : ∃ g, gap (k + 1) = g + 1 :=
          ⟨gap (k + 1) - 1, by have := gap_pos (k + 1); omega⟩
        rw [hg, List.drop_succ_cons]
        congr 1
        by_cases hone : g + 1 ≤ 1
        · simp only [if_pos hone, if_true]
          omega
        · have hne : g ≠ 0 := by omega
          simp [hne]
      have hpos := gap_pos (k + 1)
      simp only [if_true, true_and, hstep, Nat.zero_add]
      rw [ih hrest hlen (by split <;> omega) hlisted, hdrop, List.drop_zero, rungs_cons,
        List.map_cons, List.append_assoc]
      rfl
    · have hstep : ¬ (distance = 0 ∧ 10 ≤ hashes.length) := fun h => hzero h.1
      simp only [if_neg hzero, if_neg hstep]
      rw [ih hrest hlen (by split <;> omega) hk]
      congr 3
      obtain ⟨g, hg⟩ : ∃ g, gap k - distance = g + 1 := ⟨gap k - distance - 1, by omega⟩
      rw [hg, List.drop_succ_cons]
      congr 2
      split <;> split <;> omega

end Headers

/-! ## The loop over the active chain -/

section Blocks

variable [ScanOrder Hash] {s : Storage} {bs : List TreeNode}

/-- The loop over heights, below the part of the active chain that was passed. -/
theorem locatorLoop_eq (hbase : Based params (s, bs)) {ns : List TreeNode}
    (hns : ns = [] ∨ Branch (lineage params) s.tree ns) (hsub : ns ⊆ bs) {rounds k : Nat}
    {height : Int}
    (hrounds : ns.length ≤ rounds) (hheight : ns.length = (height + 1).toNat) {hashes : List Hash}
    (hk : hashes.length = k) :
    locatorLoop s rounds height (gap k) hashes =
      hashes ++ (rungs k ns).map fun n => n.body.hash := by
  -- on the rounds, with what is left of the branch below the height
  induction rounds generalizing ns k height hashes with
  | zero =>
    obtain rfl := List.eq_nil_of_length_eq_zero (Nat.le_zero.mp hrounds)
    simp [locatorLoop]
  | succ rounds ih =>
    unfold locatorLoop
    by_cases hneg : height < 0
    · obtain rfl := List.eq_nil_of_length_eq_zero (hheight.trans (by omega))
      simp [hneg]
    · cases ns with
      | nil => simp at hheight; omega
      | cons n rest =>
        have hbranch : Branch (lineage params) s.tree (n :: rest) :=
          hns.resolve_left (List.cons_ne_nil n rest)
        rw [List.length_cons] at hheight
        have hdepth : height.toNat = n.height := by
          rw [show n.height = rest.length from hbranch.depth_head]
          omega
        have hentry := hbase.getChainEntry_eq (hsub List.mem_cons_self)
        have hlisted : (hashes ++ [n.body.hash]).length = k + 1 := by simp [hk]
        have hstep : (if 10 ≤ (hashes ++ [n.body.hash]).length then gap k * 2 else gap k) =
            gap (k + 1) := by
          rw [hlisted, gap_succ]
        have hpos := gap_pos (k + 1)
        rw [if_neg hneg, hdepth, hentry, Option.map_some, Storage.entryAt_hash, Option.toList_some]
        simp only [hstep]
        -- the next rung is on the branch, or below its end
        have hdrop : (n :: rest).drop (gap (k + 1)) = [] ∨
            Branch (lineage params) s.tree ((n :: rest).drop (gap (k + 1))) := by
          by_cases hnil : (n :: rest).drop (gap (k + 1)) = []
          · exact .inl hnil
          · have hsplit := List.take_append_drop (gap (k + 1)) (n :: rest)
            exact .inr ((hsplit.symm ▸ hbranch).suffix hnil)
        have hlen : ((n :: rest).drop (gap (k + 1))).length = (height - gap (k + 1) + 1).toNat := by
          rw [List.length_drop, List.length_cons]
          omega
        rw [ih hdrop (fun m hm => hsub (List.mem_of_mem_drop hm))
          (by rw [List.length_drop]; omega) hlen hlisted, rungs_cons, List.map_cons,
          List.append_assoc]
        rfl

/-- The active chain, as nodes. -/
def activeNodes (bs : List TreeNode) : List ChainNode := bs.map fun n => n.chainNode n.body.hash

omit [ScanOrder Hash] in
theorem activeNodes_trail (hbranch : Branch (lineage params) s.tree bs) :
    Trail params s (activeNodes bs) := by
  have hnode : ∀ n, s.tree n.body.hash = some n →
      s.node n.body.hash = some (n.chainNode n.body.hash) := by
    intro n hn
    rw [Storage.node_eq_tree, hn]
  induction hbranch with
  | @root g hg hroot hzero =>
    have hgenesis : params.genesisHash = .ok g.body.hash := by
      rw [ChainParams.genesisHash, show params.genesisBlock = .ok g.body from hroot, ok_bind]
      rfl
    exact .root (hnode g hg) hgenesis hzero
  | @child b p rest hp hb hprev hheight ih => exact .child ih (hnode b hb) hprev hheight

end Blocks

/-! ## The list -/

section Listed

/-- Nodes of the branch of a tip, from the tip to genesis, at heights that descend. -/
structure Locates (params : ChainParams) (s : Storage) (tip : ChainNode) (nodes : List ChainNode) :
    Prop where
  listed : ∃ branch, Trail params s branch ∧ branch.head? = some tip ∧ nodes.Sublist branch
  descending : nodes.Pairwise fun n m => m.height < n.height
  first : nodes.head? = some tip
  last : ∃ genesis, nodes.getLast? = some genesis ∧ genesis.height = 0 ∧
    params.genesisHash = .ok genesis.hash ∧ (nodes.map ChainNode.hash).count genesis.hash = 1

variable {s : Storage}

/-- A locator that a message can carry. -/
def FitsMessage (hashes : List Hash) : Prop :=
  ∀ stopHash, ∃ payload, Message.encodeLocator hashes stopHash = .ok payload ∧
    Message.readToEnd Message.readLocator payload = .ok (hashes, stopHash)

/-- A trail descends. -/
theorem Trail.descending {ns : List ChainNode} (ht : Trail params s ns) :
    ns.Pairwise fun n m => m.height < n.height := by
  induction ns with
  | nil => exact List.Pairwise.nil
  | cons n rest ih =>
    refine List.pairwise_cons.mpr ⟨ht.depth_lt, ?_⟩
    cases rest with
    | nil => exact List.Pairwise.nil
    | cons p below => exact ih ht.tail

/-- A trail ends at genesis. -/
theorem Trail.exists_genesis {ns : List ChainNode} (ht : Trail params s ns) :
    ∃ init g, ns = init ++ [g] ∧ g.height = 0 ∧ params.genesisHash = .ok g.hash := by
  induction ht with
  | @root g _ hroot hzero => exact ⟨[], g, rfl, hzero, hroot⟩
  | @child n p below _ _ _ _ ih =>
    obtain ⟨init, g, heq, hg⟩ := ih
    exact ⟨n :: init, g, by rw [heq]; rfl, hg⟩

theorem Trail.hashes_nodup {ns : List ChainNode} (ht : Trail params s ns) :
    (ns.map ChainNode.hash).Nodup := by
  refine List.Nodup.map_on (fun n hn m hm heq => ?_) ht.nodup
  have hstored : s.node n.hash = some n := ht.stored n hn
  rw [heq, show s.node m.hash = some m from ht.stored m hm] at hstored
  exact (Option.some.inj hstored).symm

/-- What a locator makes of a ladder down a trail: genesis is added when the ladder leaves it
out. -/
theorem Trail.locates {tip : ChainNode} {rest : List ChainNode} (ht : Trail params s (tip :: rest))
    (hheight : tip.height < 2 ^ 32) {genesisHash : Hash}
    (hgen : params.genesisHash = .ok genesisHash) :
    ∃ nodes, endLocator genesisHash ((rungs 0 (tip :: rest)).map ChainNode.hash) =
        nodes.map ChainNode.hash ∧
      nodes.length ≤ 64 ∧ Locates params s tip nodes := by
  obtain ⟨init, g, hns, hzero, hg⟩ := Trail.exists_genesis ht
  obtain rfl : genesisHash = g.hash := Except.ok.inj (hgen.symm.trans hg)
  have hsub := rungs_sublist 0 (tip :: rest)
  have hhead : (rungs 0 (tip :: rest)).head? = some tip := by rw [rungs_cons]; rfl
  -- the ladder has forty distances below `2 ^ 32`
  have hshort : (rungs 0 (tip :: rest)).length ≤ 40 := by
    refine length_rungs_le ?_
    rw [List.length_cons, ← show tip.height = rest.length from ht.depth_head]
    exact Nat.le_trans hheight (by decide)
  -- whatever is listed along the trail and ends at genesis is a locator
  have hlocates : ∀ nodes : List ChainNode, nodes.Sublist (tip :: rest) → nodes.head? = some tip →
      nodes.getLast? = some g → Locates params s tip nodes := by
    intro nodes hnodes hfirst hlast
    have hnodup : (nodes.map ChainNode.hash).Nodup := (Trail.hashes_nodup ht).sublist (hnodes.map _)
    exact ⟨⟨tip :: rest, ht, rfl, hnodes⟩, (Trail.descending ht).sublist hnodes, hfirst, g, hlast,
      hzero, hg, List.count_eq_one_of_mem hnodup (List.mem_map_of_mem (List.mem_of_getLast? hlast))⟩
  generalize rungs 0 (tip :: rest) = nodes at hsub hhead hshort ⊢
  unfold endLocator
  by_cases hlast : (nodes.map ChainNode.hash).getLast? = some g.hash
  · rw [if_pos hlast]
    refine ⟨nodes, rfl, Nat.le_trans hshort (by decide), hlocates nodes hsub hhead ?_⟩
    rw [List.getLast?_map] at hlast
    obtain ⟨m, hm, hhash⟩ := Option.map_eq_some_iff.mp hlast
    have hstored : s.node m.hash = some m := ht.stored m (hsub.subset (List.mem_of_getLast? hm))
    rw [hhash, show s.node g.hash = some g from ht.stored g (by rw [hns]; simp)] at hstored
    rw [hm, Option.some.inj hstored]
  · rw [if_neg hlast]
    refine ⟨nodes ++ [g], by simp, ?_, hlocates (nodes ++ [g]) ?_ ?_ (by simp)⟩
    · rw [List.length_append, List.length_singleton]
      omega
    · rw [hns] at hsub ⊢
      obtain ⟨above, below, rfl, habove, hbelow⟩ := List.sublist_append_iff.mp hsub
      rcases List.sublist_singleton.mp hbelow with rfl | rfl
      · rw [List.append_nil]
        exact habove.append (List.Sublist.refl [g])
      · exact absurd (by simp) hlast
    · rw [List.head?_append, hhead]
      rfl

end Listed

/-! ## Both locators -/

section Chains

omit [Crypto] in
theorem fitsMessage {hashes : List Hash} (hne : hashes ≠ []) (hle : hashes.length ≤ 64) :
    FitsMessage hashes := by
  intro stopHash
  obtain ⟨payload, hencode, -, hread⟩ := Message.encodeLocator_ok stopHash hne hle
  exact ⟨payload, hencode, hread⟩

/-- The hashes of well-placed nodes make up a locator that a message can carry. -/
theorem Locates.fitsMessage {s : Storage} {tip : ChainNode} {nodes : List ChainNode}
    (h : Locates params s tip nodes) (hle : nodes.length ≤ 64) :
    FitsMessage (nodes.map ChainNode.hash) := by
  refine ScarletCoin.fitsMessage (fun hnil => ?_) (by rwa [List.length_map])
  have hfirst := h.first
  rw [List.map_eq_nil_iff.mp hnil] at hfirst
  cases hfirst

variable [ScanOrder Hash] {c : Blockchain}

theorem Standing.locator_eq {bs : List TreeNode} (hs : Standing params c bs)
    (hheight : c.height < 2 ^ 32) :
    ∃ nodes, c.locator params = .ok (nodes.map ChainNode.hash) ∧ nodes.length ≤ 64 ∧
      Locates params c.storage c.tip.node nodes := by
  obtain ⟨n, rest, hbs, htip, -⟩ := hs.tip
  have hbranch : Branch (lineage params) c.storage.tree (n :: rest) := hbs ▸ hs.based.active.branch
  have hstored : c.storage.tree n.body.hash = some n := hbranch.stored n List.mem_cons_self
  have htrail := activeNodes_trail hbranch
  have hnode : n.chainNode n.body.hash = c.tip.node := by
    have hboth := (Storage.node_eq_tree c.storage n.body.hash).symm.trans (Storage.node_eq hstored)
    rw [hstored, ← htip] at hboth
    exact Option.some.inj hboth
  have hdepth : c.height = rest.length := by
    rw [Blockchain.height, htip, Storage.entryAt_height hstored]
    exact hbranch.depth_head
  obtain ⟨init, g, -, -, hgen⟩ := Trail.exists_genesis htrail
  rw [activeNodes, List.map_cons, hnode] at htrail
  obtain ⟨nodes, hnodes, hle, hlocates⟩ := Trail.locates htrail hheight hgen
  refine ⟨nodes, ?_, hle, hlocates⟩
  have hloop : locatorLoop c.storage (c.height + 1) c.height (gap 0) [] =
      [] ++ (rungs 0 (n :: rest)).map fun n => n.body.hash :=
    locatorLoop_eq hs.based (.inr hbranch) (hbs ▸ List.Subset.refl _)
      (by rw [List.length_cons, hdepth]) (by rw [List.length_cons, hdepth]; omega) rfl
  have hmap : c.tip.node :: rest.map (fun n => n.chainNode n.body.hash) =
      (n :: rest).map fun n => n.chainNode n.body.hash := by rw [List.map_cons, hnode]
  rw [Blockchain.locator, hgen, ok_bind, ← hnodes, hmap, rungs_map, List.map_map]
  exact congrArg (fun hashes => Except.ok (endLocator g.hash hashes)) hloop

/-- The locator of the header chain, when it is longer than the active chain. -/
theorem Storage.Rooted.headerLocator_eq (hs : c.storage.Rooted params) {tip : ChainNode}
    (htip : c.headerTip = some tip) (hlonger : c.height < tip.height)
    (hheight : tip.height < 2 ^ 32) :
    ∃ nodes, c.headerLocator params = .ok (nodes.map ChainNode.hash) ∧ nodes.length ≤ 64 ∧
      Locates params c.storage tip nodes := by
  obtain ⟨rest, htrail⟩ := hs.wellRooted.exists_branch (Blockchain.headerTip_node htip)
  obtain ⟨init, g, -, -, hgen⟩ := Trail.exists_genesis htrail
  obtain ⟨nodes, hnodes, hle, hlocates⟩ := Trail.locates htrail hheight hgen
  have hloop : headerLocatorLoop c.storage c.storage.nodeRounds (some tip) (gap 0) 0 [] =
      .ok ([] ++ (rungs 0 (tip :: rest)).map ChainNode.hash) :=
    headerLocatorLoop_eq hs (.inr htrail) (Nat.le_of_lt (Trail.length_lt htrail)) (gap_pos 0) rfl
  refine ⟨nodes, ?_, hle, hlocates⟩
  unfold Blockchain.headerLocator
  rw [htip]
  dsimp only
  rw [if_neg (Nat.not_le.mpr hlonger), show (1 : Nat) = gap 0 from rfl, hloop, ok_bind, hgen,
    ok_bind, ← hnodes]
  rfl

/-- Below `2 ^ 32` both locators name nodes of one branch at descending heights, down to genesis, in
a message of at most 64 hashes. That of the active chain starts at its tip; that of the header chain
starts at the best header where this is higher, and else it is that of the active chain. -/
theorem Reachable.locators_wellFormed (h : Reachable params c) (hapart : c.storage.HashesApart)
    (hnull : c.storage.node nullHash = none) (hheight : c.height < 2 ^ 32) :
    (∃ nodes, c.locator params = .ok (nodes.map ChainNode.hash) ∧ nodes.length ≤ 64 ∧
      FitsMessage (nodes.map ChainNode.hash) ∧ Locates params c.storage c.tip.node nodes) ∧
    ∃ tip, c.headerTip = some tip ∧
      (tip.height ≤ c.height → c.headerLocator params = c.locator params) ∧
      (c.height < tip.height → tip.height < 2 ^ 32 →
        ∃ nodes, c.headerLocator params = .ok (nodes.map ChainNode.hash) ∧ nodes.length ≤ 64 ∧
          FitsMessage (nodes.map ChainNode.hash) ∧ Locates params c.storage tip nodes) := by
  obtain ⟨-, -, bs, -, -, hs⟩ := h.run
  obtain ⟨nodes, hnodes, hle, hlocates⟩ := hs.locator_eq hheight
  obtain ⟨tip, htip⟩ := hs.headerTip
  refine ⟨⟨nodes, hnodes, hle, hlocates.fitsMessage hle, hlocates⟩, tip, htip, fun hlow => ?_,
    fun hlonger hbelow => ?_⟩
  · unfold Blockchain.headerLocator
    rw [htip]
    exact if_pos hlow
  · obtain ⟨nodes, hnodes, hle, hlocates⟩ :=
      (h.rooted hapart hnull).headerLocator_eq htip hlonger hbelow
    exact ⟨nodes, hnodes, hle, hlocates.fitsMessage hle, hlocates⟩

end Chains

end Locators

section Instances

attribute [local instance] Sample.crypto Sample.order

/-- Three announced headers above genesis. -/
theorem locators_wellFormed_announced : ∃ c tip nodes, Sample.chainAfter announced = some c ∧
    c.headerTip = some tip ∧ tip.height = 3 ∧
    c.headerLocator REGTEST = .ok (nodes.map ChainNode.hash) ∧
    Locates REGTEST c.storage tip nodes := by
  have hrun : ((Sample.chainAfter announced).any fun c =>
      decide (c.height = 0) && decide (c.storage.node nullHash = none) &&
      (!c.storage.hasBlock nullHash) && decide (c.headerTip.map ChainNode.height = some 3) &&
      (scan c.storage.headers).all fun p =>
        (scan c.storage.blocks).all fun q => decide (q.1 ≠ p.1)) = true := by
    decide +kernel
  obtain ⟨c, hc, h⟩ := (Option.any_eq_true _ _).mp hrun
  simp only [Bool.and_eq_true, decide_eq_true_eq] at h
  obtain ⟨⟨⟨⟨hzero, hnull⟩, hblock⟩, hthree⟩, hapart⟩ := h
  obtain ⟨-, tip, htip, -, hlonger⟩ := (Sample.chainAfter_reachable hc).locators_wellFormed
    (Storage.hashesApart_of_scan (by simpa using hblock) hapart) hnull (by rw [hzero]; decide)
  rw [htip] at hthree
  have hheight : tip.height = 3 := Option.some.inj hthree
  obtain ⟨nodes, hnodes, -, -, hlocates⟩ := hlonger (by omega) (by omega)
  exact ⟨c, tip, nodes, hc, htip, hheight, hnodes, hlocates⟩

/-- A testnet block at the pace of the chain, and the header of one in a hurry. -/
def rivals : Block × BlockHeader :=
  let genesisHash := match TESTNET.genesisBlock with
    | .ok genesis => genesis.hash
    | .error _ => nullHash
  (Sample.block genesisHash 0x1E0FFFFF 1700000061 [Sample.coinbase 1 0 Sample.reward] (by simp),
    (Sample.block genesisHash 0x1E03FFFF 1700000002 [Sample.coinbase 1 1 Sample.reward]
      (by simp)).header)

/-- The best header weighs more than the block at its height, and the locator starts at the
block. -/
theorem headerLocator_not_bestHeader : ∃ c tip, Reachable TESTNET c ∧ c.height = 1 ∧
    c.headerTip = some tip ∧ tip.height = 1 ∧
    ∀ nodes, c.headerLocator TESTNET = .ok (nodes.map ChainNode.hash) →
      ¬ Locates TESTNET c.storage tip nodes := by
  have hrun : (((Blockchain.create TESTNET).toOption.bind fun c =>
      runCalls TESTNET c [Sample.submit rivals.1, .addHeader rivals.2]).any fun c =>
      decide (c.height = 1) && c.headerTip.any fun tip => decide (tip.height = 1) &&
        (c.headerLocator TESTNET).toOption.any fun hashes => decide (hashes.head? ≠
          some tip.hash)) = true := by
    decide +kernel
  obtain ⟨c, hc, h⟩ := (Option.any_eq_true _ _).mp hrun
  obtain ⟨start, hstart, hcalls⟩ := Option.bind_eq_some_iff.mp hc
  rw [Bool.and_eq_true, decide_eq_true_eq] at h
  obtain ⟨hheight, hbest⟩ := h
  obtain ⟨tip, htip, hrest⟩ := (Option.any_eq_true _ _).mp hbest
  rw [Bool.and_eq_true, decide_eq_true_eq] at hrest
  obtain ⟨hone, hlisted⟩ := hrest
  obtain ⟨hashes, hhashes, hhead⟩ := (Option.any_eq_true _ _).mp hlisted
  refine ⟨c, tip, (Reachable.create (toOption_eq_some.mp hstart)).of_runCalls hcalls, hheight, htip,
    hone, ?_⟩
  intro nodes hnodes hlocates
  rw [toOption_eq_some.mp hhashes] at hnodes
  obtain rfl := Except.ok.inj hnodes
  rw [List.head?_map, hlocates.first] at hhead
  exact of_decide_eq_true hhead rfl

end Instances

end ScarletCoin
