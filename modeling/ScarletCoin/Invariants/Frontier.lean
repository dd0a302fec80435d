import ScarletCoin.Invariants.Headers
import ScarletCoin.Invariants.Remembered

/-!
# Refused blocks and the header frontier

`add_block` remembers a refused block, but `header_tip` and `headers_to_download` never look at what
is remembered: they leave a refused branch alone only as long as no header on it is the heaviest one
known. `Watch` follows a chain through arriving headers and blocks together with the blocks that
were refused and have been remembered since, and `Watch.Calm` says of a call that it puts no refused
branch ahead. After calm calls nothing refused is proposed (`Watch.Reached.frontier_clear`).
-/

set_option autoImplicit false

namespace ScarletCoin

open Toolkit

section Frontier

variable [Crypto]

/-! ## Nodes are kept -/

/-- The node of a stored block. -/
def TreeNode.chainNode (h : Hash) (n : TreeNode) : ChainNode :=
  ⟨h, n.height, n.body.header.prevHash, n.chainwork, n.body.header.bits.toNat,
    n.body.header.timestamp.toNat⟩

omit [Crypto] in
/-- The nodes of a storage are those of its tree and, where there is no block, those of its
headers. -/
theorem Storage.node_eq_tree (s : Storage) (h : Hash) :
    s.node h = (match s.tree h with
      | some n => some (n.chainNode h)
      | none => (s.headers.lookup h).map (HeaderRow.node h)) := by
  unfold node getEntry tree headerEntry
  cases s.blocks.lookup h <;> rfl

omit [Crypto] in
theorem Storage.node_congr {s s' : Storage} (htree : s'.tree = s.tree)
    (hheaders : s'.headers = s.headers) : s'.node = s.node := by
  funext h
  rw [node_eq_tree, node_eq_tree, htree, hheaders]

/-- No stored block hashes to the null hash, and a block and a header with one hash have one
header. -/
structure Storage.HashesApart (s : Storage) : Prop where
  null : s.hasBlock nullHash = false
  same : ∀ h r n, s.headers.lookup h = some r → s.tree h = some n → r.header = n.body.header

/-- Every stored header is a node of its own, one above the node of its parent, with the work of its
bits added. -/
def Storage.HeadersWeighed (s : Storage) : Prop :=
  ∀ h r, s.headers.lookup h = some r → s.node h = some (r.node h) ∧
    ∃ p work, s.node r.header.prevHash = some p ∧ blockWork r.header.bits.toNat = .ok work ∧
      r.height = p.height + 1 ∧ r.chainwork = p.chainwork + work

/-- A node of the first storage is the same node in the second. -/
def Storage.NodesKept (s s' : Storage) : Prop := ∀ h n, s.node h = some n → s'.node h = some n

omit [Crypto] in
theorem Storage.HeadersWeighed.of_kept {s s' : Storage} (h : s.HeadersWeighed)
    (hkept : s.NodesKept s') (hheaders : s'.headers = s.headers) : s'.HeadersWeighed := by
  intro k r hr
  rw [hheaders] at hr
  obtain ⟨hnode, p, work, hp, hwork, hheight, hsum⟩ := h k r hr
  exact ⟨hkept _ _ hnode, p, work, hkept _ _ hp, hwork, hheight, hsum⟩

/-- A node above height zero has a parent node. -/
theorem node_parent {params : ChainParams} {s : Storage} (hT : GoodTree params s.tree)
    (hw : s.HeadersWeighed) {h : Hash} {n : ChainNode} (hn : s.node h = some n)
    (hpos : 0 < n.height) : ∃ p, s.node n.prevHash = some p := by
  rw [Storage.node_eq_tree] at hn
  split at hn
  · rename_i w hw'
    obtain rfl := Option.some.inj hn
    rcases hT.linked hw' with ⟨-, hzero, -⟩ | ⟨p, hp, -⟩
    · rw [show (w.chainNode h).height = w.height from rfl, hzero] at hpos
      exact absurd hpos (Nat.lt_irrefl 0)
    · exact ⟨p.chainNode _, by rw [Storage.node_eq_tree,
        show (w.chainNode h).prevHash = w.body.header.prevHash from rfl, hp]⟩
  · obtain ⟨r, hr, rfl⟩ := Option.map_eq_some_iff.mp hn
    obtain ⟨-, p, -, hp, -⟩ := hw h r hr
    exact ⟨p, hp⟩

/-- Later storage adds nothing below a node. -/
theorem Storage.BuildsOn.of_kept {params : ChainParams} {s s' : Storage}
    (hT : GoodTree params s.tree) (hw : s.HeadersWeighed) (hkept : s.NodesKept s') {h x : Hash}
    {n : ChainNode} (hn : s.node x = some n) (hbuilds : s'.BuildsOn h x) : s.BuildsOn h x := by
  obtain ⟨k, hk⟩ := hbuilds
  induction hk generalizing n with
  | self => exact .self s h
  | child hn' hpos _ ih =>
    rw [hkept _ _ hn] at hn'
    obtain rfl := Option.some.inj hn'
    obtain ⟨p, hp⟩ := node_parent hT hw hn hpos
    exact .child hn hpos (ih hp)

variable [ScanOrder Hash] {params : ChainParams}

/-- Placing a block keeps the nodes, also where its header was known. -/
theorem Blockchain.Placement.nodesKept {now : Nat} {c : Blockchain} {b : Block} {p : BlockRow}
    {work : Nat} (hp : c.Placement params now b p work) (hw : c.storage.HeadersWeighed)
    (hsame : ∀ r, c.storage.headers.lookup b.hash = some r → r.header = b.header) :
    c.storage.NodesKept (c.place b p work).storage := by
  intro k n hn
  have htree : ∀ j, (c.place b p work).storage.tree j =
      if j = b.hash then some (placedNode b p work) else c.storage.tree j := by
    intro j
    unfold Blockchain.place Storage.tree
    dsimp only
    rw [Table.lookup_insert_if]
    split <;> rfl
  by_cases hk : k = b.hash
  · subst hk
    have hunknown : c.storage.tree b.hash = none := by
      unfold Storage.tree
      rw [hp.unknown]
      rfl
    -- the header of the block was announced: its row says what the block's row says
    rw [Storage.node_eq_tree, hunknown] at hn
    obtain ⟨r, hr, rfl⟩ := Option.map_eq_some_iff.mp hn
    obtain ⟨-, q, work', hq, hwork', hheight, hsum⟩ := hw b.hash r hr
    have hheader := hsame r hr
    have hparent : c.storage.tree b.header.prevHash = some p.known :=
      Storage.tree_eq_some.mpr ⟨p, hp.parent, rfl⟩
    rw [hheader] at hq hwork'
    rw [Storage.node_eq_tree, hparent] at hq
    obtain rfl := Option.some.inj hq
    have hwork : work' = work := Except.ok.inj (hwork'.symm.trans hp.workEq)
    rw [Storage.node_eq_tree, htree, if_pos rfl]
    dsimp only
    unfold TreeNode.chainNode HeaderRow.node placedNode
    rw [hheight, hsum, hheader, hwork]
    rfl
  · rw [Storage.node_eq_tree, htree, if_neg hk]
    rw [Storage.node_eq_tree] at hn
    exact hn

omit [ScanOrder Hash] in
/-- Placing a header keeps the nodes and the weights. -/
theorem placeHeader_kept {c : Blockchain} {header : BlockHeader} {p : ChainNode} {work : Nat}
    (hblock : c.storage.hasBlock header.hash = false)
    (hheader : c.storage.hasHeader header.hash = false)
    (hp : c.storage.node header.prevHash = some p) (hwork : blockWork header.bits.toNat = .ok work)
    (hw : c.storage.HeadersWeighed) :
    c.storage.NodesKept (c.placeHeader header p work).storage ∧
      (c.placeHeader header p work).storage.HeadersWeighed := by
  have hkept : c.storage.NodesKept (c.placeHeader header p work).storage := by
    intro k n hn
    have hk : k ≠ header.hash := by
      rintro rfl
      have hnone : c.storage.headers.lookup header.hash = none := by
        simpa [Storage.hasHeader] using hheader
      obtain ⟨r, hr, -⟩ := Storage.node_of_missing hn hblock
      rw [hnone] at hr
      cases hr
    rw [Storage.node_eq_tree] at hn ⊢
    have hlookup : (c.placeHeader header p work).storage.headers.lookup k =
        c.storage.headers.lookup k := Finmap.lookup_insert_of_ne _ hk
    rw [hlookup]
    exact hn
  refine ⟨hkept, fun k r hr => ?_⟩
  by_cases hk : k = header.hash
  · subst hk
    have hrow : (c.placeHeader header p work).storage.headers.lookup header.hash =
        some ⟨p.height + 1, p.chainwork + work, header⟩ := Finmap.lookup_insert _
    rw [hrow] at hr
    obtain rfl := Option.some.inj hr
    exact ⟨Storage.node_of_header hrow hblock, p, work, hkept _ _ hp, hwork, rfl, rfl⟩
  · have hrow : c.storage.headers.lookup k = some r := by
      rw [← hr]
      exact (Finmap.lookup_insert_of_ne _ hk).symm
    obtain ⟨hnode, q, work', hq, hwork', hheight, hsum⟩ := hw k r hrow
    exact ⟨hkept _ _ hnode, q, work', hkept _ _ hq, hwork', hheight, hsum⟩

/-- A run of the activation stores nothing. -/
theorem visits_tree {a b : Activation} {bs : List TreeNode} (hs : Standing params a.chain bs)
    (h : Visits (activateRound params) a b) : b.chain.storage.tree = a.chain.storage.tree := by
  induction h with
  | start => rfl
  | @step b b' hvisits hnext ih =>
    obtain ⟨bs₁, -, hs₁⟩ := visits_standing hs hvisits
    obtain ⟨c₁, r₁⟩ := b
    obtain ⟨c₂, r₂⟩ := b'
    obtain ⟨new, gone, old, t, w, -, -, ⟨s, events, hswitch, hb'⟩ | ⟨hash, message, -, hb'⟩⟩ :=
      activateRound_cases hs₁ hnext
    · rw [hb', ← ih]
      refine switchTo_keeps Storage.tree (fun hdis => ?_) (fun hcon => ?_) (fun _ _ => rfl) hswitch
      · obtain ⟨undo, -, hdone⟩ := disconnectBlock_disconnected hdis
        exact Storage.tree_modify hdone.blocks fun _ => rfl
      · obtain ⟨st, data, -, -, rfl⟩ := connectBlock_eq_ok.mp hcon
        exact Storage.tree_modify (recordBlock_connected _ _ _ st data).blocks fun _ => rfl
    · rw [hb', c₁.invalidate_storage, ih]

/-- A submitted block keeps the nodes. -/
theorem addBlock_nodesKept {rounds now : Nat} {c c' : Blockchain} {b : Block}
    {bs : List TreeNode} {answer : Except PyError AddBlockResult} (hs : Standing params c bs)
    (hw : c.storage.HeadersWeighed)
    (hsame : ∀ r, c.storage.headers.lookup b.hash = some r →
      ∀ n, c'.storage.tree b.hash = some n → r.header = n.body.header)
    (h : c.addBlock params rounds now b = some (c', answer)) :
    c.storage.NodesKept c'.storage := by
  rcases Blockchain.addBlock_cases h with ⟨e, -, rfl, -⟩ | ⟨r, haccept, -⟩ |
    ⟨p, work, r, outcome, hplace, hvisits, -, -⟩
  · exact fun _ _ hn => hn
  · rcases Blockchain.admitBlock_answered haccept with rfl | ⟨reason, rfl⟩ <;>
      exact fun _ _ hn => hn
  · obtain ⟨-, hs₁⟩ := hplace.standing hs
    have htree := visits_tree (a := ⟨c.place b p work, false⟩) hs₁ hvisits
    have hheaders := visits_headers hvisits
    have hnode : c'.storage.node = (c.place b p work).storage.node :=
      Storage.node_congr htree hheaders
    have hplaced : c'.storage.tree b.hash = some (placedNode b p work) := by
      rw [show c'.storage.tree = _ from htree]
      unfold Blockchain.place Storage.tree
      dsimp only
      rw [Finmap.lookup_insert]
      rfl
    unfold Storage.NodesKept
    rw [hnode]
    exact hplace.nodesKept hw fun r hr => hsame r hr _ hplaced

/-! ## The best header -/

omit [Crypto] [ScanOrder Hash] in
theorem moreHeaderWork_total (a b : Hash × HeaderRow) :
    moreHeaderWork a b ∨ moreHeaderWork b a := by
  unfold moreHeaderWork
  omega

omit [Crypto] [ScanOrder Hash] in
theorem moreHeaderWork_trans {a b c : Hash × HeaderRow} (hab : moreHeaderWork a b)
    (hbc : moreHeaderWork b c) : moreHeaderWork a c := by
  unfold moreHeaderWork at *
  omega

omit [Crypto] in
/-- No stored header has more work than the best one. -/
theorem Storage.bestHeader_max {s : Storage} {k j : Hash} {r q : HeaderRow}
    (hbest : s.bestHeader = some (k, r)) (hq : s.headers.lookup j = some q) :
    s.headers.lookup k = some r ∧ q.chainwork ≤ r.chainwork := by
  have htotal : Std.Total moreHeaderWork := ⟨moreHeaderWork_total⟩
  have htrans : IsTrans (Hash × HeaderRow) moreHeaderWork := ⟨fun _ _ _ => moreHeaderWork_trans⟩
  obtain ⟨rest, hsorted⟩ := List.head?_eq_some_iff.mp hbest
  have hpair := List.pairwise_insertionSort moreHeaderWork (scan s.headers)
  have hmem : ∀ p, p ∈ (k, r) :: rest ↔ p ∈ scan s.headers := by
    intro p
    rw [← hsorted]
    exact List.mem_insertionSort _
  refine ⟨(mem_scan s.headers k r).mp ((hmem _).mp List.mem_cons_self), ?_⟩
  rw [hsorted] at hpair
  rcases List.mem_cons.mp ((hmem _).mpr ((mem_scan s.headers j q).mpr hq)) with heq | hrest
  · rw [(Prod.mk.inj heq).2]
  · rcases List.rel_of_pairwise_cons hpair hrest with hlt | ⟨heq, -⟩
    · exact Nat.le_of_lt hlt
    · exact Nat.le_of_eq heq

omit [Crypto] in
theorem Storage.bestHeader_isSome {s : Storage} {j : Hash} {q : HeaderRow}
    (hq : s.headers.lookup j = some q) : ∃ p, s.bestHeader = some p := by
  have hmem : (j, q) ∈ (scan s.headers).insertionSort moreHeaderWork :=
    (List.mem_insertionSort _).mpr ((mem_scan s.headers j q).mpr hq)
  unfold bestHeader
  cases hsorted : (scan s.headers).insertionSort moreHeaderWork with
  | nil =>
    rw [hsorted] at hmem
    cases hmem
  | cons p rest => exact ⟨p, rfl⟩

/-! ## Refused blocks -/

omit [ScanOrder Hash] in
/-- The node builds on none of the blocks. -/
def Storage.Clean (s : Storage) (hs : List Hash) (x : Hash) : Prop := ∀ h ∈ hs, ¬ s.BuildsOn h x

/-- A header that builds on none of the blocks has more work. -/
def Storage.Outweighed (s : Storage) (hs : List Hash) (work : Nat) : Prop :=
  ∃ y r, s.headers.lookup y = some r ∧ work < r.chainwork ∧ s.Clean hs y

/-- The block that a call refuses, if it does. -/
def Call.refuses (params : ChainParams) (c : Blockchain) : Call → List Hash
  | .addBlock rounds now b =>
      match c.addBlock params rounds now b with
      | some (_, .ok r) => if r.status = .invalid then [b.hash] else []
      | _ => []
  | _ => []

/-- A chain with the blocks that `add_block` has refused and that have been remembered since. -/
structure Watch where
  chain : Blockchain
  refused : List Hash

namespace Watch

/-- The chain and the refused blocks after a call. -/
def after (params : ChainParams) (w : Watch) (op : Call) : Option Watch :=
  (op.run params w.chain).map fun c =>
    ⟨c, (op.refuses params w.chain ++ w.refused).filter fun h => c.isInvalid h⟩

/-- A header arrives or a block does, and no refused branch gets ahead by it: a header on one that
has more work than the tip is outweighed by a header on none of them. -/
def Calm (params : ChainParams) (w : Watch) : Call → Prop
  | .addHeader header => ∀ p work, w.chain.storage.node header.prevHash = some p →
      blockWork header.bits.toNat = .ok work →
      (header.hash ∈ w.refused ∨ ¬ w.chain.storage.Clean w.refused header.prevHash) →
      w.chain.tip.chainwork < p.chainwork + work →
      w.chain.storage.Outweighed w.refused (p.chainwork + work)
  | .addBlock rounds now b => b.hash ∈ (Call.addBlock rounds now b).refuses params w.chain →
      ∀ x r, w.chain.storage.headers.lookup x = some r → w.chain.storage.BuildsOn b.hash x →
      w.chain.tip.chainwork < r.chainwork →
      w.chain.storage.Outweighed (b.hash :: w.refused) r.chainwork
  | .prune _ => False

/-- What calm calls lead to from a new chain. -/
inductive Reached (params : ChainParams) : Watch → Prop where
  | create {c : Blockchain} : Blockchain.create params = .ok c → Reached params ⟨c, []⟩
  | call {w w' : Watch} (op : Call) :
      Reached params w → w.Calm params op → w.after params op = some w' → Reached params w'

/-- Nothing refused is proposed: neither the best header nor a block to download is a refused block
or builds on one, and no header on another branch has more work than the one proposed. -/
structure Clear (w : Watch) : Prop where
  frontier : ∀ tip, w.chain.headerTip = some tip → w.chain.storage.Clean w.refused tip.hash
  download : ∀ limit, ∀ x ∈ w.chain.headersToDownload limit,
    w.chain.storage.Clean w.refused x
  best : ∀ tip, w.chain.headerTip = some tip → ∀ x r, w.chain.storage.headers.lookup x = some r →
    r.chainwork ≤ tip.chainwork

/-- The invariant behind it. -/
structure Sound (params : ChainParams) (w : Watch) (bs : List TreeNode) : Prop where
  unblemished : Unblemished params w.chain bs
  weighed : w.chain.storage.HeadersWeighed
  remembered : ∀ h ∈ w.refused, w.chain.isInvalid h = true
  behind : ∀ x r, w.chain.storage.headers.lookup x = some r →
    ¬ w.chain.storage.Clean w.refused x → w.chain.tip.chainwork < r.chainwork →
    w.chain.storage.Outweighed w.refused r.chainwork

end Watch

/-! ## What the frontier proposes -/

omit [Crypto] [ScanOrder Hash] in
theorem Storage.BuildsOn.trans {s : Storage} {h x y : Hash} (hhx : s.BuildsOn h x)
    (hxy : s.BuildsOn x y) : s.BuildsOn h y := by
  obtain ⟨k, hk⟩ := hxy
  induction hk with
  | self => exact hhx
  | child hn hpos _ ih => exact .child hn hpos ih

omit [Crypto] [ScanOrder Hash] in
/-- The best header builds on whatever the walk below it lists. -/
theorem missingBelow_buildsOn {s : Storage} (hw : s.HeadersWeighed) {x : Hash} {limit : Nat}
    {n : ChainNode} (hn : s.node n.hash = some n) (hx : x ∈ missingBelow s limit (some n)) :
    s.BuildsOn x n.hash := by
  induction limit generalizing n with
  | zero => cases hx
  | succ limit ih =>
    unfold missingBelow at hx
    split at hx
    · cases hx
    · rename_i hmissing
      rcases List.mem_cons.mp hx with rfl | hx
      · exact .self s _
      · obtain ⟨r, hr, hnode⟩ := Storage.node_of_missing hn ((Bool.not_eq_true _).mp hmissing)
        obtain ⟨-, p, work, hp, -, hheight, -⟩ := hw n.hash r hr
        have hprev : n.prevHash = r.header.prevHash := congrArg ChainNode.prevHash hnode
        have hpos : 0 < n.height := by
          rw [hnode]
          show 0 < r.height
          omega
        rw [hprev, hp] at hx
        have hhash := Storage.node_hash hp
        have hrec := ih (by rw [hhash, hp]) hx
        rw [hhash, ← hprev] at hrec
        exact .child hn hpos hrec

omit [ScanOrder Hash] in
/-- What an active block builds on is active. -/
theorem Based.active_below {s : Storage} {bs : List TreeNode} (hb : Based params (s, bs))
    {h x : Hash} (hbuilds : s.BuildsOn h x) {n : TreeNode} (hn : n ∈ bs) (hx : n.body.hash = x) :
    ∃ m ∈ bs, m.body.hash = h := by
  obtain ⟨k, hk⟩ := hbuilds
  induction hk generalizing n with
  | self => exact ⟨n, hn, hx⟩
  | @child k x w hw hpos _ ih =>
    have hstored : s.tree n.body.hash = some n := hb.active.branch.stored n hn
    rw [← hx, Storage.node_eq_tree, hstored] at hw
    obtain rfl := Option.some.inj hw
    obtain ⟨above, below, hbs⟩ := List.append_of_mem hn
    have hall : Branch (lineage params) s.tree (above ++ n :: below) := hbs ▸ hb.active.branch
    have hbranch := hall.suffix (List.cons_ne_nil _ _)
    cases below with
    | nil =>
      have hzero : n.height = 0 := hbranch.depth_head
      rw [show (n.chainNode n.body.hash).height = n.height from rfl, hzero] at hpos
      exact absurd hpos (Nat.lt_irrefl 0)
    | cons p below =>
      refine ih (n := p) (by rw [hbs]; simp) ?_
      exact (show n.body.header.prevHash = p.body.hash from hbranch.prev_head).symm

namespace Watch

/-- The best header is the tip, which has as much work as every header, or the heaviest header,
which has more work than the tip. -/
theorem headerTip_cases {c : Blockchain} {bs : List TreeNode} (hs : Standing params c bs)
    (hw : c.storage.HeadersWeighed) {tip : ChainNode} (htip : c.headerTip = some tip) :
    ((∃ n ∈ bs, tip.hash = n.body.hash) ∧ tip.chainwork = c.tip.chainwork ∧
        ∀ x r, c.storage.headers.lookup x = some r → r.chainwork ≤ tip.chainwork) ∨
      ∃ r, c.storage.headers.lookup tip.hash = some r ∧ tip.chainwork = r.chainwork ∧
        c.tip.chainwork < r.chainwork ∧
        ∀ x q, c.storage.headers.lookup x = some q → q.chainwork ≤ tip.chainwork := by
  obtain ⟨n, rest, hbs, hn, -⟩ := hs.tip
  have hmem : n ∈ bs := hbs ▸ List.mem_cons_self
  have hstored : c.storage.tree n.body.hash = some n := hs.based.active.branch.stored n hmem
  have hblock : c.storage.node c.tip.hash = some (n.chainNode n.body.hash) := by
    rw [hn, Storage.entryAt_hash, Storage.node_eq_tree, hstored]
  have hwork : (n.chainNode n.body.hash).chainwork = c.tip.chainwork := by
    rw [hn, Storage.entryAt_chainwork hstored]
    rfl
  unfold Blockchain.headerTip at htip
  rw [hblock] at htip
  cases hbest : c.storage.bestHeader with
  | none =>
    rw [hbest] at htip
    obtain rfl := Option.some.inj htip
    refine .inl ⟨⟨n, hmem, rfl⟩, hwork, fun x r hr => ?_⟩
    obtain ⟨p, hp⟩ := Storage.bestHeader_isSome hr
    rw [hbest] at hp
    cases hp
  | some p =>
    obtain ⟨z, rz⟩ := p
    -- the best header has the most work of all headers
    have hmax : ∀ x r, c.storage.headers.lookup x = some r →
        c.storage.headers.lookup z = some rz ∧ r.chainwork ≤ rz.chainwork :=
      fun x r hr => Storage.bestHeader_max hbest hr
    have hz : c.storage.headers.lookup z = some rz := by
      have hin : (z, rz) ∈ (scan c.storage.headers).insertionSort moreHeaderWork :=
        List.mem_of_head? hbest
      exact (mem_scan _ z rz).mp ((List.mem_insertionSort _).mp hin)
    have hnode := (hw z rz hz).1
    rw [hbest, Option.bind_some, hnode] at htip
    dsimp only at htip
    split at htip
    · rename_i hlt
      obtain rfl := Option.some.inj htip
      rw [hwork] at hlt
      exact .inr ⟨rz, hz, rfl, hlt, fun x q hq => (hmax x q hq).2⟩
    · rename_i hge
      obtain rfl := Option.some.inj htip
      refine .inl ⟨⟨n, hmem, rfl⟩, hwork, fun x r hr => ?_⟩
      exact (hmax x r hr).2.trans (Nat.not_lt.mp hge)

/-- The invariant keeps refused blocks out of what is proposed. -/
theorem Sound.clear {w : Watch} {bs : List TreeNode} (h : w.Sound params bs) : w.Clear := by
  have hfrontier : ∀ tip, w.chain.headerTip = some tip →
      w.chain.storage.Clean w.refused tip.hash := by
    intro tip htip
    rcases headerTip_cases h.unblemished.standing h.weighed htip with
      ⟨⟨n, hn, hhash⟩, -, -⟩ | ⟨r, hr, hwork, hahead, hmax⟩
    · -- what the tip builds on is active, and no active block is remembered
      intro k hk hbuilds
      obtain ⟨m, hm, rfl⟩ :=
        h.unblemished.standing.based.active_below hbuilds hn hhash.symm
      have hbad := h.remembered _ hk
      rw [h.unblemished.active m hm] at hbad
      cases hbad
    · -- a header on a refused branch would be outweighed, and this one is the heaviest
      by_contra hdirty
      obtain ⟨y, q, hq, hlt, -⟩ := h.behind tip.hash r hr hdirty hahead
      have hle := hmax y q hq
      omega
  refine ⟨hfrontier, fun limit x hx => ?_, fun tip htip x r hr => ?_⟩
  · unfold Blockchain.headersToDownload at hx
    cases htip : w.chain.headerTip with
    | none =>
      rw [htip] at hx
      cases hx
    | some tip =>
      rw [htip] at hx
      intro k hk hbuilds
      have hbelow := missingBelow_buildsOn h.weighed (Blockchain.headerTip_node htip)
        (List.mem_reverse.mp hx)
      exact hfrontier tip htip k hk (hbuilds.trans hbelow)
  · rcases headerTip_cases h.unblemished.standing h.weighed htip with
      ⟨-, -, hmax⟩ | ⟨-, -, -, -, hmax⟩
    · exact hmax x r hr
    · exact hmax x r hr

/-! ## Calm calls keep it so -/

omit [ScanOrder Hash] in
/-- What outweighs a header goes on to do so. -/
theorem Outweighed.of_kept {s s' : Storage} {hs hs' : List Hash} {work : Nat}
    (hT : GoodTree params s.tree) (hw : s.HeadersWeighed) (hkept : s.NodesKept s')
    (hheaders : ∀ k r, s.headers.lookup k = some r → s'.headers.lookup k = some r)
    (hsub : ∀ h ∈ hs', h ∈ hs) (h : s.Outweighed hs work) : s'.Outweighed hs' work := by
  obtain ⟨y, r, hr, hlt, hclean⟩ := h
  refine ⟨y, r, hheaders y r hr, hlt, fun k hk hbuilds => ?_⟩
  exact hclean k (hsub k hk) (hbuilds.of_kept hT hw hkept (hw y r hr).1)

/-- After a block has arrived, a header on a refused branch that is ahead of the tip is
outweighed. -/
theorem Sound.behind_block {w : Watch} {bs : List TreeNode} (h : w.Sound params bs)
    {rounds now : Nat} {b : Block} (hcalm : w.Calm params (.addBlock rounds now b)) {x : Hash}
    {r : HeaderRow} (hr : w.chain.storage.headers.lookup x = some r)
    (hdirty : ¬ w.chain.storage.Clean
      ((Call.addBlock rounds now b).refuses params w.chain ++ w.refused) x)
    (hahead : w.chain.tip.chainwork < r.chainwork) :
    w.chain.storage.Outweighed ((Call.addBlock rounds now b).refuses params w.chain ++ w.refused)
      r.chainwork := by
  -- the call refuses its own block or nothing
  have hrefuses : (Call.addBlock rounds now b).refuses params w.chain = [] ∨
      (Call.addBlock rounds now b).refuses params w.chain = [b.hash] := by
    unfold Call.refuses
    dsimp only
    split
    · split
      · exact .inr rfl
      · exact .inl rfl
    · exact .inl rfl
  rcases hrefuses with hnone | hone
  · rw [hnone, List.nil_append] at hdirty ⊢
    exact h.behind x r hr hdirty hahead
  · have hb := hcalm (by rw [hone]; exact List.mem_cons_self)
    rw [hone, List.singleton_append] at hdirty ⊢
    by_cases hbx : w.chain.storage.BuildsOn b.hash x
    · exact hb x r hr hbx hahead
    · -- what outweighed it before does so still, unless that builds on the new block
      have hold : ¬ w.chain.storage.Clean w.refused x := by
        intro hclean
        refine hdirty fun k hk => ?_
        rcases List.mem_cons.mp hk with rfl | hk
        · exact hbx
        · exact hclean k hk
      obtain ⟨y, q, hq, hlt, hclean⟩ := h.behind x r hr hold hahead
      by_cases hby : w.chain.storage.BuildsOn b.hash y
      · obtain ⟨z, q', hq', hlt', hclean'⟩ := hb y q hq hby (hahead.trans hlt)
        exact ⟨z, q', hq', hlt.trans hlt', hclean'⟩
      · refine ⟨y, q, hq, hlt, fun k hk => ?_⟩
        rcases List.mem_cons.mp hk with rfl | hk
        · exact hby
        · exact hclean k hk

/-- The chain of a watch is reachable. -/
theorem Reached.reachable {w : Watch} (h : Reached params w) : Reachable params w.chain := by
  induction h with
  | create hc => exact .create hc
  | call op _ _ hafter ih =>
    obtain ⟨c, hc, rfl⟩ := Option.map_eq_some_iff.mp hafter
    exact .call op ih hc

/-- A header or a block arriving drops no header. -/
theorem headers_kept {w : Watch} {op : Call} (hcalm : w.Calm params op) {c : Blockchain}
    (h : op.run params w.chain = some c) (k : Hash) (r : HeaderRow)
    (hr : w.chain.storage.headers.lookup k = some r) : c.storage.headers.lookup k = some r := by
  cases op with
  | addBlock rounds now b =>
    obtain ⟨⟨c₁, answer⟩, hadd, rfl⟩ := Option.map_eq_some_iff.mp h
    rw [addBlock_headers hadd]
    exact hr
  | addHeader header =>
    unfold Call.run at h
    dsimp only at h
    split at h
    · rename_i c₁ answer hadd
      obtain rfl := Option.some.inj h
      rcases Blockchain.addHeader_cases hadd with rfl | ⟨p, work, -, hnew, -, -, rfl⟩
      · exact hr
      · unfold Blockchain.placeHeader
        rw [Table.lookup_insert_if, if_neg, hr]
        rintro rfl
        rw [Storage.hasHeader, hr] at hnew
        cases hnew
    · obtain rfl := Option.some.inj h
      exact hr
  | prune keepBlocks => exact hcalm.elim

omit [ScanOrder Hash] in
/-- Dropping refused blocks keeps the invariant. -/
theorem Sound.of_subset {w : Watch} {bs : List TreeNode} (h : w.Sound params bs)
    {refused : List Hash} (hsub : ∀ k ∈ refused, k ∈ w.refused) :
    Sound params ⟨w.chain, refused⟩ bs := by
  refine ⟨h.unblemished, h.weighed, fun k hk => h.remembered k (hsub k hk),
    fun x r hr hdirty hahead => ?_⟩
  have hold : ¬ w.chain.storage.Clean w.refused x :=
    fun hclean => hdirty fun k hk => hclean k (hsub k hk)
  exact Outweighed.of_kept h.unblemished.standing.based.tree h.weighed (fun _ _ hn => hn)
    (fun _ _ hr => hr) hsub (h.behind x r hr hold hahead)

/-- A header that arrives calmly keeps the invariant. -/
theorem Sound.placeHeader {w : Watch} {bs : List TreeNode} (h : w.Sound params bs)
    {header : BlockHeader} (hcalm : w.Calm params (.addHeader header)) {p : ChainNode} {work : Nat}
    (hblock : w.chain.storage.hasBlock header.hash = false)
    (hheader : w.chain.storage.hasHeader header.hash = false)
    (hp : w.chain.storage.node header.prevHash = some p)
    (hwork : blockWork header.bits.toNat = .ok work) :
    Sound params ⟨w.chain.placeHeader header p work, w.refused⟩ bs := by
  have hT := h.unblemished.standing.based.tree
  obtain ⟨hkept, hweighed⟩ := placeHeader_kept hblock hheader hp hwork h.weighed
  have hstep : ChainStep params (w.chain.storage, bs)
      ((w.chain.placeHeader header p work).storage, bs) := .header _
  have hnone : w.chain.storage.headers.lookup header.hash = none := by
    simpa [Storage.hasHeader] using hheader
  have hrows : ∀ k r, w.chain.storage.headers.lookup k = some r →
      (w.chain.placeHeader header p work).storage.headers.lookup k = some r := by
    intro k r hr
    unfold Blockchain.placeHeader
    rw [Table.lookup_insert_if, if_neg, hr]
    rintro rfl
    rw [hnone] at hr
    cases hr
  obtain ⟨n, rest, hbs, hn, hpoint⟩ := h.unblemished.standing.tip
  have hu : Unblemished params (w.chain.placeHeader header p work) bs :=
    ⟨⟨hstep.based h.unblemished.standing.based, n, rest, hbs, hn, hpoint⟩, h.unblemished.whole,
      h.unblemished.active⟩
  refine ⟨hu, hweighed, h.remembered, fun x r hr hdirty hahead => ?_⟩
  by_cases hx : x = header.hash
  · -- the new header: what it builds on below itself, its parent built on before
    subst hx
    have hrow : (w.chain.placeHeader header p work).storage.headers.lookup header.hash =
        some ⟨p.height + 1, p.chainwork + work, header⟩ := Finmap.lookup_insert _
    rw [show Finmap.lookup header.hash _ = _ from hrow] at hr
    obtain rfl := Option.some.inj hr
    have hnode := Storage.node_of_header hrow hblock
    refine Outweighed.of_kept hT h.weighed hkept hrows (fun _ hk => hk)
      (hcalm p work hp hwork ?_ hahead)
    by_contra hclean
    obtain ⟨hnot, hbelow⟩ := not_or.mp hclean
    refine hdirty fun k hk hbuilds => ?_
    obtain ⟨j, hj⟩ := hbuilds
    cases hj with
    | self => exact hnot hk
    | @child j _ m hm _ hbuilds =>
      rw [show Storage.node _ header.hash = _ from hnode] at hm
      obtain rfl := Option.some.inj hm
      refine hbelow fun hclean => hclean k hk ?_
      exact Storage.BuildsOn.of_kept hT h.weighed hkept hp ⟨j, hbuilds⟩
  · -- any other header was there before, with what it builds on
    have hold : w.chain.storage.headers.lookup x = some r := by
      rw [← hr]
      exact (Finmap.lookup_insert_of_ne _ hx).symm
    refine Outweighed.of_kept hT h.weighed hkept hrows (fun _ hk => hk)
      (h.behind x r hold (fun hclean => hdirty fun k hk hbuilds => ?_) hahead)
    exact hclean k hk (hbuilds.of_kept hT h.weighed hkept (h.weighed x r hold).1)

/-- The invariant holds of everything reached, and hence nothing refused is proposed. -/
theorem Reached.sound {w : Watch} (h : Reached params w)
    (hapart : w.chain.storage.HashesApart) : ∃ bs, w.Sound params bs := by
  induction h with
  | @create c hc =>
    obtain ⟨g, hg, hs, hinvalid⟩ := Blockchain.create_standing hc
    have hnone : ∀ k, c.storage.headers.lookup k = none := by
      intro k
      rw [hg.headers]
      rfl
    refine ⟨[g], ⟨hs, fun k => ?_, fun n _ => ?_⟩, fun k r hr => ?_, fun k hk => ?_,
      fun x r hr => ?_⟩
    · unfold Storage.prunedAt
      rw [show c.storage.blocks = _ from hg.blocks, Table.lookup_insert_if]
      split <;> simp
    · unfold Blockchain.isInvalid
      rw [hinvalid]
      rfl
    · rw [hnone] at hr
      cases hr
    · cases hk
    · rw [hnone] at hr
      cases hr
  | @call w w' op hreach hcalm hafter ih =>
    obtain ⟨c', hrun, rfl⟩ := Option.map_eq_some_iff.mp hafter
    obtain ⟨s₀, g, bs₀, -, -, hs₀⟩ := hreach.reachable.run
    obtain ⟨bs₁, htrace₁, -⟩ := Call.run_standing hs₀ hrun
    have hheaders := headers_kept hcalm hrun
    -- no calm call removes a header or a block, so hashes apart now were apart before
    have hbefore : w.chain.storage.HashesApart := ⟨hasBlock_of_trace htrace₁ hapart.null,
      fun k r n hr hn => hapart.same k r n (hheaders k r hr) (htrace₁.tree_mono hn)⟩
    obtain ⟨bs, hsound⟩ := ih hbefore
    have hstanding := hsound.unblemished.standing
    have hT := hstanding.based.tree
    have hkeep : ∀ k ∈ (op.refuses params w.chain ++ w.refused).filter fun h => c'.isInvalid h,
        k ∈ op.refuses params w.chain ++ w.refused ∧ c'.isInvalid k = true :=
      fun k hk => List.mem_filter.mp hk
    cases op with
    | addBlock rounds now b =>
      obtain ⟨⟨c₁, answer⟩, hadd, rfl⟩ := Option.map_eq_some_iff.mp hrun
      obtain ⟨bs', htrace, hu', hwork⟩ := addBlock_unblemished hsound.unblemished hapart.null hadd
      have hnodes : w.chain.storage.NodesKept c₁.storage :=
        addBlock_nodesKept hstanding hsound.weighed
          (fun r hr n hn => hapart.same b.hash r n (hheaders _ r hr) hn) hadd
      have hsame := addBlock_headers hadd
      refine ⟨bs', hu', hsound.weighed.of_kept hnodes hsame, fun k hk => (hkeep k hk).2,
        fun x r hr hdirty hahead => ?_⟩
      rw [show c₁.storage.headers = _ from hsame] at hr
      refine Outweighed.of_kept hT hsound.weighed hnodes hheaders (fun k hk => (hkeep k hk).1)
        (hsound.behind_block hcalm hr (fun hclean => hdirty fun k hk hbuilds => ?_)
          (Nat.lt_of_le_of_lt hwork hahead))
      exact hclean k (hkeep k hk).1 (hbuilds.of_kept hT hsound.weighed hnodes
        (hsound.weighed x r hr).1)
    | addHeader header =>
      have hsub : ∀ k ∈ ((Call.addHeader header).refuses params w.chain ++ w.refused).filter
          fun h => c'.isInvalid h, k ∈ w.refused := by
        intro k hk
        exact (List.mem_append.mp (hkeep k hk).1).resolve_left List.not_mem_nil
      unfold Call.run at hrun
      dsimp only at hrun
      split at hrun
      · rename_i c₁ answer hadd
        obtain rfl := Option.some.inj hrun
        rcases Blockchain.addHeader_cases hadd with rfl | ⟨p, work, hblock, hnew, hp, hwork, rfl⟩
        · exact ⟨bs, hsound.of_subset hsub⟩
        · exact ⟨bs, (hsound.placeHeader hcalm hblock hnew hp hwork).of_subset hsub⟩
      · obtain rfl := Option.some.inj hrun
        exact ⟨bs, hsound.of_subset hsub⟩
    | prune keepBlocks => exact hcalm.elim

/-- As long as no call puts a refused branch ahead, no refused block and no block built on one is
proposed while it is remembered. -/
theorem Reached.frontier_clear {w : Watch} (h : Reached params w)
    (hapart : w.chain.storage.HashesApart) : w.Clear := by
  obtain ⟨bs, hsound⟩ := h.sound hapart
  exact hsound.clear

/-- What makes a call calm at a glance: a block arrives while no header is ahead of the tip, or a
header arrives while no block is refused. -/
def quiet (w : Watch) : Call → Bool
  | .addHeader _ => w.refused.isEmpty
  | .addBlock _ _ _ => (scan w.chain.storage.headers).all fun p =>
      decide (p.2.chainwork ≤ w.chain.tip.chainwork)
  | .prune _ => false

theorem calm_of_quiet {w : Watch} {op : Call} (h : w.quiet op = true) : w.Calm params op := by
  cases op with
  | addBlock rounds now b =>
    intro _ x r hr _ hahead
    have hle := List.all_eq_true.mp h (x, r) ((mem_scan _ x r).mpr hr)
    exact absurd hahead (Nat.not_lt.mpr (of_decide_eq_true hle))
  | addHeader header =>
    have hnone : w.refused = [] := List.isEmpty_iff.mp h
    intro p work _ _ hdirty
    rw [hnone] at hdirty
    rcases hdirty with hmem | hdirty
    · cases hmem
    · exact absurd (fun k hk => nomatch hk) hdirty
  | prune keepBlocks => cases h

/-- The watch after calls that are calm at a glance. -/
def follow (params : ChainParams) : Watch → List Call → Option Watch
  | w, [] => some w
  | w, op :: ops =>
      if w.quiet op then (w.after params op).bind fun w' => follow params w' ops else none

theorem Reached.follow {w w' : Watch} {ops : List Call} (h : Reached params w)
    (hops : w.follow params ops = some w') : Reached params w' := by
  induction ops generalizing w with
  | nil =>
    obtain rfl := Option.some.inj hops
    exact h
  | cons op ops ih =>
    unfold Watch.follow at hops
    split at hops
    · rename_i hquiet
      obtain ⟨w₁, hafter, hrest⟩ := Option.bind_eq_some_iff.mp hops
      exact ih (.call op h (calm_of_quiet hquiet) hafter) hrest
    · cases hops

end Watch

omit [Crypto] in
/-- Hashes are apart where no block shares its hash with a header. -/
theorem Storage.hashesApart_of_scan {s : Storage} (hnull : s.hasBlock nullHash = false)
    (hapart : ((scan s.headers).all fun p => (scan s.blocks).all fun q => decide (q.1 ≠ p.1)) =
      true) :
    s.HashesApart := by
  refine ⟨hnull, fun k r n hr hn => ?_⟩
  obtain ⟨row, hrow, -⟩ := Storage.tree_eq_some.mp hn
  have hall := List.all_eq_true.mp hapart (k, r) ((mem_scan _ k r).mpr hr)
  have hne := List.all_eq_true.mp hall (k, row) ((mem_scan _ k row).mpr hrow)
  exact absurd rfl (of_decide_eq_true hne)

end Frontier

section Instances

attribute [local instance] Sample.crypto Sample.order

/-- A block on genesis with its header announced and another body: the header commits to a coinbase
that is not there. -/
def hollowBlock : Block :=
  { Sample.regtestBlock Sample.genesisHash 1 0 with
    header := (Sample.regtestBlock Sample.genesisHash 1 1).header }

/-- The tip is as heavy as the header of the block that is refused. -/
theorem clear_hollowBlock : ∃ w : Watch, w.refused = [hollowBlock.hash] ∧
    w.chain.storage.hasHeader hollowBlock.hash = true ∧ w.Clear := by
  have hrun : ((Blockchain.create REGTEST).toOption.any fun c =>
      (Watch.follow REGTEST ⟨c, []⟩ [Sample.submit (Sample.regtestBlock Sample.genesisHash 1 0),
        .addHeader hollowBlock.header, Sample.submit hollowBlock]).any fun w =>
      decide (w.refused = [hollowBlock.hash]) &&
      w.chain.storage.hasHeader hollowBlock.hash &&
      (!w.chain.storage.hasBlock nullHash) &&
      (scan w.chain.storage.headers).all fun p =>
        (scan w.chain.storage.blocks).all fun q => decide (q.1 ≠ p.1)) = true := by
    decide +kernel
  obtain ⟨c, hc, hfollow⟩ := (Option.any_eq_true _ _).mp hrun
  obtain ⟨w, hw, hcheck⟩ := (Option.any_eq_true _ _).mp hfollow
  simp only [Bool.and_eq_true, decide_eq_true_eq] at hcheck
  obtain ⟨⟨⟨hrefused, hheader⟩, hnull⟩, hapart⟩ := hcheck
  have hcreate : Blockchain.create REGTEST = .ok c := by
    cases hstart : Blockchain.create REGTEST with
    | error e =>
      rw [hstart] at hc
      cases hc
    | ok c' =>
      rw [hstart] at hc
      exact congrArg Except.ok (Option.some.inj hc)
  refine ⟨w, hrefused, hheader, ((Watch.Reached.create hcreate).follow hw).frontier_clear
    (Storage.hashesApart_of_scan (by simpa using hnull) hapart)⟩

/-- A block on genesis that pays its miner one coin too many. -/
def greedyBlock : Block :=
  Sample.block Sample.genesisHash 0x207FFFFF 1700000012
    [Sample.coinbase 1 0 (Sample.payTo (51 * COIN) (by decide))] (by simp)

/-- Its header and one on top of it are announced; then its body is refused and remembered, yet the
best header builds on it, and what builds on it is what the node downloads. -/
theorem frontier_proposes_refused : ∃ c c' r, Sample.chainAfter
      [.addHeader greedyBlock.header,
        .addHeader (Sample.regtestBlock greedyBlock.hash 2 0).header] = some c ∧
    c.addBlock REGTEST 100 1700001000 greedyBlock = some (c', .ok r) ∧ r.status = .invalid ∧
    c'.isInvalid greedyBlock.hash = true ∧
    (∃ tip, c'.headerTip = some tip ∧ c'.storage.BuildsOn greedyBlock.hash tip.hash) ∧
    ∃ x ∈ c'.headersToDownload 2000, c'.storage.BuildsOn greedyBlock.hash x := by
  have hrun : ((Sample.chainAfter [.addHeader greedyBlock.header,
      .addHeader (Sample.regtestBlock greedyBlock.hash 2 0).header]).any fun c =>
      (c.addBlock REGTEST 100 1700001000 greedyBlock).any fun outcome =>
      (outcome.2.toOption.any fun r => decide (r.status = .invalid)) &&
      outcome.1.isInvalid greedyBlock.hash &&
      outcome.1.headerTip.any fun tip =>
        decide (outcome.1.headersToDownload 2000 = [tip.hash]) &&
        decide (0 < tip.height ∧ tip.prevHash = greedyBlock.hash)) = true := by
    decide +kernel
  obtain ⟨c, hc, houter⟩ := (Option.any_eq_true _ _).mp hrun
  obtain ⟨⟨c', answer⟩, hadd, hcheck⟩ := (Option.any_eq_true _ _).mp houter
  simp only [Bool.and_eq_true] at hcheck
  obtain ⟨⟨hanswer, hinvalid⟩, hheader⟩ := hcheck
  obtain ⟨r, hr, hstatus⟩ := (Option.any_eq_true _ _).mp hanswer
  obtain ⟨tip, htip, hlist⟩ := (Option.any_eq_true _ _).mp hheader
  simp only [Bool.and_eq_true, decide_eq_true_eq] at hlist hstatus
  obtain ⟨hdownload, hpos, hprev⟩ := hlist
  have hok : answer = .ok r := by
    cases answer with
    | error e => cases hr
    | ok r' => exact congrArg Except.ok (Option.some.inj hr)
  have hbuilds : c'.storage.BuildsOn greedyBlock.hash tip.hash :=
    .child (Blockchain.headerTip_node htip) hpos (hprev ▸ .self _ _)
  refine ⟨c, c', r, hc, by rw [hadd, hok], hstatus, hinvalid, ⟨tip, htip, hbuilds⟩, tip.hash, ?_,
    hbuilds⟩
  rw [hdownload]
  exact List.mem_singleton_self _

end Instances

end ScarletCoin
