import ScarletCoin.Core.HeaderSync
import ScarletCoin.Invariants.Runs
import ScarletCoin.Sample

/-!
# The header chain

Headers are stored on top of blocks or of other headers, so the way down from any header ends at a
stored block (`HeadersLinked`, kept by every call). `Descent` is that way: the nodes whose blocks
are missing, tip first. `headers_to_download` walks it from the tip and stops after `limit` nodes,
so it returns the upper end of the way; it starts where the chain can grow exactly if it returns all
of it (`Reachable.headersToDownload_canGrow_iff`).
-/

set_option autoImplicit false

namespace ScarletCoin

open Toolkit

/-! ## Stored headers -/

/-- Every stored header lies above a stored block, or one above another stored header. -/
def Storage.HeadersLinked (s : Storage) : Prop :=
  ∀ h r, s.headers.lookup h = some r → 0 < r.height ∧
    (s.hasBlock r.header.prevHash = true ∨
      ∃ r', s.headers.lookup r.header.prevHash = some r' ∧ r.height = r'.height + 1)

/-- The node of a hash without a block is the node of its header. -/
theorem Storage.node_eq_header {s : Storage} {h : Hash} (hmissing : s.hasBlock h = false) :
    s.node h = (s.headers.lookup h).map fun r => r.node h := by
  have hnone : s.getEntry h = none := by
    unfold hasBlock at hmissing
    unfold getEntry
    cases hrow : s.blocks.lookup h with
    | none => rfl
    | some row =>
      rw [hrow] at hmissing
      cases hmissing
  rw [node, hnone, headerEntry]

theorem Storage.node_of_missing {s : Storage} {h : Hash} {n : ChainNode}
    (hn : s.node h = some n) (hmissing : s.hasBlock h = false) :
    ∃ r, s.headers.lookup h = some r ∧ n = r.node h := by
  rw [node_eq_header hmissing] at hn
  obtain ⟨r, hr, rfl⟩ := Option.map_eq_some_iff.mp hn
  exact ⟨r, hr, rfl⟩

theorem Storage.node_of_header {s : Storage} {h : Hash} {r : HeaderRow}
    (hr : s.headers.lookup h = some r) (hmissing : s.hasBlock h = false) :
    s.node h = some (r.node h) := by
  rw [node_eq_header hmissing, hr, Option.map_some]

theorem Storage.node_hash {s : Storage} {h : Hash} {n : ChainNode} (hn : s.node h = some n) :
    n.hash = h := by
  unfold node at hn
  cases he : s.getEntry h with
  | some e =>
    rw [he] at hn
    obtain rfl := Option.some.inj hn
    obtain ⟨row, -, rfl⟩ := Option.map_eq_some_iff.mp he
    rfl
  | none =>
    rw [he] at hn
    obtain ⟨r, -, rfl⟩ := Option.map_eq_some_iff.mp hn
    rfl

/-- A stored block above genesis has a stored parent. -/
theorem GoodTree.hasBlock_prev [Crypto] {params : ChainParams} {s : Storage}
    (hT : GoodTree params s.tree) {h : Hash} {n : ChainNode} (hn : s.node h = some n)
    (hstored : s.hasBlock h = true) (hpos : 0 < n.height) : s.hasBlock n.prevHash = true := by
  obtain ⟨w, hw⟩ := Storage.hasBlock_iff.mp hstored
  have hkey := hT.keyed hw
  subst hkey
  rw [Storage.node, Storage.getEntry_eq hw] at hn
  obtain rfl := Option.some.inj hn
  have hheight : (s.entryAt w).node.height = w.height := Storage.entryAt_height hw
  rcases hT.linked hw with ⟨-, hzero, -⟩ | ⟨p, hp, -⟩
  · omega
  · rw [show (s.entryAt w).node.prevHash = _ from Storage.entryAt_prevHash hw]
    exact Storage.hasBlock_iff.mpr ⟨p, hp⟩

/-! ## Branches of nodes -/

/-- The block or header `x` lies `k` blocks above `h`. -/
inductive Storage.Above (s : Storage) (h : Hash) : Nat → Hash → Prop where
  | self : s.Above h 0 h
  | child {k : Nat} {x : Hash} {n : ChainNode} :
      s.node x = some n → 0 < n.height → s.Above h k n.prevHash → s.Above h (k + 1) x

/-- The block or header `x` is `h` or is built on it. -/
def Storage.BuildsOn (s : Storage) (h x : Hash) : Prop := ∃ k, s.Above h k x

theorem Storage.BuildsOn.self (s : Storage) (h : Hash) : s.BuildsOn h h := ⟨0, .self⟩

theorem Storage.BuildsOn.child {s : Storage} {h x : Hash} {n : ChainNode} (hn : s.node x = some n)
    (hpos : 0 < n.height) (hbelow : s.BuildsOn h n.prevHash) : s.BuildsOn h x := by
  obtain ⟨k, hk⟩ := hbelow
  exact ⟨k + 1, .child hn hpos hk⟩

/-- Whatever a stored block is built on is stored. -/
theorem GoodTree.hasBlock_below [Crypto] {params : ChainParams} {s : Storage}
    (hT : GoodTree params s.tree)
    {h x : Hash} (hbuilds : s.BuildsOn h x) (hstored : s.hasBlock x = true) :
    s.hasBlock h = true := by
  obtain ⟨k, hk⟩ := hbuilds
  induction hk with
  | self => exact hstored
  | child hn hpos _ ih => exact ih (hT.hasBlock_prev hn hstored hpos)

/-- A way from a node down to the first stored block, through nodes whose blocks are missing. -/
inductive Descent (s : Storage) : List ChainNode → Prop where
  | last {n : ChainNode} : s.node n.hash = some n → s.hasBlock n.hash = false → 0 < n.height →
      s.hasBlock n.prevHash = true → Descent s [n]
  | step {n m : ChainNode} {rest : List ChainNode} : Descent s (m :: rest) →
      s.node n.hash = some n → s.hasBlock n.hash = false → n.prevHash = m.hash →
      n.height = m.height + 1 → Descent s (n :: m :: rest)

namespace Descent

variable {s : Storage} {n : ChainNode} {rest ns : List ChainNode}

theorem missing (h : Descent s ns) :
    ∀ m ∈ ns, s.node m.hash = some m ∧ s.hasBlock m.hash = false := by
  induction h with
  | last hn hmissing _ _ =>
    intro m hm
    rw [List.mem_singleton.mp hm]
    exact ⟨hn, hmissing⟩
  | step _ hn hmissing _ _ ih =>
    intro m hm
    rcases List.mem_cons.mp hm with rfl | hm
    · exact ⟨hn, hmissing⟩
    · exact ih m hm

theorem height_pos (h : Descent s ns) : ∀ m ∈ ns, 0 < m.height := by
  induction h with
  | last _ _ hpos _ =>
    intro m hm
    rw [List.mem_singleton.mp hm]
    exact hpos
  | step _ _ _ _ hheight ih =>
    intro m hm
    rcases List.mem_cons.mp hm with rfl | hm
    · omega
    · exact ih m hm

/-- From every header whose block is missing there is a way down, no longer than its height. -/
theorem exists_of_linked (hlinked : s.HeadersLinked) {h : Hash} (hn : s.node h = some n)
    (hmissing : s.hasBlock h = false) : ∃ rest, Descent s (n :: rest) ∧ rest.length < n.height := by
  induction hheight : n.height using Nat.strong_induction_on generalizing h n with
  | _ height ih =>
    have hhash := Storage.node_hash hn
    obtain ⟨r, hr, rfl⟩ := Storage.node_of_missing hn hmissing
    obtain ⟨hpos, hparent⟩ := hlinked h r hr
    have hrheight : r.height = height := hheight
    cases hstored : s.hasBlock r.header.prevHash with
    | true => exact ⟨[], .last hn hmissing hpos hstored, by simp only [List.length_nil]; omega⟩
    | false =>
      obtain ⟨r', hr', hone⟩ := hparent.resolve_left (by simp [hstored])
      have hn' := Storage.node_of_header hr' hstored
      obtain ⟨rest, hrest, hlen⟩ := ih r'.height (by omega) hn' hstored rfl
      refine ⟨r'.node _ :: rest, .step hrest hn hmissing rfl hone, ?_⟩
      simp only [List.length_cons]
      omega

/-- The walk from the top of the way returns the upper `limit` nodes of it. -/
theorem missingBelow_eq (h : Descent s ns) (limit : Nat) :
    missingBelow s limit ns.head? = (ns.take limit).map ChainNode.hash := by
  induction h generalizing limit with
  | @last n hn hmissing _ hstored =>
    cases limit with
    | zero => rfl
    | succ limit =>
      rw [List.head?_cons, missingBelow, if_neg (by simp [hmissing])]
      cases hparent : s.node n.prevHash with
      | none => cases limit <;> rfl
      | some p =>
        rw [← Storage.node_hash hparent] at hstored
        cases limit with
        | zero => rfl
        | succ limit => rw [missingBelow, if_pos hstored]; rfl
  | @step n m rest hrest hn hmissing hprev _ ih =>
    cases limit with
    | zero => rfl
    | succ limit =>
      rw [List.head?_cons, missingBelow, if_neg (by simp [hmissing]), hprev,
        (hrest.missing m List.mem_cons_self).1, ← List.head?_cons, ih]
      rfl

/-- Read upwards, the way is a run of blocks each on top of the one before. -/
theorem ascending (h : Descent s ns) :
    ns.reverse.IsChain fun a b => b.prevHash = a.hash ∧ b.height = a.height + 1 := by
  rw [List.isChain_reverse]
  induction h with
  | last _ _ _ _ => exact List.isChain_singleton _
  | step _ _ _ hprev hheight ih => exact List.isChain_cons_cons.mpr ⟨⟨hprev, hheight⟩, ih⟩

/-- The lowest node of the way lies on a stored block, and no other one does. -/
theorem stored_prev_iff {upper lower : List ChainNode} (h : Descent s (upper ++ n :: lower)) :
    s.hasBlock n.prevHash = true ↔ lower = [] := by
  induction upper with
  | nil =>
    cases h with
    | last _ _ _ hstored => exact iff_of_true hstored rfl
    | step hrest _ _ hprev _ =>
      refine iff_of_false ?_ (List.cons_ne_nil _ _)
      rw [hprev, (hrest.missing _ List.mem_cons_self).2]
      exact Bool.false_ne_true
  | cons m upper ih =>
    cases hns : upper ++ n :: lower with
    | nil => simp at hns
    | cons p rest =>
      rw [List.cons_append, hns] at h
      cases h with
      | step hrest _ _ _ _ => exact ih (hns ▸ hrest)

/-- The nodes that the top of the way is built on and whose blocks are missing are those of the
way. -/
theorem mem_iff [Crypto] {params : ChainParams} (hT : GoodTree params s.tree)
    (h : Descent s (n :: rest)) {m : ChainNode} : m ∈ n :: rest ↔
      s.node m.hash = some m ∧ s.BuildsOn m.hash n.hash ∧ s.hasBlock m.hash = false := by
  constructor
  · intro hm
    obtain ⟨hnode, hmissing⟩ := h.missing m hm
    refine ⟨hnode, ?_, hmissing⟩
    induction rest generalizing n with
    | nil =>
      rw [List.mem_singleton.mp hm]
      exact .self s _
    | cons p rest ih =>
      rcases List.mem_cons.mp hm with rfl | hm
      · exact .self s _
      · have hpos := h.height_pos n List.mem_cons_self
        cases h with
        | step hrest hn _ hprev _ => exact .child hn hpos (hprev ▸ ih hrest hm)
  · rintro ⟨hnode, ⟨k, hk⟩, hmissing⟩
    generalize heq : n.hash = x at hk
    induction hk generalizing n rest with
    | self =>
      have htop := (h.missing n List.mem_cons_self).1
      rw [heq, hnode] at htop
      exact List.mem_cons.mpr (.inl (Option.some.inj htop))
    | @child k x n' hn' hpos hbelow ih =>
      have htop := (h.missing n List.mem_cons_self).1
      rw [heq, hn'] at htop
      obtain rfl := Option.some.inj htop
      cases h with
      | last _ _ _ hstored =>
        -- below the way everything is stored
        rw [hT.hasBlock_below ⟨k, hbelow⟩ hstored] at hmissing
        cases hmissing
      | step hrest _ _ hprev _ => exact List.mem_cons_of_mem _ (ih hrest hprev.symm)

/-- The first stored block lies as many blocks below the top as the way is long. -/
theorem above (h : Descent s (n :: rest)) :
    ∃ below, s.hasBlock below = true ∧ s.Above below (rest.length + 1) n.hash := by
  induction rest generalizing n with
  | nil =>
    cases h with
    | last hn _ hpos hstored => exact ⟨n.prevHash, hstored, .child hn hpos .self⟩
  | cons p rest ih =>
    have hpos := h.height_pos n List.mem_cons_self
    cases h with
    | step hrest hn _ hprev _ =>
      obtain ⟨below, hstored, habove⟩ := ih hrest
      exact ⟨below, hstored, .child hn hpos (hprev ▸ habove)⟩

/-- No stored block lies nearer. -/
theorem length_le_of_above (h : Descent s (n :: rest)) {below : Hash} {k : Nat}
    (hstored : s.hasBlock below = true) (habove : s.Above below k n.hash) :
    rest.length + 1 ≤ k := by
  induction rest generalizing n k with
  | nil =>
    cases habove with
    | self =>
      rw [(h.missing n List.mem_cons_self).2] at hstored
      cases hstored
    | child _ _ _ => simp
  | cons p rest ih =>
    cases habove with
    | self =>
      rw [(h.missing n List.mem_cons_self).2] at hstored
      cases hstored
    | child hn' _ hbelow =>
      cases h with
      | step hrest hn _ hprev _ =>
        rw [hn] at hn'
        obtain rfl := Option.some.inj hn'
        have hrec := ih hrest (hprev ▸ hbelow)
        simp only [List.length_cons]
        omega

end Descent

/-! ## Every reachable chain -/

section Calls

variable [Crypto] [ScanOrder Hash] {params : ChainParams}

/-- The activation stores no header and drops none. -/
theorem visits_headers {a b : Activation} (h : Visits (activateRound params) a b) :
    b.chain.storage.headers = a.chain.storage.headers := by
  refine h.invariant (fun b => b.chain.storage.headers = a.chain.storage.headers) rfl ?_
  rintro ⟨c, r⟩ ⟨c', r'⟩ - hkept hnext
  unfold activateRound at hnext
  dsimp only at hnext
  split at hnext
  · cases hnext
  split at hnext
  · rename_i storage tip events hswitch
    injection hnext with hnext
    injection hnext with hc _
    subst hc
    refine Eq.trans ?_ hkept
    refine switchTo_keeps Storage.headers (fun hdis => ?_) (fun hcon => ?_) (fun _ _ => rfl) hswitch
    · obtain ⟨undo, -, hdone⟩ := disconnectBlock_disconnected hdis
      exact hdone.headers
    · obtain ⟨st, data, -, -, rfl⟩ := connectBlock_eq_ok.mp hcon
      exact (recordBlock_connected _ _ _ st data).headers
  · rename_i hash message hfail
    injection hnext with hnext
    injection hnext with hc _
    subst hc
    rw [c.invalidate_storage]
    exact hkept
  · cases hnext

theorem addBlock_headers {rounds now : Nat} {c c' : Blockchain} {b : Block}
    {answer : Except PyError AddBlockResult}
    (h : c.addBlock params rounds now b = some (c', answer)) :
    c'.storage.headers = c.storage.headers := by
  rcases Blockchain.addBlock_cases h with ⟨e, -, rfl, -⟩ | ⟨r, haccept, -⟩ |
    ⟨p, work, r, outcome, -, hvisits, -, -⟩
  · rfl
  · rcases Blockchain.admitBlock_answered haccept with rfl | ⟨reason, rfl⟩ <;> rfl
  · exact visits_headers hvisits

omit [Crypto] [ScanOrder Hash] in
theorem Storage.HeadersLinked.of_headers_eq {s s' : Storage} (h : s.HeadersLinked)
    (hheaders : s'.headers = s.headers)
    (hblocks : ∀ k, s.hasBlock k = true → s'.hasBlock k = true) : s'.HeadersLinked := by
  intro k r hr
  rw [hheaders] at hr ⊢
  obtain ⟨hpos, hparent⟩ := h k r hr
  exact ⟨hpos, hparent.imp_left (hblocks _)⟩

omit [ScanOrder Hash] in
/-- Storing a header on top of a node keeps the headers linked. -/
theorem Storage.HeadersLinked.placeHeader {c : Blockchain} (h : c.storage.HeadersLinked)
    {header : BlockHeader} {p : ChainNode} {work : Nat}
    (hnew : c.storage.hasHeader header.hash = false)
    (hp : c.storage.node header.prevHash = some p) :
    (c.placeHeader header p work).storage.HeadersLinked := by
  have hfresh : ∀ {j r}, c.storage.headers.lookup j = some r →
      (c.placeHeader header p work).storage.headers.lookup j = some r := by
    intro j r hr
    unfold Blockchain.placeHeader
    rw [Table.lookup_insert_if, if_neg, hr]
    rintro rfl
    rw [hasHeader, hr] at hnew
    cases hnew
  intro j r hr
  by_cases hj : j = header.hash
  · have hrow : (c.placeHeader header p work).storage.headers.lookup header.hash =
        some ⟨p.height + 1, p.chainwork + work, header⟩ := Finmap.lookup_insert _
    rw [hj, hrow] at hr
    obtain rfl := Option.some.inj hr
    refine ⟨Nat.succ_pos _, ?_⟩
    cases hstored : c.storage.hasBlock header.prevHash with
    | true => exact .inl hstored
    | false =>
      obtain ⟨r', hr', rfl⟩ := node_of_missing hp hstored
      exact .inr ⟨r', hfresh hr', rfl⟩
  · have hrow : c.storage.headers.lookup j = some r := by
      rw [← hr]
      exact (Finmap.lookup_insert_of_ne _ hj).symm
    obtain ⟨hpos, hparent⟩ := h j r hrow
    exact ⟨hpos, hparent.imp_right fun ⟨r', hr', hone⟩ => ⟨r', hfresh hr', hone⟩⟩

/-- The headers of every reachable chain are linked down to stored blocks. -/
theorem Reachable.headersLinked {c : Blockchain} (h : Reachable params c) :
    c.storage.HeadersLinked := by
  induction h with
  | create hc =>
    obtain ⟨g, hg, -, -⟩ := Blockchain.create_standing hc
    intro k r hr
    rw [hg.headers] at hr
    cases hr
  | @call c c' op hreach hop ih =>
    obtain ⟨s, g, bs, -, -, hs⟩ := hreach.run
    obtain ⟨bs', htrace, -⟩ := Call.run_standing hs hop
    have hblocks : ∀ k, c.storage.hasBlock k = true → c'.storage.hasBlock k = true := by
      intro k hk
      obtain ⟨n, hn⟩ := Storage.hasBlock_iff.mp hk
      exact Storage.hasBlock_iff.mpr ⟨n, htrace.tree_mono hn⟩
    cases op with
    | addBlock rounds now b =>
      obtain ⟨⟨c₁, answer⟩, hadd, rfl⟩ := Option.map_eq_some_iff.mp hop
      exact ih.of_headers_eq (addBlock_headers hadd) hblocks
    | addHeader header =>
      unfold Call.run at hop
      dsimp only at hop
      split at hop
      · rename_i c₁ answer hadd
        obtain rfl := Option.some.inj hop
        rcases Blockchain.addHeader_cases hadd with rfl | ⟨p, work, -, hnew, hp, -, rfl⟩
        · exact ih
        · exact ih.placeHeader hnew hp
      · obtain rfl := Option.some.inj hop
        exact ih
    | prune keepBlocks =>
      obtain rfl := Option.some.inj hop
      refine ih.of_headers_eq ?_ hblocks
      unfold Blockchain.prune
      dsimp only
      split
      · rfl
      · exact (Storage.pruneTo_pruned c.storage _).headers

/-! ## Where the download starts -/

/-- The block `n` lies on the best header chain and is not stored. -/
def Blockchain.Missing (c : Blockchain) (n : ChainNode) : Prop :=
  ∃ tip, c.headerTip = some tip ∧ c.storage.node n.hash = some n ∧
    c.storage.BuildsOn n.hash tip.hash ∧ c.storage.hasBlock n.hash = false

/-- The hashes are a run of the lowest missing blocks, without gaps, on top of a stored block. -/
def Blockchain.CanGrow (c : Blockchain) (limit : Nat) (hashes : List Hash) : Prop :=
  ∃ n nodes, hashes = (n :: nodes).map ChainNode.hash ∧ (n :: nodes).length ≤ limit ∧
    (∀ m ∈ n :: nodes, c.Missing m) ∧
    ((n :: nodes).IsChain fun a b => b.prevHash = a.hash ∧ b.height = a.height + 1) ∧
    c.storage.hasBlock n.prevHash = true

/-- A stored block lies at most `limit` blocks below the best header. -/
def Blockchain.StoredWithin (c : Blockchain) (limit : Nat) : Prop :=
  ∃ tip below k, c.headerTip = some tip ∧ c.storage.hasBlock below = true ∧
    c.storage.Above below k tip.hash ∧ k ≤ limit

omit [Crypto] in
/-- The best header is a stored node. -/
theorem Blockchain.headerTip_node {c : Blockchain} {tip : ChainNode} (h : c.headerTip = some tip) :
    c.storage.node tip.hash = some tip := by
  have hkey : ∀ {k n}, c.storage.node k = some n → c.storage.node n.hash = some n := by
    intro k n hn
    rw [Storage.node_hash hn]
    exact hn
  have hbest : ∀ {n}, (c.storage.bestHeader.bind fun p => c.storage.node p.1) = some n →
      c.storage.node n.hash = some n := by
    intro n hn
    obtain ⟨p, -, hp⟩ := Option.bind_eq_some_iff.mp hn
    exact hkey hp
  unfold headerTip at h
  dsimp only at h
  split at h
  · exact hkey h
  · rename_i n hn _
    obtain rfl := Option.some.inj h
    exact hbest hn
  · rename_i n m hn hm
    split at h
    · obtain rfl := Option.some.inj h
      exact hbest hn
    · obtain rfl := Option.some.inj h
      exact hkey hm

/-- A standing chain has a best header. -/
theorem Standing.headerTip {c : Blockchain} {bs : List TreeNode} (hs : Standing params c bs) :
    ∃ tip, c.headerTip = some tip := by
  obtain ⟨n, rest, hbs, hn, -⟩ := hs.tip
  have hstored : c.storage.tree n.body.hash = some n :=
    hs.based.active.branch.stored n (hbs ▸ List.mem_cons_self)
  have hblock : c.storage.node c.tip.hash = some (c.storage.entryAt n).node := by
    rw [hn, Storage.entryAt_hash, Storage.node, Storage.getEntry_eq hstored]
  unfold Blockchain.headerTip
  rw [hblock]
  dsimp only
  split
  · exact ⟨_, rfl⟩
  · exact ⟨_, rfl⟩
  · split
    · exact ⟨_, rfl⟩
    · exact ⟨_, rfl⟩

omit [Crypto] in
/-- What `headers_to_download` returns when the body of the best header is missing. -/
theorem Blockchain.headersToDownload_eq {c : Blockchain} {tip : ChainNode} {rest : List ChainNode}
    (htip : c.headerTip = some tip) (hway : Descent c.storage (tip :: rest)) (limit : Nat) :
    c.headersToDownload limit = (((tip :: rest).take limit).reverse).map ChainNode.hash := by
  unfold headersToDownload
  rw [htip]
  dsimp only
  have hwalk := hway.missingBelow_eq limit
  rw [List.head?_cons] at hwalk
  rw [hwalk, List.map_reverse]

/-- The download starts where the chain can grow exactly if a stored block lies near enough below
the best header; else only the upper end of what is missing is asked for, and it connects to
nothing. -/
theorem Reachable.headersToDownload_canGrow_iff {c : Blockchain} (h : Reachable params c)
    {limit : Nat} (hlimit : 1 ≤ limit) :
    ((∃ n, c.Missing n) → c.CanGrow limit (c.headersToDownload limit)) ↔ c.StoredWithin limit := by
  obtain ⟨s, g, bs, -, -, hs⟩ := h.run
  obtain ⟨tip, htip⟩ := hs.headerTip
  have htipNode := Blockchain.headerTip_node htip
  have hT := hs.based.tree
  cases hstored : c.storage.hasBlock tip.hash with
  | true =>
    -- everything below a stored block is stored
    refine iff_of_true ?_ ⟨tip, tip.hash, 0, htip, hstored, .self, Nat.zero_le limit⟩
    rintro ⟨n, tip', htip', -, hbuilds, hmissing⟩
    rw [htip] at htip'
    obtain rfl := Option.some.inj htip'
    rw [hT.hasBlock_below hbuilds hstored] at hmissing
    cases hmissing
  | false =>
    obtain ⟨rest, hway, -⟩ := Descent.exists_of_linked h.headersLinked htipNode hstored
    have hmem : ∀ m, m ∈ tip :: rest ↔ c.Missing m := by
      intro m
      rw [hway.mem_iff hT]
      constructor
      · exact fun hm => ⟨tip, htip, hm⟩
      · rintro ⟨tip', htip', hm⟩
        rw [htip] at htip'
        obtain rfl := Option.some.inj htip'
        exact hm
    have hwithin : c.StoredWithin limit ↔ rest.length + 1 ≤ limit := by
      constructor
      · rintro ⟨tip', below, k, htip', hbelow, habove, hk⟩
        rw [htip] at htip'
        obtain rfl := Option.some.inj htip'
        exact (hway.length_le_of_above hbelow habove).trans hk
      · intro hle
        obtain ⟨below, hbelow, habove⟩ := hway.above
        exact ⟨tip, below, _, htip, hbelow, habove, hle⟩
    have hresult := Blockchain.headersToDownload_eq htip hway limit
    rw [hwithin]
    constructor
    · intro hgrow
      obtain ⟨n, nodes, heq, -, hmissing, -, hprev⟩ :=
        hgrow ⟨tip, (hmem tip).mp List.mem_cons_self⟩
      by_contra hlong
      -- the run ends with the last node that was taken, and the way goes on below it
      obtain ⟨upper, m, lower, hns, hlen⟩ : ∃ upper m lower,
          tip :: rest = upper ++ m :: lower ∧ upper.length + 1 = limit := by
        have hlt : limit - 1 < (tip :: rest).length := by
          rw [List.length_cons]
          omega
        refine ⟨(tip :: rest).take (limit - 1), (tip :: rest)[limit - 1],
          (tip :: rest).drop (limit - 1 + 1), ?_, ?_⟩
        · rw [← List.drop_eq_getElem_cons hlt, List.take_append_drop]
        · rw [List.length_take]
          omega
      have hlower : lower ≠ [] := by
        rintro rfl
        have hlength := congrArg List.length hns
        simp only [List.length_cons, List.length_append, List.length_nil] at hlength
        omega
      have htaken : (tip :: rest).take limit = upper ++ [m] := by
        rw [hns, List.append_cons, List.take_left' (by rw [← hlen]; simp)]
      have hlowest : n.hash = m.hash := by
        rw [hresult, htaken, List.reverse_append] at heq
        exact (List.cons.inj heq).1.symm
      have hsame : n = m := by
        obtain ⟨-, -, hn, -, -⟩ := hmissing n List.mem_cons_self
        have hm := (hway.missing m (by rw [hns]; simp)).1
        rw [hlowest, hm] at hn
        exact (Option.some.inj hn).symm
      rw [hsame] at hprev
      exact hlower ((hns ▸ hway).stored_prev_iff.mp hprev)
    · intro hle _
      obtain ⟨upper, m, hns⟩ := (List.eq_nil_or_concat (tip :: rest)).resolve_left
        (List.cons_ne_nil _ _)
      rw [List.concat_eq_append] at hns
      have hrun : (tip :: rest).reverse = m :: upper.reverse := by rw [hns]; simp
      rw [List.take_of_length_le (by rwa [List.length_cons]), hrun] at hresult
      refine ⟨m, upper.reverse, hresult, ?_, ?_, ?_, ?_⟩
      · rw [← hrun, List.length_reverse, List.length_cons]
        exact hle
      · intro k hk
        rw [← hrun, List.mem_reverse] at hk
        exact (hmem k).mp hk
      · rw [← hrun]
        exact hway.ascending
      · exact (hns ▸ hway).stored_prev_iff.mpr rfl

end Calls

section Instances

attribute [local instance] Sample.crypto Sample.order

/-- Three regtest blocks on genesis, each on top of the one before. -/
def announcedBlocks : Block × Block × Block :=
  let a₁ := Sample.regtestBlock Sample.genesisHash 1 0
  let a₂ := Sample.regtestBlock a₁.hash 2 0
  (a₁, a₂, Sample.regtestBlock a₂.hash 3 0)

/-- Their headers are announced. -/
def announced : List Call :=
  [.addHeader announcedBlocks.1.header, .addHeader announcedBlocks.2.1.header,
    .addHeader announcedBlocks.2.2.header]

/-- Three headers are within reach of a limit of three. -/
theorem headersToDownload_canGrow_iff_announced : ∃ c, Sample.chainAfter announced = some c ∧
    (((∃ n, c.Missing n) → c.CanGrow 3 (c.headersToDownload 3)) ↔ c.StoredWithin 3) := by
  have hrun : ((Sample.chainAfter announced).any fun _ => true) = true := by decide +kernel
  obtain ⟨c, hc, -⟩ := (Option.any_eq_true _ _).mp hrun
  exact ⟨c, hc,
    (Sample.chainAfter_reachable hc).headersToDownload_canGrow_iff (by decide)⟩

/-- Under a limit of two the download asks for the second and the third block, and nobody asks for
the first. -/
theorem headersToDownload_stuck : ∃ c, Sample.chainAfter announced = some c ∧
    c.headersToDownload 2 = [announcedBlocks.2.1.hash, announcedBlocks.2.2.hash] ∧
    (∃ n, c.Missing n) ∧ ¬ c.CanGrow 2 (c.headersToDownload 2) := by
  have hrun : ((Sample.chainAfter announced).any fun c =>
      decide (c.headersToDownload 2 = [announcedBlocks.2.1.hash, announcedBlocks.2.2.hash]) &&
      c.headerTip.any (fun tip => !c.storage.hasBlock tip.hash) &&
      (c.storage.node announcedBlocks.2.1.hash).any
        fun n => !c.storage.hasBlock n.prevHash) = true := by
    decide +kernel
  obtain ⟨c, hc, h⟩ := (Option.any_eq_true _ _).mp hrun
  simp only [Bool.and_eq_true, decide_eq_true_eq] at h
  obtain ⟨⟨hresult, htop⟩, hlow⟩ := h
  obtain ⟨tip, htip, hmissing⟩ := (Option.any_eq_true _ _).mp htop
  obtain ⟨second, hsecond, hfirst⟩ := (Option.any_eq_true _ _).mp hlow
  rw [Bool.not_eq_eq_eq_not, Bool.not_true] at hmissing hfirst
  refine ⟨c, hc, hresult, ⟨tip, tip, htip, Blockchain.headerTip_node htip, .self _ _, hmissing⟩, ?_⟩
  rintro ⟨n, nodes, heq, -, hrun, -, hprev⟩
  rw [hresult] at heq
  have hhash : announcedBlocks.2.1.hash = n.hash := (List.cons.inj heq).1
  obtain ⟨-, -, hn, -, -⟩ := hrun n List.mem_cons_self
  rw [← hhash, hsecond] at hn
  rw [← Option.some.inj hn, hfirst] at hprev
  cases hprev

end Instances

end ScarletCoin
