import ScarletCoin.Invariants.Frontier
import ScarletCoin.Invariants.Listeners
import ScarletCoin.Invariants.RequiredBits

/-!
# What a checkpoint settles

A block at the height of a checkpoint is stored only if it is the block of the checkpoint, so there
is at most one stored block at that height (`CheckpointsMet.sole`), and every branch that reaches
the height goes through it. A branch that ends below the height is compared with nothing, and it
takes over from the block of the checkpoint as soon as it has more work than the active tip
(`checkpoint_not_final`). Where no such branch has more work, stored before or submitted later, the
active chain up to the checkpoint is never disconnected (`Reachable.checkpoint_final`).
-/

set_option autoImplicit false

namespace ScarletCoin

open Toolkit

/-! ## Hexadecimal -/

theorem hexDigit_injective : ∀ a < 16, ∀ b < 16, hexDigit a = hexDigit b → a = b := by decide

/-- Byte strings with the same hexadecimal form are equal. -/
theorem hex_injective {bs bs' : Bytes} (h : hex bs = hex bs') : bs = bs' := by
  have hdigits := String.ofList_injective h
  clear h
  induction bs generalizing bs' with
  | nil =>
    cases bs' with
    | nil => rfl
    | cons b' bs' => cases hdigits
  | cons b bs ih =>
    cases bs' with
    | nil => cases hdigits
    | cons b' bs' =>
      obtain ⟨hhigh, hrest⟩ := List.cons.inj hdigits
      obtain ⟨hlow, htail⟩ := List.cons.inj hrest
      have hb := b.toNat_lt
      have hb' := b'.toNat_lt
      have hdiv := hexDigit_injective _ (by omega) _ (by omega) hhigh
      have hmod := hexDigit_injective _ (by omega) _ (by omega) hlow
      have hbyte : b = b' := UInt8.toNat_inj.mp (by omega)
      rw [hbyte, ih htail]

theorem displayHex_injective {h h' : Hash} (heq : displayHex h = displayHex h') : h = h' :=
  Subtype.ext (List.reverse_injective (hex_injective heq))

section Checkpoints

variable [Crypto]

/-! ## Blocks at the height of a checkpoint -/

/-- Every stored block above genesis is the block of the checkpoint at its height, if there is
one. -/
def CheckpointsMet (params : ChainParams) (T : Hash → Option TreeNode) : Prop :=
  ∀ h n, T h = some n → 0 < n.height →
    ¬ ((params.checkpoints.lookup n.height).any (· ≠ n.body.hashHex)) = true

/-- At most one block is stored at the height of a checkpoint. -/
theorem CheckpointsMet.sole {params : ChainParams} {T : Hash → Option TreeNode}
    (hmet : CheckpointsMet params T) (hT : GoodTree params T) {k : Nat}
    (hpoint : (params.checkpoints.lookup k).isSome = true) {h h' : Hash} {n m : TreeNode}
    (hn : T h = some n) (hm : T h' = some m) (hnk : n.height = k) (hmk : m.height = k) : n = m := by
  obtain ⟨point, hpoint⟩ := Option.isSome_iff_exists.mp hpoint
  rcases Nat.eq_zero_or_pos k with hzero | hpos
  · -- both are genesis
    have hroot : ∀ {h n}, T h = some n → n.height = k → params.genesisBlock = .ok n.body := by
      intro h n hn hnk
      rcases hT.linked hn with ⟨hg, -⟩ | ⟨p, -, hheight, -⟩
      · exact hg
      · omega
    exact hT.wellRooted.rootUnique hn hm (hroot hn hnk) (hroot hm hmk)
  · have hhex : ∀ {h n}, T h = some n → n.height = k → displayHex n.body.hash = point := by
      intro h n hn hnk
      have hmatch := hmet h n hn (hnk ▸ hpos)
      rw [hnk, hpoint] at hmatch
      by_contra hne
      exact hmatch (decide_eq_true (Ne.symm hne))
    exact hT.eq_of_hash hn hm (displayHex_injective ((hhex hn hnk).trans (hhex hm hmk).symm))

variable [ScanOrder Hash] {params : ChainParams}

omit [ScanOrder Hash] in
theorem Blockchain.place_tree (c : Blockchain) (b : Block) (p : BlockRow) (work : Nat) :
    (c.place b p work).storage.tree =
      Function.update c.storage.tree b.hash (some (placedNode b p work)) :=
  Storage.tree_insertNode c.storage (placedNode b p work)

/-- Pruning stores nothing, and listeners do not hear of it. -/
theorem Blockchain.prune_known (c : Blockchain) (keepBlocks : Int) :
    (c.prune params keepBlocks).1.storage.tree = c.storage.tree ∧
      (c.prune params keepBlocks).1.tip = c.tip ∧
      (c.prune params keepBlocks).1.notified = c.notified := by
  unfold Blockchain.prune
  dsimp only
  split
  · exact ⟨rfl, rfl, rfl⟩
  · exact ⟨(Storage.pruneTo_pruned c.storage _).tree_eq, rfl, rfl⟩

/-- A block that is placed is the block of the checkpoint at its height. -/
theorem Blockchain.Placement.checkpointsMet {now : Nat} {c : Blockchain} {b : Block} {p : BlockRow}
    {work : Nat} (hp : c.Placement params now b p work)
    (hmet : CheckpointsMet params c.storage.tree) :
    CheckpointsMet params (c.place b p work).storage.tree := by
  intro h n hn hpos
  rw [c.place_tree, Function.update_apply] at hn
  split at hn
  · obtain rfl := Option.some.inj hn
    exact hp.checkpoint
  · exact hmet h n hn hpos

/-- Every chain that calls lead to meets the checkpoints. -/
theorem Reachable.checkpointsMet {c : Blockchain} (h : Reachable params c) :
    CheckpointsMet params c.storage.tree := by
  induction h with
  | create hc =>
    obtain ⟨g, hg, -, -⟩ := Blockchain.create_standing hc
    intro h n hn hpos
    obtain ⟨-, rfl⟩ := hg.tree_eq.mp hn
    have hzero := hg.node.2.1
    omega
  | @call c c' op hreach hop ih =>
    obtain ⟨_, _, bs, -, -, hs⟩ := hreach.run
    cases op with
    | addBlock rounds now b =>
      obtain ⟨⟨c₁, answer⟩, hadd, rfl⟩ := Option.map_eq_some_iff.mp hop
      rcases Blockchain.addBlock_cases hadd with ⟨e, -, rfl, -⟩ | ⟨r, haccept, -⟩ |
        ⟨p, work, r, outcome, hplace, hvisits, -, -⟩
      · exact ih
      · rcases Blockchain.admitBlock_answered haccept with rfl | ⟨reason, rfl⟩ <;> exact ih
      · have htree := visits_tree (a := ⟨c.place b p work, false⟩) (hplace.standing hs).2 hvisits
        rw [show c₁.storage.tree = _ from htree]
        exact hplace.checkpointsMet ih
    | addHeader header =>
      rcases Call.run_addHeader hop with rfl | ⟨p, work, rfl⟩
      · exact ih
      · exact ih
    | prune keepBlocks =>
      obtain rfl := Option.some.inj hop
      rw [(c.prune_known keepBlocks).1]
      exact ih

/-! ## Branches that end below a checkpoint -/

/-- No stored block below the height has more work than the tip. -/
def Blockchain.LightBelow (c : Blockchain) (k : Nat) : Prop :=
  ∀ h e, c.storage.getEntry h = some e → e.height < k → e.chainwork ≤ c.tip.chainwork

/-- A submitted block that would lie below the height does not bring its branch to more work than
the tip has. -/
def Call.LightBelow (k : Nat) (c : Blockchain) : Call → Prop
  | .addBlock _ _ b => ∀ p work, c.storage.getEntry b.header.prevHash = some p →
      blockWork b.header.bits.toNat = .ok work → p.height + 1 < k →
      p.chainwork + work ≤ c.tip.chainwork
  | _ => True

/-- No submitted block of the calls does. -/
def LightCalls (params : ChainParams) (k : Nat) : Blockchain → List Call → Prop
  | _, [] => True
  | c, op :: ops => op.LightBelow k c ∧ ∀ c', op.run params c = some c' →
      LightCalls params k c' ops

/-- A chain whose active chain ends in a node at the height of a checkpoint and in what is below it,
with nothing heavier below the height. -/
structure Anchored (params : ChainParams) (k W : Nat) (anchor : TreeNode) (below : List TreeNode)
    (c : Blockchain) : Prop where
  standing : ∃ above, Standing params c (above ++ anchor :: below)
  met : CheckpointsMet params c.storage.tree
  light : ∀ h n, c.storage.tree h = some n → n.height < k → n.chainwork ≤ W
  tip : W ≤ c.tip.chainwork

/-- What listeners heard from the first chain to the second is not of a disconnection at the height
or below. -/
def Spared (k : Nat) (c c' : Blockchain) : Prop :=
  ∃ events, c'.notified = c.notified ++ events ∧
    ∀ e ∈ events, e.kind = .disconnect → k < e.height

omit [Crypto] in
/-- It is enough to look at the rows. -/
theorem Blockchain.lightBelow_of_rows {c : Blockchain} {k : Nat}
    (h : ∀ p ∈ c.storage.blockRows, p.2.height < k → p.2.chainwork ≤ c.tip.chainwork) :
    c.LightBelow k := by
  intro hash e he hlow
  obtain ⟨row, hrow, rfl⟩ := Option.map_eq_some_iff.mp he
  exact h (hash, row) ((mem_scan c.storage.blocks hash row).mpr hrow) hlow

omit [Crypto] [ScanOrder Hash] in
theorem Spared.of_eq {k : Nat} {c c' : Blockchain} (h : c'.notified = c.notified) : Spared k c c' :=
  ⟨[], by rw [h, List.append_nil], fun _ he => absurd he List.not_mem_nil⟩

omit [Crypto] [ScanOrder Hash] in
theorem Spared.trans {k : Nat} {c₁ c₂ c₃ : Blockchain} (h : Spared k c₁ c₂) (h' : Spared k c₂ c₃) :
    Spared k c₁ c₃ := by
  obtain ⟨events, hnotified, hspared⟩ := h
  obtain ⟨events', hnotified', hspared'⟩ := h'
  refine ⟨events ++ events', by rw [hnotified', hnotified, List.append_assoc], fun e he => ?_⟩
  rcases List.mem_append.mp he with he | he
  · exact hspared e he
  · exact hspared' e he

/-- A switch keeps the anchor: its candidate has more work, so it does not end below the checkpoint,
so its branch goes through the anchor, and only blocks above it are disconnected. -/
theorem activateRound_anchored {k W : Nat} {anchor : TreeNode} {below : List TreeNode}
    (hpoint : (params.checkpoints.lookup k).isSome = true) (hk : anchor.height = k)
    {c c' : Blockchain} {r r' : Bool} (ha : Anchored params k W anchor below c)
    (h : activateRound params ⟨c, r⟩ = .next ⟨c', r'⟩) :
    Anchored params k W anchor below c' ∧ Spared k c c' := by
  obtain ⟨above, hs⟩ := ha.standing
  have htree : c'.storage.tree = c.storage.tree :=
    visits_tree (a := ⟨c, r⟩) (b := ⟨c', r'⟩) hs (.step .start h)
  have hmet : CheckpointsMet params c'.storage.tree := by rw [htree]; exact ha.met
  have hlight : ∀ h n, c'.storage.tree h = some n → n.height < k → n.chainwork ≤ W := by
    rw [htree]
    exact ha.light
  obtain ⟨new, gone, old, t, w, hbs, hatt, ⟨s, events, hswitch, rfl⟩ | ⟨hash, message, -, rfl⟩⟩ :=
    activateRound_cases hs h
  · have hf := hatt.fork
    obtain ⟨htrace, -, hpointed⟩ := switchTo_trace hf hatt.from_tip hatt.to_top hswitch
    obtain ⟨-, -, -, -, -, -, hevents⟩ := switchTo_parts hf hatt.from_tip hatt.to_top hswitch
    obtain ⟨rest, hrest⟩ := List.head?_eq_some_iff.mp hatt.to_top
    have hwStored : c.storage.tree w.body.hash = some w :=
      hf.path.stored w (hrest ▸ List.mem_cons_self)
    have hreach : k ≤ w.height := by
      by_contra hlow
      have hle := ha.light _ w hwStored (Nat.not_le.mp hlow)
      have hheavier := hatt.heavier
      have htip := ha.tip
      omega
    -- the branch of the candidate has a node at the height, and there is only one such node
    have hlength : k < (new ++ old).length := by
      have hpath := hf.path
      rw [hrest] at hpath
      have hdepth : w.height = rest.length := hpath.depth_head
      rw [hrest, List.length_cons]
      omega
    obtain ⟨m, hm, hmk⟩ := hf.path.exists_depth hlength
    have hanchor : anchor ∈ gone ++ old := hbs ▸ List.mem_append_right above List.mem_cons_self
    have hsame : m = anchor := ha.met.sole hs.based.tree hpoint (hf.path.stored m hm)
      (hf.based.active.branch.stored anchor hanchor) hmk hk
    rw [hsame] at hm
    have hmold : anchor ∈ old := by
      rcases List.mem_append.mp hm with hnew | hold
      · exact absurd hanchor (hf.apart anchor hnew)
      · exact hold
    obtain ⟨above', hold⟩ : ∃ above', old = above' ++ anchor :: below := by
      have hpath : Branch (lineage params) c.storage.tree (above ++ anchor :: below) :=
        hs.based.active.branch
      exact Branch.agree above hpath (hf.path.suffix hf.common) hmold
    refine ⟨⟨⟨new ++ above', ?_⟩, hmet, hlight, ?_⟩, events, rfl, fun e he hkind => ?_⟩
    · rw [List.append_assoc, ← hold]
      exact ⟨htrace.based (hbs ▸ hs.based), w, rest, hrest, rfl, hpointed⟩
    · show W ≤ (s.entryAt w).chainwork
      rw [Storage.entryAt_chainwork (htrace.tree_mono hwStored)]
      exact Nat.le_of_lt (Nat.lt_of_le_of_lt ha.tip hatt.heavier)
    · rw [hevents] at he
      rcases List.mem_append.mp he with hgone | hnew
      · obtain ⟨n, hn, rfl⟩ := List.mem_map.mp hgone
        -- the blocks above the fork are deeper than the anchor
        obtain ⟨gone₁, gone₂, rfl⟩ := List.append_of_mem hn
        have hbranch : Branch (lineage params) c.storage.tree (n :: (gone₂ ++ old)) := by
          have hall := hf.based.active.branch
          rw [List.append_assoc] at hall
          exact hall.suffix (List.cons_ne_nil _ _)
        have hdeep : anchor.height < n.height :=
          hbranch.depth_lt anchor (List.mem_append_right gone₂ hmold)
        rw [hk] at hdeep
        exact hdeep
      · obtain ⟨n, -, rfl⟩ := List.mem_map.mp hnew
        cases hkind
  · have hstorage := c.invalidate_storage hash message
    have htip := c.invalidate_tip hash message
    refine ⟨⟨⟨above, hs.of_eq hstorage htip⟩, hmet, hlight, ?_⟩,
      .of_eq (c.invalidate_notified hash message)⟩
    rw [htip]
    exact ha.tip

omit [ScanOrder Hash] in
/-- A chain with more work on its tip is anchored against more work. -/
theorem Anchored.raise {k W : Nat} {anchor : TreeNode} {below : List TreeNode} {c : Blockchain}
    (h : Anchored params k W anchor below c) :
    Anchored params k c.tip.chainwork anchor below c :=
  ⟨h.standing, h.met, fun k n hn hlow => (h.light k n hn hlow).trans h.tip, Nat.le_refl _⟩

/-- A submitted block that is light below the checkpoint keeps the anchor. -/
theorem addBlock_anchored {k : Nat} {anchor : TreeNode} {below : List TreeNode}
    (hpoint : (params.checkpoints.lookup k).isSome = true) (hk : anchor.height = k)
    {rounds now : Nat} {c c' : Blockchain} {b : Block} {answer : Except PyError AddBlockResult}
    (ha : Anchored params k c.tip.chainwork anchor below c)
    (hlight : (Call.addBlock rounds now b).LightBelow k c)
    (h : c.addBlock params rounds now b = some (c', answer)) :
    Anchored params k c.tip.chainwork anchor below c' ∧ Spared k c c' := by
  obtain ⟨above, hs⟩ := ha.standing
  rcases Blockchain.addBlock_cases h with ⟨e, -, rfl, -⟩ | ⟨r, haccept, -⟩ |
    ⟨p, work, r, outcome, hplace, hvisits, -, -⟩
  · exact ⟨ha, .of_eq rfl⟩
  · rcases Blockchain.admitBlock_answered haccept with rfl | ⟨reason, rfl⟩
    · exact ⟨ha, .of_eq rfl⟩
    · exact ⟨⟨⟨above, hs.of_eq rfl rfl⟩, ha.met, ha.light, Nat.le_refl _⟩, .of_eq rfl⟩
  · have hplaced : Anchored params k c.tip.chainwork anchor below (c.place b p work) := by
      refine ⟨⟨above, (hplace.standing hs).2⟩, hplace.checkpointsMet ha.met, fun h n hn hlow => ?_,
        Nat.le_refl _⟩
      rw [c.place_tree, Function.update_apply] at hn
      split at hn
      · obtain rfl := Option.some.inj hn
        have hparent : c.storage.getEntry b.header.prevHash =
            some (p.entry b.header.prevHash) := by
          unfold Storage.getEntry
          rw [hplace.parent]
          rfl
        exact hlight _ work hparent hplace.workEq hlow
      · exact ha.light h n hn hlow
    refine hvisits.invariant (fun a => Anchored params k c.tip.chainwork anchor below a.chain ∧
      Spared k c a.chain) ⟨hplaced, .of_eq rfl⟩ ?_
    rintro ⟨c₁, r₁⟩ ⟨c₂, r₂⟩ - ⟨ha₁, hspared₁⟩ hnext
    obtain ⟨ha₂, hspared₂⟩ := activateRound_anchored hpoint hk ha₁ hnext
    exact ⟨ha₂, hspared₁.trans hspared₂⟩

/-- Every call that is light below the checkpoint keeps the anchor. -/
theorem Call.run_anchored {k : Nat} {anchor : TreeNode} {below : List TreeNode}
    (hpoint : (params.checkpoints.lookup k).isSome = true) (hk : anchor.height = k)
    {c c' : Blockchain} {op : Call} (ha : Anchored params k c.tip.chainwork anchor below c)
    (hlight : op.LightBelow k c) (h : op.run params c = some c') :
    Anchored params k c'.tip.chainwork anchor below c' ∧ Spared k c c' := by
  obtain ⟨above, hs⟩ := ha.standing
  cases op with
  | addBlock rounds now b =>
    obtain ⟨⟨c₁, answer⟩, hadd, rfl⟩ := Option.map_eq_some_iff.mp h
    obtain ⟨ha₁, hspared⟩ := addBlock_anchored hpoint hk ha hlight hadd
    exact ⟨ha₁.raise, hspared⟩
  | addHeader header =>
    rcases Call.run_addHeader h with rfl | ⟨p, work, rfl⟩
    · exact ⟨ha, .of_eq rfl⟩
    · exact ⟨⟨⟨above, (Blockchain.placeHeader_standing hs).2⟩, ha.met, ha.light, Nat.le_refl _⟩,
        .of_eq rfl⟩
  | prune keepBlocks =>
    obtain rfl := Option.some.inj h
    obtain ⟨htree, htip, hnotified⟩ : (c.prune params keepBlocks).1.storage.tree = c.storage.tree ∧
      (c.prune params keepBlocks).1.tip = c.tip ∧
      (c.prune params keepBlocks).1.notified = c.notified := c.prune_known keepBlocks
    refine ⟨⟨⟨above, (prune_standing hs).2⟩, ?_, ?_, Nat.le_refl _⟩, .of_eq hnotified⟩
    · rw [htree]
      exact ha.met
    · rw [htree, htip]
      exact ha.light

/-- Up to the anchor, the blocks of two anchored chains are the same. -/
theorem Anchored.getChainEntry_eq {k W W' : Nat} {anchor : TreeNode} {below : List TreeNode}
    {c c' : Blockchain} (h : Anchored params k W anchor below c)
    (h' : Anchored params k W' anchor below c') (hk : anchor.height = k) {height : Nat}
    (hle : height ≤ k) : (c'.storage.getChainEntry height).map BlockIndexEntry.hash =
      (c.storage.getChainEntry height).map BlockIndexEntry.hash := by
  obtain ⟨above, hs⟩ := h.standing
  obtain ⟨above', hs'⟩ := h'.standing
  have hbranch : Branch (lineage params) c.storage.tree (anchor :: below) :=
    Branch.suffix hs.based.active.branch (List.cons_ne_nil _ _)
  have hdepth : anchor.height = below.length := hbranch.depth_head
  obtain ⟨m, hm, hmk⟩ := hbranch.exists_depth (d := height) (by rw [List.length_cons]; omega)
  obtain rfl : m.height = height := hmk
  rw [hs.based.getChainEntry_eq (List.mem_append_right above hm),
    hs'.based.getChainEntry_eq (List.mem_append_right above' hm), Option.map_some, Option.map_some,
    Storage.entryAt_hash, Storage.entryAt_hash]

/-- **What is final at a checkpoint**: from any reachable chain on that is at least as high as a
checkpoint, no call disconnects a block of the active chain at its height or below, as long as no
block below the height, stored before or submitted, brings its branch to more work than the tip
has. -/
theorem Reachable.checkpoint_final {c c' : Blockchain} (h : Reachable params c) {k : Nat}
    (hpoint : (params.checkpoints.lookup k).isSome = true) (hheight : k ≤ c.height)
    (hlight : c.LightBelow k) {ops : List Call} (hcalls : LightCalls params k c ops)
    (hops : runCalls params c ops = some c') :
    (∀ height ≤ k, (c'.storage.getChainEntry height).map BlockIndexEntry.hash =
      (c.storage.getChainEntry height).map BlockIndexEntry.hash) ∧
    ∃ events, c'.notified = c.notified ++ events ∧
      ∀ e ∈ events, e.kind = .disconnect → k < e.height := by
  obtain ⟨_, _, bs, -, -, hs⟩ := h.run
  obtain ⟨t, rest, hbs, htip, -⟩ := hs.tip
  have hbranch : Branch (lineage params) c.storage.tree bs := hs.based.active.branch
  have htStored := hbranch.stored t (hbs ▸ List.mem_cons_self)
  have htheight : c.height = t.height := by
    unfold Blockchain.height
    rw [htip]
    exact Storage.entryAt_height htStored
  have hdepth : t.height = rest.length := by
    rw [hbs] at hbranch
    exact hbranch.depth_head
  -- the active block at the height of the checkpoint
  obtain ⟨anchor, hanchor, hk⟩ := hbranch.exists_depth (d := k)
    (by rw [hbs, List.length_cons]; omega)
  obtain ⟨above, below, rfl⟩ := List.append_of_mem hanchor
  have ha : Anchored params k c.tip.chainwork anchor below c := by
    refine ⟨⟨above, hs⟩, h.checkpointsMet, fun h n hn hlow => ?_, Nat.le_refl _⟩
    have hkey := hs.based.tree.keyed hn
    rw [← hkey] at hn
    have hentry := Storage.getEntry_eq hn
    rw [← Storage.entryAt_height hn] at hlow
    rw [← Storage.entryAt_chainwork hn]
    exact hlight _ _ hentry hlow
  -- on the calls, with the work of the tip as it grows
  have hrun : ∀ (ops : List Call) (c₁ : Blockchain),
      Anchored params k c₁.tip.chainwork anchor below c₁ → LightCalls params k c₁ ops →
      runCalls params c₁ ops = some c' →
      Anchored params k c'.tip.chainwork anchor below c' ∧ Spared k c₁ c' := by
    intro ops
    induction ops with
    | nil =>
      intro c₁ ha₁ _ hops
      obtain rfl := Option.some.inj hops
      exact ⟨ha₁, .of_eq rfl⟩
    | cons op ops ih =>
      intro c₁ ha₁ hcalls hops
      obtain ⟨c₂, hop, hrest⟩ := Option.bind_eq_some_iff.mp hops
      obtain ⟨ha₂, hspared₂⟩ := Call.run_anchored hpoint hk ha₁ hcalls.1 hop
      obtain ⟨ha', hspared'⟩ := ih c₂ ha₂ (hcalls.2 c₂ hop) hrest
      exact ⟨ha', hspared₂.trans hspared'⟩
  obtain ⟨ha', hspared⟩ := hrun ops c ha hcalls hops
  exact ⟨fun height hle => ha.getChainEntry_eq ha' hk hle, hspared⟩

end Checkpoints

section Instances

attribute [local instance] Sample.crypto Sample.order

/-! ## A short branch that takes over -/

/-- A block of the slow chain: half a minute after the one below it. -/
def Sample.slow (prev : Hash) (height : Nat) : Block :=
  Sample.block prev 0x207FFFFF (UInt32.ofNat (1700000002 + 30 * height))
    [Sample.coinbase height 0 Sample.reward] (Sample.alone_fits _)

/-- Three slow blocks on genesis. -/
def Sample.slow₁ : Block := Sample.slow Sample.genesisHash 1

/-- The second of them. -/
def Sample.slow₂ : Block := Sample.slow Sample.slow₁.hash 2

/-- The third of them, the block of the checkpoint. -/
def Sample.slow₃ : Block := Sample.slow Sample.slow₂.hash 3

/-- A block on genesis one second after it. -/
def Sample.quick₁ : Block :=
  Sample.block Sample.genesisHash 0x207FFFFF 1700000003 [Sample.coinbase 1 1 Sample.reward]
    (Sample.alone_fits _)

/-- A block on that one another second later, at four times the difficulty. -/
def Sample.quick₂ : Block :=
  Sample.block Sample.quick₁.hash 0x201FFFFF 1700000004 [Sample.coinbase 2 1 Sample.reward]
    (Sample.alone_fits _)

theorem Sample.twoBlocks_pos : 0 < 2 := by decide

/-- Regtest with a retarget every two blocks and a checkpoint at height three. -/
def Sample.checkpointed : ChainParams :=
  { REGTEST with
    retargetInterval := 2
    checkpoints := [(3, Sample.slow₃.hashHex)]
    retargetInterval_pos := Sample.twoBlocks_pos }

/-- The block of the checkpoint is on the active chain, and two blocks submitted after it disconnect
it with all blocks below: they are fewer, and have more work. -/
theorem checkpoint_not_final : ∃ c c', Reachable Sample.checkpointed c ∧
    (c.storage.getChainEntry 3).map (fun e => displayHex e.hash) =
      Sample.checkpointed.checkpoints.lookup 3 ∧
    (Sample.checkpointed.checkpoints.lookup 3).isSome = true ∧
    runCalls Sample.checkpointed c [Sample.submit Sample.quick₁, Sample.submit Sample.quick₂] =
      some c' ∧
    c'.height = 2 ∧ c'.storage.getChainEntry 3 = none ∧
    (c'.notified.drop c.notified.length).map (fun e => (e.kind, e.height)) =
      [(.disconnect, 3), (.disconnect, 2), (.disconnect, 1), (.connect, 1), (.connect, 2)] := by
  have hrun : (((Blockchain.create Sample.checkpointed).toOption.bind fun c =>
      runCalls Sample.checkpointed c [Sample.submit Sample.slow₁, Sample.submit Sample.slow₂,
        Sample.submit Sample.slow₃]).any fun c =>
      decide ((c.storage.getChainEntry 3).map (fun e => displayHex e.hash) =
        Sample.checkpointed.checkpoints.lookup 3) &&
      (runCalls Sample.checkpointed c
        [Sample.submit Sample.quick₁, Sample.submit Sample.quick₂]).any fun c' =>
        decide (c'.height = 2 ∧ c'.storage.getChainEntry 3 = none ∧
          (c'.notified.drop c.notified.length).map (fun e => (e.kind, e.height)) =
            [(.disconnect, 3), (.disconnect, 2), (.disconnect, 1), (.connect, 1),
              (.connect, 2)])) = true := by decide +kernel
  obtain ⟨c, hc, h⟩ := (Option.any_eq_true _ _).mp hrun
  obtain ⟨start, hstart, hops⟩ := Option.bind_eq_some_iff.mp hc
  obtain ⟨hmatch, htaken⟩ := (Bool.and_eq_true _ _).mp h
  obtain ⟨c', hc', hend⟩ := (Option.any_eq_true _ _).mp htaken
  exact ⟨c, c', (Reachable.create (toOption_eq_some.mp hstart)).of_runCalls hops,
    of_decide_eq_true hmatch, rfl, hc', of_decide_eq_true hend⟩

/-- A side block below the checkpoint that is light leaves the active chain alone. -/
theorem checkpoint_final_light : ∃ c c', Reachable Sample.checkpointed c ∧
    runCalls Sample.checkpointed c [Sample.submit Sample.quick₁] = some c' ∧
    c'.storage.hasBlock Sample.quick₁.hash = true ∧
    (∀ height ≤ 3, (c'.storage.getChainEntry height).map BlockIndexEntry.hash =
      (c.storage.getChainEntry height).map BlockIndexEntry.hash) ∧
    ∃ events, c'.notified = c.notified ++ events ∧
      ∀ e ∈ events, e.kind = .disconnect → 3 < e.height := by
  have hrun : (((Blockchain.create Sample.checkpointed).toOption.bind fun c =>
      runCalls Sample.checkpointed c [Sample.submit Sample.slow₁, Sample.submit Sample.slow₂,
        Sample.submit Sample.slow₃]).any fun c =>
      decide (3 ≤ c.height ∧ ∀ p ∈ c.storage.blockRows, p.2.height < 3 →
        p.2.chainwork ≤ c.tip.chainwork) &&
      ((c.storage.getEntry Sample.quick₁.header.prevHash).all fun p =>
        (blockWork Sample.quick₁.header.bits.toNat).toOption.all fun work =>
          decide (p.height + 1 < 3 → p.chainwork + work ≤ c.tip.chainwork)) &&
      (runCalls Sample.checkpointed c [Sample.submit Sample.quick₁]).any fun c' =>
        c'.storage.hasBlock Sample.quick₁.hash) = true := by decide +kernel
  obtain ⟨c, hc, h⟩ := (Option.any_eq_true _ _).mp hrun
  obtain ⟨start, hstart, hops⟩ := Option.bind_eq_some_iff.mp hc
  obtain ⟨hbefore, htaken⟩ := (Bool.and_eq_true _ _).mp h
  obtain ⟨hrows, hblock⟩ := (Bool.and_eq_true _ _).mp hbefore
  obtain ⟨hheight, hlight⟩ := of_decide_eq_true hrows
  obtain ⟨c', hc', hstored⟩ := (Option.any_eq_true _ _).mp htaken
  have hreach := (Reachable.create (toOption_eq_some.mp hstart)).of_runCalls hops
  have hcalls : LightCalls Sample.checkpointed 3 c [Sample.submit Sample.quick₁] := by
    refine ⟨fun p work hp hwork hlow => ?_, fun _ _ => trivial⟩
    have hp' := (Option.all_eq_true _ _).mp hblock p hp
    exact of_decide_eq_true
      ((Option.all_eq_true _ _).mp hp' work (toOption_eq_some.mpr hwork)) hlow
  exact ⟨c, c', hreach, hc', hstored,
    hreach.checkpoint_final rfl hheight (Blockchain.lightBelow_of_rows hlight) hcalls hc'⟩

end Instances

end ScarletCoin
