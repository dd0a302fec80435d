import ScarletCoin.Core.WireFormat
import ScarletCoin.Invariants.MostWork
import ScarletCoin.Rules.Declarative

/-!
# A block on top of the tip

A chain at rest to which a block on top of its tip is submitted looks at this block next, unless so
many remembered blocks are as heavy that a round does not get to look at it (`bestCandidate_place`).
If the block passes its checks over the unspent outputs, it becomes the tip and is answered so
(`Placement.addBlock_connects`).

The undo record of such a block can always be written (`FreshOver.encodeUndo_ok`).
-/

set_option autoImplicit false

namespace ScarletCoin

open Toolkit

section Undo

variable [Crypto] {params : ChainParams} {utxo : Table OutPoint Coin} {b : Block}

/-- The undo record of a block of new ids that passes its checks can be written. -/
theorem Block.FreshOver.encodeUndo_ok (h : b.FreshOver utxo) (hsize : b.size < 2 ^ 64)
    (hheights : ∀ o coin, utxo.lookup o = some coin → coin.height < 2 ^ 32)
    {entry : BlockIndexEntry}
    {st : ConnectState} (hcheck : checkBlock params utxo b entry = .ok st) :
    ∃ data, encodeUndo st.undo = .ok data := by
  have hrule := h.checkBlock_iff.mp ⟨st, hcheck⟩
  refine ⟨_, encodeUndo_eq_ok.mpr ⟨?_, ?_, rfl⟩⟩
  · -- no outpoint is noted twice, and each is spent by the block
    have honce := (checkBlock_balanced hcheck).sound.once
    have hsub : st.undo.map Prod.fst ⊆ b.spends := by
      intro o ho
      obtain ⟨⟨o, coin⟩, hmem, rfl⟩ := List.mem_map.mp ho
      exact (h.undo_taken hcheck hmem).1
    have hle : (st.undo.map Prod.fst).length ≤ b.spends.length :=
      (List.Nodup.subperm honce hsub).length_le
    have hspends := b.spends_length_le
    rw [List.length_map] at hle
    omega
  · rintro ⟨o, coin⟩ hmem
    obtain ⟨hspent, hcoin⟩ := h.undo_taken hcheck hmem
    obtain ⟨t, ht, ho⟩ := List.mem_flatMap.mp hspent
    have hsome : utxo.lookup o ≠ none := by
      rw [hcoin]
      exact Option.some_ne_none coin
    have hmade : o ∉ (b.coins entry.height).map Prod.fst := by
      rw [Block.coins, List.map_flatMap, List.mem_flatMap]
      rintro ⟨t', ht', hot⟩
      rw [t'.coins_fst] at hot
      refine h.new o hsome ?_
      rw [Transaction.outpoints_txid hot]
      exact List.mem_map_of_mem ht'
    have hshown : (b.offered entry.height utxo).lookup o = some coin := by
      rw [Block.offered, Table.lookup_insertAll_of_notMem hmade, hcoin]
    have hvalue := (hrule.spending t ht (Transaction.mem_spends.mp ho).1).value_le ho hshown
    exact ⟨Nat.lt_of_le_of_lt hvalue MAX_MONEY_lt, hheights o coin hcoin⟩

end Undo

namespace Blockchain

section Extension

variable [Crypto] [ScanOrder Hash] {params : ChainParams} {c : Blockchain} {b : Block}
    {p : BlockRow}
  {now work : Nat} {n : TreeNode} {rest : List TreeNode}

omit [ScanOrder Hash] in
/-- After a block has been placed, it is stored, and so is what was. -/
theorem tree_place (k : Hash) :
    (c.place b p work).storage.tree k =
      if k = b.hash then some (placedNode b p work) else c.storage.tree k := by
  unfold Storage.tree
  rw [place, Table.lookup_insert_if]
  split <;> rfl

/-- A block placed on the tip of a chain at rest is the next candidate, unless a round does not get
to look at it. -/
theorem bestCandidate_place (hs : Standing params c (n :: rest))
    (hplace : c.Placement params now b p work)
    (hparent : b.header.prevHash = n.body.hash) (hwork : 0 < work) (hrest : c.Settled)
    (hroom : ¬ c.Crowded (c.tip.chainwork + 1)) :
    (c.place b p work).bestCandidate =
    some ((c.place b p work).storage.entryAt (placedNode b p work)) := by
  have hstored : c.storage.tree n.body.hash = some n :=
    hs.based.active.branch.stored n List.mem_cons_self
  have htree := fun k => @tree_place _ c b p work k
  have hp : p.chainwork = c.tip.chainwork := by
    obtain ⟨t, r, hbs, htip, -⟩ := hs.tip
    obtain ⟨rfl, -⟩ := List.cons.inj hbs
    have hrow := hplace.parent
    rw [hparent] at hrow
    have hknown := Storage.tree_eq_some.mpr ⟨p, hrow, rfl⟩
    rw [hstored] at hknown
    rw [htip, Storage.entryAt_chainwork hstored, Option.some.inj hknown]
    rfl
  have hheavier : c.tip.chainwork < (placedNode b p work).chainwork := by
    rw [← hp]
    exact Nat.lt_add_of_pos_right hwork
  have hmine : (c.place b p work).storage.tree b.hash = some (placedNode b p work) := by
    rw [htree, if_pos rfl]
  have hnew : c.isInvalid b.hash = false := hplace.notInvalid
  -- crowding is by blocks that were there before
  have hcrowd : ¬ (c.place b p work).Crowded (placedNode b p work).chainwork := by
    rintro ⟨hs', hnodup, hlength, hall⟩
    refine hroom ⟨hs', hnodup, hlength, fun h hh => ?_⟩
    obtain ⟨hknown, m, hm, hle⟩ := hall h hh
    have hne : h ≠ b.hash := by
      rintro rfl
      exact Bool.false_ne_true (hnew.symm.trans hknown)
    rw [htree, if_neg hne] at hm
    exact ⟨hknown, m, hm, Nat.lt_of_lt_of_le hheavier hle⟩
  cases hbest : (c.place b p work).bestCandidate with
  | none =>
    rcases settled_of_none hbest _ _ hmine hheavier with hknown | hcrowded
    · exact absurd (hnew.symm.trans hknown) Bool.false_ne_true
    · exact absurd hcrowded hcrowd
  | some e =>
    obtain ⟨w, hw, rfl, hbeats, hvalid⟩ := bestCandidate_node (hplace.standing hs).2 hbest
    -- any other candidate would have been one before
    rw [htree] at hw
    split at hw
    · rw [Option.some.inj hw]
    · exfalso
      rcases hrest _ w hw hbeats with hknown | ⟨hs', hnodup, hlength, hall⟩
      · exact Bool.false_ne_true (hvalid.symm.trans hknown)
      · refine hroom ⟨hs', hnodup, hlength, fun h hh => ⟨(hall h hh).1, ?_⟩⟩
        obtain ⟨m, hm, hle⟩ := (hall h hh).2
        exact ⟨m, hm, Nat.lt_of_lt_of_le hbeats hle⟩

/-- Extending a chain by a stored block that can be loaded and passes its checks succeeds. -/
theorem extend_one {s : Storage} {w : TreeNode} {row : BlockRow}
    (hrow : s.blocks.lookup w.body.hash = some row) (hknown : row.known = w)
    (hkept : row.pruned = false) (hwire : w.body.WithinLimits) {st : ConnectState} {data : Bytes}
    (hcheck : checkBlock params s.utxo w.body w.entry = .ok st)
    (hundo : encodeUndo st.undo = .ok data) : ∃ s', extend params s [w] = .ok s' := by
  have hbody : row.body = w.body := congrArg TreeNode.body hknown
  have hload : s.getBlock w.body.hash = .ok (some w.body) :=
    Storage.getBlock_eq_ok.mpr ⟨row, hrow, hkept,
      Block.deserialize_eq_ok.mpr ⟨hwire, by rw [hbody]⟩, hbody.symm⟩
  have hstored : s.tree w.body.hash = some w := Storage.tree_eq_some.mpr ⟨row, hrow, hknown⟩
  have hentry : checkBlock params s.utxo w.body (s.entryAt w) = .ok st := by
    rw [← hcheck]
    exact checkBlock_congr Storage.entryAt_hash (Storage.entryAt_height hstored)
  exact ⟨_, bind_eq_ok.mpr ⟨some w.body, hload,
    bind_eq_ok.mpr ⟨_, connectBlock_eq_ok.mpr ⟨st, data, hentry, hundo, rfl⟩, rfl⟩⟩⟩

/-- The switch to a block on top of the tip extends the chain by it. -/
theorem switchTo_one {w : TreeNode} {s : Storage} (hs : Standing params c (n :: rest))
    (hw : c.storage.tree w.body.hash = some w) (hnew : w ∉ n :: rest)
    (hparent : w.body.header.prevHash = n.body.hash) (hheight : w.height = n.height + 1)
    (hvalid : c.isInvalid w.body.hash = false) (hextend : extend params c.storage [w] = .ok s) :
    switchTo params c.storage c.isInvalid (c.storage.entryAt n) (c.storage.entryAt w) =
        .ok (s.setTip w.body.hash, s.entryAt w, [⟨.connect, w.body, w.height⟩]) ∧
      ChainTrace params (c.storage, n :: rest) (s.setTip w.body.hash, w :: n :: rest) := by
  have hf : Fork params c.storage [w] [] (n :: rest) :=
    ⟨hs.based, .child hs.based.active.branch hw hparent hheight, List.cons_ne_nil _ _,
      fun m hm => List.mem_singleton.mp hm ▸ hnew⟩
  have hswitch : switchTo params c.storage c.isInvalid (c.storage.entryAt n) (c.storage.entryAt w) =
      .ok (s.setTip w.body.hash, s.entryAt w,
        heard .disconnect [] ++ heard .connect [w].reverse) := by
    rw [switchTo_eq hf rfl rfl, firstInvalid_cons_neg (by rw [hvalid]; exact Bool.false_ne_true)]
    show (extend params c.storage [w]).map _ = _
    rw [hextend]
    rfl
  exact ⟨hswitch, (switchTo_trace hf rfl rfl hswitch).1⟩

omit [ScanOrder Hash] in
/-- The answer for the tip. -/
theorem answer_tip {w : TreeNode} (hs : Standing params c (w :: rest))
    (hvalid : c.isInvalid w.body.hash = false) (height : Nat) :
    c.answer w.body.hash height false = ⟨.connected, w.body.hash, some height, "", false⟩ := by
  have hstored : c.storage.tree w.body.hash = some w :=
    hs.based.active.branch.stored w List.mem_cons_self
  have hmarked : (c.storage.entryAt w).inChain = true :=
    (hs.based.active.entryAt_inChain hstored).mpr List.mem_cons_self
  rw [answer, hvalid, if_neg Bool.false_ne_true, Storage.getEntry_eq hstored, Option.any_some,
    hmarked, if_pos rfl]

/-- Without a candidate the activation ends. -/
theorem activateRound_of_none {r : Bool} (h : c.bestCandidate = none) :
    activateRound params ⟨c, r⟩ = .halt (c, .ok r) := by
  unfold activateRound
  rw [h]

/-- Once the only candidate is a block on top of the tip that passes its checks, the activation ends
with it as the tip. -/
theorem activate_one {w : TreeNode} {row : BlockRow} (hs : Standing params c (n :: rest))
    (hrow : c.storage.blocks.lookup w.body.hash = some row) (hknown : row.known = w)
    (hkept : row.pruned = false) (hnew : w ∉ n :: rest)
    (hparent : w.body.header.prevHash = n.body.hash)
    (hheight : w.height = n.height + 1) (hvalid : c.isInvalid w.body.hash = false)
    (hbest : c.bestCandidate = some (c.storage.entryAt w)) (hwire : w.body.WithinLimits)
    {st : ConnectState} {data : Bytes}
    (hcheck : checkBlock params c.storage.utxo w.body w.entry = .ok st)
    (hundo : encodeUndo st.undo = .ok data) {rounds : Nat} (hrounds : 2 ≤ rounds) :
    ∃ c', loop (activateRound params) rounds ⟨c, false⟩ = some (c', .ok false) ∧
      Standing params c' (w :: n :: rest) ∧ c'.invalid = c.invalid ∧
      c'.notified = c.notified ++ [⟨.connect, w.body, w.height⟩] := by
  have hw : c.storage.tree w.body.hash = some w := Storage.tree_eq_some.mpr ⟨row, hrow, hknown⟩
  obtain ⟨s, hextend⟩ := extend_one hrow hknown hkept hwire hcheck hundo
  obtain ⟨hswitch, htrace⟩ := switchTo_one hs hw hnew hparent hheight hvalid hextend
  have htree := switchTo_tree hswitch
  obtain ⟨t, rest', hbs, htip, -⟩ := hs.tip
  obtain ⟨rfl, -⟩ := List.cons.inj hbs
  have hround := activateRound_of_switch (r := false) htip hbest hswitch
  obtain ⟨c', hc'⟩ : ∃ c' : Blockchain,
    c' = ⟨s.setTip w.body.hash, (s.setTip w.body.hash).entryAt w,
    c.invalid, c.notified ++ [⟨.connect, w.body, w.height⟩]⟩ := ⟨_, rfl⟩
  have hnone : c'.bestCandidate = none := by
    rw [hc']
    exact bestCandidate_switched hbest hw htree
  obtain ⟨m, rfl⟩ : ∃ m, rounds = m + 2 := ⟨rounds - 2, by omega⟩
  refine ⟨c', ?_, ?_, by rw [hc'], by rw [hc']⟩
  · have hnext : activateRound params ⟨c, false⟩ = .next ⟨c', false⟩ := by
      rw [hround, hc']
      rfl
    rw [loop_succ_next hnext, loop_succ_halt (activateRound_of_none hnone)]
  · rw [hc']
    exact ⟨htrace.based hs.based, w, _, rfl, rfl, rfl⟩

/-- A block placed on the tip of a chain at rest that passes its checks becomes the tip, and the
answer says so. -/
theorem Placement.addBlock_connects (hs : Standing params c (n :: rest))
    (hplace : c.Placement params now b p work) (hparent : b.header.prevHash = n.body.hash)
    (hwork : 0 < work) (hrest : c.Settled) (hroom : ¬ c.Crowded (c.tip.chainwork + 1))
    (hwire : b.WithinLimits) {st : ConnectState} {data : Bytes}
    (hcheck : checkBlock params c.storage.utxo b (placedNode b p work).entry = .ok st)
    (hundo : encodeUndo st.undo = .ok data) {rounds : Nat} (hrounds : 2 ≤ rounds) :
    ∃ c', c.addBlock params rounds now b =
        some (c', .ok ⟨.connected, b.hash, some (n.height + 1), "", false⟩) ∧
      Standing params c' (placedNode b p work :: n :: rest) ∧
      c'.notified = c.notified ++ [⟨.connect, b, n.height + 1⟩] := by
  have hs₁ : Standing params (c.place b p work) (n :: rest) := (hplace.standing hs).2
  have hrow : (c.place b p work).storage.blocks.lookup b.hash =
      some ⟨p.height + 1, p.chainwork + work, false, false, b, b.transactions.length⟩ :=
    Finmap.lookup_insert _
  have hheight : p.height = n.height := by
    have hstored : c.storage.tree n.body.hash = some n :=
      hs.based.active.branch.stored n List.mem_cons_self
    have hknown := Storage.tree_eq_some.mpr ⟨p, hplace.parent, rfl⟩
    rw [hparent, hstored] at hknown
    exact (congrArg TreeNode.height (Option.some.inj hknown)).symm
  -- an active block is stored, and this one was unknown
  have hnew : placedNode b p work ∉ n :: rest := by
    intro hactive
    have hold : c.storage.tree (placedNode b p work).body.hash = some (placedNode b p work) :=
      hs.based.active.branch.stored _ hactive
    rw [Storage.tree, show (placedNode b p work).body.hash = b.hash from rfl,
      hplace.unknown] at hold
    cases hold
  obtain ⟨c', hloop, hs', hinvalid, hnotified⟩ :=
    activate_one (w := placedNode b p work) hs₁ hrow rfl rfl
    hnew hparent (congrArg (· + 1) hheight) hplace.notInvalid
    (bestCandidate_place hs hplace hparent hwork hrest hroom) hwire hcheck hundo hrounds
  have hadmitted : c.admitBlock params now b = .ok (.stored (c.place b p work) (p.height + 1)) :=
    admitBlock_eq_stored.mpr ⟨p, work, hplace, rfl, rfl⟩
  refine ⟨c', ?_, hs', ?_⟩
  · have hvalid : c'.isInvalid b.hash = false := by
      rw [isInvalid, hinvalid]
      exact hplace.notInvalid
    unfold addBlock
    rw [hadmitted]
    dsimp only
    rw [hloop, ← hheight]
    exact congrArg (fun r => some (c', Except.ok r)) (answer_tip hs' hvalid (p.height + 1))
  · rw [hnotified, ← hheight]
    rfl

end Extension

end Blockchain

end ScarletCoin
