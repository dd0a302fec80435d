import ScarletCoin.Invariants.HistoryBackfill
import ScarletCoin.Invariants.Listeners
import ScarletCoin.Invariants.Room
import ScarletCoin.Invariants.TransactionCounts
import ScarletCoin.Toolkit.Ranking

/-!
# The activation of the best chain

A round of the activation that switches takes the heaviest stored block that is not remembered as
invalid, so no round after it finds anything better: a submitted block leads to at most one switch
(`Reachable.addBlock_switches_once`).

A round that does not switch remembers a block of the branch it tried, with everything built on it.
As long as nothing is forgotten for want of room, every such round leaves fewer blocks to try, and
`add_block` comes back (`Mindful.addBlock_returns`).
-/

set_option autoImplicit false

namespace ScarletCoin

open Toolkit

/-! ## The best candidate -/

section Candidates

theorem Storage.moreWork_total (a b : BlockIndexEntry) :
    Storage.moreWork a b ∨ Storage.moreWork b a := by
  unfold moreWork
  omega

theorem Storage.moreWork_trans {a b e : BlockIndexEntry} (hab : Storage.moreWork a b)
    (hbe : Storage.moreWork b e) : Storage.moreWork a e := by
  unfold moreWork at *
  omega

theorem Storage.moreWork_chainwork {a b : BlockIndexEntry} (h : Storage.moreWork a b) :
    b.chainwork ≤ a.chainwork := by
  unfold moreWork at h
  omega

instance : Std.Total Storage.moreWork := ⟨Storage.moreWork_total⟩

instance : IsTrans BlockIndexEntry Storage.moreWork := ⟨fun _ _ _ => Storage.moreWork_trans⟩

namespace Blockchain

variable {c : Blockchain} {entries : List BlockIndexEntry} {x : BlockIndexEntry}

/-- Where no candidate is found, every entry that beats the tip is remembered. -/
theorem firstCandidate_none (hsorted : entries.Pairwise Storage.moreWork)
    (h : c.firstCandidate entries = none) (hx : x ∈ entries)
    (hwork : c.tip.chainwork < x.chainwork) : c.isInvalid x.hash = true := by
  induction entries with
  | nil => cases hx
  | cons e entries ih =>
    obtain ⟨hfirst, hrest⟩ := List.pairwise_cons.mp hsorted
    unfold firstCandidate at h
    split at h
    · rename_i hle
      rcases List.mem_cons.mp hx with rfl | hx
      · omega
      · have hxe := Storage.moreWork_chainwork (hfirst x hx)
        omega
    · split at h
      · rename_i hinvalid
        rcases List.mem_cons.mp hx with rfl | hx
        · exact hinvalid
        · exact ih hrest h hx
      · cases h

/-- Every entry that beats the candidate is remembered. -/
theorem firstCandidate_heaviest (hsorted : entries.Pairwise Storage.moreWork) {e : BlockIndexEntry}
    (h : c.firstCandidate entries = some e) (hx : x ∈ entries) (hwork : e.chainwork < x.chainwork) :
    c.isInvalid x.hash = true := by
  induction entries with
  | nil => cases hx
  | cons a entries ih =>
    obtain ⟨hfirst, hrest⟩ := List.pairwise_cons.mp hsorted
    unfold firstCandidate at h
    split at h
    · cases h
    · split at h
      · rename_i hinvalid
        rcases List.mem_cons.mp hx with rfl | hx
        · exact hinvalid
        · exact ih hrest h hx
      · obtain rfl := Option.some.inj h
        rcases List.mem_cons.mp hx with rfl | hx
        · omega
        · have hxa := Storage.moreWork_chainwork (hfirst x hx)
          omega

variable [ScanOrder Hash]

theorem bestEntries_sorted (s : Storage) (limit : Nat) :
    (s.bestEntries limit).Pairwise Storage.moreWork :=
  (List.pairwise_insertionSort _ _).sublist (List.take_sublist _ _)

/-- A stored block is among the best entries, or there are as many as asked for with at least its
work. -/
theorem mem_bestEntries {s : Storage} {k : Hash} {row : BlockRow}
    (hrow : s.blocks.lookup k = some row)
    (limit : Nat) : row.entry k ∈ s.bestEntries limit ∨ (s.bestEntries limit).length = limit ∧
      ∀ y ∈ s.bestEntries limit, row.chainwork ≤ y.chainwork := by
  have hmem : row.entry k ∈ s.blockRows.map fun p => p.2.entry p.1 :=
    List.mem_map.mpr ⟨(k, row), (mem_scan s.blocks k row).mpr hrow, rfl⟩
  have hranked := @mem_take_insertionSort _ Storage.moreWork _ _ _ _ _ hmem limit
  rcases hranked with htake | ⟨hlength, hbefore⟩
  · exact .inl htake
  · exact .inr ⟨hlength, fun y hy => Storage.moreWork_chainwork (hbefore y hy)⟩

/-- Every stored block that beats the candidate is remembered. -/
theorem bestCandidate_heaviest {e : BlockIndexEntry} (h : c.bestCandidate = some e) {k : Hash}
    {row : BlockRow} (hrow : c.storage.blocks.lookup k = some row)
    (hwork : e.chainwork < row.chainwork) : c.isInvalid k = true := by
  have hsorted := bestEntries_sorted c.storage MAX_CANDIDATES
  rcases mem_bestEntries hrow MAX_CANDIDATES with hmem | ⟨-, hall⟩
  · exact firstCandidate_heaviest hsorted h hmem hwork
  · have hle := hall e (firstCandidate_spec h).1
    omega

end Blockchain

end Candidates

/-! ## One switch -/

section Switches

variable [Crypto] [ScanOrder Hash] {params : ChainParams}

/-- What a listener hears of a block with its height. -/
def told (kind : EventKind) (b : Block × Nat) : Event := ⟨kind, b.1, b.2⟩

omit [Crypto] [ScanOrder Hash] in
theorem heard_eq (kind : EventKind) (ns : List TreeNode) :
    heard kind ns = (stackOf ns).map (told kind) := by
  rw [heard, stackOf, List.map_map]
  rfl

/-- After a switch no candidate is left. -/
theorem bestCandidate_switched {c : Blockchain} {w : TreeNode} {s : Storage} {events : List Event}
    (hbest : c.bestCandidate = some (c.storage.entryAt w))
    (hw : c.storage.tree w.body.hash = some w) (htree : s.tree = c.storage.tree) :
    Blockchain.bestCandidate ⟨s, s.entryAt w, c.invalid, events⟩ = none := by
  by_contra hsome
  obtain ⟨e, he⟩ := Option.ne_none_iff_exists'.mp hsome
  obtain ⟨hmem, hwork, hvalid⟩ := Blockchain.firstCandidate_spec he
  obtain ⟨row, hrow, he⟩ := Storage.bestEntries_stored hmem
  -- the row was there before, with the same work
  have hknown := Storage.tree_eq_some.mpr ⟨row, hrow, rfl⟩
  rw [htree] at hknown
  obtain ⟨row', hrow', hsame⟩ := Storage.tree_eq_some.mp hknown
  have hsameWork : row'.chainwork = row.chainwork := congrArg TreeNode.chainwork hsame
  have htip : (s.entryAt w).chainwork = w.chainwork := Storage.entryAt_chainwork (htree ▸ hw)
  have hcandidate : (c.storage.entryAt w).chainwork = w.chainwork := Storage.entryAt_chainwork hw
  have hrowWork : e.chainwork = row.chainwork := by rw [he]; rfl
  have hheavier : (c.storage.entryAt w).chainwork < row'.chainwork := by
    have hlt : (s.entryAt w).chainwork < e.chainwork := hwork
    omega
  have hbad : c.isInvalid e.hash = true := Blockchain.bestCandidate_heaviest hbest hrow' hheavier
  have hgood : c.isInvalid e.hash = false := hvalid
  rw [hbad] at hgood
  cases hgood

/-- How far the activation has come: no switch has happened, or one, and no candidate is left. -/
def SwitchedOnce (params : ChainParams) (bs : List TreeNode) (a b : Activation) : Prop :=
  (b.chain.storage = a.chain.storage ∧ b.chain.tip = a.chain.tip ∧
    b.chain.notified = a.chain.notified ∧ b.reorganised = a.reorganised) ∨
  b.chain.bestCandidate = none ∧ ∃ new gone old, bs = gone ++ old ∧ old ≠ [] ∧
    Standing params b.chain (new ++ old) ∧
    b.chain.notified = a.chain.notified ++ heard .disconnect gone ++ heard .connect new.reverse ∧
    b.reorganised = (a.reorganised || !gone.isEmpty) ∧ a.chain.tip.chainwork < b.chain.tip.chainwork

omit [Crypto] [ScanOrder Hash] in
theorem any_disconnect (gone new : List TreeNode) :
    (heard .disconnect gone ++ heard .connect new).any (fun e => e.kind == .disconnect) =
      !gone.isEmpty := by
  have hconnect : ((heard .connect new).any fun e => e.kind == .disconnect) = false := by
    rw [List.any_eq_false]
    intro e he
    obtain ⟨n, -, rfl⟩ := List.mem_map.mp he
    exact Bool.false_ne_true
  rw [List.any_append, hconnect, Bool.or_false]
  cases gone with
  | nil => rfl
  | cons n gone => rfl

/-- A switch leaves the tree as it is. -/
theorem switchTo_tree {s s' : Storage} {invalid : Hash → Bool}
    {tip tip' candidate : BlockIndexEntry}
    {events : List Event} (h : switchTo params s invalid tip candidate = .ok (s', tip', events)) :
    s'.tree = s.tree := by
  refine switchTo_keeps Storage.tree (fun hdis => ?_) (fun hcon => ?_) (fun _ _ => rfl) h
  · obtain ⟨undo, -, hdone⟩ := disconnectBlock_disconnected hdis
    exact Storage.tree_modify hdone.blocks fun _ => rfl
  · obtain ⟨st, data, -, -, rfl⟩ := connectBlock_eq_ok.mp hcon
    exact Storage.tree_modify (recordBlock_connected _ _ _ st data).blocks fun _ => rfl

/-- A round whose switch succeeds. -/
theorem activateRound_of_switch {c : Blockchain} {r : Bool} {t w : TreeNode} {s : Storage}
    {tip : BlockIndexEntry} {events : List Event} (htip : c.tip = c.storage.entryAt t)
    (hbest : c.bestCandidate = some (c.storage.entryAt w))
    (h : switchTo params c.storage c.isInvalid (c.storage.entryAt t) (c.storage.entryAt w) =
      .ok (s, tip, events)) :
    activateRound params ⟨c, r⟩ = .next ⟨⟨s, tip, c.invalid, c.notified ++ events⟩,
      r || events.any fun e => e.kind == .disconnect⟩ := by
  unfold activateRound
  rw [hbest]
  dsimp only
  rw [htip, h]

/-- A round whose switch blames a block. -/
theorem activateRound_of_blame {c : Blockchain} {r : Bool} {t w : TreeNode} {hash : Hash}
    {message : String} (htip : c.tip = c.storage.entryAt t)
    (hbest : c.bestCandidate = some (c.storage.entryAt w))
    (h : switchTo params c.storage c.isInvalid (c.storage.entryAt t) (c.storage.entryAt w) =
      .error (.connect hash message)) :
    activateRound params ⟨c, r⟩ = .next ⟨c.invalidate hash message, r⟩ := by
  unfold activateRound
  rw [hbest]
  dsimp only
  rw [htip, h]

theorem visits_switchedOnce {a b : Activation} {bs : List TreeNode}
    (hs : Standing params a.chain bs)
    (h : Visits (activateRound params) a b) : SwitchedOnce params bs a b := by
  refine h.invariant (SwitchedOnce params bs a) (.inl ⟨rfl, rfl, rfl, rfl⟩) ?_
  rintro ⟨c, r⟩ ⟨c', r'⟩ - (⟨hstorage, htip, hnotified, hr⟩ | ⟨hnone, -⟩) hnext
  · -- no switch so far: this round switches, or it only remembers a branch that failed
    have hs₁ : Standing params c bs := hs.of_eq hstorage htip
    obtain ⟨new, gone, old, t, w, rfl, ha, ⟨s, events, hswitch, rfl⟩ |
        ⟨hash, message, hfail, rfl⟩⟩ :=
      activateRound_cases hs₁ hnext
    · obtain ⟨htrace, -, hpoint⟩ := switchTo_trace ha.fork ha.from_tip ha.to_top hswitch
      obtain ⟨-, -, -, -, -, -, hevents⟩ := switchTo_parts ha.fork ha.from_tip ha.to_top hswitch
      have hmem : w ∈ new ++ old := List.mem_of_head? ha.to_top
      have hw : c.storage.tree w.body.hash = some w := ha.fork.path.stored w hmem
      have htree := switchTo_tree hswitch
      obtain ⟨rest, hrest⟩ := List.head?_eq_some_iff.mp ha.to_top
      rw [activateRound_of_switch ha.tip ha.candidate hswitch] at hnext
      have hflag : (r || events.any fun e => e.kind == .disconnect) = r' := by
        injection hnext with hnext
        exact congrArg Activation.reorganised hnext
      refine .inr ⟨bestCandidate_switched ha.candidate hw htree, new, gone, old, rfl,
        ha.fork.common, ⟨htrace.based ha.fork.based, w, rest, hrest, rfl, hpoint⟩, ?_, ?_, ?_⟩
      · show c.notified ++ events = _
        rw [hevents, show c.notified = a.chain.notified from hnotified, List.append_assoc]
      · show r' = _
        rw [← hflag, hevents, any_disconnect, show r = a.reorganised from hr]
      · show a.chain.tip.chainwork < (s.entryAt w).chainwork
        rw [Storage.entryAt_chainwork (htree ▸ hw), ← show c.tip = a.chain.tip from htip]
        exact ha.heavier
    · rw [activateRound_of_blame ha.tip ha.candidate hfail] at hnext
      have hflag : r = r' := by
        injection hnext with hnext
        exact congrArg Activation.reorganised hnext
      exact .inl ⟨(c.invalidate_storage hash message).trans hstorage,
        (c.invalidate_tip hash message).trans htip,
        (c.invalidate_notified hash message).trans hnotified, hflag ▸ hr⟩
  · -- once there is no candidate, a round halts
    unfold activateRound at hnext
    rw [show c.bestCandidate = none from hnone] at hnext
    cases hnext

omit [Crypto] [ScanOrder Hash] in
theorem not_accepted_of_reject {c c' : Blockchain} {h : Hash} {height : Option Nat}
    {reason : String}
    {r : AddBlockResult} (hr : c.reject h height reason = .answered c' r) : r.accepted = false := by
  injection hr with _ hr
  rw [← hr]
  rfl

/-- A block that is answered without being stored is not accepted. -/
theorem admitBlock_not_accepted {now : Nat} {c c' : Blockchain} {b : Block} {r : AddBlockResult}
    (h : c.admitBlock params now b = .ok (.answered c' r)) : r.accepted = false := by
  unfold Blockchain.admitBlock at h
  split at h
  · injection Except.ok.inj h with _ hr
    rw [← hr]
    rfl
  split at h
  · injection Except.ok.inj h with _ hr
    rw [← hr]
    rfl
  split at h
  · injection Except.ok.inj h with _ hr
    rw [← hr]
    rfl
  dsimp only at h
  split at h
  · exact not_accepted_of_reject (Except.ok.inj h)
  split at h
  · exact not_accepted_of_reject (Except.ok.inj h)
  · exact not_accepted_of_reject (Except.ok.inj h)
  · cases h
  unfold Blockchain.judgeBlock at h
  split at h
  · exact not_accepted_of_reject (Except.ok.inj h)
  split at h
  · exact not_accepted_of_reject (Except.ok.inj h)
  split at h
  · injection Except.ok.inj h with _ hr
    rw [← hr]
    rfl
  · split at h
    · exact not_accepted_of_reject (Except.ok.inj h)
    · cases h
  unfold Blockchain.storeBlock at h
  split at h
  · split at h
    · exact not_accepted_of_reject (Except.ok.inj h)
    · cases h
  · obtain ⟨work, -, hrest⟩ := bind_eq_ok.mp h
    obtain ⟨⟨s, entry⟩, -, hpure⟩ := bind_eq_ok.mp hrest
    cases pure_eq_ok.mp hpure

omit [Crypto] [ScanOrder Hash] in
theorem answer_reorganised {c : Blockchain} {h : Hash} {height : Nat} {reorganised : Bool}
    (haccepted : (c.answer h height reorganised).accepted = true) :
    (c.answer h height reorganised).reorganised = reorganised := by
  unfold Blockchain.answer at haccepted ⊢
  split
  · rename_i hinvalid
    rw [if_pos hinvalid] at haccepted
    cases haccepted
  · rfl

/-- The answer of a round that halts is what the rounds before it found. -/
theorem activateRound_halt_ok {c c' : Blockchain} {r flag : Bool}
    (h : activateRound params ⟨c, r⟩ = .halt (c', .ok flag)) : flag = r := by
  unfold activateRound at h
  dsimp only at h
  split at h
  · injection h with h
    exact (Except.ok.inj (Prod.mk.inj h).2).symm
  · split at h
    · cases h
    · cases h
    · injection h with h
      cases (Prod.mk.inj h).2

/-- **A submitted block leads to at most one switch.** Listeners hear of the blocks above a fork
from the tip down, and then of the blocks that replace them from the fork up; a chain that changes
has more work than before; and the answer says that the chain was reorganised iff blocks were
disconnected. -/
theorem Reachable.addBlock_switches_once {c c' : Blockchain} (h : Reachable params c)
    {rounds now : Nat} {b : Block} {answer : Except PyError AddBlockResult}
    (hadd : c.addBlock params rounds now b = some (c', answer)) :
    ∃ gone new old, c.activeStack = gone ++ old ∧ c'.activeStack = new ++ old ∧ old ≠ [] ∧
      c'.notified = c.notified ++ gone.map (told .disconnect) ++ new.reverse.map (told .connect) ∧
      (gone ++ new ≠ [] → c.tip.chainwork < c'.tip.chainwork) ∧
      ∀ r, answer = .ok r → r.accepted = true → r.reorganised = !gone.isEmpty := by
  obtain ⟨_, _, bs, -, -, hs⟩ := h.run
  have hne : c.activeStack ≠ [] := by
    obtain ⟨n, rest, hbs, -⟩ := hs.tip
    rw [hs.activeStack_eq, hbs]
    exact List.cons_ne_nil _ _
  -- a call that stores nothing changes nothing
  have hstill : c'.activeStack = c.activeStack → c'.notified = c.notified →
      (∀ r, answer = .ok r → r.accepted = true → r.reorganised = false) →
      ∃ gone new old, c.activeStack = gone ++ old ∧ c'.activeStack = new ++ old ∧ old ≠ [] ∧
        c'.notified = c.notified ++ gone.map (told .disconnect) ++ new.reverse.map (told .connect) ∧
        (gone ++ new ≠ [] → c.tip.chainwork < c'.tip.chainwork) ∧
        ∀ r, answer = .ok r → r.accepted = true → r.reorganised = !gone.isEmpty :=
    fun hstack hnotified hanswer => ⟨[], [], c.activeStack, rfl, hstack, hne, by simp [hnotified],
      fun h => absurd rfl h, hanswer⟩
  rcases Blockchain.addBlock_cases hadd with ⟨e, -, rfl, rfl⟩ | ⟨r, haccept, rfl⟩ |
    ⟨p, work, r, outcome, hplace, hvisits, hhalt, hanswer⟩
  · exact hstill rfl rfl fun r hr => by cases hr
  · have hrefused := admitBlock_not_accepted haccept
    have hanswer : ∀ r', (.ok r : Except PyError AddBlockResult) = .ok r' → r'.accepted = true →
        r'.reorganised = false := by
      rintro r' hr hyes
      rw [← Except.ok.inj hr, hrefused] at hyes
      cases hyes
    rcases Blockchain.admitBlock_answered haccept with rfl | ⟨reason, rfl⟩
    · exact hstill rfl rfl hanswer
    · exact hstill rfl rfl hanswer
  · obtain ⟨-, hs₁⟩ := hplace.standing hs
    -- a round that halts with an answer passes on what it was told
    have hpassed : ∀ r', answer = .ok r' → r'.accepted = true → r'.reorganised = r := by
      rintro r' hr' hyes
      rw [hanswer] at hr'
      cases outcome with
      | error e => cases hr'
      | ok flag =>
        obtain rfl := Except.ok.inj hr'
        rw [answer_reorganised hyes, activateRound_halt_ok hhalt]
    rcases visits_switchedOnce hs₁ hvisits with ⟨hstorage, htip, hnotified, hr⟩ |
      ⟨-, new, gone, old, rfl, hold, hs', hnotified, hr, hwork⟩
    · have hs' : Standing params c' bs := hs₁.of_eq hstorage htip
      refine hstill ?_ hnotified fun r' hr' hyes => ?_
      · rw [hs'.activeStack_eq, hs.activeStack_eq]
      · rw [hpassed r' hr' hyes, show r = false from hr]
    · refine ⟨stackOf gone, stackOf new, stackOf old, ?_, ?_, ?_, ?_, fun _ => hwork,
        fun r' hr' hyes => ?_⟩
      · rw [hs.activeStack_eq, stackOf, List.map_append]
        rfl
      · rw [hs'.activeStack_eq, stackOf, List.map_append]
        rfl
      · exact fun hnil => hold (List.map_eq_nil_iff.mp hnil)
      · rw [hnotified, heard_eq, heard_eq, stackOf, stackOf, List.map_reverse]
        rfl
      · rw [hpassed r' hr' hyes, show r = _ from hr]
        cases gone <;> rfl

end Switches

/-! ## The search over the descendants -/

section Memory

variable [ScanOrder Hash]

/-- What is remembered about a stored block is remembered about the blocks stored on top of it. -/
def ClosedOver (s : Storage) (invalid : List (Hash × String)) : Prop :=
  ∀ h ∈ rememberedHashes invalid, s.hasBlock h = true → ∀ e ∈ s.childrenOf h,
    e.hash ∈ rememberedHashes invalid

/-- How many stored blocks have a parent that is not remembered. -/
def Storage.unspread (s : Storage) (invalid : List (Hash × String)) : Nat :=
  (s.blockRows.filter fun p => !(rememberedHashes invalid).contains p.2.prevHash).length

/-- Remembering a block takes its children out of the count. -/
theorem Storage.unspread_mark {s : Storage} {invalid : List (Hash × String)} {h : Hash}
    {why : String} (hnew : h ∉ rememberedHashes invalid) :
    s.unspread (invalid ++ [(h, why)]) + (s.childrenOf h).length = s.unspread invalid := by
  have hkeys : rememberedHashes (invalid ++ [(h, why)]) = rememberedHashes invalid ++ [h] := by
    rw [rememberedHashes, List.map_append]
    rfl
  rw [unspread, hkeys, childrenOf, List.length_map]
  exact length_filter_mark (fun p : Hash × BlockRow => p.2.prevHash) _ hnew s.blockRows

theorem Blockchain.mem_invalidateFrom {s : Storage} {rounds : Nat}
    {pending invalid : List (Hash × String)} {h : Hash} (hh : h ∈ rememberedHashes invalid) :
    h ∈ rememberedHashes (invalidateFrom s rounds pending invalid) := by
  obtain ⟨added, heq, -, -⟩ :
      Continues (fun _ => True) invalid (invalidateFrom s rounds pending invalid) :=
    invalidateFrom_continues _ (fun _ _ _ _ _ => trivial) fun _ _ => trivial
  rw [heq, rememberedHashes, List.map_append]
  exact List.mem_append_left _ hh

/-- With rounds enough, the search ends with everything remembered that is built on what it started
with. -/
theorem Blockchain.invalidateFrom_closed {s : Storage} {rounds : Nat}
    {pending invalid : List (Hash × String)} (hfuel : pending.length + s.unspread invalid ≤ rounds)
    (hclosed : ∀ h ∈ rememberedHashes invalid, s.hasBlock h = true → ∀ e ∈ s.childrenOf h,
      e.hash ∈ rememberedHashes invalid ∨ e.hash ∈ rememberedHashes pending) :
    ClosedOver s (invalidateFrom s rounds pending invalid) ∧
      ∀ h ∈ rememberedHashes pending,
      h ∈ rememberedHashes (invalidateFrom s rounds pending invalid) := by
  -- on the rounds: each one takes an entry off the stack or marks one more stored block
  induction rounds generalizing pending invalid with
  | zero =>
    obtain rfl : pending = [] := List.eq_nil_of_length_eq_zero (by omega)
    exact ⟨fun h hh hstored e he => (hclosed h hh hstored e he).resolve_right List.not_mem_nil,
      fun h hh => absurd hh List.not_mem_nil⟩
  | succ rounds ih =>
    cases pending with
    | nil =>
      exact ⟨fun h hh hstored e he => (hclosed h hh hstored e he).resolve_right List.not_mem_nil,
        fun h hh => absurd hh List.not_mem_nil⟩
    | cons p pending =>
      obtain ⟨current, why⟩ := p
      rw [List.length_cons] at hfuel
      unfold invalidateFrom
      split
      · rename_i hknown
        -- marked before: its children are marked or on the stack already
        have hmem : current ∈ rememberedHashes invalid := any_remembered.mp hknown
        have hrest : ∀ h ∈ rememberedHashes invalid, s.hasBlock h = true → ∀ e ∈ s.childrenOf h,
            e.hash ∈ rememberedHashes invalid ∨ e.hash ∈ rememberedHashes pending := by
          intro h hh hstored e he
          rcases hclosed h hh hstored e he with hin | hin
          · exact .inl hin
          · rcases List.mem_cons.mp hin with heq | hin
            · exact .inl (heq ▸ hmem)
            · exact .inr hin
        obtain ⟨hdone, hpending⟩ := ih (by omega) hrest
        refine ⟨hdone, fun h hh => ?_⟩
        rcases List.mem_cons.mp hh with rfl | hh
        · exact mem_invalidateFrom hmem
        · exact hpending h hh
      · rename_i hunknown
        -- marked now: its children go on the stack
        have hnew : current ∉ rememberedHashes invalid := fun h => hunknown (any_remembered.mpr h)
        dsimp only
        rw [setInvalid_of_new hnew]
        have hkeys : rememberedHashes (invalid ++ [(current, why)]) =
            rememberedHashes invalid ++ [current] := by
          rw [rememberedHashes, List.map_append]
          rfl
        have hcount := @Storage.unspread_mark _ s invalid current why hnew
        have hstack : ∀ x, x ∈ rememberedHashes (((s.childrenOf current).map fun child =>
            (child.hash, s!"builds on an invalid block: {why}")).reverse ++ pending) ↔
            (∃ e ∈ s.childrenOf current, e.hash = x) ∨ x ∈ rememberedHashes pending := by
          intro x
          rw [rememberedHashes, List.map_append, List.mem_append, List.map_reverse,
            List.mem_reverse, List.map_map, List.mem_map]
          rfl
        have hspread : ∀ h ∈ rememberedHashes (invalid ++ [(current, why)]), s.hasBlock h = true →
            ∀ e ∈ s.childrenOf h, e.hash ∈ rememberedHashes (invalid ++ [(current, why)]) ∨
              e.hash ∈ rememberedHashes (((s.childrenOf current).map fun child =>
                (child.hash, s!"builds on an invalid block: {why}")).reverse ++ pending) := by
          intro h hh hstored e he
          rw [hkeys, List.mem_append] at hh ⊢
          rw [hstack]
          rcases hh with hh | hh
          · rcases hclosed h hh hstored e he with hin | hin
            · exact .inl (.inl hin)
            · rcases List.mem_cons.mp hin with heq | hin
              · exact .inl (.inr (List.mem_singleton.mpr heq))
              · exact .inr (.inr hin)
          · obtain rfl := List.mem_singleton.mp hh
            exact .inr (.inl ⟨e, he, rfl⟩)
        obtain ⟨hdone, hpending⟩ := ih
          (by rw [List.length_append, List.length_reverse, List.length_map]; omega) hspread
        refine ⟨hdone, fun h hh => ?_⟩
        rcases List.mem_cons.mp hh with rfl | hh
        · refine mem_invalidateFrom ?_
          rw [hkeys]
          exact List.mem_append_right _ (List.mem_singleton.mpr rfl)
        · exact hpending h ((hstack h).mpr (.inr hh))

omit [ScanOrder Hash] in
/-- Nothing is forgotten while there is room for one more hash. -/
theorem Blockchain.evictOldest_of_lt {invalid : List (Hash × String)}
    (h : invalid.length < MAX_REMEMBERED_INVALID) : evictOldest invalid = invalid := by
  have hnone : invalid.length + 1 - MAX_REMEMBERED_INVALID = 0 := by omega
  rw [evictOldest, hnone, List.drop_zero]

theorem Storage.unspread_le (s : Storage) (invalid : List (Hash × String)) :
    s.unspread invalid ≤ s.blockCount := by
  refine (List.length_filter_le _ _).trans (Nat.le_of_eq ?_)
  exact Table.length_scan s.blocks

/-- A refusal keeps the memory closed and remembers the block. -/
theorem Blockchain.invalidate_closed {c : Blockchain} {h : Hash} (reason : String)
    (hroom : c.invalid.length < MAX_REMEMBERED_INVALID) (hclosed : ClosedOver c.storage c.invalid) :
    ClosedOver c.storage (c.invalidate h reason).invalid ∧
      h ∈ rememberedHashes (c.invalidate h reason).invalid := by
  rw [c.invalidate_invalid, evictOldest_of_lt hroom]
  have hfuel : ([(h, reason)] : List (Hash × String)).length + c.storage.unspread c.invalid ≤
      c.storage.blockCount + 2 := by
    have hle := c.storage.unspread_le c.invalid
    rw [List.length_singleton]
    omega
  obtain ⟨hdone, hmem⟩ := invalidateFrom_closed hfuel
    fun x hx hstored e he => .inl (hclosed x hx hstored e he)
  exact ⟨hdone, hmem h (List.mem_singleton.mpr rfl)⟩

/-! ## What is left to try -/

/-- The stored blocks off the active chain. -/
def Storage.sideBlocks (s : Storage) : List Hash :=
  (s.blockRows.filter fun p => !p.2.inChain).map Prod.fst

theorem Storage.nodup_sideBlocks (s : Storage) : s.sideBlocks.Nodup :=
  (nodup_scan s.blocks).sublist (List.filter_sublist.map _)

theorem Storage.mem_sideBlocks {s : Storage} {h : Hash} :
    h ∈ s.sideBlocks ↔ ∃ row, s.blocks.lookup h = some row ∧ row.inChain = false := by
  constructor
  · intro hh
    obtain ⟨⟨k, row⟩, hmem, rfl⟩ := List.mem_map.mp hh
    obtain ⟨hrow, hoff⟩ := List.mem_filter.mp hmem
    exact ⟨row, (mem_scan s.blocks k row).mp hrow, by simpa using hoff⟩
  · rintro ⟨row, hrow, hoff⟩
    exact List.mem_map.mpr ⟨(h, row), List.mem_filter.mpr
      ⟨(mem_scan s.blocks h row).mpr hrow, by simp [hoff]⟩, rfl⟩

namespace Blockchain

/-- How many stored blocks off the active chain are not remembered. -/
def untried (c : Blockchain) : Nat :=
  (c.storage.sideBlocks.filter fun h => !(rememberedHashes c.invalid).contains h).length

/-- Whatever the activation may have to remember fits. -/
def Spares (c : Blockchain) : Prop := c.invalid.length + c.untried ≤ MAX_REMEMBERED_INVALID

/-- A stored block off the active chain that is not remembered leaves room for its hash. -/
theorem Spares.lt {c : Blockchain} (h : c.Spares) {k : Hash} (hside : k ∈ c.storage.sideBlocks)
    (hnew : c.isInvalid k = false) : c.invalid.length < MAX_REMEMBERED_INVALID := by
  have hpos : 0 < c.untried := by
    refine List.length_pos_of_mem (List.mem_filter.mpr ⟨hside, ?_⟩)
    rw [Bool.not_eq_true', ← Bool.not_eq_true, List.contains_iff_mem, ← isInvalid_iff, hnew]
    exact Bool.false_ne_true
  unfold Spares at h
  omega

/-- A refusal of blocks off the active chain leaves fewer to try, and room for all of them. -/
theorem Spares.invalidate {c : Blockchain} (hc : c.Spares) {h : Hash} (reason : String)
    (hside : h ∈ c.storage.sideBlocks) (hnew : ∃ k ∈ c.storage.sideBlocks, c.isInvalid k = false ∧
      (c.invalidate h reason).isInvalid k = true)
    (hchild : ∀ x ∈ c.storage.sideBlocks, ∀ e ∈ c.storage.childrenOf x,
      e.hash ∈ c.storage.sideBlocks) :
    (c.invalidate h reason).Spares ∧ (c.invalidate h reason).untried < c.untried := by
  obtain ⟨k, hk, hbefore, hafter⟩ := hnew
  have hroom := hc.lt hk hbefore
  obtain ⟨added, heq, hnodup, hadded⟩ : Continues (· ∈ c.storage.sideBlocks) c.invalid
      (invalidateFrom c.storage (c.storage.blockCount + 2) [(h, reason)] c.invalid) :=
    invalidateFrom_continues _ (fun x hx _ => hchild x hx)
      fun p hp => by rw [List.mem_singleton.mp hp]; exact hside
  have hinvalid : (c.invalidate h reason).invalid = c.invalid ++ added := by
    rw [c.invalidate_invalid, evictOldest_of_lt hroom, heq]
  have hcount :=
    length_filter_marked (rememberedHashes c.invalid) c.storage.nodup_sideBlocks hnodup hadded
  have hkeys : rememberedHashes (c.invalidate h reason).invalid =
      rememberedHashes c.invalid ++ rememberedHashes added := by
    rw [hinvalid, rememberedHashes, List.map_append]
    rfl
  have hlength : (rememberedHashes added).length = added.length := List.length_map _
  have huntried : (c.invalidate h reason).untried + added.length = c.untried := by
    rw [untried, c.invalidate_storage, hkeys, untried, ← hcount, hlength]
  have hpos : 0 < added.length := by
    rw [isInvalid_iff, hkeys, List.mem_append, ← isInvalid_iff, hbefore] at hafter
    rcases hafter with hold | hmem
    · cases hold
    · rw [← hlength]
      exact List.length_pos_of_mem hmem
  unfold Spares at hc ⊢
  rw [hinvalid, List.length_append]
  omega

end Blockchain

end Memory

/-! ## The activation comes back -/

section Returns

variable [Crypto] [ScanOrder Hash] {params : ChainParams}

/-- An unblemished chain whose memory is closed. -/
structure Attentive (params : ChainParams) (c : Blockchain) (bs : List TreeNode) : Prop where
  unblemished : Unblemished params c bs
  closed : ClosedOver c.storage c.invalid

theorem Standing.mem_sideBlocks {c : Blockchain} {bs : List TreeNode} (hs : Standing params c bs)
    {n : TreeNode} (hn : c.storage.tree n.body.hash = some n) :
    n.body.hash ∈ c.storage.sideBlocks ↔ n ∉ bs := by
  obtain ⟨row, hrow, hknown⟩ := Storage.tree_eq_some.mp hn
  have hmarked := hs.based.active.marked hrow
  rw [hknown] at hmarked
  rw [Storage.mem_sideBlocks, ← hmarked]
  constructor
  · rintro ⟨row', hrow', hoff⟩ hon
    obtain rfl := Option.some.inj (hrow.symm.trans hrow')
    rw [hoff] at hon
    cases hon
  · exact fun hoff => ⟨row, hrow, (Bool.not_eq_true _).mp hoff⟩

/-- A block stored on top of a stored block off the active chain is off it too. -/
theorem Standing.sideBlocks_child {c : Blockchain} {bs : List TreeNode} (hs : Standing params c bs)
    (hnull : c.storage.hasBlock nullHash = false) {x : Hash} (hx : x ∈ c.storage.sideBlocks)
    {e : BlockIndexEntry} (he : e ∈ c.storage.childrenOf x) : e.hash ∈ c.storage.sideBlocks := by
  obtain ⟨row, hrow, hprev⟩ := Storage.mem_childrenOf he
  obtain ⟨parent, hparent, hoff⟩ := Storage.mem_sideBlocks.mp hx
  have hne : x ≠ nullHash := by
    rintro rfl
    rw [Storage.hasBlock, hparent] at hnull
    cases hnull
  have hapart : ∀ n ∈ bs, n.body.hash ≠ x := by
    rintro n hn rfl
    have hstored : c.storage.tree n.body.hash = some n := hs.based.active.branch.stored n hn
    exact (hs.mem_sideBlocks hstored).mp hx hn
  have hnode := Storage.tree_eq_some.mpr ⟨row, hrow, rfl⟩
  have hkey : row.known.body.hash = e.hash := hs.based.tree.keyed hnode
  rw [← hkey] at hnode ⊢
  refine (hs.mem_sideBlocks hnode).mpr fun hmem => ?_
  exact hs.based.child_off hne hapart hrow hprev row.known hmem hkey

omit [Crypto] in
theorem Storage.mem_childrenOf_of_lookup {s : Storage} {h k : Hash} {row : BlockRow}
    (hrow : s.blocks.lookup k = some row) (hprev : row.body.header.prevHash = h) :
    row.entry k ∈ s.childrenOf h :=
  List.mem_map.mpr ⟨(k, row), List.mem_filter.mpr ⟨(mem_scan s.blocks k row).mpr hrow,
    beq_iff_eq.mpr hprev⟩, rfl⟩

/-- What is remembered about a block is remembered about the blocks of a branch above it. -/
theorem ClosedOver.above {c : Blockchain} (h : ClosedOver c.storage c.invalid)
    {above below : List TreeNode} {n : TreeNode}
    (hb : Branch (lineage params) c.storage.tree (above ++ n :: below))
    (hn : c.isInvalid n.body.hash = true) : ∀ m ∈ above, c.isInvalid m.body.hash = true := by
  induction above with
  | nil => exact fun m hm => absurd hm List.not_mem_nil
  | cons a above ih =>
    have hparent : ∃ p rest, above ++ n :: below = p :: rest ∧ c.isInvalid p.body.hash = true := by
      cases above with
      | nil => exact ⟨n, below, rfl, hn⟩
      | cons p above =>
        exact ⟨p, above ++ n :: below, rfl, ih hb.tail p List.mem_cons_self⟩
    obtain ⟨p, rest, hrest, hp⟩ := hparent
    rw [List.cons_append, hrest] at hb
    have hchild : c.isInvalid a.body.hash = true := by
      have hstored : c.storage.tree p.body.hash = some p := hb.tail.stored p List.mem_cons_self
      have hlink : a.body.header.prevHash = p.body.hash := hb.prev_head
      obtain ⟨row, hrow, hknown⟩ := Storage.tree_eq_some.mp (hb.stored a List.mem_cons_self)
      have hprev : row.body.header.prevHash = p.body.hash := by
        rw [← hlink, ← hknown]
        rfl
      rw [Blockchain.isInvalid_iff] at hp ⊢
      exact h p.body.hash hp (Storage.hasBlock_iff.mpr ⟨p, hstored⟩) _
        (Storage.mem_childrenOf_of_lookup hrow hprev)
    have hall := ih (hrest ▸ hb.tail)
    intro m hm
    rcases List.mem_cons.mp hm with rfl | hm
    · exact hchild
    · exact hall m hm

omit [Crypto] in
/-- A storage with the same tree is as closed. -/
theorem ClosedOver.of_tree {s s' : Storage} {invalid : List (Hash × String)}
    (h : ClosedOver s invalid) (htree : s'.tree = s.tree) : ClosedOver s' invalid := by
  intro x hx hstored e he
  obtain ⟨row', hrow', hprev⟩ := Storage.mem_childrenOf he
  have hnode := Storage.tree_eq_some.mpr ⟨row', hrow', rfl⟩
  rw [htree] at hnode
  obtain ⟨row, hrow, hknown⟩ := Storage.tree_eq_some.mp hnode
  obtain ⟨n, hn⟩ := Storage.hasBlock_iff.mp hstored
  rw [htree] at hn
  have hprev' : row.body.header.prevHash = x := by
    rw [← hprev]
    exact congrArg (fun n : TreeNode => n.body.header.prevHash) hknown
  exact h x hx (Storage.hasBlock_iff.mpr ⟨n, hn⟩) (row.entry e.hash)
    (Storage.mem_childrenOf_of_lookup hrow hprev')

/-- A round that does not end the activation switches, and the next one ends it; or it leaves fewer
blocks to try. -/
theorem activateRound_untried {c c' : Blockchain} {bs : List TreeNode} {r r' : Bool}
    (ha : Attentive params c bs) (hnull : c.storage.hasBlock nullHash = false) (hspares : c.Spares)
    (h : activateRound params ⟨c, r⟩ = .next ⟨c', r'⟩) :
    ∃ bs', Attentive params c' bs' ∧ (c'.bestCandidate = none ∨
      c'.storage = c.storage ∧ c'.Spares ∧ c'.untried < c.untried) := by
  have hs := ha.unblemished.standing
  obtain ⟨bs', -, hu, -⟩ := activateRound_unblemished ha.unblemished hnull h
  refine ⟨bs', ?_⟩
  obtain ⟨new, gone, old, t, w, hbs, hat, ⟨s, events, hswitch, rfl⟩ |
      ⟨hash, message, hfail, rfl⟩⟩ :=
    activateRound_cases hs h
  · have hmem : w ∈ new ++ old := List.mem_of_head? hat.to_top
    have hw : c.storage.tree w.body.hash = some w := hat.fork.path.stored w hmem
    have htree := switchTo_tree hswitch
    exact ⟨⟨hu, ha.closed.of_tree htree⟩, .inl (bestCandidate_switched hat.candidate hw htree)⟩
  · have hstorage := c.invalidate_storage hash message
    obtain ⟨n, hn, rfl⟩ :=
      switchTo_blames hat.fork hat.from_tip hat.to_top ha.unblemished.whole hfail
    have hside : ∀ m ∈ new, m.body.hash ∈ c.storage.sideBlocks := fun m hm =>
      (hs.mem_sideBlocks (hat.fork.path.stored m (List.mem_append_left _ hm))).mpr
        (hbs ▸ hat.fork.apart m hm)
    -- the candidate is built on the block that is blamed
    obtain ⟨above, rest, rfl⟩ := List.append_of_mem hn
    have hfirst : w = n ∨ w ∈ above := by
      have htop := hat.to_top
      cases above with
      | nil => exact .inl (Option.some.inj htop).symm
      | cons a above => exact .inr (Option.some.inj htop ▸ List.mem_cons_self)
    have hwnew : w ∈ above ++ n :: rest := by
      rcases hfirst with rfl | hw
      · exact hn
      · exact List.mem_append_left _ hw
    have hroom := hspares.lt (hside w hwnew) hat.valid
    obtain ⟨hclosed, hmem⟩ := Blockchain.invalidate_closed message hroom ha.closed
    have hclosed' : ClosedOver (c.invalidate n.body.hash message).storage
        (c.invalidate n.body.hash message).invalid := by
      rw [hstorage]
      exact hclosed
    have hwafter : (c.invalidate n.body.hash message).isInvalid w.body.hash = true := by
      have hnafter := Blockchain.isInvalid_iff.mpr hmem
      have hpath : Branch (lineage params) (c.invalidate n.body.hash message).storage.tree
          (above ++ n :: (rest ++ old)) := by
        rw [hstorage]
        have hpath := hat.fork.path
        rwa [List.append_assoc] at hpath
      rcases hfirst with rfl | hw
      · exact hnafter
      · exact hclosed'.above hpath hnafter w hw
    obtain ⟨hspares', hlt⟩ := hspares.invalidate message (hside n hn)
      ⟨w.body.hash, hside w hwnew, hat.valid, hwafter⟩ fun x hx e he =>
        hs.sideBlocks_child hnull hx he
    exact ⟨⟨hu, hclosed'⟩, .inr ⟨hstorage, hspares', hlt⟩⟩

theorem activateRound_none {c : Blockchain} {r : Bool} (h : c.bestCandidate = none) :
    activateRound params ⟨c, r⟩ = .halt (c, .ok r) := by
  unfold activateRound
  rw [h]

/-- The activation comes back within as many rounds as there are blocks left to try, and two
more. -/
theorem activation_returns {n : Nat} {c : Blockchain} {bs : List TreeNode} {r : Bool}
    (ha : Attentive params c bs) (hnull : c.storage.hasBlock nullHash = false) (hspares : c.Spares)
    (hn : c.untried ≤ n) :
    ∃ outcome, loop (activateRound params) (n + 2) ⟨c, r⟩ = some outcome := by
  induction n generalizing c bs r with
  | zero =>
    cases hround : activateRound params ⟨c, r⟩ with
    | halt outcome => exact ⟨outcome, loop_succ_halt hround⟩
    | next a =>
      obtain ⟨bs', -, hnone | ⟨-, -, hlt⟩⟩ := activateRound_untried ha hnull hspares hround
      · exact ⟨_, (loop_succ_next hround).trans (loop_succ_halt (activateRound_none hnone))⟩
      · omega
  | succ n ih =>
    cases hround : activateRound params ⟨c, r⟩ with
    | halt outcome => exact ⟨outcome, loop_succ_halt hround⟩
    | next a =>
      obtain ⟨bs', ha', hnone | ⟨hstorage, hspares', hlt⟩⟩ :=
        activateRound_untried ha hnull hspares hround
      · exact ⟨_, (loop_succ_next hround).trans (loop_succ_halt (activateRound_none hnone))⟩
      · obtain ⟨outcome, hloop⟩ :=
          ih (r := a.reorganised) ha' (hstorage ▸ hnull) hspares' (by omega)
        exact ⟨outcome, (loop_succ_next hround).trans hloop⟩

/-- A run of the activation keeps a chain attentive. -/
theorem visits_attentive {a b : Activation} {bs : List TreeNode} (ha : Attentive params a.chain bs)
    (hnull : a.chain.storage.hasBlock nullHash = false) (hspares : a.chain.Spares)
    (h : Visits (activateRound params) a b) : ∃ bs', Attentive params b.chain bs' := by
  have hinv : ∃ bs', Attentive params b.chain bs' ∧ (b.chain.bestCandidate = none ∨
      b.chain.storage = a.chain.storage ∧ b.chain.Spares) := by
    refine h.invariant (fun b => ∃ bs', Attentive params b.chain bs' ∧
      (b.chain.bestCandidate = none ∨
      b.chain.storage = a.chain.storage ∧ b.chain.Spares)) ⟨bs, ha, .inr ⟨rfl, hspares⟩⟩ ?_
    rintro ⟨c, r⟩ ⟨c', r'⟩ - ⟨bs₁, ha₁, hnone | ⟨hstorage, hspares₁⟩⟩ hnext
    · rw [activateRound_none hnone] at hnext
      cases hnext
    · obtain ⟨bs₂, ha₂, hor⟩ := activateRound_untried ha₁ (hstorage ▸ hnull) hspares₁ hnext
      exact ⟨bs₂, ha₂, hor.imp_right fun hsame => ⟨hsame.1.trans hstorage, hsame.2.1⟩⟩
  obtain ⟨bs', ha', -⟩ := hinv
  exact ⟨bs', ha'⟩

/-! ## Runs -/

/-- No body is dropped, and a block comes while the remembered hashes and the stored blocks off the
active chain leave room for it. -/
def Call.HasMemory (c : Blockchain) : Call → Prop
  | .addBlock _ _ _ => c.invalid.length + c.storage.sideBlocks.length < MAX_REMEMBERED_INVALID
  | .addHeader _ => True
  | .prune _ => False

/-- The states that such calls lead to from a new chain. -/
inductive Mindful (params : ChainParams) : Blockchain → Prop where
  | create {c : Blockchain} : Blockchain.create params = .ok c → Mindful params c
  | call {c c' : Blockchain} (op : Call) :
      Mindful params c → op.HasMemory c → op.run params c = some c' → Mindful params c'

theorem Mindful.reachable {c : Blockchain} (h : Mindful params c) : Reachable params c := by
  induction h with
  | create hc => exact .create hc
  | call op _ _ hop ih => exact .call op ih hop

/-- Storing a block keeps a chain attentive. -/
theorem Attentive.place {c : Blockchain} {bs : List TreeNode} (ha : Attentive params c bs)
    {now : Nat} {b : Block} {p : BlockRow} {work : Nat} (hplace : c.Placement params now b p work) :
    Attentive params (c.place b p work) bs := by
  have hu := ha.unblemished
  refine ⟨⟨(hplace.standing hu.standing).2, fun k => ?_, hu.active⟩, fun x hx hstored e he => ?_⟩
  · unfold Blockchain.place Storage.prunedAt
    dsimp only
    rw [Table.lookup_insert_if]
    split
    · simp
    · exact hu.whole k
  · have hinvalid : c.isInvalid x = true := Blockchain.isInvalid_iff.mpr hx
    obtain ⟨row, hrow, hprev⟩ := Storage.mem_childrenOf he
    unfold Blockchain.place at hrow hstored
    dsimp only at hrow hstored
    rw [Table.lookup_insert_if] at hrow
    split at hrow
    · -- the block itself is on top of one that is not remembered
      rw [← Option.some.inj hrow] at hprev
      have hvalid := hplace.parentValid
      rw [show b.header.prevHash = x from hprev, hinvalid] at hvalid
      cases hvalid
    · have hne : x ≠ b.hash := by
        rintro rfl
        rw [hplace.notInvalid] at hinvalid
        cases hinvalid
      unfold Storage.hasBlock at hstored
      dsimp only at hstored
      rw [Table.lookup_insert_if, if_neg hne] at hstored
      exact ha.closed x hx hstored (row.entry e.hash) (Storage.mem_childrenOf_of_lookup hrow hprev)

omit [Crypto] in
theorem Blockchain.untried_le (c : Blockchain) : c.untried ≤ c.storage.sideBlocks.length :=
  List.length_filter_le _ _

theorem Blockchain.Placement.length_sideBlocks {now : Nat} {c : Blockchain} {b : Block}
    {p : BlockRow} {work : Nat} (hplace : c.Placement params now b p work) :
    (c.place b p work).storage.sideBlocks.length = c.storage.sideBlocks.length + 1 := by
  have hnew : b.hash ∉ c.storage.sideBlocks := by
    intro hmem
    obtain ⟨row, hrow, -⟩ := Storage.mem_sideBlocks.mp hmem
    rw [hplace.unknown] at hrow
    cases hrow
  have hperm : (c.place b p work).storage.sideBlocks.Perm (b.hash :: c.storage.sideBlocks) := by
    refine (List.perm_ext_iff_of_nodup (Storage.nodup_sideBlocks _)
      (List.nodup_cons.mpr ⟨hnew, c.storage.nodup_sideBlocks⟩)).mpr fun k => ?_
    rw [List.mem_cons, Storage.mem_sideBlocks, Storage.mem_sideBlocks]
    unfold Blockchain.place
    dsimp only
    rw [Table.lookup_insert_if]
    by_cases hk : k = b.hash
    · rw [if_pos hk]
      exact iff_of_true ⟨_, rfl, rfl⟩ (.inl hk)
    · rw [if_neg hk, or_iff_right hk]
  rw [hperm.length_eq, List.length_cons]

theorem Blockchain.Placement.spares {now : Nat} {c : Blockchain} {b : Block} {p : BlockRow}
    {work : Nat} (hplace : c.Placement params now b p work)
    (hmemory : c.invalid.length + c.storage.sideBlocks.length < MAX_REMEMBERED_INVALID) :
    (c.place b p work).Spares := by
  have hle := (c.place b p work).untried_le
  rw [hplace.length_sideBlocks] at hle
  unfold Spares
  rw [show (c.place b p work).invalid = c.invalid from rfl]
  omega

omit [ScanOrder Hash] in
theorem Blockchain.Placement.null {c : Blockchain} {b : Block} {p : BlockRow} {work : Nat}
    (hnull : c.storage.hasBlock nullHash = false) (hb : b.hash ≠ nullHash) :
    (c.place b p work).storage.hasBlock nullHash = false := by
  unfold Blockchain.place Storage.hasBlock
  dsimp only
  rw [Table.lookup_insert_if, if_neg hb.symm]
  exact hnull

/-- A new chain is attentive. -/
theorem Blockchain.create_attentive {c : Blockchain} (h : Blockchain.create params = .ok c) :
    ∃ bs, Attentive params c bs := by
  obtain ⟨g, hg, hs, hinvalid⟩ := Blockchain.create_standing h
  refine ⟨[g], ⟨hs, fun k => ?_, fun n _ => ?_⟩, fun x hx => ?_⟩
  · unfold Storage.prunedAt
    rw [show c.storage.blocks = _ from hg.blocks, Table.lookup_insert_if]
    split <;> simp
  · unfold Blockchain.isInvalid
    rw [hinvalid]
    rfl
  · rw [hinvalid] at hx
    cases hx

/-- A call within memory keeps a chain attentive. -/
theorem Call.run_attentive {c c' : Blockchain} {op : Call} {bs : List TreeNode}
    (ha : Attentive params c bs) (hmemory : op.HasMemory c)
    (hnull : c'.storage.hasBlock nullHash = false)
    (h : op.run params c = some c') : ∃ bs', Attentive params c' bs' := by
  have hs := ha.unblemished.standing
  cases op with
  | addBlock rounds now b =>
    obtain ⟨⟨c₁, answer⟩, hadd, rfl⟩ := Option.map_eq_some_iff.mp h
    obtain ⟨bs', -, hu, -⟩ := addBlock_unblemished ha.unblemished hnull hadd
    rcases Blockchain.addBlock_cases hadd with ⟨e, -, rfl, -⟩ | ⟨r, haccept, -⟩ |
      ⟨p, work, r, outcome, hplace, hvisits, -, -⟩
    · exact ⟨bs, ha⟩
    · rcases Blockchain.admitBlock_remembers haccept with rfl | ⟨hunknown, reason, rfl⟩
      · exact ⟨bs, ha⟩
      · refine ⟨bs', hu, fun x hx hstored e he => ?_⟩
        have hne : x ≠ b.hash := by
          rintro rfl
          rw [show c.storage.hasBlock b.hash = true from hstored] at hunknown
          cases hunknown
        have hold := (Blockchain.mem_setInvalid.mp hx).resolve_right hne
        exact Blockchain.mem_setInvalid.mpr (.inl (ha.closed x hold hstored e he))
    · have hnull₁ : (c.place b p work).storage.hasBlock nullHash = false := by
        obtain ⟨-, hs₁⟩ := hplace.standing hs
        obtain ⟨bs₁, htrace, -⟩ := visits_standing hs₁ hvisits
        exact hasBlock_of_trace htrace hnull
      exact visits_attentive (ha.place hplace) hnull₁ (hplace.spares hmemory) hvisits
  | addHeader header =>
    rcases Call.run_addHeader h with rfl | ⟨p, work, rfl⟩
    · exact ⟨bs, ha⟩
    · exact ⟨bs,
        ⟨(Blockchain.placeHeader_standing hs).2, ha.unblemished.whole, ha.unblemished.active⟩,
        ha.closed⟩
  | prune keepBlocks => exact hmemory.elim

theorem Mindful.attentive {c : Blockchain} (h : Mindful params c)
    (hnull : c.storage.hasBlock nullHash = false) : ∃ bs, Attentive params c bs := by
  induction h with
  | create hc => exact Blockchain.create_attentive hc
  | call op hmindful hmemory hop ih =>
    obtain ⟨_, _, bs, -, -, hs⟩ := hmindful.reachable.run
    obtain ⟨bs', htrace, -⟩ := Call.run_standing hs hop
    obtain ⟨bs₁, ha⟩ := ih (hasBlock_of_trace htrace hnull)
    exact Call.run_attentive ha hmemory hnull hop

/-- **Submitting a block comes back.** In every run that drops no body and has room for what may
have to be remembered, the activation after any block ends within a number of rounds that is bounded
by the number of stored blocks off the active chain. -/
theorem Mindful.addBlock_returns {c : Blockchain} (h : Mindful params c) {rounds now : Nat}
    {b : Block}
    (hmemory : (Call.addBlock rounds now b).HasMemory c)
    (hnull : c.storage.hasBlock nullHash = false)
    (hb : b.hash ≠ nullHash) (hrounds : c.storage.sideBlocks.length + 3 ≤ rounds) :
    (c.addBlock params rounds now b).isSome = true := by
  obtain ⟨bs, ha⟩ := h.attentive hnull
  unfold Blockchain.addBlock
  split
  · rfl
  · rfl
  · rename_i c₁ height haccept
    obtain ⟨p, work, hplace, rfl, rfl⟩ := Blockchain.admitBlock_eq_stored.mp haccept
    have hle := (c.place b p work).untried_le
    rw [hplace.length_sideBlocks] at hle
    obtain ⟨outcome, hloop⟩ := activation_returns (r := false) (ha.place hplace)
      (Blockchain.Placement.null hnull hb) (hplace.spares hmemory) hle
    rw [loop_mono hloop (by omega)]
    rfl

end Returns

/-! ## Instances -/

section Instances

attribute [local instance] Sample.crypto Sample.order

/-- The regtest chain that calls lead to if a check lets all of them through. -/
def Sample.checkedAfter (check : Blockchain → Call → Bool) (ops : List Call) : Option Blockchain :=
  (Blockchain.create REGTEST).toOption.bind fun start =>
    ops.foldlM (fun c op => if check c op then op.run REGTEST c else none) start

theorem Sample.checkedAfter_runs {Q : Blockchain → Prop} {check : Blockchain → Call → Bool}
    (hcreate : ∀ c, Blockchain.create REGTEST = .ok c → Q c)
    (hcall : ∀ c c' op, Q c → check c op = true → op.run REGTEST c = some c' → Q c')
    {ops : List Call} {c : Blockchain} (h : Sample.checkedAfter check ops = some c) : Q c := by
  obtain ⟨start, hstart, hops⟩ := Option.bind_eq_some_iff.mp h
  have hq := hcreate start (toOption_eq_some.mp hstart)
  clear hstart h
  induction ops generalizing start with
  | nil =>
    obtain rfl := Option.some.inj hops
    exact hq
  | cons op ops ih =>
    rw [List.foldlM_cons] at hops
    obtain ⟨c₁, hop, hrest⟩ := Option.bind_eq_some_iff.mp hops
    split at hop
    · rename_i hcheck
      exact ih c₁ hrest (hcall start c₁ op hq hcheck hop)
    · cases hop

/-- The third block of a side branch makes it the active chain. -/
theorem addBlock_switches_once_overtaking : ∃ c c' r, Sample.chainAfter Sample.forked = some c ∧
    c.addBlock REGTEST 100 1700001022
      (Sample.regtestBlock (Sample.regtestBlock Sample.genesisHash 1 1).hash 2 1) =
      some (c', .ok r) ∧
    r.reorganised = true ∧ ∃ gone new old, c.activeStack = gone ++ old ∧
      c'.activeStack = new ++ old ∧ old ≠ [] ∧
      c'.notified = c.notified ++ gone.map (told .disconnect) ++ new.reverse.map (told .connect) ∧
      (gone ++ new ≠ [] → c.tip.chainwork < c'.tip.chainwork) ∧
      (r.accepted = true → r.reorganised = !gone.isEmpty) := by
  have hrun : ((Sample.chainAfter Sample.forked).any fun c =>
      (c.addBlock REGTEST 100 1700001022
        (Sample.regtestBlock (Sample.regtestBlock Sample.genesisHash 1 1).hash 2 1)).any fun p =>
          p.2.toOption.any fun r => r.reorganised) = true := by
    decide +kernel
  obtain ⟨c, hc, h⟩ := (Option.any_eq_true _ _).mp hrun
  obtain ⟨⟨c', answer⟩, hadd, h⟩ := (Option.any_eq_true _ _).mp h
  obtain ⟨r, hr, hreorganised⟩ := (Option.any_eq_true _ _).mp h
  obtain rfl : answer = .ok r := toOption_eq_some.mp hr
  obtain ⟨gone, new, old, hbefore, hafter, hold, htold, hwork, hflag⟩ :=
    (Sample.chainAfter_reachable hc).addBlock_switches_once hadd
  exact ⟨c, c', r, hc, hadd, hreorganised, gone, new, old, hbefore, hafter, hold, htold, hwork,
    hflag r rfl⟩

/-- The chain keeps every body and has room in its memory for the block that comes. -/
def Sample.hasMemory (c : Blockchain) : Call → Bool
  | .addBlock _ _ _ =>
      decide (c.invalid.length + c.storage.sideBlocks.length < MAX_REMEMBERED_INVALID)
  | .addHeader _ => true
  | .prune _ => false

/-- A block that mints too much, stored before the block that replaces it. -/
def Sample.refused : List Call :=
  [Sample.submit greedyBlock, Sample.submit (Sample.regtestBlock Sample.genesisHash 1 0)]

theorem addBlock_returns_refused :
    ∃ c, Sample.checkedAfter Sample.hasMemory Sample.refused = some c ∧
    (c.addBlock REGTEST 5 1700001022
      (Sample.regtestBlock (Sample.regtestBlock Sample.genesisHash 1 0).hash 2 0)).isSome =
      true := by
  have hrun : ((Sample.checkedAfter Sample.hasMemory Sample.refused).any fun c =>
      decide (c.storage.hasBlock nullHash = false ∧ c.storage.sideBlocks.length = 1 ∧
        c.invalid.length = 1 ∧
        (Sample.regtestBlock (Sample.regtestBlock Sample.genesisHash 1 0).hash 2 0).hash ≠
        nullHash)) =
      true := by
    decide +kernel
  obtain ⟨c, hc, h⟩ := (Option.any_eq_true _ _).mp hrun
  obtain ⟨hnull, hside, hinvalid, hb⟩ := of_decide_eq_true h
  have hmindful : Mindful REGTEST c := by
    refine Sample.checkedAfter_runs (fun c hc => .create hc) (fun c c' op hm hcheck hop => ?_) hc
    refine .call op hm ?_ hop
    cases op with
    | addBlock rounds now b =>
      have hroom := of_decide_eq_true hcheck
      exact hroom
    | addHeader header => trivial
    | prune keepBlocks => exact absurd hcheck Bool.false_ne_true
  refine ⟨c, hc, hmindful.addBlock_returns ?_ hnull hb (by omega)⟩
  show c.invalid.length + c.storage.sideBlocks.length < MAX_REMEMBERED_INVALID
  rw [hside, hinvalid]
  decide

end Instances

end ScarletCoin
