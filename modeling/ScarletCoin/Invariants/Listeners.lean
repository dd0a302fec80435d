import ScarletCoin.Invariants.Unspent

/-!
# What listeners see

A listener that keeps a stack of blocks can check every event it hears: a disconnected block must be
the top of the stack, at its height, and a connected block must continue the top at the next height
(`follow`). From any reachable chain on, a stack that starts as the active chain follows all events
of any calls, and after each call it is the active chain (`Reachable.followed`). A switch tells of
the blocks it disconnects, from the tip down, and then of those it connects, from the fork up, and
only once it has succeeded.
-/

set_option autoImplicit false

namespace ScarletCoin

open Toolkit

section Listeners

variable [Crypto]

/-! ## A listener -/

/-- A stack of blocks with their heights, after an event. -/
def follow : List (Block × Nat) → Event → Option (List (Block × Nat))
  | [], _ => none
  | top :: below, ⟨.disconnect, block, height⟩ =>
      if block = top.1 ∧ height = top.2 then some below else none
  | top :: below, ⟨.connect, block, height⟩ =>
      if block.header.prevHash = top.1.hash ∧ height = top.2 + 1 then
        some ((block, height) :: top :: below)
      else none

/-- The stack of a branch. -/
def stackOf (bs : List TreeNode) : List (Block × Nat) := bs.map fun n => (n.body, n.height)

/-- The active chain as a stack, the tip on top. -/
def Blockchain.activeStack [ScanOrder Hash] (c : Blockchain) : List (Block × Nat) :=
  stackOf c.storage.activeNodes.reverse

theorem Standing.activeStack_eq [ScanOrder Hash] {params : ChainParams} {c : Blockchain}
    {bs : List TreeNode} (hs : Standing params c bs) : c.activeStack = stackOf bs := by
  rw [Blockchain.activeStack, hs.based.activeNodes_eq, List.reverse_reverse]

/-! ## The events of a switch -/

/-- The events of the blocks above a fork take a stack down to it. -/
theorem follow_disconnects (gone old : List TreeNode) :
    (heard .disconnect gone).foldlM follow (stackOf (gone ++ old)) = some (stackOf old) := by
  induction gone with
  | nil => rfl
  | cons n gone ih =>
    have hpop : follow (stackOf (n :: gone ++ old)) ⟨.disconnect, n.body, n.height⟩ =
        some (stackOf (gone ++ old)) := if_pos ⟨rfl, rfl⟩
    show (heard .disconnect (n :: gone)).foldlM follow _ = _
    rw [heard, List.map_cons, List.foldlM_cons, hpop]
    exact ih

/-- The events of blocks stacked on a node put them on top of it. -/
theorem follow_connects {ns rest : List TreeNode} {o : TreeNode} (h : Stacked o ns) :
    (heard .connect ns).foldlM follow (stackOf (o :: rest)) =
      some (stackOf (ns.reverse ++ o :: rest)) := by
  induction ns generalizing o rest with
  | nil => rfl
  | cons n ns ih =>
    obtain ⟨hprev, hheight, hrest⟩ := h
    have hpush : follow (stackOf (o :: rest)) ⟨.connect, n.body, n.height⟩ =
        some (stackOf (n :: o :: rest)) := if_pos ⟨hprev, hheight⟩
    rw [heard, List.map_cons, List.foldlM_cons, hpush, List.reverse_cons, List.append_assoc]
    exact ih hrest

/-! ## Runs -/

/-- The events between two chains take the stack of the one to the stack of the other. -/
def Followed (c : Blockchain) (bs : List TreeNode) (c' : Blockchain) (bs' : List TreeNode) : Prop :=
  ∃ events, c'.notified = c.notified ++ events ∧
    events.foldlM follow (stackOf bs) = some (stackOf bs')

theorem Followed.of_eq {c c' : Blockchain} {bs : List TreeNode} (h : c'.notified = c.notified) :
    Followed c bs c' bs :=
  ⟨[], by rw [h, List.append_nil], rfl⟩

theorem Followed.trans {c₁ c₂ c₃ : Blockchain} {bs₁ bs₂ bs₃ : List TreeNode}
    (h : Followed c₁ bs₁ c₂ bs₂) (h' : Followed c₂ bs₂ c₃ bs₃) : Followed c₁ bs₁ c₃ bs₃ := by
  obtain ⟨events, hnotified, hfold⟩ := h
  obtain ⟨events', hnotified', hfold'⟩ := h'
  refine ⟨events ++ events', by rw [hnotified', hnotified, List.append_assoc], ?_⟩
  rw [List.foldlM_append, hfold]
  exact hfold'

variable [ScanOrder Hash] {params : ChainParams}

/-- A round of the activation is followed: a switch that fails is not heard of. -/
theorem activateRound_followed {c c' : Blockchain} {bs : List TreeNode} {r r' : Bool}
    (hs : Standing params c bs) (h : activateRound params ⟨c, r⟩ = .next ⟨c', r'⟩) :
    ∃ bs', Standing params c' bs' ∧ Followed c bs c' bs' := by
  obtain ⟨new, gone, old, t, w, rfl, ha, ⟨s, events, hswitch, rfl⟩ | ⟨hash, message, -, rfl⟩⟩ :=
    activateRound_cases hs h
  · obtain ⟨htrace, -, hpoint⟩ := switchTo_trace ha.fork ha.from_tip ha.to_top hswitch
    obtain ⟨-, -, -, -, -, -, hevents⟩ := switchTo_parts ha.fork ha.from_tip ha.to_top hswitch
    obtain ⟨rest, hrest⟩ := List.head?_eq_some_iff.mp ha.to_top
    refine ⟨new ++ old, ⟨htrace.based hs.based, w, rest, hrest, rfl, hpoint⟩, events, rfl, ?_⟩
    obtain ⟨-, hpath, hold, -⟩ := ha.fork
    obtain ⟨o, below, rfl⟩ := List.exists_cons_of_ne_nil hold
    have hconnects : (heard .connect new.reverse).foldlM follow (stackOf (o :: below)) =
        some (stackOf (new.reverse.reverse ++ o :: below)) := follow_connects (Branch.stacked hpath)
    rw [List.reverse_reverse] at hconnects
    rw [hevents, List.foldlM_append, follow_disconnects]
    exact hconnects
  · exact ⟨gone ++ old,
      hs.of_eq (c.invalidate_storage hash message) (c.invalidate_tip hash message),
      .of_eq (c.invalidate_notified hash message)⟩

/-- A submitted block is followed, through all the switches that it leads to. -/
theorem addBlock_followed {rounds now : Nat} {c c' : Blockchain} {b : Block} {bs : List TreeNode}
    {answer : Except PyError AddBlockResult} (hs : Standing params c bs)
    (h : c.addBlock params rounds now b = some (c', answer)) :
    ∃ bs', Standing params c' bs' ∧ Followed c bs c' bs' := by
  rcases Blockchain.addBlock_cases h with ⟨e, -, rfl, -⟩ | ⟨r, haccept, -⟩ |
    ⟨p, work, r, outcome, hplace, hvisits, -, -⟩
  · exact ⟨bs, hs, .of_eq rfl⟩
  · rcases Blockchain.admitBlock_answered haccept with rfl | ⟨reason, rfl⟩
    · exact ⟨bs, hs, .of_eq rfl⟩
    · exact ⟨bs, hs.of_eq rfl rfl, .of_eq rfl⟩
  · obtain ⟨-, hs₁⟩ := hplace.standing hs
    refine hvisits.invariant (fun a => ∃ bs', Standing params a.chain bs' ∧
      Followed c bs a.chain bs') ⟨bs, hs₁, .of_eq rfl⟩ ?_
    rintro ⟨c₁, r₁⟩ ⟨c₂, r₂⟩ - ⟨bs₁, hs₁, hfollow₁⟩ hnext
    obtain ⟨bs₂, hs₂, hfollow₂⟩ := activateRound_followed hs₁ hnext
    exact ⟨bs₂, hs₂, hfollow₁.trans hfollow₂⟩

/-- Every call is followed. -/
theorem Call.run_followed {c c' : Blockchain} {op : Call} {bs : List TreeNode}
    (hs : Standing params c bs) (h : op.run params c = some c') :
    ∃ bs', Standing params c' bs' ∧ Followed c bs c' bs' := by
  cases op with
  | addBlock rounds now b =>
    obtain ⟨⟨c₁, answer⟩, hadd, rfl⟩ := Option.map_eq_some_iff.mp h
    exact addBlock_followed hs hadd
  | addHeader header =>
    rcases Call.run_addHeader h with rfl | ⟨p, work, rfl⟩
    · exact ⟨bs, hs, .of_eq rfl⟩
    · exact ⟨bs, (Blockchain.placeHeader_standing hs).2, .of_eq rfl⟩
  | prune keepBlocks =>
    obtain rfl := Option.some.inj h
    refine ⟨bs, (prune_standing hs).2, .of_eq ?_⟩
    unfold Blockchain.prune
    dsimp only
    split <;> rfl

/-- **Listeners see exactly the active chain**: from any reachable chain on, a stack that starts as
the active chain follows every event of any calls, and after them it is the active chain. -/
theorem Reachable.followed {c c' : Blockchain} (h : Reachable params c) {ops : List Call}
    (hops : runCalls params c ops = some c') :
    ∃ events, c'.notified = c.notified ++ events ∧
      events.foldlM follow c.activeStack = some c'.activeStack := by
  have hrun : ∀ (ops : List Call) (c : Blockchain) (bs : List TreeNode), Standing params c bs →
      runCalls params c ops = some c' →
      ∃ bs', Standing params c' bs' ∧ Followed c bs c' bs' := by
    intro ops
    induction ops with
    | nil =>
      intro c bs hs hops
      obtain rfl := Option.some.inj hops
      exact ⟨bs, hs, .of_eq rfl⟩
    | cons op ops ih =>
      intro c bs hs hops
      obtain ⟨c₁, hop, hrest⟩ := Option.bind_eq_some_iff.mp hops
      obtain ⟨bs₁, hs₁, hfollow₁⟩ := Call.run_followed hs hop
      obtain ⟨bs₂, hs₂, hfollow₂⟩ := ih c₁ bs₁ hs₁ hrest
      exact ⟨bs₂, hs₂, hfollow₁.trans hfollow₂⟩
  obtain ⟨_, _, bs, -, -, hs⟩ := h.run
  obtain ⟨bs', hs', events, hnotified, hfold⟩ := hrun ops c bs hs hops
  rw [hs.activeStack_eq, hs'.activeStack_eq]
  exact ⟨events, hnotified, hfold⟩

end Listeners

section Instances

attribute [local instance] Sample.crypto Sample.order

/-- It holds of a chain that a side branch takes over: two blocks are disconnected, and three
connected. -/
theorem followed_overtaken : ∃ c c' events, Blockchain.create REGTEST = .ok c ∧
    runCalls REGTEST c Sample.overtaken = some c' ∧ c'.notified = c.notified ++ events ∧
      events.map Event.kind = [.connect, .connect, .disconnect, .disconnect, .connect, .connect,
        .connect] ∧
      events.foldlM follow c.activeStack = some c'.activeStack := by
  have hrun : ((Sample.chainAfter Sample.overtaken).any fun c =>
      decide (c.notified.map Event.kind = [.connect, .connect, .disconnect, .disconnect, .connect,
        .connect, .connect])) = true := by decide +kernel
  obtain ⟨c', hc', h⟩ := (Option.any_eq_true _ _).mp hrun
  obtain ⟨c, hc, hops⟩ := Sample.chainAfter_start hc'
  obtain ⟨events, hnotified, hfold⟩ := Reachable.followed (.create hc) hops
  have hnone : c.notified = [] := by
    obtain ⟨_, _, _, _, _, _, _, _, _, _, rfl⟩ := Blockchain.create_eq_ok hc
    rfl
  have hevents : c'.notified = events := by rw [hnotified, hnone, List.nil_append]
  have hkinds := of_decide_eq_true h
  rw [hevents] at hkinds
  exact ⟨c, c', events, hc, hops, hnotified, hkinds, hfold⟩

end Instances

end ScarletCoin
