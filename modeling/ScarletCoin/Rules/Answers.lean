import ScarletCoin.Rules.Admission
import ScarletCoin.Rules.Failures

/-!
# What the answers say

`add_block` answers `ORPHAN` exactly for want of the parent and `PREMATURE` only for a block on a
stored parent whose timestamp is beyond the clock (`Blockchain.admitBlock_status`). No computation
of the required bits raises an exception of the validation, so `PrematureBlockError` comes from the
clock alone (`checkContext_premature`).
-/

set_option autoImplicit false

namespace ScarletCoin

open Toolkit

/-! ## Required bits -/

theorem bitsToTarget_quiet {bits : Nat} {e : PyError} (h : bitsToTarget bits = .error e) :
    e.Quiet := by
  rcases raiseIf_bind_eq_error.mp h with ⟨-, rfl⟩ | ⟨-, h⟩
  · rfl
  rcases raiseIf_bind_eq_error.mp h with ⟨-, rfl⟩ | ⟨-, h⟩
  · rfl
  dsimp only at h
  split at h
  · cases h
  split at h
  · cases h
  rcases raiseIf_bind_eq_error.mp h with ⟨-, rfl⟩ | ⟨-, h⟩
  · rfl
  rcases raiseIf_bind_eq_error.mp h with ⟨-, rfl⟩ | ⟨-, h⟩
  · rfl
  · cases h

theorem nextBits_quiet {currentBits targetTimespan powLimit maxAdjustmentFactor : Nat}
    {actualTimespan : Int} {e : PyError}
    (h : nextBits currentBits actualTimespan targetTimespan powLimit maxAdjustmentFactor =
      .error e) :
    e.Quiet := by
  rcases raiseIf_bind_eq_error.mp h with ⟨-, rfl⟩ | ⟨-, h⟩
  · rfl
  rcases bind_eq_error.mp h with h | ⟨target, -, h⟩
  · exact bitsToTarget_quiet h
  · cases h

theorem bitsFromWork_quiet {work elapsed : Int}
    {targetSpacing powLimit parentBits maxAdjustmentFactor : Nat} {e : PyError}
    (h : bitsFromWork work elapsed targetSpacing powLimit parentBits maxAdjustmentFactor =
      .error e) :
    e.Quiet := by
  unfold bitsFromWork at h
  split at h
  · cases h
  rcases bind_eq_error.mp h with h | ⟨target, -, h⟩
  · exact bitsToTarget_quiet h
  · cases h

section Walks

variable [ScanOrder Hash] {s : Storage}

theorem ancestorWalk_quiet {height rounds : Nat} {walker : BlockIndexEntry} {e : PyError}
    (h : ancestorWalk s height rounds walker = .error e) : e.Quiet := by
  induction rounds generalizing walker with
  | zero =>
    unfold ancestorWalk at h
    split at h
    · cases h
    split at h
    · cases h
    · exact Except.error.inj h ▸ rfl
  | succ rounds ih =>
    unfold ancestorWalk at h
    split at h
    · cases h
    split at h
    · cases h
    dsimp only at h
    split at h
    · cases h
    · exact ih h

theorem ancestorAt_quiet {entry : BlockIndexEntry} {height : Int} {e : PyError}
    (h : ancestorAt s entry height = .error e) : e.Quiet := by
  unfold ancestorAt at h
  split at h
  · cases h
  split at h
  · cases h
  · exact ancestorWalk_quiet h

theorem windowStart_quiet {cutoff : Int} {rounds : Nat} {start : BlockIndexEntry} {e : PyError}
    (h : windowStart s cutoff rounds start = .error e) : e.Quiet := by
  induction rounds generalizing start with
  | zero =>
    unfold windowStart at h
    split at h
    · cases h
    · exact Except.error.inj h ▸ rfl
  | succ rounds ih =>
    unfold windowStart at h
    split at h
    · cases h
    dsimp only at h
    rcases bind_eq_error.mp h with h | ⟨prev, -, h⟩
    · exact ancestorAt_quiet h
    cases prev with
    | none => cases h
    | some prev =>
      dsimp only at h
      split at h
      · cases h
      · exact ih h

theorem nextBitsFromWork_quiet {params : ChainParams} {parent : BlockIndexEntry}
    {childTimestamp : Nat}
    {e : PyError} (h : nextBitsFromWork params s parent childTimestamp = .error e) : e.Quiet := by
  rcases bind_eq_error.mp h with h | ⟨⟨work, elapsed⟩, -, h⟩
  · rcases bind_eq_error.mp h with h | ⟨start, -, h⟩
    · exact windowStart_quiet h
    rcases bind_eq_error.mp h with h | ⟨before, -, h⟩
    · exact ancestorAt_quiet h
    · cases h
  · exact bitsFromWork_quiet h

theorem nextBitsTimeRatio_quiet {params : ChainParams} {parent : BlockIndexEntry}
    {height childTimestamp : Nat} {e : PyError}
    (h : nextBitsTimeRatio params s parent height childTimestamp = .error e) : e.Quiet := by
  rcases bind_eq_error.mp h with h | ⟨first, -, h⟩
  · exact ancestorAt_quiet h
  cases first with
  | none => cases h
  | some first => exact nextBits_quiet h

/-- What the required bits raise is no `ValidationError`. -/
theorem nextBitsAfter_quiet {params : ChainParams} {parent : BlockIndexEntry} {childTimestamp : Nat}
    {e : PyError} (h : nextBitsAfter params s parent childTimestamp = .error e) : e.Quiet := by
  unfold nextBitsAfter at h
  dsimp only at h
  split at h
  · split at h
    · cases h
    rcases bind_eq_error.mp h with h | ⟨first, -, h⟩
    · exact ancestorAt_quiet h
    cases first with
    | none => cases h
    | some first => exact nextBits_quiet h
  split at h
  · cases h
  split at h
  · exact nextBitsTimeRatio_quiet h
  · exact nextBitsFromWork_quiet h

/-! ## Answers -/

/-- The timestamp of a block is beyond what a clock allows. -/
def Block.AheadOf (params : ChainParams) (now : Nat) (b : Block) : Prop :=
  now + params.maxFutureTime < b.header.timestamp.toNat

instance (params : ChainParams) (now : Nat) (b : Block) : Decidable (b.AheadOf params now) :=
  inferInstanceAs (Decidable (_ < _))

/-- The context check raises `PrematureBlockError` for a block that is ahead of the clock. -/
theorem checkContext_premature {params : ChainParams} {now : Nat} {b : Block}
    {parent : BlockIndexEntry} {height : Nat} {message : String}
    (h : checkContext params s now b parent height = .error (.prematureBlock message)) :
    b.AheadOf params now := by
  rcases bind_eq_error.mp h with h | ⟨expected, -, h⟩
  · exact absurd (nextBitsAfter_quiet h) Bool.noConfusion
  rcases raiseIf_bind_eq_error.mp h with ⟨-, h⟩ | ⟨-, h⟩
  · cases h
  rcases raiseIf_bind_eq_error.mp h with ⟨-, h⟩ | ⟨-, h⟩
  · cases h
  rcases raiseIf_bind_eq_error.mp h with ⟨hahead, -⟩ | ⟨-, h⟩
  · exact hahead
  rcases bind_eq_error.mp h with h | ⟨claimed, -, h⟩
  · obtain ⟨e, he, hcaught⟩ := rescue_eq_error.mp h
    rcases bind_eq_error.mp he with hcoinbase | ⟨coinbase, -, hheight⟩
    · unfold Block.coinbase at hcoinbase
      split at hcoinbase
      · obtain rfl := Except.error.inj hcoinbase
        simp at hcaught
      · cases hcoinbase
    · rcases raiseIf_bind_eq_error.mp hheight with ⟨-, rfl⟩ | ⟨-, hheight⟩
      · simp at hcaught
      rcases raiseIf_bind_eq_error.mp hheight with ⟨-, rfl⟩ | ⟨-, hheight⟩
      · simp at hcaught
      · cases hheight
  · obtain ⟨-, h⟩ := raiseIf_eq_error.mp h
    cases h

end Walks

variable [Crypto] [ScanOrder Hash]

namespace Blockchain

/-- What a status says about the block that was answered. -/
def Tells (params : ChainParams) (now : Nat) (c : Blockchain) (b : Block) : BlockStatus → Prop
  | .orphan => c.storage.getEntry b.header.prevHash = none
  | .premature => (c.storage.getEntry b.header.prevHash).isSome = true ∧ b.AheadOf params now
  | .connected | .sideBranch | .duplicate | .invalid => True

omit [ScanOrder Hash] in
theorem storeBlock_status {params : ChainParams} {c c' : Blockchain} {b : Block}
    {parent : BlockIndexEntry} {height : Nat} {r : AddBlockResult}
    (h : storeBlock params c b parent height = .ok (.answered c' r)) : r.status = .invalid := by
  unfold storeBlock at h
  split at h
  · split at h
    · injection Except.ok.inj h with _ hr
      exact hr ▸ rfl
    · cases h
  · obtain ⟨work, -, hrest⟩ := bind_eq_ok.mp h
    obtain ⟨⟨s, entry⟩, -, hpure⟩ := bind_eq_ok.mp hrest
    cases pure_eq_ok.mp hpure

theorem judgeBlock_status {params : ChainParams} {now : Nat} {c c' : Blockchain} {b : Block}
    {parent : BlockIndexEntry} {height : Nat} {r : AddBlockResult}
    (h : judgeBlock params now c b parent height = .ok (.answered c' r)) :
    r.status = .invalid ∨ (r.status = .premature ∧ b.AheadOf params now) := by
  unfold judgeBlock at h
  split at h
  · injection Except.ok.inj h with _ hr
    exact .inl (hr ▸ rfl)
  split at h
  · injection Except.ok.inj h with _ hr
    exact .inl (hr ▸ rfl)
  split at h
  · rename_i hcontext
    injection Except.ok.inj h with _ hr
    exact .inr ⟨hr ▸ rfl, checkContext_premature hcontext⟩
  · split at h
    · injection Except.ok.inj h with _ hr
      exact .inl (hr ▸ rfl)
    · cases h
  · exact .inl (storeBlock_status h)

/-- What is answered without storing the block. -/
theorem admitBlock_status {params : ChainParams} {now : Nat} {c c' : Blockchain} {b : Block}
    {r : AddBlockResult} (h : c.admitBlock params now b = .ok (.answered c' r)) :
    c.Tells params now b r.status := by
  unfold admitBlock at h
  split at h
  · injection Except.ok.inj h with _ hr
    exact hr ▸ trivial
  split at h
  · injection Except.ok.inj h with _ hr
    exact hr ▸ trivial
  split at h
  · rename_i hparent
    injection Except.ok.inj h with _ hr
    exact hr ▸ hparent
  · rename_i parent hparent
    dsimp only at h
    split at h
    · injection Except.ok.inj h with _ hr
      exact hr ▸ trivial
    split at h
    · injection Except.ok.inj h with _ hr
      exact hr ▸ trivial
    · injection Except.ok.inj h with _ hr
      exact hr ▸ trivial
    · cases h
    · rcases judgeBlock_status h with hstatus | ⟨hstatus, hahead⟩
      · exact hstatus ▸ trivial
      · rw [hstatus]
        exact ⟨hparent ▸ rfl, hahead⟩

/-- The answers of `add_block` say what they should. -/
theorem addBlock_tells {params : ChainParams} {rounds now : Nat} {c c' : Blockchain} {b : Block}
    {r : AddBlockResult} (h : c.addBlock params rounds now b = some (c', .ok r)) :
    c.Tells params now b r.status := by
  unfold addBlock at h
  split at h
  · cases (Prod.mk.inj (Option.some.inj h)).2
  · rename_i haccept
    obtain ⟨-, hr⟩ := Prod.mk.inj (Option.some.inj h)
    exact Except.ok.inj hr ▸ admitBlock_status haccept
  · obtain ⟨⟨c₂, outcome⟩, -, heq⟩ := Option.map_eq_some_iff.mp h
    obtain ⟨-, hr⟩ := Prod.mk.inj heq
    cases outcome with
    | error e => cases hr
    | ok reorganised =>
      obtain rfl := Except.ok.inj hr
      unfold answer
      split
      · trivial
      · split <;> trivial

end Blockchain

end ScarletCoin
