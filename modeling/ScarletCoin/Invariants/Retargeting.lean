import ScarletCoin.Invariants.MedianTime
import ScarletCoin.Rules.CompactTargets

/-!
# Range and direction of retargeting

The bits required of a child encode a target, `requiredTarget`, that lies between the target of the
parent divided by the adjustment factor and the limit of the network (`requiredTarget_range`). So
every stored block has canonical bits within the limit (`Reachable.inRange`), and what is required
of a child decodes to a target in that range (`Reachable.nextBitsAfter_range`).

Under the retargeting of every block the target grows with the timestamp of the child, with one
exception: a child that is not later than the start of the trailing window gets the bits of its
parent (`Reachable.nextBitsAfter_mono`).
-/

set_option autoImplicit false

namespace ScarletCoin

open Toolkit

/-! ## Parameters -/

/-- The limit is canonical, genesis has it, and the adjustment factor divides the spans of time. -/
structure ChainParams.Adjusts (p : ChainParams) : Prop where
  limit : targetToBits p.powLimit = p.powLimitBits
  genesis : p.genesisBits.toNat = p.powLimitBits
  timespan : p.maxAdjustmentFactor ∣ p.targetTimespan
  spacing : p.perBlockRetarget = true → p.maxAdjustmentFactor ∣ p.targetSpacing

theorem ChainParams.adjusts {p : ChainParams} (hp : p ∈ NETWORKS) : p.Adjusts := by
  have hall : ∀ q ∈ NETWORKS, targetToBits q.powLimit = q.powLimitBits ∧
      q.genesisBits.toNat = q.powLimitBits ∧ q.maxAdjustmentFactor ∣ q.targetTimespan ∧
      (q.perBlockRetarget = true → q.maxAdjustmentFactor ∣ q.targetSpacing) := by
    decide +kernel
  obtain ⟨hlimit, hgenesis, htimespan, hspacing⟩ := hall p hp
  exact ⟨hlimit, hgenesis, htimespan, hspacing⟩

/-- The bits are the canonical form of the target, which is within the limit. -/
structure ChainParams.InRange (p : ChainParams) (bits target : Nat) : Prop where
  decodes : bitsToTarget bits = .ok target
  canonical : targetToBits target = bits
  limited : target ≤ p.powLimit

/-- The bits of a target within the limit are in range. -/
theorem ChainParams.inRange_encode {p : ChainParams} {target : Nat} (h : target ≤ p.powLimit) :
    p.InRange (targetToBits target) (roundTarget target) :=
  ⟨bitsToTarget_encode (Nat.lt_of_le_of_lt h p.powLimit_lt), targetToBits_roundTarget target,
    Nat.le_trans (roundTarget_le target) h⟩

/-! ## Adjusted targets -/

/-- A target scaled by a clamped ratio of times. -/
def scaledTarget (target : Nat) (actual : Int) (timespan powLimit factor : Nat) : Nat :=
  let clamped := (min (max actual (timespan / factor : Nat)) (timespan * factor : Nat)).toNat
  min (target * clamped / timespan) powLimit

/-- The target at which an observed rate of work meets the spacing. -/
def measuredTarget (target : Nat) (work elapsed : Int) (spacing powLimit factor : Nat) : Nat :=
  if work ≤ 0 ∨ elapsed ≤ 0 then target
  else
    max (min ((MAX_TARGET_LIMIT + 1) * elapsed.toNat / (work.toNat * spacing)) powLimit)
      (target / factor)

section Adjustments

variable {target timespan spacing powLimit factor : Nat} {actual work elapsed : Int}

theorem scaledTarget_le : scaledTarget target actual timespan powLimit factor ≤ powLimit :=
  Nat.min_le_right _ _

theorem le_scaledTarget (hdvd : factor ∣ timespan) (htimespan : timespan ≠ 0)
    (hlimit : target ≤ powLimit) :
    target / factor ≤ scaledTarget target actual timespan powLimit factor := by
  obtain ⟨low, rfl⟩ := hdvd
  have hfactor : 0 < factor := Nat.pos_of_ne_zero fun h => htimespan (by rw [h, Nat.zero_mul])
  have hlow : 0 < low := Nat.pos_of_ne_zero fun h => htimespan (by rw [h, Nat.mul_zero])
  refine le_min ?_ (Nat.le_trans (Nat.div_le_self _ _) hlimit)
  have hclamped : low ≤ (min (max actual (factor * low / factor : Nat))
      (factor * low * factor : Nat)).toNat := by
    have hhigh : low ≤ factor * low * factor :=
      Nat.le_trans (Nat.le_mul_of_pos_left low hfactor) (Nat.le_mul_of_pos_right _ hfactor)
    rw [Nat.mul_div_cancel_left low hfactor]
    omega
  calc target / factor = target * low / (factor * low) :=
        (Nat.mul_div_mul_right target factor hlow).symm
    _ ≤ _ := Nat.div_le_div_right (Nat.mul_le_mul_left target hclamped)

theorem scaledTarget_mono {actual' : Int} (h : actual ≤ actual') :
    scaledTarget target actual timespan powLimit factor ≤
      scaledTarget target actual' timespan powLimit factor := by
  refine min_le_min_right _ (Nat.div_le_div_right (Nat.mul_le_mul_left target ?_))
  exact Int.toNat_le_toNat (min_le_min_right _ (max_le_max_right _ h))

theorem nextBits_eq {bits : Nat} (hbits : bitsToTarget bits = .ok target)
    (htimespan : timespan ≠ 0) : nextBits bits actual timespan powLimit factor =
      .ok (targetToBits (scaledTarget target actual timespan powLimit factor)) := by
  unfold nextBits
  rw [raiseIf, if_neg htimespan]
  simp only [ok_bind, hbits]
  rfl

theorem measuredTarget_le (hlimit : target ≤ powLimit) :
    measuredTarget target work elapsed spacing powLimit factor ≤ powLimit := by
  unfold measuredTarget
  split
  · exact hlimit
  · exact max_le (Nat.min_le_right _ _) (Nat.le_trans (Nat.div_le_self _ _) hlimit)

theorem le_measuredTarget :
    target / factor ≤ measuredTarget target work elapsed spacing powLimit factor := by
  unfold measuredTarget
  split
  · exact Nat.div_le_self _ _
  · exact le_max_right _ _

/-- Only from a time that is not measured to one that is can the target go down. -/
theorem measuredTarget_mono {elapsed' : Int} (h : elapsed ≤ elapsed')
    (hmeasured : elapsed ≤ 0 → elapsed' ≤ 0) :
    measuredTarget target work elapsed spacing powLimit factor ≤
      measuredTarget target work elapsed' spacing powLimit factor := by
  unfold measuredTarget
  by_cases hnone : work ≤ 0 ∨ elapsed ≤ 0
  · have hnone' : work ≤ 0 ∨ elapsed' ≤ 0 := hnone.imp id hmeasured
    rw [if_pos hnone, if_pos hnone']
  · have hsome' : ¬ (work ≤ 0 ∨ elapsed' ≤ 0) := by omega
    rw [if_neg hnone, if_neg hsome']
    refine max_le_max_right _ (min_le_min_right _ (Nat.div_le_div_right ?_))
    exact Nat.mul_le_mul_left _ (Int.toNat_le_toNat h)

theorem bitsFromWork_eq {bits : Nat} (hbits : bitsToTarget bits = .ok target)
    (hcanonical : targetToBits target = bits) :
    bitsFromWork work elapsed spacing powLimit bits factor =
      .ok (targetToBits (measuredTarget target work elapsed spacing powLimit factor)) := by
  unfold bitsFromWork measuredTarget
  split
  · rw [hcanonical]
    rfl
  · rw [hbits]
    rfl

end Adjustments

/-! ## The target required of a child -/

/-- The target that the work of the window asks for, after the target of the parent. -/
def windowTarget (params : ChainParams) (parent : TreeNode) (target childTimestamp : Nat) :
    List TreeNode → Nat
  | [] => target
  | start :: before =>
      measuredTarget target
        ((parent.chainwork : Int) - (((before.head?).map TreeNode.chainwork).getD 0 : Nat))
        ((childTimestamp : Int) - (start.timestamp : Int)) params.targetSpacing params.powLimit
        params.maxAdjustmentFactor

/-- The target of the bits required of a child, before they are rounded. -/
def requiredTarget (params : ChainParams) (parent : TreeNode) (rest : List TreeNode)
    (target childTimestamp : Nat) : Nat :=
  let height := parent.height + 1
  let interval := params.retargetInterval
  if params.perBlockRetarget = false ∨ height < params.retargetForkHeight then
    if height % interval ≠ 0 then target
    else
      match atHeight rest (height - interval) with
      | none => target
      | some first => scaledTarget target ((parent.timestamp : Int) - (first.timestamp : Int))
          params.targetTimespan params.powLimit params.maxAdjustmentFactor
  else if (params.maxFutureTime : Int) < (childTimestamp : Int) - (parent.timestamp : Int) then
    params.powLimit
  else if height < params.retargetMeasureForkHeight then
    match atHeight rest (height - min height interval) with
    | none => target
    | some first => scaledTarget target ((childTimestamp : Int) - (first.timestamp : Int))
        (params.targetSpacing * min height interval) params.powLimit params.maxAdjustmentFactor
  else
    windowTarget params parent target childTimestamp
      (windowOf ((parent.timestamp : Int) - (params.targetSpacing * interval : Nat))
        (parent :: rest))

section Targets

variable {params : ChainParams} {parent : TreeNode} {rest : List TreeNode} {target : Nat}

theorem ChainParams.lookback_ne_zero (params : ChainParams) (height : Nat) :
    params.targetSpacing * min (height + 1) params.retargetInterval ≠ 0 := by
  have hspacing := params.targetSpacing_pos
  have hinterval := params.retargetInterval_pos
  exact (Nat.mul_pos hspacing (Nat.lt_min.mpr ⟨Nat.succ_pos height, hinterval⟩)).ne'

/-- The bits required of a child are those of the target required of it. -/
theorem requiredBits_eq (hadj : params.Adjusts) (hparent : params.InRange parent.bits target)
    (childTimestamp : Nat) :
    requiredBits params parent rest childTimestamp =
      .ok (targetToBits (requiredTarget params parent rest target childTimestamp)) := by
  have hsame : pure parent.bits = (.ok (targetToBits target) : Except PyError Nat) := by
    rw [hparent.canonical]
    rfl
  unfold requiredBits requiredTarget
  dsimp only
  split
  · split
    · exact hsame
    · cases atHeight rest (parent.height + 1 - params.retargetInterval) with
      | none => exact hsame
      | some first => exact nextBits_eq hparent.decodes params.targetTimespan_ne_zero
  split
  · rw [hadj.limit]
    rfl
  split
  · cases atHeight rest
      (parent.height + 1 - min (parent.height + 1) params.retargetInterval) with
    | none => exact hsame
    | some first => exact nextBits_eq hparent.decodes (params.lookback_ne_zero _)
  · cases windowOf ((parent.timestamp : Int) -
      ((params.targetSpacing * params.retargetInterval : Nat) : Int)) (parent :: rest) with
    | nil => exact hsame
    | cons start before => exact bitsFromWork_eq hparent.decodes hparent.canonical

/-- It is at most the limit, and not below the target of the parent divided by the factor. -/
theorem requiredTarget_range (hadj : params.Adjusts) (hlimit : target ≤ params.powLimit)
    (childTimestamp : Nat) :
    target / params.maxAdjustmentFactor ≤ requiredTarget params parent rest target childTimestamp ∧
      requiredTarget params parent rest target childTimestamp ≤ params.powLimit := by
  have hparent : target / params.maxAdjustmentFactor ≤ target := Nat.div_le_self _ _
  unfold requiredTarget
  dsimp only
  split
  · split
    · exact ⟨hparent, hlimit⟩
    · split
      · exact ⟨hparent, hlimit⟩
      · exact ⟨le_scaledTarget hadj.timespan params.targetTimespan_ne_zero hlimit, scaledTarget_le⟩
  rename_i hfork
  split
  · exact ⟨Nat.le_trans hparent hlimit, Nat.le_refl _⟩
  split
  · split
    · exact ⟨hparent, hlimit⟩
    · have hper : params.perBlockRetarget = true := Bool.not_eq_false _ ▸ (not_or.mp hfork).1
      exact ⟨le_scaledTarget (Nat.dvd_mul_right_of_dvd (hadj.spacing hper) _)
        (params.lookback_ne_zero _) hlimit, scaledTarget_le⟩
  · unfold windowTarget
    split
    · exact ⟨hparent, hlimit⟩
    · exact ⟨le_measuredTarget, measuredTarget_le hlimit⟩

/-- Under the retargeting of every block it grows with the timestamp, except from a time that is not
after the start of the window to one that is. -/
theorem requiredTarget_mono (hadj : params.Adjusts) (hlimit : target ≤ params.powLimit)
    (hper : params.perBlockRetarget = true) (hfork : params.retargetForkHeight ≤ parent.height)
    {t₁ t₂ : Nat} (hle : t₁ ≤ t₂) :
    requiredTarget params parent rest target t₁ ≤ requiredTarget params parent rest target t₂ ∨
      (params.retargetMeasureForkHeight ≤ parent.height + 1 ∧
        requiredTarget params parent rest target t₁ = target ∧ ∃ start before,
          windowOf ((parent.timestamp : Int) -
            ((params.targetSpacing * params.retargetInterval : Nat) : Int)) (parent :: rest) =
              start :: before ∧ t₁ ≤ start.timestamp ∧ start.timestamp < t₂) := by
  have hpast : ¬ (params.perBlockRetarget = false ∨
      parent.height + 1 < params.retargetForkHeight) := by
    rw [hper]
    simp only [Bool.true_eq_false, false_or]
    omega
  by_cases hstall : (params.maxFutureTime : Int) < (t₂ : Int) - (parent.timestamp : Int)
  · -- a stalled chain asks for the limit, the easiest target there is
    refine .inl (Nat.le_trans (requiredTarget_range hadj hlimit t₁).2 (Nat.le_of_eq ?_))
    unfold requiredTarget
    dsimp only
    rw [if_neg hpast, if_pos hstall]
  · have hstall' : ¬ (params.maxFutureTime : Int) <
      (t₁ : Int) - (parent.timestamp : Int) := by omega
    unfold requiredTarget
    dsimp only
    rw [if_neg hpast, if_neg hpast, if_neg hstall, if_neg hstall']
    split
    · left
      cases atHeight rest
        (parent.height + 1 - min (parent.height + 1) params.retargetInterval) with
      | none => exact Nat.le_refl _
      | some first => exact scaledTarget_mono (by omega)
    · -- only past the last fork a timestamp before the start of the window asks for no change
      rename_i hmeasure
      cases hstart : windowOf ((parent.timestamp : Int) -
        ((params.targetSpacing * params.retargetInterval : Nat) : Int)) (parent :: rest) with
      | nil => exact .inl (Nat.le_refl _)
      | cons start before =>
        by_cases hswitch : t₁ ≤ start.timestamp ∧ start.timestamp < t₂
        · refine .inr ⟨Nat.not_lt.mp hmeasure, ?_, start, before, rfl, hswitch⟩
          exact if_pos (.inr (by omega))
        · exact .inl (measuredTarget_mono (by omega) (by omega))

end Targets

/-! ## Stored blocks -/

section Chains

variable [Crypto] [ScanOrder Hash] {params : ChainParams}

/-- Every stored block has canonical bits within the limit: those of genesis are, and those of a
child are what its parent required of it. -/
theorem Reachable.inRange (hnet : params ∈ NETWORKS) {c : Blockchain} (h : Reachable params c)
    {n : TreeNode} {rest : List TreeNode}
    (hpath : Branch (lineage params) c.storage.tree (n :: rest)) :
    ∃ target, params.InRange n.bits target := by
  have hadj := ChainParams.adjusts hnet
  induction rest generalizing n with
  | nil =>
    have hroot : params.genesisBlock = .ok n.body := by
      cases hpath with
      | root _ hroot _ => exact hroot
    obtain ⟨_, -, -, -, hbits, -⟩ := ChainParams.genesisBlock_eq_ok hroot
    refine ⟨params.powLimit, ?_, ?_, Nat.le_refl _⟩
    · rw [TreeNode.bits, hbits, hadj.genesis, params.bitsToTarget_powLimitBits]
    · rw [TreeNode.bits, hbits, hadj.genesis, hadj.limit]
  | cons p below ih =>
    obtain ⟨target, hparent⟩ := ih hpath.tail
    obtain ⟨s, bs, now, hbase, hbranch, -, hcheck⟩ := h.checked hpath
    obtain ⟨expected, hexpected, h₁⟩ := bind_eq_ok.mp hcheck
    obtain ⟨hsame, -⟩ := raiseIf_bind_eq_ok.mp h₁
    rw [nextBitsAfter_eq (ChainParams.walksBelow hnet) hbase hbranch,
      requiredBits_eq hadj hparent] at hexpected
    have hbits : n.bits = targetToBits
        (requiredTarget params p below target n.body.header.timestamp.toNat) :=
      (not_not.mp hsame).trans (Except.ok.inj hexpected).symm
    rw [hbits]
    exact ⟨_, ChainParams.inRange_encode (requiredTarget_range hadj hparent.limited _).2⟩

/-- What a stored parent requires of a child, for every timestamp. -/
theorem Reachable.nextBitsAfter_eq_ok (hnet : params ∈ NETWORKS) {c : Blockchain}
    (h : Reachable params c) {parent : BlockIndexEntry} (hp : c.storage.Stores parent) :
    ∃ n rest bs, Based params (c.storage, bs) ∧
      Branch (lineage params) c.storage.tree (n :: rest) ∧ parent = c.storage.entryAt n ∧
      ∃ target, params.InRange parent.bits target ∧ ∀ childTimestamp,
        nextBitsAfter params c.storage parent childTimestamp =
            .ok (targetToBits (requiredTarget params n rest target childTimestamp)) ∧
          bitsToTarget (targetToBits (requiredTarget params n rest target childTimestamp)) =
            .ok (roundTarget (requiredTarget params n rest target childTimestamp)) := by
  have hadj := ChainParams.adjusts hnet
  obtain ⟨_, _, bs, -, -, hs⟩ := h.run
  obtain ⟨n, hn, rfl⟩ := hp.node hs.based.tree
  obtain ⟨rest, hpath⟩ := hs.based.tree.wellRooted.exists_branch hn
  obtain ⟨target, htarget⟩ := h.inRange hnet hpath
  refine ⟨n, rest, bs, hs.based, hpath, rfl, target, ?_, fun childTimestamp => ⟨?_, ?_⟩⟩
  · rw [Storage.entryAt_bits hn]
    exact htarget
  · rw [nextBitsAfter_eq (ChainParams.walksBelow hnet) hs.based hpath, requiredBits_eq hadj htarget]
  · exact (ChainParams.inRange_encode (requiredTarget_range hadj htarget.limited _).2).decodes

/-- **The difficulty stays in range**: the bits required of a child are the canonical form of a
target that is positive, within the limit, and not below the rounded target of the parent divided by
the adjustment factor. No divisor on the way is zero. That the bits of the parent are canonical and
within the limit themselves holds of every stored block. -/
theorem Reachable.nextBitsAfter_range (hnet : params ∈ NETWORKS) {c : Blockchain}
    (h : Reachable params c) {parent : BlockIndexEntry} (hp : c.storage.Stores parent)
    {target : Nat} (hdecodes : bitsToTarget parent.bits = .ok target)
    (hlow : params.maxAdjustmentFactor ≤ target)
    (childTimestamp : Nat) :
    (∃ bits t hardest, nextBitsAfter params c.storage parent childTimestamp = .ok bits ∧
      bitsToTarget bits = .ok t ∧ 0 < t ∧ t ≤ params.powLimit ∧
      bitsToTarget (targetToBits (target / params.maxAdjustmentFactor)) = .ok hardest ∧
      hardest ≤ t ∧ targetToBits t = bits) ∧
    params.retargetInterval ≠ 0 ∧ params.maxAdjustmentFactor ≠ 0 ∧ params.targetTimespan ≠ 0 ∧
    params.targetSpacing * min (parent.height + 1) params.retargetInterval ≠ 0 ∧
    ∀ work elapsed, windowWork params c.storage parent childTimestamp = .ok (work, elapsed) →
      0 < work → work.toNat * params.targetSpacing ≠ 0 := by
  have hadj := ChainParams.adjusts hnet
  refine ⟨?_, params.retargetInterval_pos.ne', params.maxAdjustmentFactor_pos.ne',
    params.targetTimespan_ne_zero, params.lookback_ne_zero _, fun work elapsed _ hwork => ?_⟩
  · obtain ⟨n, rest, bs, -, -, -, target', hin, hnext⟩ := h.nextBitsAfter_eq_ok hnet hp
    obtain rfl : target = target' := Except.ok.inj (hdecodes.symm.trans hin.decodes)
    obtain ⟨hbits, hround⟩ := hnext childTimestamp
    obtain ⟨hbelow, habove⟩ := @requiredTarget_range _ n rest _ hadj hin.limited
      childTimestamp
    have hone : 1 ≤ target / params.maxAdjustmentFactor :=
      (Nat.one_le_div_iff params.maxAdjustmentFactor_pos).mpr hlow
    refine ⟨_, _, _, hbits, hround, roundTarget_pos (by omega),
      Nat.le_trans (roundTarget_le _) habove, bitsToTarget_encode ?_, roundTarget_mono hbelow,
      targetToBits_roundTarget _⟩
    have hlimit := params.powLimit_lt
    omega
  · exact (Nat.mul_pos (by omega) params.targetSpacing_pos).ne'

/-- **A later timestamp makes no block harder**, with one exception: where the work of the trailing
window is measured, and the earlier timestamp is not after the start of the window while the later
one is, the earlier one gets the bits of the parent. -/
theorem Reachable.nextBitsAfter_mono (hnet : params ∈ NETWORKS)
    (hper : params.perBlockRetarget = true) {c : Blockchain} (h : Reachable params c)
    {parent : BlockIndexEntry} (hp : c.storage.Stores parent)
    (hfork : params.retargetForkHeight ≤ parent.height) {t₁ t₂ : Nat} (hle : t₁ ≤ t₂) :
    ∃ bits₁ bits₂ target₁ target₂,
      nextBitsAfter params c.storage parent t₁ = .ok bits₁ ∧
      nextBitsAfter params c.storage parent t₂ = .ok bits₂ ∧
      bitsToTarget bits₁ = .ok target₁ ∧ bitsToTarget bits₂ = .ok target₂ ∧
      (target₁ ≤ target₂ ∨
        (params.retargetMeasureForkHeight ≤ parent.height + 1 ∧ bits₁ = parent.bits ∧
          ∃ work elapsed₁ elapsed₂,
            windowWork params c.storage parent t₁ = .ok (work, elapsed₁) ∧
            windowWork params c.storage parent t₂ = .ok (work, elapsed₂) ∧
            elapsed₁ ≤ 0 ∧ 0 < elapsed₂)) := by
  have hadj := ChainParams.adjusts hnet
  obtain ⟨n, rest, bs, hbase, hpath, rfl, target, hin, hnext⟩ := h.nextBitsAfter_eq_ok hnet hp
  obtain ⟨hbits₁, hround₁⟩ := hnext t₁
  obtain ⟨hbits₂, hround₂⟩ := hnext t₂
  refine ⟨_, _, _, _, hbits₁, hbits₂, hround₁, hround₂, ?_⟩
  have hn := hpath.stored n List.mem_cons_self
  rw [Storage.entryAt_height hn] at hfork ⊢
  rcases @requiredTarget_mono _ n rest _ hadj hin.limited hper hfork _ _ hle with hmono | hswitch
  · exact .inl (roundTarget_mono hmono)
  · obtain ⟨hmeasure, hkept, start, before, hstart, hbefore, hafter⟩ := hswitch
    obtain ⟨start₁, before₁, hstart₁, hwork₁⟩ := windowWork_eq hbase hpath t₁
    obtain ⟨start₂, before₂, hstart₂, hwork₂⟩ := windowWork_eq hbase hpath t₂
    obtain ⟨rfl, rfl⟩ := List.cons.inj (hstart.symm.trans hstart₁)
    obtain ⟨rfl, rfl⟩ := List.cons.inj (hstart.symm.trans hstart₂)
    refine .inr ⟨hmeasure, ?_, _, _, _, hwork₁, hwork₂, by omega, by omega⟩
    rw [hkept, hin.canonical]

end Chains

section Instances

attribute [local instance] Sample.crypto Sample.order

/-- The difficulty stays in range for the children of the tip of a chain. -/
theorem nextBitsAfter_range_overtaken : ∃ c target, Sample.chainAfter Sample.overtaken = some c ∧
    bitsToTarget c.tip.bits = .ok target ∧ ∀ childTimestamp,
    (∃ bits t hardest, nextBitsAfter REGTEST c.storage c.tip childTimestamp = .ok bits ∧
      bitsToTarget bits = .ok t ∧ 0 < t ∧ t ≤ REGTEST.powLimit ∧
      bitsToTarget (targetToBits (target / REGTEST.maxAdjustmentFactor)) = .ok hardest ∧
      hardest ≤ t ∧ targetToBits t = bits) ∧
    REGTEST.retargetInterval ≠ 0 ∧ REGTEST.maxAdjustmentFactor ≠ 0 ∧ REGTEST.targetTimespan ≠ 0 ∧
    REGTEST.targetSpacing * min (c.tip.height + 1) REGTEST.retargetInterval ≠ 0 ∧
    ∀ work elapsed, windowWork REGTEST c.storage c.tip childTimestamp = .ok (work, elapsed) →
      0 < work → work.toNat * REGTEST.targetSpacing ≠ 0 := by
  have hrun : ((Sample.chainAfter Sample.overtaken).any fun c =>
      decide (c.storage.Stores c.tip ∧ bitsToTarget c.tip.bits = .ok REGTEST.powLimit ∧
        REGTEST.maxAdjustmentFactor ≤ REGTEST.powLimit)) = true := by decide +kernel
  obtain ⟨c, hc, hcond⟩ := (Option.any_eq_true _ _).mp hrun
  obtain ⟨hp, hdecodes, hlow⟩ := of_decide_eq_true hcond
  exact ⟨c, _, hc, hdecodes, (Sample.chainAfter_reachable hc).nextBitsAfter_range
    (by simp [NETWORKS]) hp hdecodes hlow⟩

/-- The testnet chain of a block that claims to be two hours later than genesis. -/
def Sample.hastyChain : Option Blockchain :=
  (Blockchain.create TESTNET).toOption.bind fun c =>
    runCalls TESTNET c [Sample.submit (Sample.block c.tip.hash 0x1E0FFFFF 1700007201
      [Sample.coinbase 1 0 Sample.reward] (Sample.alone_fits _))]

theorem Sample.hastyChain_reachable {c : Blockchain} (h : Sample.hastyChain = some c) :
    Reachable TESTNET c := by
  obtain ⟨start, hstart, hrun⟩ := Option.bind_eq_some_iff.mp h
  exact (Reachable.create (toOption_eq_some.mp hstart)).of_runCalls hrun

/-- The children of the tip of that chain, one second after genesis and one second after the tip. -/
theorem nextBitsAfter_mono_hasty : ∃ c, Sample.hastyChain = some c ∧
    ∃ bits₁ bits₂ target₁ target₂,
      nextBitsAfter TESTNET c.storage c.tip 1700000002 = .ok bits₁ ∧
      nextBitsAfter TESTNET c.storage c.tip 1700007202 = .ok bits₂ ∧
      bitsToTarget bits₁ = .ok target₁ ∧ bitsToTarget bits₂ = .ok target₂ ∧
      (target₁ ≤ target₂ ∨
        (TESTNET.retargetMeasureForkHeight ≤ c.tip.height + 1 ∧ bits₁ = c.tip.bits ∧
          ∃ work elapsed₁ elapsed₂,
            windowWork TESTNET c.storage c.tip 1700000002 = .ok (work, elapsed₁) ∧
            windowWork TESTNET c.storage c.tip 1700007202 = .ok (work, elapsed₂) ∧
            elapsed₁ ≤ 0 ∧ 0 < elapsed₂)) := by
  have hrun : (Sample.hastyChain.any fun c => decide (c.storage.Stores c.tip)) = true := by
    decide +kernel
  obtain ⟨c, hc, hcond⟩ := (Option.any_eq_true _ _).mp hrun
  exact ⟨c, hc, (Sample.hastyChain_reachable hc).nextBitsAfter_mono (by simp [NETWORKS]) rfl
    (of_decide_eq_true hcond) (Nat.zero_le _) (by decide)⟩

/-- Both are later than the median time past, and the earlier one has four times the target. -/
theorem nextBitsAfter_hasty_easier : ∃ c bits₁ bits₂ target₁ target₂, Reachable TESTNET c ∧
    c.storage.Stores c.tip ∧ TESTNET.retargetForkHeight ≤ c.tip.height ∧
    medianTimePast TESTNET c.storage c.tip < 1700000002 ∧
    nextBitsAfter TESTNET c.storage c.tip 1700000002 = .ok bits₁ ∧
    nextBitsAfter TESTNET c.storage c.tip 1700007202 = .ok bits₂ ∧
    bitsToTarget bits₁ = .ok target₁ ∧ bitsToTarget bits₂ = .ok target₂ ∧ target₂ < target₁ := by
  have hrun : (Sample.hastyChain.any fun c => decide (c.storage.Stores c.tip ∧
      medianTimePast TESTNET c.storage c.tip < 1700000002 ∧
      nextBitsAfter TESTNET c.storage c.tip 1700000002 = .ok 0x1E0FFFFF ∧
      nextBitsAfter TESTNET c.storage c.tip 1700007202 = .ok 0x1E03FFFF)) = true := by
    decide +kernel
  obtain ⟨c, hc, hcond⟩ := (Option.any_eq_true _ _).mp hrun
  obtain ⟨hp, hmedian, hbits₁, hbits₂⟩ := of_decide_eq_true hcond
  exact ⟨c, _, _, 0xFFFFF * 2 ^ 216, 0x3FFFF * 2 ^ 216, Sample.hastyChain_reachable hc, hp,
    Nat.zero_le _, hmedian, hbits₁, hbits₂, by decide +kernel, by decide +kernel, by decide⟩

end Instances

end ScarletCoin
