import ScarletCoin.Pool.Jobs
import ScarletCoin.Sample

/-!
# Which shares the pool accepts

A share whose header can be rebuilt is judged by the share target of the manager and by nothing else
(`JobManager.processShare_eq_ok`). A share that is a block is therefore accepted, and reported as
one, exactly if its hash is within the share target in force (`JobManager.processShare_block_iff`):
a derived share difficulty keeps every block of the current job, a pinned one may refuse a block
(`JobManager.processShare_pinned_block`).
-/

set_option autoImplicit false

namespace ScarletCoin

open Toolkit

namespace JobManager

/-! ## The judgement of a share -/

section Judgement

variable [Crypto]

variable {job : ActiveJob} {share : Share} {header : Bytes}

/-- The judgement of a share of the right size whose header can be rebuilt. -/
theorem processShare_eq_ok (manager : JobManager)
    (hsize : share.extranonce2.length = job.coinbase.extranonce2Size * 2)
    (hheader : job.parentHeader share = .ok header) :
    ∃ manager' result, manager.processShare job share = .ok (manager', result) ∧
      (result.accepted = true ↔ hashToInt (hash256 header) ≤ manager.shareTarget) ∧
      (result.meetsSctTarget = true ↔ hashToInt (hash256 header) ≤ manager.shareTarget ∧
        hashToInt (hash256 header) ≤ job.scarlet.target) := by
  unfold processShare
  rw [if_neg (not_not.mpr hsize), hheader, ok_bind]
  by_cases hshare : manager.shareTarget < hashToInt (hash256 header)
  · simp only [if_pos hshare]
    exact ⟨_, _, rfl, by simpa using hshare, by simp [hshare]⟩
  · simp only [if_neg hshare]
    exact ⟨_, _, rfl, by simpa using hshare, by simp [Nat.not_lt.mp hshare]⟩

omit [Crypto] in
/-- A derived share target is at least eight times the target of the current job. -/
theorem shareTarget_derived {manager : JobManager} {current : ActiveJob}
    (hfixed : manager.fixedShareTarget = none) (hcurrent : manager.current = some current) :
    current.scarlet.target * DEFAULT_SHARE_EASE ≤ manager.shareTarget := by
  unfold shareTarget
  rw [hfixed, hcurrent]
  exact Nat.le_max_right _ _

/-- A share that is a block is accepted and reported as one iff it is within the share target. With
a derived share difficulty that holds while the current target is not below an eighth of the target
of the job. -/
theorem processShare_block_iff (manager : JobManager)
    (hsize : share.extranonce2.length = job.coinbase.extranonce2Size * 2)
    (hheader : job.parentHeader share = .ok header)
    (hwork : hashToInt (hash256 header) ≤ job.scarlet.target) :
    ∃ manager' result, manager.processShare job share = .ok (manager', result) ∧
      (result.accepted = true ∧ result.meetsSctTarget = true ↔
        hashToInt (hash256 header) ≤ manager.shareTarget) ∧
      ∀ current, manager.fixedShareTarget = none → manager.current = some current →
        job.scarlet.target ≤ current.scarlet.target * DEFAULT_SHARE_EASE →
        result.accepted = true ∧ result.meetsSctTarget = true := by
  obtain ⟨manager', result, hprocess, haccepted, hmeets⟩ :=
    processShare_eq_ok manager hsize hheader
  have hiff : result.accepted = true ∧ result.meetsSctTarget = true ↔
      hashToInt (hash256 header) ≤ manager.shareTarget := by
    rw [haccepted, hmeets]
    exact ⟨And.left, fun h => ⟨h, h, hwork⟩⟩
  refine ⟨manager', result, hprocess, hiff, fun current hfixed hcurrent heased => ?_⟩
  have hderived := shareTarget_derived hfixed hcurrent
  exact hiff.mpr (by omega)

end Judgement

end JobManager

/-! ## A pool to run -/

section Instances

attribute [local instance] Sample.crypto

/-- A candidate that any parent header satisfies. -/
def Sample.auxCandidate : ScarletTemplate where
  auxHash := displayHex nullHash
  target := 2 ^ 256 - 1
  chainId := 3
  nonce := 0
  height := 1

/-- A parent template with two transactions beside the coinbase. -/
def Sample.parentTemplate : ParentTemplate where
  version := 0x20000000
  prevHash := hex nullHash.val
  nbits := 0x1d00ffff
  height := 7
  coinbaseValue := 5000000000
  transactions := [hex (hash256 [1]).val, hex (hash256 [2]).val]
  target := 0

/-- A pool for the candidate. -/
def Sample.pool : JobManager :=
  .create 3 (.create 4 4) (List.replicate 20 0)

/-- The pool with its first job. -/
def Sample.poolJob : Option (JobManager × ActiveJob) :=
  (Sample.pool.refresh Sample.auxCandidate Sample.parentTemplate 1700000000).toOption

/-- A share with extranonces of four bytes. -/
def Sample.poolShare : Share := ⟨"aabbccdd", "00000001", 1700000000, 42⟩

/-- It holds of the first share for the first job. -/
theorem JobManager.processShare_block_iff_first :
    ∃ (manager : JobManager) (job : ActiveJob) (manager' : JobManager) (result : ShareResult),
      manager.current = some job ∧
      manager.processShare job Sample.poolShare = .ok (manager', result) ∧
      result.accepted = true ∧ result.meetsSctTarget = true := by
  have hrun : (Sample.poolJob.any fun (manager, job) => decide (manager.current = some job ∧
      manager.fixedShareTarget = none ∧ job.coinbase.extranonce2Size = 4 ∧
      (job.parentHeader Sample.poolShare).toOption.any fun header =>
        decide (hashToInt (hash256 header) ≤ job.scarlet.target))) = true := by
    decide +kernel
  obtain ⟨⟨manager, job⟩, -, hjob⟩ := (Option.any_eq_true _ _).mp hrun
  obtain ⟨hcurrent, hfixed, hsize, hheader⟩ := of_decide_eq_true hjob
  obtain ⟨header, hheader, hwork⟩ := (Option.any_eq_true _ _).mp hheader
  obtain ⟨manager', result, hprocess, -, hderived⟩ :=
    JobManager.processShare_block_iff manager (hsize ▸ rfl) (toOption_eq_some.mp hheader)
      (of_decide_eq_true hwork)
  refine ⟨manager, job, manager', result, hcurrent, hprocess, ?_⟩
  exact hderived job hfixed hcurrent (Nat.le_mul_of_pos_right _ (by decide))

/-- With the share target pinned to 1, a share that is a block is refused. -/
theorem JobManager.processShare_pinned_block :
    ∃ (manager : JobManager) (job : ActiveJob) (header : Bytes) (manager' : JobManager)
      (result : ShareResult),
      manager.current = some job ∧
      Sample.poolShare.extranonce2.length = job.coinbase.extranonce2Size * 2 ∧
      job.parentHeader Sample.poolShare = .ok header ∧
      hashToInt (hash256 header) ≤ job.scarlet.target ∧
      manager.processShare job Sample.poolShare = .ok (manager', result) ∧
      result.accepted = false ∧ result.reason = "share above target" := by
  have hrun : (Sample.poolJob.any fun (manager, job) =>
      (job.parentHeader Sample.poolShare).toOption.any fun header =>
        ((manager.pinShareTarget 1).processShare job Sample.poolShare).toOption.any
          fun (_, result) => decide ((manager.pinShareTarget 1).current = some job ∧
            Sample.poolShare.extranonce2.length = job.coinbase.extranonce2Size * 2 ∧
            hashToInt (hash256 header) ≤ job.scarlet.target ∧
            result.accepted = false ∧ result.reason = "share above target")) = true := by
    decide +kernel
  obtain ⟨⟨manager, job⟩, -, hjob⟩ := (Option.any_eq_true _ _).mp hrun
  obtain ⟨header, hheader, hshare⟩ := (Option.any_eq_true _ _).mp hjob
  obtain ⟨⟨manager', result⟩, hprocess, hfacts⟩ := (Option.any_eq_true _ _).mp hshare
  obtain ⟨hcurrent, hsize, hwork, haccepted, hreason⟩ := of_decide_eq_true hfacts
  exact ⟨manager.pinShareTarget 1, job, header, manager', result, hcurrent, hsize,
    toOption_eq_some.mp hheader, hwork, toOption_eq_some.mp hprocess, haccepted, hreason⟩

end Instances

end ScarletCoin
