import ScarletCoin.Invariants.Minable

/-!
# The fees of pooled transactions

Every pooled transaction pays the fee that the node asks for its size (`Mempool.Priced`). A
replacement pays a higher rate than what it replaces, so it pays the fee for its own size as well,
and the check that comes after the removal cannot fail. Hence a submission that is refused leaves
the pool as it was (`Mempool.Reachable.add_error`).

The fee for a size is a quotient of floats, rounded up. `ExactFees` says that the rounding of the
quotient does not show; so it is for the networks (`ChainParams.exactFees`).
-/

set_option autoImplicit false

namespace ScarletCoin

open Toolkit

/-! ## The fee for a size -/

/-- A quotient that is a whole number of at most 53 digits is a float. -/
theorem trueDivide_mul {q d : Nat} (hd : 0 < d) (hq : q < 2 ^ 53) : trueDivide (q * d) d = q := by
  unfold trueDivide
  by_cases hzero : q * d = 0
  · obtain rfl : q = 0 := (Nat.mul_eq_zero.mp hzero).resolve_right hd.ne'
    rw [if_pos hzero]
    rfl
  rw [if_neg hzero]
  dsimp only
  generalize hlead : (if d * 2 ^ (q * d).log2 ≤ q * d * 2 ^ d.log2 then
    ((q * d).log2 : Int) - (d.log2 : Int) else ((q * d).log2 : Int) - (d.log2 : Int) - 1) = lead
  -- the quotient has at most 53 digits, so all of them are before the point or exact behind it
  have hlow : 2 ^ (q * d).log2 ≤ q * d := Nat.log2_self_le hzero
  have hhigh : d < 2 ^ (d.log2 + 1) := Nat.lt_log2_self
  have hbound : lead ≤ 52 := by
    have hlt : 2 ^ (q * d).log2 < 2 ^ (53 + (d.log2 + 1)) := by
      rw [Nat.pow_add]
      exact Nat.lt_of_le_of_lt hlow (Nat.mul_lt_mul'' hq hhigh)
    have hlog := (Nat.pow_lt_pow_iff_right (by decide)).mp hlt
    by_contra hgt
    have htop : (q * d).log2 = 53 + d.log2 := by
      split at hlead <;> omega
    have hnot : ¬ d * 2 ^ (q * d).log2 ≤ q * d * 2 ^ d.log2 := by
      rw [htop, Nat.pow_add, Nat.not_le]
      calc q * d * 2 ^ d.log2 = d * (q * 2 ^ d.log2) := by
            rw [Nat.mul_comm q d, Nat.mul_assoc]
        _ < d * (2 ^ 53 * 2 ^ d.log2) :=
            Nat.mul_lt_mul_of_pos_left (Nat.mul_lt_mul_of_pos_right hq (Nat.two_pow_pos _)) hd
    rw [if_neg hnot] at hlead
    omega
  have hexponent : (lead - 52).toNat = 0 := by omega
  rw [hexponent]
  generalize (-(lead - 52)).toNat = k
  have hscaled : q * d * 2 ^ k = q * 2 ^ k * d := Nat.mul_right_comm q d (2 ^ k)
  rw [pow_zero, Nat.mul_one, Nat.mul_one, hscaled, Nat.mul_div_cancel _ hd, Nat.mul_mod_left,
    if_neg (by omega), Rat.mkRat_eq_div]
  push_cast
  exact mul_div_cancel_right₀ _ (pow_ne_zero k two_ne_zero)

/-- The fee for a size, with the quotient taken as it is. -/
def exactMinimumFee (params : ChainParams) (size : Nat) : Nat :=
  max 1 ⌈((size * params.minRelayFeePerKb : Nat) : ℚ) / 1000⌉₊

/-- The rounding of the quotient does not change the fee for the sizes that are relayed. -/
def ExactFees (params : ChainParams) : Prop :=
  ∀ size ≤ params.maxBlockSize / 2, Mempool.minimumFee params size = exactMinimumFee params size

theorem ChainParams.exactFees {params : ChainParams} (hnet : params ∈ NETWORKS) :
    ExactFees params := by
  have hall : ∀ p ∈ NETWORKS, p.minRelayFeePerKb = 1000 ∧ p.maxBlockSize / 2 < 2 ^ 53 := by decide
  obtain ⟨hrate, hlimit⟩ := hall params hnet
  intro size hsize
  unfold Mempool.minimumFee exactMinimumFee
  rw [hrate, trueDivide_mul (by decide) (by omega)]
  push_cast
  rw [mul_div_cancel_right₀ _ (by norm_num)]

/-- What pays a higher rate than a transaction that pays its fee pays its own. -/
theorem exactMinimumFee_of_rate {params : ChainParams} {size fee size' fee' : Nat}
    (hpaid : exactMinimumFee params size ≤ fee) (hrate : fee * size' < fee' * size) :
    exactMinimumFee params size' ≤ fee' := by
  obtain ⟨-, hceil⟩ := max_le_iff.mp hpaid
  have hthousand : (0 : ℚ) < 1000 := by norm_num
  have hfee : size * params.minRelayFeePerKb ≤ fee * 1000 := by
    have hle := (div_le_iff₀ hthousand).mp (Nat.ceil_le.mp hceil)
    exact_mod_cast hle
  refine max_le ?_ (Nat.ceil_le.mpr ((div_le_iff₀ hthousand).mpr ?_))
  · by_contra hnone
    rw [show fee' = 0 by omega, Nat.zero_mul] at hrate
    exact absurd hrate (Nat.not_lt_zero _)
  · have hscaled : size * (size' * params.minRelayFeePerKb) ≤ size * (fee' * 1000) := by
      calc size * (size' * params.minRelayFeePerKb)
          = size * params.minRelayFeePerKb * size' := by
            rw [Nat.mul_comm size', Nat.mul_assoc]
        _ ≤ fee * 1000 * size' := Nat.mul_le_mul_right _ hfee
        _ = fee * size' * 1000 := Nat.mul_right_comm _ _ _
        _ ≤ fee' * size * 1000 := Nat.mul_le_mul_right _ (Nat.le_of_lt hrate)
        _ = size * (fee' * 1000) := by rw [Nat.mul_comm fee', Nat.mul_assoc]
    have hpos : 0 < size := Nat.pos_of_ne_zero fun h => by
      rw [h, Nat.mul_zero] at hrate
      exact Nat.not_lt_zero _ hrate
    exact_mod_cast Nat.le_of_mul_le_mul_left hscaled hpos

namespace Mempool

section Fees

variable [Crypto] {params : ChainParams} {p q : Mempool}

/-! ## Pools whose transactions pay -/

/-- Every pooled transaction is small enough to be relayed and pays the fee for its size. -/
structure Priced (params : ChainParams) (p : Mempool) : Prop extends Wf p where
  paid : ∀ h e, p.byTxid.lookup h = some e →
    minimumFee params e.size ≤ e.fee ∧ e.size ≤ params.maxBlockSize / 2

theorem Priced.within (hp : p.Priced params) (hq : q.Wf) (h : Within q p) : q.Priced params :=
  ⟨hq, fun k e he => hp.paid k e (h.sub k e he)⟩

variable [ScanOrder Hash]

theorem Priced.add (hp : p.Priced params) (c : Blockchain) (now : Nat) (t : Transaction)
    (verify : Bool) : (p.add params c now t verify).1.Priced params := by
  have hprunes := p.removeAll_prunes (p.conflicts t)
  have hpruned := hp.within (hprunes.wf hp.toWf) (hprunes.within hp.toWf)
  rcases p.add_cases params c now t verify with ⟨hsame, -⟩ |
    ⟨fee, hjudge, ⟨-, hdropped, -⟩ | ⟨hpaid, hentered, -⟩⟩
  · rw [hsame]
    exact hp
  · rw [hdropped]
    exact hpruned
  · rw [hentered]
    have hscreened := (judge_eq_ok.mp hjudge).1
    obtain ⟨-, hwf⟩ := hp.toWf.enter hscreened.absent fee now
    have hevict := evictIfNeeded_prunes
      (((p.removeAll (p.conflicts t)).rememberVerified t.txid).insertEntry (newcomer t fee now))
    refine ⟨hevict.wf hwf, fun h e he => ?_⟩
    have hin := (hevict.within hwf).sub h e he
    rw [insertEntry, Table.lookup_insert_if] at hin
    split at hin
    · obtain rfl := Option.some.inj hin
      exact ⟨hpaid, hscreened.small⟩
    · exact hpruned.paid h e hin

theorem Reachable.priced (h : Reachable params p) : p.Priced params := by
  induction h with
  | create maxBytes => exact ⟨create_wf maxBytes, fun h e he => by simp [Mempool.create] at he⟩
  | add c now t verify _ ih => exact ih.add c now t verify
  | remove txid d _ ih =>
    have hrem := remove_removal ih.toWf txid d
    exact ih.within hrem.wf hrem.within
  | clear _ _ => exact ⟨clear_wf _, fun h e he => by simp [Mempool.clear] at he⟩

/-! ## A refusal changes nothing -/

omit [Crypto] [ScanOrder Hash] in
/-- A replacement that is let through pays a higher rate than every transaction it replaces. -/
theorem checkReplacement_rate {t : Transaction} {fee size : Nat} {conflicts : List Hash}
    (h : p.checkReplacement t fee size conflicts = .ok ()) {k : Hash} (hk : k ∈ conflicts) :
    ∃ old, p.byTxid.lookup k = some old ∧ old.fee * size < fee * old.size := by
  obtain ⟨-, heach⟩ := raiseIf_bind_eq_ok.mp h
  have hone := forEach_eq_ok.mp heach k hk
  split at hone
  · cases hone
  · rename_i old hold
    obtain ⟨-, hrate⟩ := raiseIf_bind_eq_ok.mp hone
    exact ⟨old, hold, Nat.not_le.mp (raiseIf_eq_ok.mp hrate)⟩

/-- A transaction with conflicts that is judged fit pays its fee: what it replaces pays a lower rate
and has paid its own. -/
theorem Priced.judge_minimumFee (hp : p.Priced params) (hexact : ExactFees params) {c : Blockchain}
    {t : Transaction} {verify : Bool} {fee : Nat} (hjudge : p.judge params c t verify = .ok fee)
    (hconflicts : p.conflicts t ≠ []) : minimumFee params t.size ≤ fee := by
  obtain ⟨hscreened, -, hreplace⟩ := judge_eq_ok.mp hjudge
  obtain ⟨k, hk⟩ := List.exists_mem_of_ne_nil _ hconflicts
  obtain ⟨old, hold, hrate⟩ := checkReplacement_rate (hreplace hconflicts) hk
  obtain ⟨hpaid, hsmall⟩ := hp.paid k old hold
  rw [hexact _ hscreened.small]
  rw [hexact _ hsmall] at hpaid
  exact exactMinimumFee_of_rate hpaid hrate

/-- **A refused submission changes nothing**, although what a replacement conflicts with is removed
before its fee is compared with the minimum. -/
theorem Reachable.add_error (h : Reachable params p) (hexact : ExactFees params) {c : Blockchain}
    {now : Nat} {t : Transaction} {verify : Bool} {e : PyError}
    (hadd : (p.add params c now t verify).2 = .error e) : (p.add params c now t verify).1 = p := by
  rcases p.add_cases params c now t verify with ⟨hsame, -⟩ |
    ⟨fee, hjudge, ⟨hlow, hdropped, -⟩ | ⟨-, -, hentered⟩⟩
  · exact hsame
  · rw [hdropped]
    by_cases hconflicts : p.conflicts t = []
    · rw [hconflicts]
      rfl
    · have hpaid := h.priced.judge_minimumFee hexact hjudge hconflicts
      omega
  · rw [hentered] at hadd
    cases hadd

end Fees

end Mempool

/-- The pool of a chain is reachable, whatever calls led to it. -/
theorem Wired.Runs.pool_reachable [Crypto] [ScanOrder Hash] {params : ChainParams}
    {allowed : Wired → WiredCall → Prop} {w : Wired} (h : Wired.Runs params allowed w) :
    w.pool.Reachable params := by
  induction h with
  | start maxBytes _ => exact .create maxBytes
  | @call w w' call _ _ hrun ih =>
    rcases Wired.run_cases hrun with ⟨now, t, verify, -, rfl⟩ | ⟨txid, d, -, rfl⟩ |
      ⟨now, -, -, rfl⟩ | ⟨now, event, events, -, -, ⟨-, rfl⟩ | ⟨e, -, rfl⟩⟩ | ⟨-, rfl⟩
    · exact ih.add w.chain now t verify
    · exact ih.remove txid d
    · exact ih
    · exact ih.onEvent w.chain now event
    · exact ih.onEvent w.chain now event
    · exact ih

section Instances

attribute [local instance] Sample.crypto Sample.order

/-- It holds of a transaction that conflicts with one of a higher fee rate. -/
theorem Mempool.add_error_outbid : ∃ w e,
    Sample.wiredAfter (fun _ _ => true) [.add 0 Sample.dear true] = some w ∧
    w.pool.conflicts Sample.cheap ≠ [] ∧
    (w.pool.add REGTEST w.chain 1 Sample.cheap true).2 = .error e ∧
    (w.pool.add REGTEST w.chain 1 Sample.cheap true).1 = w.pool := by
  have hrun : ((Sample.wiredAfter (fun _ _ => true) [.add 0 Sample.dear true]).any fun w =>
      decide (w.pool.conflicts Sample.cheap ≠ [] ∧
        (w.pool.add REGTEST w.chain 1 Sample.cheap true).2.isOk = false)) =
        true := by decide +kernel
  obtain ⟨w, hw, hcond⟩ := (Option.any_eq_true _ _).mp hrun
  obtain ⟨hconflicts, hrefused⟩ := of_decide_eq_true hcond
  have hruns : Wired.Runs REGTEST (fun _ _ => True) w :=
    Sample.wiredAfter_runs (fun _ _ _ => trivial) hw
  cases hadd : (w.pool.add REGTEST w.chain 1 Sample.cheap true).2 with
  | ok entry =>
    rw [hadd] at hrefused
    cases hrefused
  | error e =>
    exact ⟨w, e, hw, hconflicts, hadd, hruns.pool_reachable.add_error
      (ChainParams.exactFees (by simp [NETWORKS])) hadd⟩

end Instances

end ScarletCoin
