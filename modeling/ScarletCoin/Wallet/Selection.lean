import ScarletCoin.Toolkit.Greedy
import ScarletCoin.Wallet.Signing

/-!
# Which coins are selected

The selection is sound, complete and minimal (`selectCoins_optimal`). Whether coins cover the
payment depends on their value and their number, since the fee grows with every input; but the
largest coins are worth the most among as many, so a payment that any coins cover is covered by a
prefix of the sorted coins, and the loop stops at the shortest such prefix (`accumulate_eq_some`,
`accumulate_eq_none`).
-/

set_option autoImplicit false

namespace ScarletCoin

open Toolkit

/-- The coins cover a requirement on their number. -/
def Reaches (required : Nat → Nat) (coins : List Spendable) : Prop :=
  required coins.length ≤ totalValue coins

theorem totalValue_eq (coins : List Spendable) :
    totalValue coins = Greedy.total Spendable.value coins := rfl

/-! ## Sorting -/

theorem sortCoins_perm (coins : List Spendable) : (sortCoins coins).Perm coins :=
  List.perm_insertionSort _ coins

theorem sortCoins_descending (coins : List Spendable) :
    Greedy.Descending Spendable.value (sortCoins coins) :=
  haveI : Std.Total fun a b : Spendable => b.value ≤ a.value :=
    ⟨fun a b => Nat.le_total b.value a.value⟩
  haveI : IsTrans Spendable fun a b => b.value ≤ a.value :=
    ⟨fun _ _ _ hab hbc => Nat.le_trans hbc hab⟩
  List.pairwise_insertionSort _ coins

/-! ## The loop -/

section Accumulate

variable {required : Nat → Nat}

/-- The loop returns the shortest longer prefix that covers what it requires. -/
theorem accumulate_eq_some (chosen : List Spendable) {rest found : List Spendable}
    (h : accumulate required chosen (totalValue chosen) rest = some found) :
    ∃ k, 0 < k ∧ k ≤ rest.length ∧ found = chosen ++ rest.take k ∧ Reaches required found ∧
      ∀ j, 0 < j → j < k → ¬ Reaches required (chosen ++ rest.take j) := by
  induction rest generalizing chosen with
  | nil => cases h
  | cons item rest ih =>
    have htotal : totalValue chosen + item.value = totalValue (chosen ++ [item]) := by
      simp [totalValue_eq]
    simp only [accumulate, htotal] at h
    split at h
    · rename_i hreaches
      refine ⟨1, Nat.one_pos, by simp, (Option.some.inj h).symm, ?_, fun j hpos hlt => by omega⟩
      rw [← Option.some.inj h]
      exact hreaches
    · rename_i hfails
      obtain ⟨k, hpos, hle, rfl, hreaches, hleast⟩ := ih _ h
      refine ⟨k + 1, Nat.succ_pos k, by simpa using hle, by simp, hreaches, fun j hjpos hjlt => ?_⟩
      cases j with
      | zero => exact absurd hjpos (Nat.lt_irrefl 0)
      | succ j =>
        rw [List.take_succ_cons, ← List.singleton_append, ← List.append_assoc]
        cases j with
        | zero =>
          rw [List.take_zero, List.append_nil]
          exact hfails
        | succ j => exact hleast (j + 1) (Nat.succ_pos j) (by omega)

/-- The loop finds nothing only if no longer prefix covers what it requires. -/
theorem accumulate_eq_none (chosen : List Spendable) {rest : List Spendable}
    (h : accumulate required chosen (totalValue chosen) rest = none) :
    ∀ j, 0 < j → j ≤ rest.length → ¬ Reaches required (chosen ++ rest.take j) := by
  induction rest generalizing chosen with
  | nil =>
    intro j hpos hle
    simp only [List.length_nil] at hle
    omega
  | cons item rest ih =>
    have htotal : totalValue chosen + item.value = totalValue (chosen ++ [item]) := by
      simp [totalValue_eq]
    simp only [accumulate, htotal] at h
    split at h
    · cases h
    · rename_i hfails
      intro j hpos hle
      cases j with
      | zero => exact absurd hpos (Nat.lt_irrefl 0)
      | succ j =>
        rw [List.take_succ_cons, ← List.singleton_append, ← List.append_assoc]
        cases j with
        | zero =>
          rw [List.take_zero, List.append_nil]
          exact hfails
        | succ j => exact ih _ h (j + 1) (Nat.succ_pos j) (by simpa using hle)

end Accumulate

/-! ## The selection -/

/-- What `select_coins` returns: coins of the list, the fee for their number, enough value for both,
and no fewer coins would do. -/
structure Selected (coins : List Spendable) (amount feePerKb : Int) (outputCount : Nat)
    (chosen : List Spendable) (fee : Nat) : Prop where
  among : chosen.Subperm coins
  nonempty : chosen ≠ []
  fee_eq : fee = selectionFee feePerKb outputCount chosen.length
  covers : amount + fee ≤ totalValue chosen
  fewest : ∀ other : List Spendable, other.Subperm coins → other ≠ [] →
    amount + selectionFee feePerKb outputCount other.length ≤ totalValue other →
    chosen.length ≤ other.length

/-- Selecting from sorted coins: a least coin that covers on its own, or the shortest prefix that
covers. -/
theorem selectCoins_cases {coins : List Spendable} {amount feePerKb : Int} (hamount : 0 ≤ amount)
    (outputCount : Nat) :
    let required := fun count => amount.toNat + selectionFee feePerKb outputCount count
    (∃ chosen, selectCoins coins amount feePerKb outputCount =
        .ok (chosen, selectionFee feePerKb outputCount chosen.length) ∧
      chosen.Subperm coins ∧ chosen ≠ [] ∧ Reaches required chosen ∧
      ∀ j, 0 < j → j < chosen.length → ¬ Reaches required ((sortCoins coins).take j)) ∨
    (∃ message, selectCoins coins amount feePerKb outputCount =
        .error (.insufficientFunds message)) ∧
      ∀ j, 0 < j → j ≤ coins.length → ¬ Reaches required ((sortCoins coins).take j) := by
  intro required
  have hsorted := sortCoins_perm coins
  unfold selectCoins
  rw [raiseIf, if_neg (Int.not_lt.mpr hamount)]
  simp only [ok_bind]
  cases hmin : ((sortCoins coins).filter fun item =>
      decide (amount.toNat + selectionFee feePerKb outputCount 1 ≤ item.value)).argmin
        Spendable.value with
  | some item =>
    -- one coin covers, and no selection is shorter
    obtain ⟨hitem, hvalue⟩ := List.mem_filter.mp (List.argmin_mem hmin)
    refine .inl ⟨[item], rfl, ?_, List.cons_ne_nil _ _, ?_, fun j hpos hlt => ?_⟩
    · exact List.singleton_subperm_iff.mpr (hsorted.mem_iff.mp hitem)
    · have henough := of_decide_eq_true hvalue
      simpa [Reaches, totalValue, required] using henough
    · rw [List.length_singleton] at hlt
      omega
  | none =>
    -- no single coin covers: the largest are taken until they do
    cases hloop : accumulate required [] 0 (sortCoins coins) with
    | some chosen =>
      obtain ⟨k, hpos, hle, rfl, hreaches, hleast⟩ := accumulate_eq_some [] hloop
      simp only [List.nil_append] at hreaches hleast ⊢
      refine .inl ⟨_, rfl, ?_, ?_, hreaches, fun j hjpos hjlt => hleast j hjpos ?_⟩
      · exact (List.take_sublist _ _).subperm.trans hsorted.subperm
      · intro hnil
        have hlen := congrArg List.length hnil
        rw [List.length_take, List.length_nil] at hlen
        omega
      · rw [List.length_take] at hjlt
        omega
    | none =>
      refine .inr ⟨⟨_, rfl⟩, fun j hpos hle => ?_⟩
      have hfails := accumulate_eq_none [] hloop j hpos
        (by rw [hsorted.length_eq]; exact hle)
      rwa [List.nil_append] at hfails

/-- Coins that cover are as many as a prefix that covers. -/
theorem reaches_front {required : Nat → Nat} {coins other : List Spendable}
    (hsub : other.Subperm coins) (hreaches : Reaches required other) :
    Reaches required ((sortCoins coins).take other.length) := by
  have hsub' := hsub.trans (sortCoins_perm coins).symm.subperm
  have hlength : ((sortCoins coins).take other.length).length = other.length := by
    rw [List.length_take, Nat.min_eq_left hsub'.length_le]
  have hprefix := Greedy.reaches_take (sortCoins_descending coins) hsub' hreaches
  rwa [Reaches, hlength]

/-- Coins cover a payment iff they reach what their number requires. -/
theorem reaches_iff {amount : Int} (hamount : 0 ≤ amount) (feePerKb : Int) (outputCount : Nat)
    (coins : List Spendable) :
    Reaches (fun count => amount.toNat + selectionFee feePerKb outputCount count) coins ↔
      amount + selectionFee feePerKb outputCount coins.length ≤ totalValue coins := by
  simp only [Reaches]
  omega

/-- What the selection returns covers the payment with the fewest coins. -/
theorem selectCoins_selected {coins chosen : List Spendable} {amount feePerKb : Int}
    (hamount : 0 ≤ amount) {outputCount fee : Nat}
    (h : selectCoins coins amount feePerKb outputCount = .ok (chosen, fee)) :
    Selected coins amount feePerKb outputCount chosen fee := by
  have hcovers := reaches_iff hamount feePerKb outputCount
  rcases selectCoins_cases hamount outputCount with
    ⟨found, hok, hamong, hne, hreaches, hleast⟩ | ⟨⟨message, herror⟩, -⟩
  · obtain ⟨rfl, rfl⟩ := Prod.mk.inj (Except.ok.inj (hok.symm.trans h))
    refine ⟨hamong, hne, rfl, (hcovers found).mp hreaches, fun other hsub hother henough => ?_⟩
    by_contra hlt
    exact hleast other.length (List.length_pos_iff.mpr hother) (Nat.not_le.mp hlt)
      (reaches_front hsub ((hcovers other).mpr henough))
  · rw [herror] at h
    cases h

/-- Coin selection is sound, complete and minimal: what it returns covers the payment with the
fewest coins, and it raises exactly if no coins of the list cover it. -/
theorem selectCoins_optimal (coins : List Spendable) {amount : Int} (hamount : 0 ≤ amount)
    (feePerKb : Int) (outputCount : Nat) :
    (∀ chosen fee, selectCoins coins amount feePerKb outputCount = .ok (chosen, fee) →
      Selected coins amount feePerKb outputCount chosen fee) ∧
    ((∃ message, selectCoins coins amount feePerKb outputCount =
        .error (.insufficientFunds message)) ↔
      ¬ ∃ other : List Spendable, other.Subperm coins ∧ other ≠ [] ∧
        amount + selectionFee feePerKb outputCount other.length ≤ totalValue other) ∧
    ∀ e, selectCoins coins amount feePerKb outputCount = .error e →
      ∃ message, e = .insufficientFunds message := by
  refine ⟨fun chosen fee h => selectCoins_selected hamount h, ?_⟩
  rcases selectCoins_cases hamount outputCount with
    ⟨chosen, hok, -⟩ | ⟨⟨message, herror⟩, hnone⟩
  · have hselected := selectCoins_selected hamount hok
    refine ⟨⟨?_, fun hno => ?_⟩, fun e h => ?_⟩
    · rintro ⟨message, herror⟩
      rw [hok] at herror
      cases herror
    · exact absurd ⟨chosen, hselected.among, hselected.nonempty, hselected.covers⟩ hno
    · rw [hok] at h
      cases h
  · refine ⟨⟨fun _ => ?_, fun _ => ⟨message, herror⟩⟩, fun e h => ?_⟩
    · rintro ⟨other, hsub, hother, henough⟩
      exact hnone other.length (List.length_pos_iff.mpr hother) hsub.length_le
        (reaches_front hsub ((reaches_iff hamount feePerKb outputCount other).mpr henough))
    · exact ⟨message, Except.error.inj (h.symm.trans herror)⟩

/-- It holds of three coins, of which no single one covers the payment and the last two together
do. -/
theorem selectCoins_optimal_three : ∃ chosen fee,
    selectCoins [Sample.spendable 0 500, Sample.spendable 1 900,
      Sample.spendable 2 700] 1000 1000 1 = .ok (chosen, fee) ∧
    Selected [Sample.spendable 0 500, Sample.spendable 1 900, Sample.spendable 2 700] 1000 1000 1
      chosen fee := by
  obtain ⟨hsound, hcomplete, herrors⟩ := selectCoins_optimal
    [Sample.spendable 0 500, Sample.spendable 1 900, Sample.spendable 2 700]
    (show (0 : Int) ≤ 1000 by decide) 1000 1
  cases hrun : selectCoins
      [Sample.spendable 0 500, Sample.spendable 1 900, Sample.spendable 2 700] 1000 1000 1 with
  | ok result => exact ⟨result.1, result.2, rfl, hsound result.1 result.2 hrun⟩
  | error e =>
    obtain ⟨message, rfl⟩ := herrors e hrun
    have hpair : [Sample.spendable 1 900, Sample.spendable 2 700].Sublist
        [Sample.spendable 0 500, Sample.spendable 1 900, Sample.spendable 2 700] :=
      List.sublist_cons_self _ _
    exact absurd ⟨_, hpair.subperm, List.cons_ne_nil _ _, by decide⟩ (hcomplete.mp ⟨message, hrun⟩)

end ScarletCoin
