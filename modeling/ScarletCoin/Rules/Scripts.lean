import ScarletCoin.Core.Script
import ScarletCoin.Toolkit.Matching
import ScarletCoin.Sample

/-!
# What scripts mean

A script is a list of operations, and an operation is a relation between stacks (`ScriptStep`, with
the top of a stack first). A run is a chain of steps that stays within the limit of the stack
(`ScriptRun`). The interpreter computes this relation (`execOp_eq_some`, `execOps_eq_some`), with
one exception to its promise of a boolean: an `OP_DUP` that a run reaches with an empty stack
(`evaluateScript_returns_iff`).
-/

set_option autoImplicit false

namespace ScarletCoin

open Toolkit

/-! ## Steps and runs -/

/-- The operation puts the item on the stack. -/
inductive Pushes : ScriptOp → Bytes → Prop where
  | data {opcode : UInt8} {data : Bytes} :
      opcode ≤ OP_PUSHBYTES_MAX ∨ opcode = OP_PUSHDATA1 ∨ opcode = OP_PUSHDATA2 →
      Pushes (opcode, data) data
  | number {opcode : UInt8} {data : Bytes} :
      OP_1 ≤ opcode → opcode ≤ OP_16 → Pushes (opcode, data) [opcode - OP_1 + 1]

section Meaning

variable [Crypto]

/-- Each signature verifies under a key of its own, in the order of the keys. -/
def Signed (digest : Bytes) (signatures pubkeys : List Bytes) : Prop :=
  Matched (fun signature pubkey => verifySignature pubkey signature digest) signatures pubkeys

/-- One operation takes the stack to another one. -/
inductive ScriptStep (digest : Bytes) : List Bytes → ScriptOp → List Bytes → Prop where
  | push {op : ScriptOp} {item : Bytes} {stack : List Bytes} :
      Pushes op item → ScriptStep digest stack op (item :: stack)
  | dup {data item : Bytes} {stack : List Bytes} :
      ScriptStep digest (item :: stack) (OP_DUP, data) (item :: item :: stack)
  | equal {data a b : Bytes} {stack : List Bytes} :
      ScriptStep digest (a :: b :: stack) (OP_EQUAL, data) ((if a = b then [1] else [0]) :: stack)
  | equalVerify {data a : Bytes} {stack : List Bytes} :
      ScriptStep digest (a :: a :: stack) (OP_EQUALVERIFY, data) stack
  | hash160 {data item : Bytes} {stack : List Bytes} :
      ScriptStep digest (item :: stack) (OP_HASH160, data) ((hash160 item).val :: stack)
  | checkSig {data pubkey signature : Bytes} {stack : List Bytes} :
      verifySignature pubkey signature digest = true →
      ScriptStep digest (pubkey :: signature :: stack) (OP_CHECKSIG, data) ([1] :: stack)
  | checkMultisig {data count threshold : Bytes} {pubkeys signatures stack : List Bytes} :
      smallInt count = some pubkeys.length → pubkeys.length ≤ MAX_PUBKEYS →
      smallInt threshold = some signatures.length → signatures.length ≤ pubkeys.length →
      Signed digest signatures pubkeys →
      ScriptStep digest (count :: (pubkeys.reverse ++ threshold :: (signatures.reverse ++ stack)))
        (OP_CHECKMULTISIG, data) ([1] :: stack)

/-- The operations take the stack to another one, and no stack on the way is too large. -/
inductive ScriptRun (digest : Bytes) : List Bytes → List ScriptOp → List Bytes → Prop where
  | nil {stack : List Bytes} : ScriptRun digest stack [] stack
  | cons {stack stack' stack'' : List Bytes} {op : ScriptOp} {ops : List ScriptOp} :
      ScriptStep digest stack op stack' → stack'.length ≤ MAX_STACK_ITEMS →
      ScriptRun digest stack' ops stack'' → ScriptRun digest stack (op :: ops) stack''

/-! ## The interpreter computes steps -/

theorem matchSignatures_iff {digest : Bytes} {signatures pubkeys : List Bytes} :
    matchSignatures digest signatures pubkeys = true ↔ Signed digest signatures pubkeys := by
  rw [Signed, ← greedyMatch_iff]
  have heq : matchSignatures digest signatures pubkeys =
      greedyMatch (fun signature pubkey => verifySignature pubkey signature digest)
        signatures pubkeys := by
    induction pubkeys generalizing signatures with
    | nil => cases signatures <;> rfl
    | cons pubkey pubkeys ih =>
      cases signatures with
      | nil => rfl
      | cons signature signatures =>
        unfold matchSignatures greedyMatch
        rw [ih, ih]
  rw [heq]

omit [Crypto] in
theorem popItem_eq_ok {stack rest : List Bytes} {item : Bytes} :
    popItem stack = .ok (item, rest) ↔ stack = item :: rest := by
  cases stack with
  | nil => exact iff_of_false (fun h => Except.noConfusion rfl rfl (heq_of_eq h)) nofun
  | cons top below =>
    rw [popItem, Except.ok.injEq, Prod.mk.injEq, List.cons.injEq]

omit [Crypto] in
theorem popItem_bind_eq_ok {α : Type} {stack : List Bytes}
    {f : Bytes × List Bytes → Except PyError α} {r : α} (h : (popItem stack >>= f) = .ok r) :
    ∃ item rest, stack = item :: rest ∧ f (item, rest) = .ok r := by
  obtain ⟨⟨item, rest⟩, hpop, hrest⟩ := bind_eq_ok.mp h
  exact ⟨item, rest, popItem_eq_ok.mp hpop, hrest⟩

omit [Crypto] in
theorem popItems_eq_ok {n : Nat} {stack items rest : List Bytes} :
    popItems n stack = .ok (items, rest) ↔ items.length = n ∧ stack = items ++ rest := by
  induction n generalizing stack items with
  | zero =>
    rw [popItems, Except.ok.injEq, Prod.mk.injEq, List.length_eq_zero_iff]
    constructor
    · rintro ⟨rfl, rfl⟩
      exact ⟨rfl, rfl⟩
    · rintro ⟨rfl, rfl⟩
      exact ⟨rfl, rfl⟩
  | succ n ih =>
    constructor
    · intro h
      obtain ⟨⟨item, below⟩, hpop, h₁⟩ := bind_eq_ok.mp h
      obtain ⟨⟨others, below'⟩, hpops, h₂⟩ := bind_eq_ok.mp h₁
      obtain ⟨rfl, rfl⟩ := Prod.mk.inj (pure_eq_ok.mp h₂)
      obtain ⟨hlen, rfl⟩ := ih.mp hpops
      rw [popItem_eq_ok.mp hpop, List.length_cons, hlen]
      exact ⟨rfl, rfl⟩
    · rintro ⟨hlen, rfl⟩
      cases items with
      | nil => cases hlen
      | cons item items =>
        have hpops : popItems n (items ++ rest) = .ok (items, rest) :=
          ih.mpr ⟨Nat.succ.inj hlen, rfl⟩
        rw [popItems, List.cons_append, popItem_eq_ok.mpr rfl, ok_bind]
        dsimp only
        rw [hpops, ok_bind]
        rfl

theorem checkMultisig_eq_some {digest : Bytes} {stack stack' : List Bytes} :
    checkMultisig digest stack = .ok (some stack') ↔
      ∃ count threshold pubkeys signatures rest,
        stack = count :: (pubkeys.reverse ++ threshold :: (signatures.reverse ++ rest)) ∧
        smallInt count = some pubkeys.length ∧ pubkeys.length ≤ MAX_PUBKEYS ∧
        smallInt threshold = some signatures.length ∧ signatures.length ≤ pubkeys.length ∧
        Signed digest signatures pubkeys ∧ stack' = [1] :: rest := by
  constructor
  · intro h
    obtain ⟨⟨count, s₁⟩, hcount, h₁⟩ := bind_eq_ok.mp h
    dsimp only at h₁
    -- the count is no small number
    split at h₁
    · cases pure_eq_ok.mp h₁
    rename_i keyCount hkeys
    -- more keys than allowed
    split at h₁
    · cases pure_eq_ok.mp h₁
    rename_i hmax
    obtain ⟨⟨pubkeys, s₂⟩, hpubkeys, h₂⟩ := bind_eq_ok.mp h₁
    obtain ⟨⟨threshold, s₃⟩, hthreshold, h₃⟩ := bind_eq_ok.mp h₂
    dsimp only at h₃
    -- the threshold is no small number
    split at h₃
    · cases pure_eq_ok.mp h₃
    rename_i m hm
    -- more signatures than keys
    split at h₃
    · cases pure_eq_ok.mp h₃
    rename_i hle
    obtain ⟨⟨signatures, rest⟩, hsignatures, h₄⟩ := bind_eq_ok.mp h₃
    dsimp only at h₄
    split at h₄
    · rename_i hmatch
      obtain rfl := Option.some.inj (pure_eq_ok.mp h₄)
      obtain ⟨hlen, rfl⟩ := popItems_eq_ok.mp hpubkeys
      obtain ⟨hlen', rfl⟩ := popItems_eq_ok.mp hsignatures
      obtain rfl := popItem_eq_ok.mp hcount
      obtain rfl := popItem_eq_ok.mp hthreshold
      refine ⟨count, threshold, pubkeys.reverse, signatures.reverse, rest, ?_, ?_, ?_, ?_, ?_,
        matchSignatures_iff.mp hmatch, rfl⟩
      · rw [List.reverse_reverse, List.reverse_reverse]
      · rw [List.length_reverse, hlen, hkeys]
      · rw [List.length_reverse, hlen]
        exact Nat.not_lt.mp hmax
      · rw [List.length_reverse, hlen', hm]
      · rw [List.length_reverse, List.length_reverse, hlen, hlen']
        exact Nat.not_lt.mp hle
    · cases pure_eq_ok.mp h₄
  · rintro ⟨count, threshold, pubkeys, signatures, rest, rfl, hkeys, hmax, hm, hle, hsigned, rfl⟩
    have hpubkeys : ∀ below, popItems pubkeys.length (pubkeys.reverse ++ below) =
        .ok (pubkeys.reverse, below) :=
      fun below => popItems_eq_ok.mpr ⟨pubkeys.length_reverse, rfl⟩
    have hsignatures : popItems signatures.length (signatures.reverse ++ rest) =
        .ok (signatures.reverse, rest) :=
      popItems_eq_ok.mpr ⟨signatures.length_reverse, rfl⟩
    unfold checkMultisig
    rw [popItem_eq_ok.mpr rfl, ok_bind]
    dsimp only
    rw [hkeys]
    dsimp only
    rw [if_neg (Nat.not_lt.mpr hmax), hpubkeys, ok_bind]
    dsimp only
    rw [popItem_eq_ok.mpr rfl, ok_bind]
    dsimp only
    rw [hm]
    dsimp only
    rw [if_neg (Nat.not_lt.mpr hle), hsignatures, ok_bind]
    dsimp only
    rw [List.reverse_reverse, List.reverse_reverse, if_pos (matchSignatures_iff.mpr hsigned)]
    rfl

/-- The interpreter takes a step if there is one, and it is the only one. -/
theorem execOp_eq_some {digest : Bytes} {stack stack' : List Bytes} {op : ScriptOp} :
    execOp digest stack op = .ok (some stack') ↔ ScriptStep digest stack op stack' := by
  obtain ⟨opcode, data⟩ := op
  constructor
  · -- the branches of `execOp` in their order; what pops too much or fails gives no stack
    intro h
    unfold execOp at h
    dsimp only at h
    split at h
    · rename_i hpush
      obtain rfl := Option.some.inj (pure_eq_ok.mp h)
      exact .push (.data hpush)
    split at h
    · rename_i hnumber
      obtain rfl := Option.some.inj (pure_eq_ok.mp h)
      exact .push (.number hnumber.1 hnumber.2)
    split at h
    · rename_i hdup
      split at h
      · cases h
      · obtain rfl := Option.some.inj (pure_eq_ok.mp h)
        rw [hdup]
        exact .dup
    split at h
    · rename_i hequal
      obtain ⟨a, s₁, rfl, h₁⟩ := popItem_bind_eq_ok h
      obtain ⟨b, s₂, rfl, h₂⟩ := popItem_bind_eq_ok h₁
      obtain rfl := Option.some.inj (pure_eq_ok.mp h₂)
      rw [hequal]
      exact .equal
    split at h
    · rename_i hverify
      obtain ⟨a, s₁, rfl, h₁⟩ := popItem_bind_eq_ok h
      obtain ⟨b, s₂, rfl, h₂⟩ := popItem_bind_eq_ok h₁
      have h₃ := pure_eq_ok.mp h₂
      split at h₃
      · rename_i hab
        obtain rfl := Option.some.inj h₃
        rw [← show a = b from hab, hverify]
        exact .equalVerify
      · cases h₃
    split at h
    · rename_i hhash
      obtain ⟨item, s₁, rfl, h₁⟩ := popItem_bind_eq_ok h
      obtain rfl := Option.some.inj (pure_eq_ok.mp h₁)
      rw [hhash]
      exact .hash160
    split at h
    · rename_i hcheck
      obtain ⟨pubkey, s₁, rfl, h₁⟩ := popItem_bind_eq_ok h
      obtain ⟨signature, s₂, rfl, h₂⟩ := popItem_bind_eq_ok h₁
      have h₃ := pure_eq_ok.mp h₂
      split at h₃
      · rename_i hvalid
        obtain rfl := Option.some.inj h₃
        rw [hcheck]
        exact .checkSig hvalid
      · cases h₃
    split at h
    · rename_i hmulti
      obtain ⟨count, threshold, pubkeys, signatures, rest, rfl, hkeys, hmax, hm, hle,
          hsigned, rfl⟩ :=
        checkMultisig_eq_some.mp h
      rw [hmulti]
      exact .checkMultisig hkeys hmax hm hle hsigned
    · -- any other opcode ends the script
      cases pure_eq_ok.mp h
  · intro h
    unfold execOp
    dsimp only
    cases h with
    | push hpush =>
      cases hpush with
      | data hdata =>
        rw [if_pos hdata]
        rfl
      | number hlow hhigh =>
        -- a small number is past every opcode that pushes data
        have hnot : ¬ (opcode ≤ OP_PUSHBYTES_MAX ∨ opcode = OP_PUSHDATA1 ∨
            opcode = OP_PUSHDATA2) := by
          rintro (hle | rfl | rfl)
          · exact absurd (UInt8.le_trans hlow hle) (by decide)
          · exact absurd hlow (by decide)
          · exact absurd hlow (by decide)
        rw [if_neg hnot, if_pos ⟨hlow, hhigh⟩]
        rfl
    | dup =>
      rw [if_neg (by decide), if_neg (by decide), if_pos rfl]
      rfl
    | equal =>
      rw [if_neg (by decide), if_neg (by decide), if_neg (by decide), if_pos rfl]
      rfl
    | @equalVerify _ a =>
      rw [if_neg (by decide), if_neg (by decide), if_neg (by decide), if_neg (by decide),
        if_pos rfl, popItem, ok_bind]
      dsimp only
      rw [popItem, ok_bind]
      dsimp only
      rw [if_pos rfl]
      rfl
    | hash160 =>
      rw [if_neg (by decide), if_neg (by decide), if_neg (by decide), if_neg (by decide),
        if_neg (by decide), if_pos rfl]
      rfl
    | checkSig hvalid =>
      rw [if_neg (by decide), if_neg (by decide), if_neg (by decide), if_neg (by decide),
        if_neg (by decide), if_neg (by decide), if_pos rfl, popItem, ok_bind]
      dsimp only
      rw [popItem, ok_bind]
      dsimp only
      rw [if_pos hvalid]
      rfl
    | checkMultisig hkeys hmax hm hle hsigned =>
      rw [if_neg (by decide), if_neg (by decide), if_neg (by decide), if_neg (by decide),
        if_neg (by decide), if_neg (by decide), if_neg (by decide), if_pos rfl]
      exact checkMultisig_eq_some.mpr
        ⟨_, _, _, _, _, rfl, hkeys, hmax, hm, hle, hsigned, rfl⟩

/-- A run of the interpreter is a run within the limit of operations. -/
theorem execOps_eq_some {digest : Bytes} {index : Nat} {ops : List ScriptOp}
    {stack stack' : List Bytes} :
    execOps digest index ops stack = .ok (some stack') ↔
      (ops ≠ [] → index + ops.length ≤ MAX_SCRIPT_OPS + 1) ∧ ScriptRun digest stack ops stack' := by
  -- the limit is checked at every step with the index of the operation
  induction ops generalizing index stack with
  | nil =>
    constructor
    · intro h
      obtain rfl := Option.some.inj (pure_eq_ok.mp h)
      exact ⟨fun hne => absurd rfl hne, .nil⟩
    · rintro ⟨-, hrun⟩
      cases hrun
      rfl
  | cons op ops ih =>
    unfold execOps
    constructor
    · intro h
      split at h
      · cases pure_eq_ok.mp h
      rename_i hindex
      obtain ⟨outcome, hop, h₁⟩ := bind_eq_ok.mp h
      cases outcome with
      | none => cases pure_eq_ok.mp h₁
      | some next =>
        dsimp only at h₁
        split at h₁
        · cases pure_eq_ok.mp h₁
        rename_i hsize
        obtain ⟨hbound, hrun⟩ := ih.mp h₁
        refine ⟨fun _ => ?_, .cons (execOp_eq_some.mp hop) (Nat.not_lt.mp hsize) hrun⟩
        rw [List.length_cons]
        cases ops with
        | nil =>
          rw [List.length_nil]
          omega
        | cons op' ops' =>
          have hle := hbound (List.cons_ne_nil _ _)
          omega
    · rintro ⟨hbound, hrun⟩
      have hle := hbound (List.cons_ne_nil _ _)
      rw [List.length_cons] at hle
      cases hrun with
      | cons hstep hsize hrest =>
        rw [if_neg (by omega), execOp_eq_some.mpr hstep, ok_bind]
        dsimp only
        rw [if_neg (Nat.not_lt.mpr hsize)]
        exact ih.mpr ⟨fun _ => by omega, hrest⟩

/-! ## What leaves a run -/

/-- The script decodes and runs to the end, to a stack. -/
def Completes (digest script : Bytes) (arguments stack : List Bytes) : Prop :=
  ∃ ops, decodeOps script = .ok ops ∧ ops.length ≤ MAX_SCRIPT_OPS ∧
    ScriptRun digest arguments.reverse ops stack

/-- The run reaches an `OP_DUP`, and the stack is empty there. -/
def DupsEmpty (digest script : Bytes) (arguments : List Bytes) : Prop :=
  ∃ before data after, decodeOps script = .ok (before ++ (OP_DUP, data) :: after) ∧
    before.length < MAX_SCRIPT_OPS ∧ ScriptRun digest arguments.reverse before []

theorem runScript_eq_some {script digest : Bytes} {arguments stack : List Bytes} :
    runScript script arguments digest = .ok (some stack) ↔
      Completes digest script arguments stack := by
  unfold runScript Completes
  rw [bind_eq_ok]
  refine exists_congr fun ops => and_congr_right fun _ => ?_
  rw [execOps_eq_some]
  refine and_congr_left fun _ => ⟨fun h => ?_, fun h _ => by omega⟩
  cases ops with
  | nil => exact Nat.zero_le _
  | cons op ops =>
    have hle := h (List.cons_ne_nil op ops)
    omega

theorem execOp_dup_empty {digest data : Bytes} :
    execOp digest [] (OP_DUP, data) = .error (.index "list index out of range") := by
  unfold execOp
  dsimp only
  rw [if_neg (by decide), if_neg (by decide), if_pos rfl]

/-- The operations raise `IndexError` where an `OP_DUP` meets an empty stack. -/
theorem execOps_error_iff {digest : Bytes} {index : Nat} {ops : List ScriptOp}
    {stack : List Bytes} :
    execOps digest index ops stack = .error (.index "list index out of range") ↔
      ∃ before data after, ops = before ++ (OP_DUP, data) :: after ∧
        index + before.length ≤ MAX_SCRIPT_OPS ∧ ScriptRun digest stack before [] := by
  induction ops generalizing index stack with
  | nil =>
    refine iff_of_false pure_ne_error ?_
    rintro ⟨before, data, after, hops, -⟩
    exact absurd hops.symm (List.append_ne_nil_of_right_ne_nil _ (List.cons_ne_nil _ _))
  | cons op ops ih =>
    unfold execOps
    constructor
    · intro h
      split at h
      · exact absurd h pure_ne_error
      rename_i hindex
      -- this operation raises, or it is done and a later one raises
      rcases bind_eq_error.mp h with hop | ⟨outcome, hop, h₁⟩
      · rcases execOp_error hop with hscript | ⟨hdup, rfl, -⟩
        · cases hscript
        · refine ⟨[], op.2, ops, by rw [← hdup]; rfl, ?_, .nil⟩
          rw [List.length_nil]
          omega
      · cases outcome with
        | none => exact absurd h₁ pure_ne_error
        | some next =>
          dsimp only at h₁
          split at h₁
          · exact absurd h₁ pure_ne_error
          rename_i hsize
          obtain ⟨before, data, after, rfl, hbound, hrun⟩ := ih.mp h₁
          refine ⟨op :: before, data, after, rfl, ?_,
            .cons (execOp_eq_some.mp hop) (Nat.not_lt.mp hsize) hrun⟩
          rw [List.length_cons]
          omega
    · rintro ⟨before, data, after, hops, hbound, hrun⟩
      cases hrun with
      | nil =>
        obtain ⟨rfl, rfl⟩ := List.cons.inj hops
        rw [List.length_nil] at hbound
        rw [if_neg (by omega), execOp_dup_empty]
        rfl
      | @cons _ next _ op' before hstep hsize hrest =>
        obtain ⟨rfl, rfl⟩ := List.cons.inj hops
        rw [List.length_cons] at hbound
        rw [if_neg (by omega), execOp_eq_some.mpr hstep, ok_bind]
        dsimp only
        rw [if_neg (Nat.not_lt.mpr hsize)]
        exact ih.mpr ⟨before, data, after, rfl, by omega, hrest⟩

/-- The interpreter raises exactly at such an `OP_DUP`. -/
theorem evaluateScript_error_iff {script digest : Bytes} {arguments : List Bytes} :
    (∃ e, evaluateScript script arguments digest = .error e) ↔
      DupsEmpty digest script arguments := by
  constructor
  · rintro ⟨e, h⟩
    obtain ⟨-, hrun⟩ := evaluateScript_error h
    rcases bind_eq_error.mp hrun with hdecode | ⟨ops, hdecode, hexec⟩
    · cases decodeOps_error hdecode
    · obtain ⟨before, data, after, rfl, hbound, hreach⟩ := execOps_error_iff.mp hexec
      exact ⟨before, data, after, hdecode, by omega, hreach⟩
  · rintro ⟨before, data, after, hdecode, hbound, hreach⟩
    refine ⟨.index "list index out of range", ?_⟩
    have hexec : execOps digest 1 (before ++ (OP_DUP, data) :: after) arguments.reverse =
        .error (.index "list index out of range") :=
      execOps_error_iff.mpr ⟨before, data, after, rfl, by omega, hreach⟩
    unfold evaluateScript runScript
    rw [hdecode, ok_bind, hexec]
    rfl

/-- A run succeeds exactly if it ends with a truthy item on top. -/
theorem evaluateScript_true_iff {script digest : Bytes} {arguments : List Bytes} :
    evaluateScript script arguments digest = .ok true ↔
      ∃ stack, Completes digest script arguments stack ∧ truthyTop stack = true := by
  unfold evaluateScript
  constructor
  · intro h
    split at h
    · cases h
    · rename_i stack hrun
      exact ⟨stack, runScript_eq_some.mp hrun, Except.ok.inj h⟩
    · split at h <;> cases h
  · rintro ⟨stack, hrun, htruthy⟩
    rw [runScript_eq_some.mpr hrun]
    exact congrArg Except.ok htruthy

/-- The interpreter returns a boolean, and `False` for a script without a complete run, exactly if
the run reaches no `OP_DUP` with an empty stack. -/
theorem evaluateScript_returns_iff (script : Bytes) (arguments : List Bytes) (digest : Bytes) :
    ((∃ b, evaluateScript script arguments digest = .ok b) ∧
      ((¬ ∃ stack, Completes digest script arguments stack) →
        evaluateScript script arguments digest = .ok false)) ↔
      ¬ DupsEmpty digest script arguments := by
  rw [← evaluateScript_error_iff]
  constructor
  · rintro ⟨⟨b, hb⟩, -⟩ ⟨e, he⟩
    rw [hb] at he
    cases he
  · intro hquiet
    have hreturns : ∃ b, evaluateScript script arguments digest = .ok b := by
      cases heval : evaluateScript script arguments digest with
      | ok b => exact ⟨b, rfl⟩
      | error e => exact absurd ⟨e, heval⟩ hquiet
    refine ⟨hreturns, fun hstuck => ?_⟩
    obtain ⟨b, hb⟩ := hreturns
    cases b with
    | false => exact hb
    | true =>
      obtain ⟨stack, hrun, -⟩ := evaluateScript_true_iff.mp hb
      exact absurd ⟨stack, hrun⟩ hstuck

end Meaning

section Instances

attribute [local instance] Sample.crypto

/-- A script that is a single `OP_DUP`, spent without arguments. -/
theorem evaluateScript_dup_alone :
    ¬ ∃ b, evaluateScript [OP_DUP] [] (List.replicate 32 0) = .ok b := by
  rintro ⟨b, hb⟩
  have hraises : evaluateScript [OP_DUP] [] (List.replicate 32 0) =
      .error (.index "list index out of range") := rfl
  rw [hraises] at hb
  cases hb

end Instances

end ScarletCoin
