import ScarletCoin.Core.Transaction

/-!
# Redeem scripts

The script language of `core/script.py`. A script is split into operations (`decodeOps`) and run
over a stack of byte strings that starts with the witness items after the script. The stack is a
list with its top first. An operation fails by ending the run with `False` (`none` below) or by
raising; the run turns a raised `ScriptError` into `False`, and every other exception leaves it.

The only exception that leaves a run is the `IndexError` of `OP_DUP` on an empty stack
(`evaluateScript_error`).
-/

set_option autoImplicit false

namespace ScarletCoin

open Toolkit

/-- Largest redeem script, in bytes. -/
def MAX_SCRIPT_SIZE : Nat := 520

/-- Most public keys of a multisig script. -/
def MAX_PUBKEYS : Nat := 15

/-- Largest stack a script may build. -/
def MAX_STACK_ITEMS : Nat := 20

/-- Most operations of one run. -/
def MAX_SCRIPT_OPS : Nat := 200

def OP_PUSHBYTES_MAX : UInt8 := 0x4B
def OP_PUSHDATA1 : UInt8 := 0x4C
def OP_PUSHDATA2 : UInt8 := 0x4D
def OP_1 : UInt8 := 0x51
def OP_16 : UInt8 := 0x60
def OP_DUP : UInt8 := 0x76
def OP_EQUAL : UInt8 := 0x87
def OP_EQUALVERIFY : UInt8 := 0x88
def OP_HASH160 : UInt8 := 0xA9
def OP_CHECKSIG : UInt8 := 0xAC
def OP_CHECKMULTISIG : UInt8 := 0xAE

/-- An operation: the opcode and the data it pushes. -/
abbrev ScriptOp := UInt8 × Bytes

/-- Split off the `length` bytes of a data push. -/
def takePush (length : Nat) (rest : Bytes) : Except PyError (Bytes × Bytes) :=
  if rest.length < length then
    .error (.script "script ends in the middle of a data push")
  else
    .ok (rest.take length, rest.drop length)

/-- The operation that starts at the opcode, and the bytes after it. -/
def decodeOp (opcode : UInt8) (rest : Bytes) : Except PyError (ScriptOp × Bytes) :=
  if opcode ≤ OP_PUSHBYTES_MAX then do
    let (data, rest) ← takePush opcode.toNat rest
    pure ((opcode, data), rest)
  else if opcode = OP_PUSHDATA1 then
    match rest with
    | [] => .error (.script "script ends after OP_PUSHDATA1")
    | length :: rest => do
        let (data, rest) ← takePush length.toNat rest
        pure ((opcode, data), rest)
  else if opcode = OP_PUSHDATA2 then
    match rest with
    | low :: high :: rest => do
        let (data, rest) ← takePush (leNat [low, high]) rest
        pure ((opcode, data), rest)
    | _ => .error (.script "script ends after OP_PUSHDATA2")
  else if opcode = OP_DUP ∨ opcode = OP_EQUAL ∨ opcode = OP_EQUALVERIFY ∨ opcode = OP_HASH160 ∨
      opcode = OP_CHECKSIG ∨ opcode = OP_CHECKMULTISIG ∨ (OP_1 ≤ opcode ∧ opcode ≤ OP_16) then
    .ok ((opcode, []), rest)
  else
    .error (.script s!"unknown script opcode {hexByte opcode}")

/-- The operations of the bytes that are left. Every round consumes an opcode, so the number of
bytes bounds the rounds. -/
def decodeOpsFrom : Nat → Bytes → Except PyError (List ScriptOp)
  | 0, _ => .ok []
  | _ + 1, [] => .ok []
  | fuel + 1, opcode :: rest => do
      let (op, rest) ← decodeOp opcode rest
      let ops ← decodeOpsFrom fuel rest
      pure (op :: ops)

/-- Split a script into its operations. -/
def decodeOps (script : Bytes) : Except PyError (List ScriptOp) := do
  raiseIf (MAX_SCRIPT_SIZE < script.length)
    (.script s!"script is {script.length} bytes, the limit is {MAX_SCRIPT_SIZE}")
  decodeOpsFrom script.length script

/-! ## Running a script -/

/-- Take the top item off the stack. -/
def popItem : List Bytes → Except PyError (Bytes × List Bytes)
  | [] => .error (.script "script tried to pop an empty stack")
  | item :: stack => .ok (item, stack)

/-- Take `n` items off the stack, the top one first. -/
def popItems : Nat → List Bytes → Except PyError (List Bytes × List Bytes)
  | 0, stack => .ok ([], stack)
  | n + 1, stack => do
      let (item, stack) ← popItem stack
      let (items, stack) ← popItems n stack
      pure (item :: items, stack)

/-- The number 1 to 16 that a one-byte item spells. -/
def smallInt : Bytes → Option Nat
  | [b] => if 1 ≤ b ∧ b ≤ 16 then some b.toNat else none
  | _ => none

variable [Crypto]

/-- Verify one signature against one public key. The handlers of the source catch everything that
parsing the key or verifying may raise. -/
def verifySignature (pubkey signature digest : Bytes) : Bool :=
  match PublicKey.fromBytes pubkey with
  | .error _ => false
  | .ok key =>
      match key.verify digest signature with
      | .error _ => false
      | .ok valid => valid

/-- The single pass of `OP_CHECKMULTISIG` over the keys: each signature is matched with the first
key that is left and verifies it. -/
def matchSignatures (digest : Bytes) : List Bytes → List Bytes → Bool
  | [], _ => true
  | _ :: _, [] => false
  | signature :: signatures, pubkey :: pubkeys =>
      if verifySignature pubkey signature digest then
        matchSignatures digest signatures pubkeys
      else
        matchSignatures digest (signature :: signatures) pubkeys

/-- `OP_CHECKMULTISIG`. -/
def checkMultisig (digest : Bytes) (stack : List Bytes) : Except PyError (Option (List Bytes)) := do
  let (countItem, stack) ← popItem stack
  match smallInt countItem with
  | none => pure none
  | some keyCount =>
      if MAX_PUBKEYS < keyCount then pure none
      else do
        let (pubkeys, stack) ← popItems keyCount stack
        let (thresholdItem, stack) ← popItem stack
        match smallInt thresholdItem with
        | none => pure none
        | some threshold =>
            if keyCount < threshold then pure none
            else do
              let (signatures, stack) ← popItems threshold stack
              if matchSignatures digest signatures.reverse pubkeys.reverse then
                pure (some ([1] :: stack))
              else
                pure none

/-- One operation on the stack: the new stack, or `none` when the run ends with `False`. -/
def execOp (digest : Bytes) (stack : List Bytes) (op : ScriptOp) :
    Except PyError (Option (List Bytes)) :=
  if op.1 ≤ OP_PUSHBYTES_MAX ∨ op.1 = OP_PUSHDATA1 ∨ op.1 = OP_PUSHDATA2 then
    pure (some (op.2 :: stack))
  else if OP_1 ≤ op.1 ∧ op.1 ≤ OP_16 then
    pure (some ([op.1 - OP_1 + 1] :: stack))
  else if op.1 = OP_DUP then
    -- `stack[-1]`, which is not guarded by `_pop`
    match stack with
    | [] => .error (.index "list index out of range")
    | item :: _ => pure (some (item :: stack))
  else if op.1 = OP_EQUAL then do
    let (a, stack) ← popItem stack
    let (b, stack) ← popItem stack
    pure (some ((if a = b then [1] else [0]) :: stack))
  else if op.1 = OP_EQUALVERIFY then do
    let (a, stack) ← popItem stack
    let (b, stack) ← popItem stack
    pure (if a = b then some stack else none)
  else if op.1 = OP_HASH160 then do
    let (item, stack) ← popItem stack
    pure (some ((hash160 item).val :: stack))
  else if op.1 = OP_CHECKSIG then do
    let (pubkey, stack) ← popItem stack
    let (signature, stack) ← popItem stack
    pure (if verifySignature pubkey signature digest then some ([1] :: stack) else none)
  else if op.1 = OP_CHECKMULTISIG then
    checkMultisig digest stack
  else
    pure none

/-- The operations from number `index` on. -/
def execOps (digest : Bytes) : Nat → List ScriptOp → List Bytes →
    Except PyError (Option (List Bytes))
  | _, [], stack => pure (some stack)
  | index, op :: ops, stack =>
      if MAX_SCRIPT_OPS < index then pure none
      else do
        match ← execOp digest stack op with
        | none => pure none
        | some stack =>
            if MAX_STACK_ITEMS < stack.length then pure none
            else execOps digest (index + 1) ops stack

/-- A run ends with a truthy item on top of the stack. -/
def truthyTop : List Bytes → Bool
  | [] => false
  | item :: _ => item.any (· ≠ 0)

/-- The guarded part of a run: decoding and executing. -/
def runScript (script : Bytes) (arguments : List Bytes) (digest : Bytes) :
    Except PyError (Option (List Bytes)) := do
  let ops ← decodeOps script
  execOps digest 1 ops arguments.reverse

/-- Run `script` with `arguments` pre-loaded on the stack. -/
def evaluateScript (script : Bytes) (arguments : List Bytes) (digest : Bytes) :
    Except PyError Bool :=
  match runScript script arguments digest with
  | .ok none => .ok false
  | .ok (some stack) => .ok (truthyTop stack)
  | .error e => if e.isScriptError then .ok false else .error e

/-! ## Exceptions of a run -/

/-- The exceptions that reach the handler of a run: `ScriptError`, and the `IndexError` of an
`OP_DUP` on an empty stack. -/
def IsRunError (e : PyError) : Prop :=
  e.isScriptError = true ∨ e = .index "list index out of range"

omit [Crypto] in
theorem takePush_error {n : Nat} {rest : Bytes} {e : PyError} (h : takePush n rest = .error e) :
    e.isScriptError = true := by
  unfold takePush at h
  split at h
  · rw [← Except.error.inj h]
    rfl
  · cases h

omit [Crypto] in
theorem takePush_bind_error {n : Nat} {rest : Bytes} {e : PyError} {opcode : UInt8}
    (h : (do let (data, rest) ← takePush n rest; pure ((opcode, data), rest) :
      Except PyError (ScriptOp × Bytes)) = .error e) : e.isScriptError = true := by
  rcases bind_eq_error.mp h with h | ⟨_, -, h⟩
  · exact takePush_error h
  · exact absurd h pure_ne_error

omit [Crypto] in
theorem decodeOp_error {opcode : UInt8} {rest : Bytes} {e : PyError}
    (h : decodeOp opcode rest = .error e) : e.isScriptError = true := by
  unfold decodeOp at h
  split at h
  · exact takePush_bind_error h
  split at h
  · split at h
    · rw [← Except.error.inj h]
      rfl
    · exact takePush_bind_error h
  split at h
  · split at h
    · exact takePush_bind_error h
    · rw [← Except.error.inj h]
      rfl
  split at h
  · cases h
  · rw [← Except.error.inj h]
    rfl

omit [Crypto] in
theorem decodeOpsFrom_error {fuel : Nat} {bs : Bytes} {e : PyError}
    (h : decodeOpsFrom fuel bs = .error e) : e.isScriptError = true := by
  induction fuel generalizing bs with
  | zero => cases h
  | succ fuel ih =>
    cases bs with
    | nil => cases h
    | cons opcode rest =>
      rcases bind_eq_error.mp h with hop | ⟨_, -, hrest⟩
      · exact decodeOp_error hop
      · rcases bind_eq_error.mp hrest with hops | ⟨_, -, hpure⟩
        · exact ih hops
        · exact absurd hpure pure_ne_error

omit [Crypto] in
theorem decodeOps_error {script : Bytes} {e : PyError} (h : decodeOps script = .error e) :
    e.isScriptError = true := by
  rcases raiseIf_bind_eq_error.mp h with ⟨-, rfl⟩ | ⟨-, h⟩
  · rfl
  · exact decodeOpsFrom_error h

omit [Crypto] in
theorem popItem_error {stack : List Bytes} {e : PyError} (h : popItem stack = .error e) :
    e.isScriptError = true := by
  cases stack with
  | nil =>
    rw [← Except.error.inj h]
    rfl
  | cons item stack => cases h

omit [Crypto] in
theorem popItems_error {n : Nat} {stack : List Bytes} {e : PyError}
    (h : popItems n stack = .error e) : e.isScriptError = true := by
  induction n generalizing stack with
  | zero => cases h
  | succ n ih =>
    rcases bind_eq_error.mp h with hpop | ⟨_, -, hrest⟩
    · exact popItem_error hpop
    · rcases bind_eq_error.mp hrest with hpops | ⟨_, -, hpure⟩
      · exact ih hpops
      · exact absurd hpure pure_ne_error

omit [Crypto] in
/-- What follows a pop raises, or the pop raised `ScriptError`. -/
theorem popItem_bind_error {α : Type} {stack : List Bytes} {e : PyError}
    {f : Bytes × List Bytes → Except PyError α} (h : (popItem stack >>= f) = .error e) :
    e.isScriptError = true ∨ ∃ p, f p = .error e := by
  rcases bind_eq_error.mp h with h | ⟨p, -, h⟩
  · exact .inl (popItem_error h)
  · exact .inr ⟨p, h⟩

theorem checkMultisig_error {digest : Bytes} {stack : List Bytes} {e : PyError}
    (h : checkMultisig digest stack = .error e) : e.isScriptError = true := by
  unfold checkMultisig at h
  rcases popItem_bind_error h with h | ⟨p, h⟩
  · exact h
  dsimp only at h
  split at h
  · exact absurd h pure_ne_error
  split at h
  · exact absurd h pure_ne_error
  rcases bind_eq_error.mp h with h | ⟨q, -, h⟩
  · exact popItems_error h
  rcases popItem_bind_error h with h | ⟨r, h⟩
  · exact h
  split at h
  · exact absurd h pure_ne_error
  split at h
  · exact absurd h pure_ne_error
  rcases bind_eq_error.mp h with h | ⟨s, -, h⟩
  · exact popItems_error h
  split at h <;> exact absurd h pure_ne_error

/-- An operation raises `ScriptError`, unless it is an `OP_DUP` on an empty stack. -/
theorem execOp_error {digest : Bytes} {stack : List Bytes} {op : ScriptOp} {e : PyError}
    (h : execOp digest stack op = .error e) :
    e.isScriptError = true ∨
      (op.1 = OP_DUP ∧ stack = [] ∧ e = .index "list index out of range") := by
  unfold execOp at h
  split at h
  · exact absurd h pure_ne_error
  split at h
  · exact absurd h pure_ne_error
  split at h
  · rename_i hdup
    split at h
    · exact .inr ⟨hdup, rfl, (Except.error.inj h).symm⟩
    · exact absurd h pure_ne_error
  -- every other operation fails with `ScriptError` only
  left
  split at h
  · rcases popItem_bind_error h with h | ⟨p, h⟩
    · exact h
    rcases popItem_bind_error h with h | ⟨q, h⟩
    · exact h
    · exact absurd h pure_ne_error
  split at h
  · rcases popItem_bind_error h with h | ⟨p, h⟩
    · exact h
    rcases popItem_bind_error h with h | ⟨q, h⟩
    · exact h
    · exact absurd h pure_ne_error
  split at h
  · rcases popItem_bind_error h with h | ⟨p, h⟩
    · exact h
    · exact absurd h pure_ne_error
  split at h
  · rcases popItem_bind_error h with h | ⟨p, h⟩
    · exact h
    rcases popItem_bind_error h with h | ⟨q, h⟩
    · exact h
    · exact absurd h pure_ne_error
  split at h
  · exact checkMultisig_error h
  · exact absurd h pure_ne_error

theorem execOps_error {digest : Bytes} {index : Nat} {ops : List ScriptOp} {stack : List Bytes}
    {e : PyError} (h : execOps digest index ops stack = .error e) : IsRunError e := by
  induction ops generalizing index stack with
  | nil => exact absurd h pure_ne_error
  | cons op ops ih =>
    unfold execOps at h
    split at h
    · exact absurd h pure_ne_error
    rcases bind_eq_error.mp h with hop | ⟨outcome, -, hrest⟩
    · exact (execOp_error hop).imp id fun hd => hd.2.2
    · cases outcome with
      | none => exact absurd hrest pure_ne_error
      | some stack' =>
        dsimp only at hrest
        split at hrest
        · exact absurd hrest pure_ne_error
        · exact ih hrest

/-- The only exception that leaves a run is the `IndexError` of `OP_DUP` on an empty stack. -/
theorem evaluateScript_error {script : Bytes} {arguments : List Bytes} {digest : Bytes}
    {e : PyError} (h : evaluateScript script arguments digest = .error e) :
    e = .index "list index out of range" ∧
      runScript script arguments digest = .error (.index "list index out of range") := by
  unfold evaluateScript at h
  split at h
  · cases h
  · cases h
  · rename_i e' hrun
    split at h
    · cases h
    · rename_i hscript
      obtain rfl := Except.error.inj h
      rcases bind_eq_error.mp hrun with hdecode | ⟨ops, -, hexec⟩
      · exact absurd (decodeOps_error hdecode) hscript
      · rcases execOps_error hexec with hs | hindex
        · exact absurd hs hscript
        · exact ⟨hindex, hindex ▸ hrun⟩

end ScarletCoin
