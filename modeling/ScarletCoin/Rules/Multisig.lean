import ScarletCoin.Core.Multisig
import ScarletCoin.Rules.Scripts

/-!
# Spending multisig scripts

The two loops of `OP_CHECKMULTISIG` find an assignment of keys to signatures whenever there is one
(`multisigPass_iff`). So a script of `multisig_redeem` is spent by any signatures of its threshold,
as long as all that it puts on the stack fits there (`evaluateScript_multisigRedeem_iff`).
-/

set_option autoImplicit false

namespace ScarletCoin

open Toolkit

/-! ## The loops -/

section Loops

variable (verify : Bytes → Bytes → Bytes → Bool) (digest : Bytes) (pubkeys : List Bytes)

/-- The inner loop skips the keys that the greedy pass skips. -/
theorem greedyMatch_drop (signature : Bytes) (signatures : List Bytes) (keyIndex : Nat) :
    greedyMatch (fun s k => verify k s digest) (signature :: signatures) (pubkeys.drop keyIndex) =
      (decide (nextKey verify digest pubkeys signature keyIndex < pubkeys.length) &&
        greedyMatch (fun s k => verify k s digest) signatures
          (pubkeys.drop (nextKey verify digest pubkeys signature keyIndex + 1))) := by
  fun_induction nextKey verify digest pubkeys signature keyIndex with
  | case1 keyIndex hlt hvalid =>
    rw [List.drop_eq_getElem_cons hlt, greedyMatch, if_pos hvalid, decide_eq_true hlt,
      Bool.true_and]
  | case2 keyIndex hlt hvalid ih =>
    rw [List.drop_eq_getElem_cons hlt, greedyMatch, if_neg hvalid, ih]
  | case3 keyIndex hlt =>
    rw [List.drop_eq_nil_of_le (Nat.not_lt.mp hlt), decide_eq_false hlt]
    rfl

/-- The outer loop is the greedy pass over the keys that are left. -/
theorem matchLoop_eq (signatures : List Bytes) (matched keyIndex : Nat) :
    matchLoop verify digest pubkeys signatures matched keyIndex =
      if greedyMatch (fun s k => verify k s digest) signatures (pubkeys.drop keyIndex) = true then
        some (matched + signatures.length) else none := by
  induction signatures generalizing matched keyIndex with
  | nil => simp [matchLoop, greedyMatch]
  | cons signature signatures ih =>
    rw [greedyMatch_drop]
    unfold matchLoop
    dsimp only
    by_cases hlt : nextKey verify digest pubkeys signature keyIndex < pubkeys.length
    · rw [if_neg (Nat.not_le.mpr hlt), ih, decide_eq_true hlt, Bool.true_and, List.length_cons,
        Nat.add_assoc, Nat.add_comm 1]
    · rw [if_pos (Nat.not_lt.mp hlt), decide_eq_false hlt]
      rfl

theorem multisigPass_eq (signatures : List Bytes) :
    multisigPass verify digest signatures pubkeys =
      greedyMatch (fun s k => verify k s digest) signatures pubkeys := by
  unfold multisigPass
  rw [matchLoop_eq, List.drop_zero, Nat.zero_add]
  cases greedyMatch (fun s k => verify k s digest) signatures pubkeys <;> simp

end Loops

/-- The loops succeed exactly if the signatures can be given keys that verify them, in the order of
the keys and none of them twice. The interpreter runs them with the verification of signatures. -/
theorem multisigPass_iff [Crypto] (digest : Bytes) (signatures pubkeys : List Bytes) :
    (∀ verify : Bytes → Bytes → Bytes → Bool,
      multisigPass verify digest signatures pubkeys = true ↔
        ∃ f : Fin signatures.length ↪o Fin pubkeys.length,
          ∀ i, verify (pubkeys.get (f i)) (signatures.get i) digest = true) ∧
      matchSignatures digest signatures pubkeys =
        multisigPass verifySignature digest signatures pubkeys := by
  refine ⟨fun verify => ?_, ?_⟩
  · rw [multisigPass_eq, greedyMatch_iff]
    exact Iff.rfl
  · rw [multisigPass_eq, Bool.eq_iff_iff, matchSignatures_iff, greedyMatch_iff]
    exact Iff.rfl

/-! ## Decoding what was built -/

/-- The bytes spell the operations. -/
inductive SpellsOps : Bytes → List ScriptOp → Prop where
  | nil : SpellsOps [] []
  | cons {opcode : UInt8} {bytes rest : Bytes} {op : ScriptOp} {ops : List ScriptOp} :
      decodeOp opcode bytes = .ok (op, rest) → SpellsOps rest ops →
      SpellsOps (opcode :: bytes) (op :: ops)

theorem SpellsOps.decodeOpsFrom_eq {bytes : Bytes} {ops : List ScriptOp} (h : SpellsOps bytes ops)
    {fuel : Nat} (hfuel : ops.length ≤ fuel) : decodeOpsFrom fuel bytes = .ok ops := by
  induction h generalizing fuel with
  | nil => cases fuel <;> rfl
  | cons hop _ ih =>
    rw [List.length_cons] at hfuel
    obtain ⟨fuel, rfl⟩ : ∃ f, fuel = f + 1 := ⟨fuel - 1, by omega⟩
    rw [decodeOpsFrom, hop, ok_bind]
    dsimp only
    rw [ih (by omega), ok_bind]
    rfl

/-- The opcode of a small number. -/
def numberOp (n : Nat) : UInt8 := UInt8.ofNat (OP_1.toNat - 1 + n)

theorem numberOp_range {n : Nat} (hpos : 1 ≤ n) (hmax : n ≤ 16) :
    OP_1 ≤ numberOp n ∧ numberOp n ≤ OP_16 ∧ smallInt [numberOp n - OP_1 + 1] = some n := by
  have hall : ∀ m : Fin 17, 1 ≤ m.val → OP_1 ≤ numberOp m ∧ numberOp m ≤ OP_16 ∧
      smallInt [numberOp m - OP_1 + 1] = some m.val := by decide
  exact hall ⟨n, by omega⟩ hpos

theorem pushSmallInt_eq {value : Int} (hpos : 1 ≤ value) (hmax : value ≤ 16) :
    pushSmallInt value = .ok [numberOp value.toNat] := by
  unfold pushSmallInt
  rw [if_pos ⟨hpos, hmax⟩]
  rfl

theorem decodeOp_number {n : Nat} (hpos : 1 ≤ n) (hmax : n ≤ 16) (rest : Bytes) :
    decodeOp (numberOp n) rest = .ok ((numberOp n, []), rest) := by
  obtain ⟨hlow, hhigh, -⟩ := numberOp_range hpos hmax
  unfold decodeOp
  rw [if_neg fun hle => absurd (UInt8.le_trans hlow hle) (by decide),
    if_neg fun heq => absurd (heq ▸ hlow) (by decide),
    if_neg fun heq => absurd (heq ▸ hlow) (by decide), if_pos]
  exact .inr (.inr (.inr (.inr (.inr (.inr ⟨hlow, hhigh⟩)))))

theorem decodeOp_key {key : Bytes} (h : key.length = 33) (rest : Bytes) :
    decodeOp 33 (key ++ rest) = .ok ((33, key), rest) := by
  have hlength : (33 : UInt8).toNat = key.length := h.symm
  unfold decodeOp takePush
  rw [if_pos (by decide), hlength, if_neg (by rw [List.length_append]; omega), ok_bind]
  dsimp only
  rw [List.take_left, List.drop_left]
  rfl

section Keys

variable {pubkeys : List Bytes} (hlen : ∀ key ∈ pubkeys, key.length = 33)

include hlen

/-- A key of 33 bytes is pushed by its length. -/
theorem mapM_pushData : pubkeys.mapM pushData = .ok (pubkeys.map fun key => 33 :: key) := by
  induction pubkeys with
  | nil => rfl
  | cons key keys ih =>
    have hkey : pushData key = .ok (33 :: key) := by
      unfold pushData
      rw [hlen key List.mem_cons_self, if_pos (by decide)]
      rfl
    rw [List.mapM_cons, hkey, ok_bind, ih fun k hk => hlen k (List.mem_cons_of_mem key hk), ok_bind]
    rfl

theorem keyPushes_length :
    (pubkeys.map fun key => (33 : UInt8) :: key).flatten.length = 34 * pubkeys.length := by
  induction pubkeys with
  | nil => rfl
  | cons key keys ih =>
    rw [List.map_cons, List.flatten_cons, List.length_append, List.length_cons,
      ih fun k hk => hlen k (List.mem_cons_of_mem key hk), hlen key List.mem_cons_self,
      List.length_cons]
    omega

theorem SpellsOps.keys {bytes : Bytes} {ops : List ScriptOp} (h : SpellsOps bytes ops) :
    SpellsOps ((pubkeys.map fun key => (33 : UInt8) :: key).flatten ++ bytes)
      ((pubkeys.map fun key => ((33 : UInt8), key)) ++ ops) := by
  induction pubkeys with
  | nil => exact h
  | cons key keys ih =>
    rw [List.map_cons, List.flatten_cons, List.append_assoc, List.cons_append]
    exact .cons (decodeOp_key (hlen key List.mem_cons_self) _)
      (ih fun k hk => hlen k (List.mem_cons_of_mem key hk))

end Keys

/-- The operations of a multisig script. -/
def multisigOps (threshold : Nat) (pubkeys : List Bytes) : List ScriptOp :=
  (numberOp threshold, []) :: ((pubkeys.map fun key => ((33 : UInt8), key)) ++
    [(numberOp pubkeys.length, []), (OP_CHECKMULTISIG, [])])

/-- What `multisig_redeem` accepts, and the operations of the script it builds. -/
theorem multisigRedeem_eq_ok {pubkeys : List Bytes} {threshold : Int} {script : Bytes}
    (h : multisigRedeem pubkeys threshold = .ok script) :
    1 ≤ threshold.toNat ∧ threshold.toNat ≤ pubkeys.length ∧ pubkeys.length ≤ MAX_PUBKEYS ∧
      decodeOps script = .ok (multisigOps threshold.toNat pubkeys) := by
  obtain ⟨hkeys, h₁⟩ := raiseIf_bind_eq_ok.mp h
  obtain ⟨hrange, h₂⟩ := raiseIf_bind_eq_ok.mp h₁
  obtain ⟨⟨⟩, hcompressed, h₃⟩ := bind_eq_ok.mp h₂
  have hmax : pubkeys.length ≤ MAX_PUBKEYS := Nat.not_lt.mp fun hlt => hkeys (.inr hlt)
  have hfifteen : MAX_PUBKEYS = 15 := rfl
  obtain ⟨hlow, hhigh⟩ := not_not.mp hrange
  -- a compressed key is pushed by one byte for its length
  have hlen : ∀ key ∈ pubkeys, key.length = 33 := by
    intro key hkey
    have hraise := raiseIf_eq_ok.mp (forEach_eq_ok.mp hcompressed key hkey)
    have htrue : isCompressedKey key = true := (Bool.not_eq_false _).mp hraise
    unfold isCompressedKey at htrue
    rw [Bool.and_eq_true, beq_iff_eq] at htrue
    exact htrue.1
  rw [pushSmallInt_eq hlow (by omega), ok_bind, mapM_pushData hlen, ok_bind,
    pushSmallInt_eq (by omega) (by omega), ok_bind, Int.toNat_natCast] at h₃
  obtain rfl := pure_eq_ok.mp h₃
  refine ⟨by omega, by omega, hmax, ?_⟩
  have hend : SpellsOps ([numberOp pubkeys.length] ++ [OP_CHECKMULTISIG])
      [(numberOp pubkeys.length, []), (OP_CHECKMULTISIG, [])] :=
    .cons (decodeOp_number (by omega) (by omega) _) (.cons rfl .nil)
  have hall : SpellsOps ([numberOp threshold.toNat] ++ (pubkeys.map fun key => 33 :: key).flatten ++
      [numberOp pubkeys.length] ++ [OP_CHECKMULTISIG]) (multisigOps threshold.toNat pubkeys) := by
    rw [List.append_assoc, List.append_assoc]
    exact .cons (decodeOp_number (by omega) (by omega) _) (.keys hlen hend)
  -- fifteen keys stay below the limit on scripts
  have hsize : ([numberOp threshold.toNat] ++ (pubkeys.map fun key => 33 :: key).flatten ++
      [numberOp pubkeys.length] ++ [OP_CHECKMULTISIG]).length = 34 * pubkeys.length + 3 := by
    rw [List.length_append, List.length_append, List.length_append, keyPushes_length hlen,
      List.length_singleton, List.length_singleton, List.length_singleton]
    omega
  have hlimit : MAX_SCRIPT_SIZE = 520 := rfl
  refine raiseIf_bind_eq_ok.mpr ⟨by rw [hsize]; omega, hall.decodeOpsFrom_eq ?_⟩
  rw [hsize]
  unfold multisigOps
  rw [List.length_cons, List.length_append, List.length_map, List.length_cons,
    List.length_singleton]
  omega

/-! ## Running what was built -/

section Runs

variable [Crypto] {digest : Bytes}

/-- There is one step at most. -/
theorem ScriptStep.unique {op : ScriptOp} {stack s₁ s₂ : List Bytes}
    (h₁ : ScriptStep digest stack op s₁) (h₂ : ScriptStep digest stack op s₂) : s₁ = s₂ := by
  have heq := (execOp_eq_some.mpr h₁).symm.trans (execOp_eq_some.mpr h₂)
  exact Option.some.inj (Except.ok.inj heq)

/-- Pushes need room on the stack, and nothing else. -/
theorem scriptRun_pushes_iff {pushes ops : List ScriptOp} {items stack stack' : List Bytes}
    (h : List.Forall₂ Pushes pushes items) :
    ScriptRun digest stack (pushes ++ ops) stack' ↔
      (pushes ≠ [] → stack.length + pushes.length ≤ MAX_STACK_ITEMS) ∧
        ScriptRun digest (items.reverse ++ stack) ops stack' := by
  induction h generalizing stack with
  | nil => exact ⟨fun hrun => ⟨fun hne => absurd rfl hne, hrun⟩, fun hrun => hrun.2⟩
  | @cons op item pushes items hpush hpushes ih =>
    rw [List.cons_append, List.reverse_cons, List.append_assoc, List.singleton_append]
    constructor
    · intro hrun
      cases hrun with
      | cons hstep hsize hrest =>
        obtain rfl := hstep.unique (.push hpush)
        obtain ⟨hroom, hrun⟩ := ih.mp hrest
        refine ⟨fun _ => ?_, hrun⟩
        rw [List.length_cons] at hsize hroom ⊢
        cases pushes with
        | nil => exact hsize
        | cons op' pushes' =>
          have hle := hroom (List.cons_ne_nil _ _)
          omega
    · rintro ⟨hroom, hrun⟩
      have hle := hroom (List.cons_ne_nil _ _)
      rw [List.length_cons] at hle
      refine .cons (.push hpush) ?_ (ih.mpr ⟨fun _ => ?_, hrun⟩)
      · rw [List.length_cons]
        omega
      · rw [List.length_cons]
        omega

/-- Signatures of its threshold spend a multisig script exactly if they fit on the stack with the
keys and the two numbers. -/
theorem evaluateScript_multisigRedeem_iff {pubkeys signatures : List Bytes} {threshold : Int}
    {script : Bytes} (hbuilt : multisigRedeem pubkeys threshold = .ok script)
    (hcount : (signatures.length : Int) = threshold) (hsigned : Signed digest signatures pubkeys) :
    evaluateScript script signatures digest = .ok true ↔
      threshold.toNat + pubkeys.length + 2 ≤ MAX_STACK_ITEMS := by
  obtain ⟨hlow, hhigh, hmax, hops⟩ := multisigRedeem_eq_ok hbuilt
  have hfifteen : MAX_PUBKEYS = 15 := rfl
  have hlength : signatures.length = threshold.toNat := by omega
  obtain ⟨hm₁, hm₂, hm⟩ := numberOp_range hlow (by omega)
  obtain ⟨hn₁, hn₂, hn⟩ := numberOp_range (n := pubkeys.length) (by omega) (by omega)
  -- everything before the last operation is a push
  have hkeys : List.Forall₂ Pushes (pubkeys.map fun key => ((33 : UInt8), key)) pubkeys :=
    List.forall₂_map_left_iff.mpr (List.forall₂_same.mpr fun _ _ => .data (by decide))
  have hpushes : List.Forall₂ Pushes
      ((numberOp threshold.toNat, []) :: ((pubkeys.map fun key => ((33 : UInt8), key)) ++
        [(numberOp pubkeys.length, [])]))
      ([numberOp threshold.toNat - OP_1 + 1] ::
        (pubkeys ++ [[numberOp pubkeys.length - OP_1 + 1]])) :=
    .cons (.number hm₁ hm₂) (List.rel_append hkeys (.cons (.number hn₁ hn₂) .nil))
  have hsplit : multisigOps threshold.toNat pubkeys =
      ((numberOp threshold.toNat, []) :: ((pubkeys.map fun key => ((33 : UInt8), key)) ++
        [(numberOp pubkeys.length, [])])) ++ [(OP_CHECKMULTISIG, [])] := by
    unfold multisigOps
    simp only [List.cons_append, List.append_assoc, List.nil_append]
  have hstack : ([numberOp threshold.toNat - OP_1 + 1] ::
      (pubkeys ++ [[numberOp pubkeys.length - OP_1 + 1]])).reverse ++ signatures.reverse =
      [numberOp pubkeys.length - OP_1 + 1] :: (pubkeys.reverse ++
        [numberOp threshold.toNat - OP_1 + 1] :: (signatures.reverse ++ [])) := by
    simp only [List.reverse_cons, List.reverse_append, List.append_assoc, List.reverse_nil,
      List.nil_append, List.cons_append, List.append_nil]
  have hstep : ScriptStep digest ([numberOp pubkeys.length - OP_1 + 1] :: (pubkeys.reverse ++
      [numberOp threshold.toNat - OP_1 + 1] :: (signatures.reverse ++ [])))
      (OP_CHECKMULTISIG, []) [[1]] :=
    .checkMultisig hn hmax (hlength ▸ hm) (by omega) hsigned
  have hsize : (multisigOps threshold.toNat pubkeys).length ≤ MAX_SCRIPT_OPS := by
    have hlimit : MAX_SCRIPT_OPS = 200 := rfl
    rw [hsplit]
    simp only [List.length_append, List.length_cons, List.length_map, List.length_nil]
    omega
  have hroom : signatures.reverse.length + ((numberOp threshold.toNat, ([] : Bytes)) ::
      ((pubkeys.map fun key => ((33 : UInt8), key)) ++ [(numberOp pubkeys.length, [])])).length =
      threshold.toNat + pubkeys.length + 2 := by
    simp only [List.length_reverse, List.length_append, List.length_cons, List.length_map,
      List.length_nil]
    omega
  rw [evaluateScript_true_iff]
  constructor
  · rintro ⟨stack, ⟨ops, hdecoded, -, hrun⟩, -⟩
    rw [hops] at hdecoded
    obtain rfl := Except.ok.inj hdecoded
    rw [hsplit, scriptRun_pushes_iff hpushes] at hrun
    rw [← hroom]
    exact hrun.1 (List.cons_ne_nil _ _)
  · intro hfits
    refine ⟨[[1]], ⟨_, hops, hsize, ?_⟩, rfl⟩
    rw [hsplit, scriptRun_pushes_iff hpushes, hstack]
    refine ⟨fun _ => by rw [hroom]; exact hfits, .cons hstep ?_ .nil⟩
    exact Nat.succ_le_of_lt (by decide)

end Runs

section Instances

attribute [local instance] Sample.crypto

/-- A compressed key. -/
def sampleKey : Bytes := 2 :: List.replicate 32 0

/-- A digest, and a signature of it. -/
def sampleDigest : Bytes := leBytes 32 1

def sampleSignature : Bytes := (leBytes 32 1).reverse ++ (leBytes 32 1).reverse

theorem evaluateScript_multisigRedeem_two_of_three :
    ∃ script, multisigRedeem (List.replicate 3 sampleKey) 2 = .ok script ∧
      evaluateScript script (List.replicate 2 sampleSignature) sampleDigest = .ok true := by
  have hsigned : Signed sampleDigest (List.replicate 2 sampleSignature)
      (List.replicate 3 sampleKey) := matchSignatures_iff.mp (by decide +kernel)
  have hbuilt : (multisigRedeem (List.replicate 3 sampleKey) 2).toOption.isSome = true := by
    decide +kernel
  obtain ⟨script, hscript⟩ := Option.isSome_iff_exists.mp hbuilt
  exact ⟨script, toOption_eq_some.mp hscript,
    (evaluateScript_multisigRedeem_iff (toOption_eq_some.mp hscript) rfl hsigned).mpr (by decide)⟩

/-- Four signatures for fifteen keys do not fit on the stack: the script is built, the signatures
are good, and nothing spends it. -/
theorem multisigRedeem_unspendable :
    Signed sampleDigest (List.replicate 4 sampleSignature) (List.replicate 15 sampleKey) ∧
      (multisigRedeem (List.replicate 15 sampleKey) 4).toOption.any (fun script =>
        decide (evaluateScript script (List.replicate 4 sampleSignature) sampleDigest =
          .ok false)) = true :=
  ⟨matchSignatures_iff.mp (by decide +kernel), by decide +kernel⟩

end Instances

end ScarletCoin
