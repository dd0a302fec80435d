import ScarletCoin.Miner.Solver

/-!
# Native and Python scanning

The two scanners try the same hash (`solves_eq_meetsTarget`): the native one starts from the state
after the first block, writes the padding by hand and compares byte by byte. They differ in the
range. The loop in Python stops at `2 ^ 32`; the native one is given the range modulo `2 ^ 32` and
its nonces wrap. The results agree exactly as far as the wrap makes no difference
(`scanNonces_agree_iff`).
-/

set_option autoImplicit false

namespace ScarletCoin

open Toolkit

/-! ## The first number of a range -/

theorem firstFrom_eq_none {p : Nat → Bool} {left n : Nat} :
    firstFrom p left n = none ↔ ∀ k, n ≤ k → k < n + left → p k = false := by
  induction left generalizing n with
  | zero => exact ⟨fun _ k hle hlt => by omega, fun _ => rfl⟩
  | succ left ih =>
    rw [firstFrom]
    cases hn : p n with
    | true =>
      refine ⟨nofun, fun h => ?_⟩
      rw [h n (Nat.le_refl n) (by omega)] at hn
      cases hn
    | false =>
      rw [if_neg Bool.false_ne_true, ih]
      refine ⟨fun h k hle hlt => ?_, fun h k hle hlt => h k (by omega) (by omega)⟩
      rcases Nat.eq_or_lt_of_le hle with rfl | hlt'
      · exact hn
      · exact h k hlt' (by omega)

theorem firstFrom_eq_some {p : Nat → Bool} {left n k : Nat} :
    firstFrom p left n = some k ↔
      n ≤ k ∧ k < n + left ∧ p k = true ∧ ∀ m, n ≤ m → m < k → p m = false := by
  induction left generalizing n with
  | zero => exact ⟨nofun, fun ⟨hle, hlt, _⟩ => by omega⟩
  | succ left ih =>
    rw [firstFrom]
    cases hn : p n with
    | true =>
      rw [if_pos rfl, Option.some.injEq]
      refine ⟨?_, fun ⟨hle, _, _, hfirst⟩ => ?_⟩
      · rintro rfl
        exact ⟨Nat.le_refl n, by omega, hn, fun m hle hlt => by omega⟩
      · by_contra hne
        rw [hfirst n (Nat.le_refl n) (by omega)] at hn
        cases hn
    | false =>
      rw [if_neg Bool.false_ne_true, ih]
      constructor
      · rintro ⟨hle, hlt, hk, hfirst⟩
        refine ⟨by omega, by omega, hk, fun m hm hmk => ?_⟩
        rcases Nat.eq_or_lt_of_le hm with rfl | hm
        · exact hn
        · exact hfirst m hm hmk
      · rintro ⟨hle, hlt, hk, hfirst⟩
        have hne : n ≠ k := fun h => by rw [h, hk] at hn; cases hn
        exact ⟨by omega, by omega, hk, fun m hm hmk => hfirst m (by omega) hmk⟩

namespace ScanNonces

/-! ## SHA-256 -/

theorem ofNat_mod (v : Nat) : UInt8.ofNat (v % 256) = UInt8.ofNat v := by
  apply UInt8.toNat_inj.mp
  simp

/-- The eight bytes that end a block. -/
theorem writeBits_eq {block : Bytes} (h : block.length = 64) (bits : Nat) :
    writeBits block bits = block.take 56 ++ (leBytes 8 bits).reverse := by
  have hfront : (block.take 56).length = 56 := by
    rw [List.length_take, h]
    rfl
  have hback : (block.drop 56).length = 8 := by
    rw [List.length_drop, h]
  rw [← List.take_append_drop 56 block, List.take_left' hfront]
  generalize block.take 56 = front at hfront ⊢
  generalize block.drop 56 = back at hback ⊢
  match back, hback with
  | [b0, b1, b2, b3, b4, b5, b6, b7], _ =>
    have hrange : List.range 8 = [0, 1, 2, 3, 4, 5, 6, 7] := rfl
    simp [writeBits, hrange, List.set_append_right, hfront, leBytes, Nat.shiftRight_eq_div_pow,
      Nat.div_div_eq_div_mul, ofNat_mod]

/-- A marker at the end of a message, in a block of zeros. -/
theorem set_marker {rest : Bytes} (h : rest.length < 64) :
    (rest ++ List.replicate (64 - rest.length) 0).set rest.length 0x80 =
      rest ++ 0x80 :: List.replicate (63 - rest.length) 0 := by
  obtain ⟨n, hn⟩ : ∃ n, 64 - rest.length = n + 1 := ⟨63 - rest.length, by omega⟩
  have hn' : 63 - rest.length = n := by omega
  rw [hn, hn', List.replicate_succ, List.set_append_right _ _ (Nat.le_refl _), Nat.sub_self,
    List.set_cons_zero]

/-- The bits of a message that is not too long are counted without a wrap. -/
theorem reverse_leBytes_bits {length : Nat} (h : length < 2 ^ 61) :
    (leBytes 8 (length * 8 % 2 ^ 64)).reverse = MerkleDamgard.lengthBytes length := by
  rw [MerkleDamgard.lengthBytes, Nat.mod_eq_of_lt (by omega), Nat.mul_comm]

/-- The last block of a message with room for the length. -/
theorem lastBlock_of_short {rest : Bytes} (hshort : rest.length < 56) {length : Nat}
    (hlength : length < 2 ^ 61) :
    writeBits ((rest ++ List.replicate (64 - rest.length) 0).set rest.length 0x80)
        (length * 8 % 2 ^ 64) =
      rest ++ 0x80 ::
      (List.replicate (55 - rest.length) 0 ++ MerkleDamgard.lengthBytes length) := by
  have hblock : (rest ++ 0x80 :: List.replicate (63 - rest.length) (0 : UInt8)).length = 64 := by
    simp only [List.length_append, List.length_cons, List.length_replicate]
    omega
  have htake : (rest ++ 0x80 :: List.replicate (63 - rest.length) (0 : UInt8)).take 56 =
      rest ++ 0x80 :: List.replicate (55 - rest.length) 0 := by
    obtain ⟨n, hn⟩ : ∃ n, 56 - rest.length = n + 1 := ⟨55 - rest.length, by omega⟩
    rw [List.take_append, List.take_of_length_le (by omega), hn, List.take_succ_cons,
      List.take_replicate]
    congr 3
    omega
  rw [set_marker (by omega), writeBits_eq hblock, reverse_leBytes_bits hlength, htake,
    List.append_assoc, List.cons_append]

/-- The C function computes the standard construction over its compression function. -/
theorem sha256_eq_hash {data : Bytes} (hlength : data.length < 2 ^ 61) :
    sha256 data = MerkleDamgard.hash sha256Compress initial digestBytes data := by
  cases hwhole : MerkleDamgard.absorb sha256Compress (data.length / 64) initial data with
  | mk state rest =>
    have hrest := MerkleDamgard.rest_length hwhole
    unfold sha256
    rw [hwhole]
    dsimp only
    by_cases hlong : 56 ≤ rest.length
    · rw [if_pos hlong, MerkleDamgard.hash_eq_of_long hwhole hlong]
      dsimp only
      rw [set_marker (by omega), writeBits_eq List.length_replicate, reverse_leBytes_bits hlength,
        List.take_replicate]
      rfl
    · have hshort := Nat.not_le.mp hlong
      rw [if_neg hlong, MerkleDamgard.hash_eq_of_short hwhole hshort]
      dsimp only
      rw [lastBlock_of_short hshort hlength]

/-! ## The comparison -/

/-- The comparison from the highest byte down is that of the numbers. -/
theorem notAbove_eq {digest target : Bytes} {n : Nat} (hdigest : n ≤ digest.length)
    (htarget : n ≤ target.length) : notAbove digest target n =
      decide (leNat (digest.take n) ≤ leNat (target.take n)) := by
  induction n with
  | zero => rfl
  | succ n ih =>
    have hsplit : ∀ bytes : Bytes, n + 1 ≤ bytes.length →
        leNat (bytes.take (n + 1)) = leNat (bytes.take n) + 256 ^ n * (bytes.getD n 0).toNat := by
      intro bytes hlen
      rw [List.take_add_one, leNat_append, List.length_take, Nat.min_eq_left (by omega),
        List.getD_eq_getElem?_getD, List.getElem?_eq_getElem (by omega)]
      simp [leNat]
    have hbound : ∀ bytes : Bytes, leNat (bytes.take n) < 256 ^ n := fun bytes =>
      Nat.lt_of_lt_of_le (leNat_lt _)
        (Nat.pow_le_pow_right (by decide) (List.length_take_le n bytes))
    have hd := hbound digest
    have ht := hbound target
    rw [notAbove, hsplit digest hdigest, hsplit target htarget]
    generalize digest.getD n 0 = x
    generalize target.getD n 0 = y
    by_cases hlt : x < y
    · rw [if_pos hlt, eq_comm, decide_eq_true_eq]
      have hle := Nat.mul_le_mul_left (256 ^ n) (Nat.succ_le_of_lt (UInt8.lt_iff_toNat_lt.mp hlt))
      rw [Nat.mul_succ] at hle
      omega
    · by_cases hgt : y < x
      · rw [if_neg hlt, if_pos hgt, eq_comm, decide_eq_false_iff_not]
        have hle := Nat.mul_le_mul_left (256 ^ n) (Nat.succ_le_of_lt (UInt8.lt_iff_toNat_lt.mp hgt))
        rw [Nat.mul_succ] at hle
        omega
      · have heq : x = y := UInt8.le_antisymm (UInt8.not_lt.mp hgt) (UInt8.not_lt.mp hlt)
        rw [if_neg hlt, if_neg hgt, ih (by omega) (by omega), heq]
        exact decide_eq_decide.mpr ⟨fun h => by omega, fun h => by omega⟩

end ScanNonces

/-! ## Two ways through a range -/

section Range

variable (p : Nat → Bool) (start count : Nat)

/-- The loop that is given the range modulo `2 ^ 32`, with numbers that wrap. -/
def wrapped : Option Nat :=
  firstFrom (fun i => p ((start + i) % 2 ^ 32)) (count % 2 ^ 32) 0

/-- The loop that stops at `2 ^ 32`. -/
def clamped : Option Nat := firstFrom p (min (start + count) (2 ^ 32) - start) start

/-- Both loops come to one number, or to none after as many tries. -/
def SameOutcome : Prop :=
  (∃ i, wrapped p start count = some i ∧ clamped p start count = some ((start + i) % 2 ^ 32)) ∨
  (wrapped p start count = none ∧ clamped p start count = none ∧ start + count ≤ 2 ^ 32)

variable {p start count}

/-- What the wrapping loop finds before it wraps is what the other one finds. -/
theorem clamped_of_wrapped {i : Nat} (h : wrapped p start count = some i)
    (hwrap : start + i < 2 ^ 32) : clamped p start count = some ((start + i) % 2 ^ 32) := by
  obtain ⟨-, hlt, hp, hfirst⟩ := firstFrom_eq_some.mp h
  have hcount := Nat.mod_le count (2 ^ 32)
  refine firstFrom_eq_some.mpr ⟨by omega, by omega, hp, fun m hle hm => ?_⟩
  have hearlier := hfirst (m - start) (Nat.zero_le _) (by omega)
  rwa [show (start + (m - start)) % 2 ^ 32 = m by omega] at hearlier

/-- The loops come to the same as far as the wrap makes no difference. -/
theorem sameOutcome_iff : SameOutcome p start count ↔
    (start + count ≤ 2 ^ 32 ∧ count < 2 ^ 32) ∨
    (∃ n, start ≤ n ∧ n < 2 ^ 32 ∧ n - start < count % 2 ^ 32 ∧ p n = true) ∨
    (start = 0 ∧ count = 2 ^ 32 ∧ ∀ n, n < 2 ^ 32 → p n = false) := by
  constructor
  · rintro (⟨i, hwrapped, hclamped⟩ | ⟨-, hclamped, hrange⟩)
    · obtain ⟨-, hi, hp, -⟩ := firstFrom_eq_some.mp hwrapped
      obtain ⟨hle, hlt, -, -⟩ := firstFrom_eq_some.mp hclamped
      exact .inr (.inl ⟨_, hle, by omega, by omega, hp⟩)
    · rcases Nat.lt_or_ge count (2 ^ 32) with hcount | hcount
      · exact .inl ⟨hrange, hcount⟩
      · refine .inr (.inr ⟨by omega, by omega, fun n hn => ?_⟩)
        exact firstFrom_eq_none.mp hclamped n (by omega) (by omega)
  · rintro (⟨hrange, hcount⟩ | ⟨n, hle, hn, hreach, hp⟩ | ⟨rfl, rfl, hnone⟩)
    · cases hwrapped : wrapped p start count with
      | some i =>
        obtain ⟨-, hi, -, -⟩ := firstFrom_eq_some.mp hwrapped
        exact .inl ⟨i, hwrapped, clamped_of_wrapped hwrapped (by omega)⟩
      | none =>
        refine .inr ⟨hwrapped, firstFrom_eq_none.mpr fun k hk hlt => ?_, hrange⟩
        have hfails := firstFrom_eq_none.mp hwrapped (k - start) (Nat.zero_le _) (by omega)
        rwa [show (start + (k - start)) % 2 ^ 32 = k by omega] at hfails
    · have hindex : (start + (n - start)) % 2 ^ 32 = n := by omega
      cases hwrapped : wrapped p start count with
      | some i =>
        obtain ⟨-, hi, -, hfirst⟩ := firstFrom_eq_some.mp hwrapped
        refine .inl ⟨i, hwrapped, clamped_of_wrapped hwrapped ?_⟩
        by_contra hover
        have hfails := hfirst (n - start) (Nat.zero_le _) (by omega)
        rw [hindex, hp] at hfails
        cases hfails
      | none =>
        have hfails := firstFrom_eq_none.mp hwrapped (n - start) (Nat.zero_le _) (by omega)
        rw [hindex, hp] at hfails
        cases hfails
    · exact .inr ⟨rfl, firstFrom_eq_none.mpr fun k _ hk => hnone k (by omega), Nat.le_refl _⟩

end Range

/-! ## One header -/

section Headers

variable [Crypto]

/-- `hashlib` computes SHA-256 with the compression function of the native scanner. -/
def StandardSha256 : Prop :=
  ∀ data : Bytes, data.length < 2 ^ 61 → (sha256 data).val =
    MerkleDamgard.hash ScanNonces.sha256Compress ScanNonces.initial ScanNonces.digestBytes data

/-- From the state after the first 64 bytes of a header, the scanner comes to the hash of all. -/
theorem StandardSha256.inner (hsha : StandardSha256) {first rest : Bytes}
    (hfirst : first.length = 64) (hrest : rest.length = 16) :
    ScanNonces.digestBytes
      (ScanNonces.sha256Compress (ScanNonces.sha256Compress ScanNonces.initial first)
      (ScanNonces.writeBits ((rest ++ List.replicate 48 0).set 16 0x80) (80 * 8))) =
      (sha256 (first ++ rest)).val := by
  have hlength : (first ++ rest).length = 80 := by rw [List.length_append, hfirst, hrest]
  have habsorb : MerkleDamgard.absorb ScanNonces.sha256Compress ((first ++ rest).length / 64)
      ScanNonces.initial (first ++ rest) =
        (ScanNonces.sha256Compress ScanNonces.initial first, rest) := by
    rw [hlength, MerkleDamgard.absorb, MerkleDamgard.absorb, List.take_left' hfirst,
      List.drop_left' hfirst]
  have hshort : rest.length < 56 := by omega
  have hblock := ScanNonces.lastBlock_of_short hshort
    (show (first ++ rest).length < 2 ^ 61 by omega)
  rw [hsha _ (by omega), MerkleDamgard.hash_eq_of_short habsorb (by omega), ← hblock, hrest,
    hlength]
  rfl

/-- Both scanners try the same hash. -/
theorem solves_eq_meetsTarget (hsha : StandardSha256) {header : Bytes}
    (hheader : header.length = 80) {target : Nat} (htarget : target < 2 ^ 256) (nonce : Nat) :
    ScanNonces.solves (ScanNonces.sha256Compress ScanNonces.initial (header.take 64))
      ((header.drop 64).take 12) (leBytes 32 target) nonce = meetsTarget header target nonce := by
  have hfirst : (header.take 64).length = 64 := by
    rw [List.length_take]
    omega
  have hrest : ((header.drop 64).take 12 ++ leBytes 4 nonce).length = 16 := by
    rw [List.length_append, List.length_take, List.length_drop, leBytes_length]
    omega
  have hdigest : ∀ data : Bytes, (sha256 data).val.length = 32 := fun data => (sha256 data).property
  unfold ScanNonces.solves meetsTarget
  dsimp only
  rw [hsha.inner hfirst hrest, ScanNonces.sha256_eq_hash (by rw [hdigest]; decide),
    ← hsha _ (by rw [hdigest]; decide),
    ScanNonces.notAbove_eq (Nat.le_of_eq (hdigest _).symm)
    (Nat.le_of_eq (leBytes_length 32 target).symm),
    List.take_of_length_le (Nat.le_of_eq (hdigest _)),
    List.take_of_length_le (Nat.le_of_eq (leBytes_length 32 target)),
    leNat_leBytes_of_lt (by omega)]

/-- Every hash is at most the largest number of 32 bytes. -/
theorem meetsTarget_max (header : Bytes) (nonce : Nat) :
    meetsTarget header (2 ^ 256 - 1) nonce = true := by
  have hmax : ∀ h : Hash, leNat h.val ≤ 2 ^ 256 - 1 := fun h => by
    have hlt := leNat_lt h.val
    rw [h.property] at hlt
    omega
  exact decide_eq_true (hmax _)

/-! ## The range -/

/-- The least nonce of the range that meets the target. -/
def IsLeast (header : Bytes) (target : Nat) (start count : Int) (nonce : Nat) : Prop :=
  start ≤ nonce ∧ nonce < min (start + count) NONCE_LIMIT ∧ meetsTarget header target nonce = true ∧
    ∀ earlier : Nat, start ≤ earlier → earlier < nonce → meetsTarget header target earlier = false

/-- Both scanners give one result, with the least nonce of the range that meets the target. -/
def ScansAgree (header : Bytes) (target : Nat) (start count : Int) : Prop :=
  ∃ result, scanNonces true header target start count = .ok result ∧
    scanNonces false header target start count = .ok result ∧
    ∀ nonce, result.nonce = some nonce ↔ IsLeast header target start count nonce

/-- The wrap makes no difference: the range ends within `2 ^ 32` and is shorter, or it has a
solution that the native loop reaches before its nonces wrap, or it is all of the nonces and has no
solution. -/
def WrapsQuietly (header : Bytes) (target : Nat) (start count : Int) : Prop :=
  (start + count ≤ 2 ^ 32 ∧ count < 2 ^ 32) ∨
  (∃ nonce : Nat, start ≤ nonce ∧ nonce < 2 ^ 32 ∧ nonce - start < count % 2 ^ 32 ∧
    meetsTarget header target nonce = true) ∨
  (start = 0 ∧ count = 2 ^ 32 ∧ ∀ nonce : Nat, nonce < 2 ^ 32 →
    meetsTarget header target nonce = false)

/-- What the Python loop gives. -/
theorem scanNonces_python {header : Bytes} (hheader : header.length = 80) (target : Nat)
    (start count : Nat) : scanNonces false header target start count = .ok
      (match clamped (meetsTarget header target) start count with
      | some nonce => ⟨some nonce, nonce - start + 1⟩
      | none => ⟨none, min (start + count) (2 ^ 32) - start⟩) := by
  unfold scanNonces
  rw [raiseIf, if_neg (not_not.mpr hheader), raiseIf, if_neg (by omega)]
  simp only [ok_bind, Bool.false_eq_true, if_false]
  have hstop : min ((start : Int) + count) NONCE_LIMIT = (min (start + count) (2 ^ 32) : Nat) := by
    unfold NONCE_LIMIT
    omega
  have hleft : (((min (start + count) (2 ^ 32) : Nat) : Int) - start).toNat =
      min (start + count) (2 ^ 32) - start := Int.toNat_sub _ _
  rw [hstop, hleft, Int.toNat_natCast]
  unfold clamped
  cases firstFrom (meetsTarget header target) (min (start + count) (2 ^ 32) - start) start <;> rfl

/-- What the native scanner gives. -/
theorem scanNonces_native (hsha : StandardSha256) {header : Bytes} (hheader : header.length = 80)
    {target : Nat} (htarget : target < 2 ^ 256) (start count : Nat) :
    scanNonces true header target start count = .ok
      (match wrapped (meetsTarget header target) start count with
      | some i => ⟨some ((start + i) % 2 ^ 32), ((start + i) % 2 ^ 32 : Nat) - start + 1⟩
      | none => ⟨none, count⟩) := by
  unfold scanNonces
  rw [raiseIf, if_neg (not_not.mpr hheader), raiseIf, if_neg (by omega)]
  simp only [ok_bind, if_true]
  unfold ScanNonces.call
  rw [raiseIf, if_neg (by omega)]
  have hlow : ∀ n : Nat, ((n : Int) % 2 ^ 32).toNat = n % 2 ^ 32 := fun n => by omega
  simp only [ok_bind, hlow, ScanNonces.scarletScanNonces,
    solves_eq_meetsTarget hsha hheader htarget, Nat.mod_add_mod, wrapped]
  cases firstFrom (fun i => meetsTarget header target ((start + i) % 2 ^ 32))
      (count % 2 ^ 32) 0 with
  | none => rfl
  | some i =>
    have hfound : (0 : Int) ≤ ((start + i) % 2 ^ 32 : Nat) := Int.natCast_nonneg _
    simp only [pure_bind, hfound, if_true, Int.toNat_natCast]
    rfl

/-- The Python loop gives the least nonce that meets the target. -/
theorem clamped_eq_some {header : Bytes} {target start count nonce : Nat} :
    clamped (meetsTarget header target) start count = some nonce ↔
      IsLeast header target start count nonce := by
  rw [clamped, firstFrom_eq_some, IsLeast]
  unfold NONCE_LIMIT
  constructor
  · rintro ⟨hle, hlt, hmeets, hfirst⟩
    exact ⟨by omega, by omega, hmeets, fun m hm hmk => hfirst m (by omega) hmk⟩
  · rintro ⟨hle, hlt, hmeets, hfirst⟩
    exact ⟨by omega, by omega, hmeets, fun m hm hmk => hfirst m (by omega) hmk⟩

/-- The results are equal iff the loops come to the same. -/
theorem scansAgree_iff_sameOutcome (hsha : StandardSha256) {header : Bytes}
    (hheader : header.length = 80) {target : Nat} (htarget : target < 2 ^ 256) (start count : Nat) :
    ScansAgree header target start count ↔ SameOutcome (meetsTarget header target) start count := by
  have hpython := scanNonces_python hheader target start count
  have hnative := scanNonces_native hsha hheader htarget start count
  constructor
  · -- equal results find the same nonce, or find none and count the same hashes
    rintro ⟨result, htrue, hfalse, -⟩
    rw [hnative] at htrue
    rw [hpython] at hfalse
    have heq := (Except.ok.inj htrue).trans (Except.ok.inj hfalse).symm
    cases hwrapped : wrapped (meetsTarget header target) start count with
    | some i =>
      cases hclamped : clamped (meetsTarget header target) start count with
      | some nonce =>
        rw [hwrapped, hclamped] at heq
        refine .inl ⟨i, hwrapped, hclamped.trans ?_⟩
        exact (congrArg ScanResult.nonce heq).symm
      | none =>
        rw [hwrapped, hclamped] at heq
        cases congrArg ScanResult.nonce heq
    | none =>
      cases hclamped : clamped (meetsTarget header target) start count with
      | some nonce =>
        rw [hwrapped, hclamped] at heq
        cases congrArg ScanResult.nonce heq
      | none =>
        rw [hwrapped, hclamped] at heq
        have hhashes : (count : Int) = (min (start + count) (2 ^ 32) : Nat) - (start : Int) :=
          congrArg ScanResult.hashes heq
        exact .inr ⟨hwrapped, hclamped, by omega⟩
  · rintro (⟨i, hwrapped, hclamped⟩ | ⟨hwrapped, hclamped, hrange⟩)
    · refine ⟨_, hnative, ?_, fun nonce => ?_⟩
      · rw [hpython, hwrapped, hclamped]
      · rw [← clamped_eq_some, hwrapped, hclamped]
    · refine ⟨_, hnative, ?_, fun nonce => ?_⟩
      · have hhashes : (min (start + count) (2 ^ 32) : Nat) - (start : Int) = count := by omega
        rw [hpython, hwrapped, hclamped]
        simp only [hhashes]
      · rw [← clamped_eq_some, hwrapped, hclamped]

theorem wrapsQuietly_iff {header : Bytes} {target start count : Nat} :
    WrapsQuietly header target start count ↔
    SameOutcome (meetsTarget header target) start count := by
  rw [sameOutcome_iff, WrapsQuietly]
  refine or_congr (by omega) (or_congr (exists_congr fun nonce => ?_) (and_congr (by omega)
    (and_congr (by omega) Iff.rfl)))
  constructor
  · rintro ⟨hle, hlt, hreach, hmeets⟩
    exact ⟨by omega, hlt, by omega, hmeets⟩
  · rintro ⟨hle, hlt, hreach, hmeets⟩
    exact ⟨by omega, hlt, by omega, hmeets⟩

/-- Native and Python scanning agree exactly as far as the wrap of the nonces makes no
difference. -/
theorem scanNonces_agree_iff (hsha : StandardSha256) {header : Bytes} (hheader : header.length = 80)
    {target : Nat} (htarget : target < 2 ^ 256) {start count : Int} (hstart : 0 ≤ start)
    (hcount : 0 ≤ count) :
    ScansAgree header target start count ↔ WrapsQuietly header target start count := by
  obtain ⟨start, rfl⟩ := Int.eq_ofNat_of_zero_le hstart
  obtain ⟨count, rfl⟩ := Int.eq_ofNat_of_zero_le hcount
  exact (scansAgree_iff_sameOutcome hsha hheader htarget start count).trans wrapsQuietly_iff.symm

end Headers

section Instances

theorem Sample.digestBytes_length (s : ScanNonces.State) :
    (ScanNonces.digestBytes s).length = 32 := rfl

/-- SHA-256 with the compression function of the native scanner. -/
@[reducible] def Sample.standardCrypto : Crypto where
  sha256 data :=
    ⟨MerkleDamgard.hash ScanNonces.sha256Compress ScanNonces.initial ScanNonces.digestBytes
    data, Sample.digestBytes_length _⟩
  onCurve _ := true
  ecdsaVerify _ _ _ _ := true

attribute [local instance] Sample.standardCrypto

theorem Sample.standardSha256 : StandardSha256 := fun _ _ => rfl

/-- Ten nonces of a header of zeros, from the fifth on. -/
theorem scanNonces_agree_iff_ten : ScansAgree (List.replicate 80 0) 1000 5 10 :=
  (scanNonces_agree_iff Sample.standardSha256 List.length_replicate (by decide) (by decide)
    (by decide)).mpr (.inl ⟨by decide, by decide⟩)

/-- Asked for all of the nonces, the native scanner tries none: the first one already meets the
target, and it finds none of them. -/
theorem scanNonces_whole_range :
    scanNonces true (List.replicate 80 0) (2 ^ 256 - 1) 0 (2 ^ 32) = .ok ⟨none, 2 ^ 32⟩ ∧
    scanNonces false (List.replicate 80 0) (2 ^ 256 - 1) 0 (2 ^ 32) = .ok ⟨some 0, 1⟩ := by
  have hheader : (List.replicate 80 (0 : UInt8)).length = 80 := List.length_replicate
  have htarget : 2 ^ 256 - 1 < 2 ^ 256 := Nat.sub_one_lt (Nat.two_pow_pos 256).ne'
  have hnative := scanNonces_native Sample.standardSha256 hheader htarget 0 (2 ^ 32)
  have hpython := scanNonces_python hheader (2 ^ 256 - 1) 0 (2 ^ 32)
  have hwrapped : wrapped (meetsTarget (List.replicate 80 0) (2 ^ 256 - 1)) 0 (2 ^ 32) = none := by
    rw [wrapped, Nat.mod_self, firstFrom]
  have hclamped : clamped (meetsTarget (List.replicate 80 0) (2 ^ 256 - 1)) 0 (2 ^ 32) = some 0 :=
    firstFrom_eq_some.mpr ⟨Nat.le_refl 0, by decide, meetsTarget_max _ _,
      fun m _ hm => absurd hm (Nat.not_lt_zero m)⟩
  rw [hwrapped] at hnative
  rw [hclamped] at hpython
  exact ⟨hnative, hpython⟩

end Instances

end ScarletCoin
