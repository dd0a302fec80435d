import Mathlib.Data.ZMod.Basic
import Mathlib.GroupTheory.OrderOfElement
import ScarletCoin.Wallet.Keystore
import ScarletCoin.Sample

/-!
# Extended keys

Key derivation of `crypto/bip32.py`: private children by adding scalars modulo the order of the
group, public children by adding points. The group and HMAC-SHA512 are library code; the class
`Secp256k1` takes them as parameters, with the order of the generator and the encoding of points. On
indices that are not hardened the two ways agree, and so they do along paths
(`ExtendedKey.derive_public_agree`). A wallet derives its keys from the master key of its seed
(`ExtendedKey.keyDerivation`).
-/

set_option autoImplicit false

namespace ScarletCoin

open Toolkit

/-- The exceptions of the module; `Bip32Error` derives from `ValueError`. -/
inductive Bip32Error where
  | bip32 (message : String)
  | value (message : String)
  | overflow (message : String)
  | malformedPoint
  deriving DecidableEq, Repr

/-- The exception as one of the wallet. Below a private key no point is malformed, since none is
read (`ExtendedKey.derive_private`). -/
def Bip32Error.raised : Bip32Error → PyError
  | bip32 message | value message => .value message
  | overflow message => .overflow message
  | malformedPoint => .runtime "Point does not lie on curve"

/-- The group of the curve, with the encoding of its points, and HMAC-SHA512. -/
class Secp256k1 where
  Point : Type
  group : AddCommGroup Point
  decEq : DecidableEq Point
  /-- `SECP256k1.generator`. -/
  generator : Point
  order : addOrderOf generator = CURVE_ORDER
  /-- `point.to_bytes(encoding="compressed")`. -/
  compress : Point → Bytes
  /-- `PointJacobi.from_bytes(SECP256k1.curve, data)`; `none` is a `MalformedPointError`. -/
  fromBytes : Bytes → Option Point
  length_compress : ∀ P, P ≠ 0 → (compress P).length = 33
  fromBytes_compress : ∀ P, P ≠ 0 → fromBytes (compress P) = some P
  /-- `hmac.new(key, data, hashlib.sha512).digest()`. -/
  hmac : Bytes → Bytes → { digest : Bytes // digest.length = 64 }

attribute [reducible] Secp256k1.group Secp256k1.decEq

attribute [instance] Secp256k1.group Secp256k1.decEq

/-- Indices from here on are hardened. -/
def HARDENED : Int := 2 ^ 31

/-- `_BIP32_SEED_KEY`, the text `Bitcoin seed`. -/
def BIP32_SEED_KEY : Bytes := [66, 105, 116, 99, 111, 105, 110, 32, 115, 101, 101, 100]

def MAINNET_XPRV : Bytes := [0x04, 0x88, 0xAD, 0xE4]

def MAINNET_XPUB : Bytes := [0x04, 0x88, 0xB2, 0x1E]

def TESTNET_XPRV : Bytes := [0x04, 0x35, 0x83, 0x94]

def TESTNET_XPUB : Bytes := [0x04, 0x35, 0x87, 0xCF]

/-- An extended private or public key: 32 bytes of a secret or 33 of a point, with a chain code. -/
structure ExtendedKey where
  key : Bytes
  chainCode : Bytes
  depth : Int
  index : Int
  parentFingerprint : Bytes
  version : Bytes
  key_length : key.length = 32 ∨ key.length = 33
  chainCode_length : chainCode.length = 32
  parentFingerprint_length : parentFingerprint.length = 4
  version_length : version.length = 4
  deriving DecidableEq

/-- A derivation path, as text or as indices. -/
inductive Path where
  | text (path : String)
  | indices (path : List Int)

/-- `index.to_bytes(4, "big")`. -/
def indexBytes (index : Int) : Except Bip32Error Bytes :=
  if index < 0 then .error (.overflow "can't convert negative int to unsigned")
  else if index < 2 ^ 32 then .ok (leBytes 4 index.toNat).reverse
  else .error (.overflow "int too big to convert")

/-- `_ckd_data`. -/
def ckdData (parentKey : Bytes) (index : Int) (hardened : Bool) : Except Bip32Error Bytes := do
  let bytes ← indexBytes index
  pure (if hardened then 0 :: parentKey ++ bytes else parentKey ++ bytes)

/-- One index of a path; a quote or `H` at its end hardens it. -/
def readIndex (part : String) : Except Bip32Error Int :=
  let hardened := "'".toList.isSuffixOf part.toList || "H".toList.isSuffixOf part.toList
  let digits := if hardened then String.ofList part.toList.dropLast else part
  match parseInt digits with
  | some n => .ok (if hardened then n + HARDENED else n)
  | none => .error (.value s!"invalid literal for int() with base 10: '{digits}'")

/-- The indices of a path. -/
def pathIndices : Path → Except Bip32Error (List Int)
  | .indices path => .ok path
  | .text path => do
    let parts := ((strip path).toList.splitOn '/').map String.ofList
    raiseIf (parts.head? ≠ some "m" ∧ parts.head? ≠ some "M")
      (.bip32 s!"path must start with 'm' or 'M', got '{path}'")
    (parts.tail.filter fun part => part ≠ "").mapM readIndex

namespace ExtendedKey

/-- `ExtendedKey(...)` checks the lengths of its parts. -/
def make (key chainCode : Bytes) (depth index : Int) (parentFingerprint version : Bytes) :
    Except Bip32Error ExtendedKey :=
  if hk : key.length = 32 ∨ key.length = 33 then
    if hc : chainCode.length = 32 then
      if hp : parentFingerprint.length = 4 then
        if hv : version.length = 4 then
          .ok ⟨key, chainCode, depth, index, parentFingerprint, version, hk, hc, hp, hv⟩
        else .error (.bip32 s!"version must be 4 bytes, got {version.length}")
      else .error (.bip32 s!"parent fingerprint must be 4 bytes, got {parentFingerprint.length}")
    else .error (.bip32 s!"chain code must be 32 bytes, got {chainCode.length}")
  else .error (.bip32 s!"key must be 32 or 33 bytes, got {key.length}")

variable (k : ExtendedKey)

/-- Whether the key carries a secret. -/
def isPrivate : Bool := k.key.length == 32

/-- The version bytes of the public counterpart. -/
def publicVersion : Bytes :=
  if k.version = TESTNET_XPRV ∨ k.version = TESTNET_XPUB then TESTNET_XPUB else MAINNET_XPUB

section Derivation

variable [Crypto] [Secp256k1]

open Secp256k1

/-- `_hmac_split`. -/
def hmacSplit (chainCode data : Bytes) : Nat × Bytes :=
  let digest := (hmac chainCode data).val
  (beNat (digest.take 32), digest.drop 32)

/-- The point of a key, in compressed form. -/
def publicKeyBytes : Bytes := if k.isPrivate then compress (beNat k.key • generator) else k.key

def fingerprint : Bytes := (hash256 k.publicKeyBytes).val.take 4

/-- The public counterpart of a key. -/
def toPublic : Except Bip32Error ExtendedKey :=
  make k.publicKeyBytes k.chainCode k.depth k.index k.parentFingerprint k.publicVersion

/-- The text of a tweak that is out of range. -/
def tweakError (il : Nat) : Bip32Error :=
  .bip32 (("IL (0x" ++ String.ofList (Nat.toDigits 16 il)) ++
    ") >= curve order; increment i and retry. This is extremely rare.")

def ckdPriv (index : Int) (hardened : Bool) : Except Bip32Error ExtendedKey := do
  let parentPriv := beNat k.key
  let data ← ckdData (if hardened then k.key else k.publicKeyBytes) index hardened
  let il := (hmacSplit k.chainCode data).1
  let ir := (hmacSplit k.chainCode data).2
  raiseIf (CURVE_ORDER ≤ il) (tweakError il)
  let childPriv := (il + parentPriv) % CURVE_ORDER
  raiseIf (childPriv = 0)
    (.bip32 "derived private key is zero; increment i and retry. This is extremely rare.")
  make (scalarBytes childPriv) ir (k.depth + 1) index k.fingerprint k.version

def pointOfBytes (data : Bytes) : Except Bip32Error Point :=
  match fromBytes data with
  | some point => .ok point
  | none => .error .malformedPoint

def ckdPub (index : Int) : Except Bip32Error ExtendedKey := do
  raiseIf (HARDENED ≤ index) (.bip32 "cannot derive a hardened child from a public extended key")
  let data ← ckdData k.key index false
  let il := (hmacSplit k.chainCode data).1
  let ir := (hmacSplit k.chainCode data).2
  raiseIf (CURVE_ORDER ≤ il) (tweakError il)
  let parentPoint ← pointOfBytes k.key
  let childPoint := il • generator + parentPoint
  raiseIf (childPoint = 0)
    (.bip32 "derived public key is the point at infinity; increment i and retry.")
  make (compress childPoint) ir (k.depth + 1) index k.fingerprint k.publicVersion

/-- The child of a key. -/
def derive (index : Int) : Except Bip32Error ExtendedKey := do
  let hardened := decide (HARDENED ≤ index)
  raiseIf (hardened = true ∧ k.isPrivate = false)
    (.bip32 "cannot derive a hardened child from a public extended key")
  if k.isPrivate then k.ckdPriv index hardened else k.ckdPub index

/-- The key at the end of a path. -/
def derivePath (path : Path) : Except Bip32Error ExtendedKey := do
  let indices ← pathIndices path
  indices.foldlM (fun key index => key.derive index) k

/-- The secret of a key. -/
def privateKeyBytes : Except Bip32Error Bytes :=
  if k.isPrivate then .ok k.key
  else .error (.bip32 "this is a public extended key and carries no private key")

/-- The master key of a seed. -/
def seedToMaster (seed : Bytes) (mainnet : Bool) : Except Bip32Error ExtendedKey :=
  let digest := (hmac BIP32_SEED_KEY seed).val
  make (digest.take 32) (digest.drop 32) 0 0 [0, 0, 0, 0] (if mainnet then MAINNET_XPRV
    else TESTNET_XPRV)

/-- The secret at the end of a path below a seed. -/
def secretAt (seed : Bytes) (mainnet : Bool) (path : String) : Except Bip32Error Bytes := do
  let master ← seedToMaster seed mainnet
  let key ← master.derivePath (.text path)
  key.privateKeyBytes

/-- Keys of a wallet are derived from the master key of its seed. -/
instance keyDerivation : KeyDerivation where
  derive seed mainnet path := do
    let secret ← (secretAt seed mainnet path).mapError Bip32Error.raised
    PrivateKey.fromBytes secret

end Derivation

/-! ## Parts of a key -/

variable {k : ExtendedKey} {key chainCode parentFingerprint version : Bytes} {depth index : Int}

theorem make_eq_ok (hk : key.length = 32 ∨ key.length = 33) (hc : chainCode.length = 32)
    (hp : parentFingerprint.length = 4) (hv : version.length = 4) :
    make key chainCode depth index parentFingerprint version =
      .ok ⟨key, chainCode, depth, index, parentFingerprint, version, hk, hc, hp, hv⟩ := by
  rw [make, dif_pos hk, dif_pos hc, dif_pos hp, dif_pos hv]

theorem publicVersion_length (k : ExtendedKey) : k.publicVersion.length = 4 := by
  unfold publicVersion
  split <;> rfl

/-- Public versions are their own. -/
theorem publicVersion_idem {q : ExtendedKey} (h : q.version = k.publicVersion) :
    q.publicVersion = k.publicVersion := by
  rw [publicVersion, h]
  unfold publicVersion
  split
  · rw [if_pos (.inr rfl)]
  · rw [if_neg (by decide)]

theorem publicVersion_congr {q : ExtendedKey} (h : q.version = k.version) :
    q.publicVersion = k.publicVersion := by
  rw [publicVersion, h]
  rfl

/-- A private key whose scalar is within the order of the group. -/
structure IsScalar (k : ExtendedKey) : Prop where
  length : k.key.length = 32
  pos : 1 ≤ beNat k.key
  lt : beNat k.key < CURVE_ORDER

theorem beNat_scalarBytes {n : Nat} (h : n < CURVE_ORDER) : beNat (scalarBytes n) = n := by
  rw [scalarBytes, beNat, List.reverse_reverse]
  exact leNat_leBytes_of_lt (h.trans (by decide))

section Derivation

variable [Crypto] [Secp256k1]

open Secp256k1

omit [Crypto] in
/-- A multiple of the generator vanishes where the order divides it. -/
theorem smul_generator_eq_zero_iff {n : Nat} :
    n • (generator : Point) = 0 ↔ n % CURVE_ORDER = 0 := by
  rw [← addOrderOf_dvd_iff_nsmul_eq_zero, order, Nat.dvd_iff_mod_eq_zero]

omit [Crypto] in
theorem mod_smul_generator (n : Nat) : (n % CURVE_ORDER) • (generator : Point) = n • generator := by
  rw [← order, mod_addOrderOf_nsmul]

omit [Crypto] in
theorem IsScalar.point_ne_zero (h : k.IsScalar) : beNat k.key • (generator : Point) ≠ 0 := by
  rw [Ne, smul_generator_eq_zero_iff, Nat.mod_eq_of_lt h.lt]
  exact Nat.one_le_iff_ne_zero.mp h.pos

omit [Crypto] [Secp256k1] in
theorem IsScalar.isPrivate_eq (h : k.IsScalar) : k.isPrivate = true := beq_iff_eq.mpr h.length

omit [Crypto] in
theorem IsScalar.publicKeyBytes_eq (h : k.IsScalar) :
    k.publicKeyBytes = compress (beNat k.key • generator) := by
  rw [publicKeyBytes, if_pos h.isPrivate_eq]

omit [Crypto] in
/-- The public counterpart exists, and is public. -/
theorem IsScalar.exists_public (h : k.IsScalar) : ∃ q, k.toPublic = .ok q ∧
    q.key = compress (beNat k.key • generator) ∧ q.chainCode = k.chainCode ∧ q.depth = k.depth ∧
    q.version = k.publicVersion ∧ q.isPrivate = false := by
  have hlength := length_compress _ h.point_ne_zero
  rw [toPublic, h.publicKeyBytes_eq, make_eq_ok (.inr hlength) k.chainCode_length
    k.parentFingerprint_length k.publicVersion_length]
  refine ⟨_, rfl, rfl, rfl, rfl, rfl, ?_⟩
  rw [isPrivate, hlength]
  rfl

/-- One derivation, taken public, is the other, and they raise together. -/
def Agree (x y : Except Bip32Error ExtendedKey) : Prop :=
  (∀ child, x = .ok child → ∃ q, child.toPublic = .ok q ∧ y = .ok q) ∧
    ∀ e, x = .error e → ∃ e', y = .error e'

omit [Crypto] in
theorem agree_errors (e e' : Bip32Error) : Agree (.error e) (.error e') :=
  ⟨fun _ h => (nomatch h), fun _ _ => ⟨e', rfl⟩⟩

omit [Crypto] in
theorem agree_keys {q : ExtendedKey} (h : k.toPublic = .ok q) : Agree (.ok k) (.ok q) :=
  ⟨fun _ hc => ⟨q, Except.ok.inj hc ▸ h, rfl⟩, fun _ he => (nomatch he)⟩

omit [Crypto] in
theorem hmacSplit_length (chainCode data : Bytes) : (hmacSplit chainCode data).2.length = 32 := by
  rw [hmacSplit]
  dsimp only
  rw [List.length_drop, (hmac chainCode data).property]

theorem fingerprint_length (k : ExtendedKey) : k.fingerprint.length = 4 := by
  rw [fingerprint, List.length_take, (hash256 k.publicKeyBytes).property]
  rfl

/-- Below a private key all keys are private, and no point is read. -/
theorem derive_private (h : k.isPrivate = true) (index : Int) :
    (∃ child, k.derive index = .ok child ∧ child.isPrivate = true) ∨
      ∃ e, k.derive index = .error e ∧ e ≠ .malformedPoint := by
  have hcalled : k.derive index = k.ckdPriv index (decide (HARDENED ≤ index)) := by
    unfold derive
    dsimp only
    rw [raiseIf, if_neg (by rw [h]; exact fun hboth => Bool.false_ne_true hboth.2.symm), ok_bind,
      if_pos h]
  rw [hcalled, ckdPriv]
  generalize hdata :
    ckdData (if decide (HARDENED ≤ index) = true then k.key else k.publicKeyBytes) index
    (decide (HARDENED ≤ index)) = data
  cases data with
  | error e =>
    refine .inr ⟨e, rfl, ?_⟩
    -- the data of a child raises for its index only
    rintro rfl
    unfold ckdData indexBytes at hdata
    split at hdata
    · cases hdata
    · split at hdata <;> cases hdata
  | ok data =>
    rw [ok_bind]
    dsimp only
    rw [raiseIf]
    split
    · exact .inr ⟨_, rfl, Bip32Error.noConfusion⟩
    · rw [ok_bind, raiseIf]
      split
      · exact .inr ⟨_, rfl, Bip32Error.noConfusion⟩
      · rw [ok_bind, make_eq_ok (.inl (scalarBytes_length _)) (hmacSplit_length _ _)
          k.fingerprint_length k.version_length]
        exact .inl ⟨_, rfl, beq_iff_eq.mpr (scalarBytes_length _)⟩

theorem derive_of_normal (hindex : index < HARDENED) :
    k.derive index = if k.isPrivate then k.ckdPriv index false else k.ckdPub index := by
  rw [derive, decide_eq_false (not_le.mpr hindex)]
  rfl

/-- How a private child is derived at an index that is not hardened. -/
theorem IsScalar.derive_cases (h : k.IsScalar) (hindex : index < HARDENED) :
    (∃ e, indexBytes index = .error e ∧ k.derive index = .error e) ∨
    ∃ bytes il ir, indexBytes index = .ok bytes ∧
      hmacSplit k.chainCode (k.publicKeyBytes ++ bytes) = (il, ir) ∧
      ((CURVE_ORDER ≤ il ∧ k.derive index = .error (tweakError il)) ∨
       (il < CURVE_ORDER ∧ (il + beNat k.key) % CURVE_ORDER = 0 ∧ ∃ e, k.derive index = .error e) ∨
       (il < CURVE_ORDER ∧ (il + beNat k.key) % CURVE_ORDER ≠ 0 ∧
          ∃ child, k.derive index = .ok child ∧
          child.key = scalarBytes ((il + beNat k.key) % CURVE_ORDER) ∧ child.chainCode = ir ∧
          child.depth = k.depth + 1 ∧ child.index = index ∧
          child.parentFingerprint = k.fingerprint ∧ child.version = k.version)) := by
  rw [derive_of_normal hindex, if_pos h.isPrivate_eq, ckdPriv]
  cases hbytes : indexBytes index with
  | error e => exact .inl ⟨e, rfl, by rw [ckdData, hbytes]; rfl⟩
  | ok bytes =>
    have hdata : ckdData k.publicKeyBytes index false = .ok (k.publicKeyBytes ++ bytes) := by
      rw [ckdData, hbytes]
      rfl
    have hir := hmacSplit_length k.chainCode (k.publicKeyBytes ++ bytes)
    cases hsplit : hmacSplit k.chainCode (k.publicKeyBytes ++ bytes) with
    | mk il ir =>
    rw [hsplit] at hir
    refine .inr ⟨bytes, il, ir, rfl, hsplit, ?_⟩
    rw [if_neg Bool.false_ne_true, hdata, ok_bind, hsplit]
    dsimp only
    by_cases htweak : CURVE_ORDER ≤ il
    · exact .inl ⟨htweak, by rw [raiseIf, if_pos htweak]; rfl⟩
    · rw [raiseIf, if_neg htweak, ok_bind, raiseIf]
      by_cases hzero : (il + beNat k.key) % CURVE_ORDER = 0
      · rw [if_pos hzero]
        exact .inr (.inl ⟨not_le.mp htweak, hzero, _, rfl⟩)
      · rw [if_neg hzero, ok_bind, make_eq_ok (.inl (scalarBytes_length _)) hir k.fingerprint_length
          k.version_length]
        exact .inr (.inr ⟨not_le.mp htweak, hzero, _, rfl, rfl, rfl, rfl, rfl, rfl, rfl⟩)

/-- Children of a scalar are scalars. -/
theorem IsScalar.child (h : k.IsScalar) (hindex : index < HARDENED) {child : ExtendedKey}
    (hchild : k.derive index = .ok child) : child.IsScalar := by
  rcases h.derive_cases hindex with ⟨e, -, he⟩ |
    ⟨bytes, il, ir, -, -, ⟨-, he⟩ | ⟨-, -, e, he⟩ | ⟨-, hne, child', hok, hkey, -⟩⟩
  · rw [he] at hchild
    cases hchild
  · rw [he] at hchild
    cases hchild
  · rw [he] at hchild
    cases hchild
  · obtain rfl := Except.ok.inj (hok.symm.trans hchild)
    have hlt := Nat.mod_lt (il + beNat k.key) (show 0 < CURVE_ORDER by decide)
    have hvalue : beNat child'.key = (il + beNat k.key) % CURVE_ORDER := by
      rw [hkey, beNat_scalarBytes hlt]
    refine ⟨by rw [hkey, scalarBytes_length], ?_, ?_⟩
    · rw [hvalue]
      exact Nat.one_le_iff_ne_zero.mpr hne
    · rw [hvalue]
      exact hlt

/-- A child that is derived in private and taken public is derived in public. -/
theorem IsScalar.derive_agree (h : k.IsScalar) {q : ExtendedKey} (hq : k.toPublic = .ok q)
    (hindex : index < HARDENED) : Agree (k.derive index) (q.derive index) := by
  obtain ⟨q', hq', hkey, hchain, hdepth, hversion, hpublic⟩ := h.exists_public
  obtain rfl := Except.ok.inj (hq'.symm.trans hq)
  have hbytes : q'.publicKeyBytes = k.publicKeyBytes := by
    rw [publicKeyBytes, hpublic, if_neg Bool.false_ne_true, hkey, h.publicKeyBytes_eq]
  have hfingerprint : q'.fingerprint = k.fingerprint := by rw [fingerprint, hbytes, fingerprint]
  have hderive : q'.derive index = q'.ckdPub index := by
    rw [derive_of_normal hindex, hpublic, if_neg Bool.false_ne_true]
  rw [hderive, ckdPub, raiseIf, if_neg (not_le.mpr hindex), ok_bind, hkey, ← h.publicKeyBytes_eq]
  rcases h.derive_cases hindex with ⟨e, he, hprivate⟩ |
    ⟨bytes, il, ir, hok, hsplit, hcases⟩
  · rw [hprivate, ckdData, he]
    exact agree_errors e e
  · have hdata : ckdData k.publicKeyBytes index false = .ok (k.publicKeyBytes ++ bytes) := by
      rw [ckdData, hok]
      rfl
    have hpoint : pointOfBytes k.publicKeyBytes = .ok (beNat k.key • generator) := by
      rw [pointOfBytes, h.publicKeyBytes_eq, fromBytes_compress _ h.point_ne_zero]
    -- adding the tweak to the scalar is adding its multiple to the point
    have hsum : il • generator + beNat k.key • generator =
        (il + beNat k.key) • (generator : Point) :=
      (add_nsmul _ _ _).symm
    rw [hdata, ok_bind, hchain, hsplit, hpoint]
    dsimp only
    -- the tweak is too large, the sum vanishes, or there is a child on both sides
    rcases hcases with ⟨htweak, hprivate⟩ | ⟨htweak, hzero, e, hprivate⟩ |
      ⟨htweak, hne, child, hprivate, hchild, hir, hchildDepth, hchildIndex, hparent, hchildVersion⟩
    · rw [hprivate, raiseIf, if_pos htweak]
      exact agree_errors _ _
    · rw [hprivate, raiseIf, if_neg (not_le.mpr htweak), ok_bind, ok_bind, hsum, raiseIf,
        if_pos (smul_generator_eq_zero_iff.mpr hzero)]
      exact agree_errors _ _
    · have hpointNe : (il + beNat k.key) • (generator : Point) ≠ 0 :=
        fun hz => hne (smul_generator_eq_zero_iff.mp hz)
      have hscalar := h.child hindex hprivate
      have hlt := Nat.mod_lt (il + beNat k.key) (show 0 < CURVE_ORDER by decide)
      have hsame : child.toPublic =
          make (compress ((il + beNat k.key) • generator)) ir (q'.depth + 1) index
          q'.fingerprint q'.publicVersion := by
        rw [toPublic, hscalar.publicKeyBytes_eq, hchild, beNat_scalarBytes hlt,
          mod_smul_generator, hir, hchildDepth, hchildIndex, hparent, hdepth, hfingerprint,
          publicVersion_congr hchildVersion, publicVersion_idem hversion]
      obtain ⟨q, hpub, -⟩ := hscalar.exists_public
      rw [hprivate, raiseIf, if_neg (not_le.mpr htweak), ok_bind, ok_bind, hsum, raiseIf,
        if_neg hpointNe, ok_bind, ← hsame, hpub]
      exact agree_keys hpub

/-- The same along a path. -/
theorem IsScalar.derive_path_agree (h : k.IsScalar) {q : ExtendedKey} (hq : k.toPublic = .ok q)
    {indices : List Int} (hindices : ∀ i ∈ indices, i < HARDENED) :
    Agree (indices.foldlM (fun key index => key.derive index) k)
      (indices.foldlM (fun key index => key.derive index) q) := by
  induction indices generalizing k q with
  | nil => exact agree_keys hq
  | cons i is ih =>
    have hi := hindices i List.mem_cons_self
    obtain ⟨hagree, hraise⟩ := h.derive_agree hq hi
    rw [List.foldlM_cons, List.foldlM_cons]
    cases hstep : k.derive i with
    | error e =>
      obtain ⟨e', he'⟩ := hraise e hstep
      rw [he']
      exact agree_errors e e'
    | ok child =>
      obtain ⟨q', hq', hok⟩ := hagree child hstep
      rw [hok, ok_bind, ok_bind]
      exact ih (h.child hi hstep) hq' fun j hj => hindices j (List.mem_cons_of_mem i hj)

/-- A key with a scalar has a public counterpart, and deriving a child at an index that is not
hardened, or a key along a path of such indices, commutes with taking it; the two raise together. -/
theorem derive_public_agree (h : k.IsScalar) : ∃ q, k.toPublic = .ok q ∧
    (∀ index, index < HARDENED → Agree (k.derive index) (q.derive index)) ∧
    ∀ path, (∀ indices, pathIndices path = .ok indices → ∀ i ∈ indices, i < HARDENED) →
      Agree (k.derivePath path) (q.derivePath path) := by
  obtain ⟨q, hq, -⟩ := h.exists_public
  refine ⟨q, hq, fun index hindex => h.derive_agree hq hindex, fun path hpath => ?_⟩
  rw [derivePath, derivePath]
  cases hindices : pathIndices path with
  | error e => exact agree_errors e e
  | ok indices => exact h.derive_path_agree hq (hpath indices hindices)

end Derivation

end ExtendedKey

/-! ## A group -/

namespace Sample

instance : NeZero CURVE_ORDER := ⟨by decide⟩

/-- The 33 bytes of a residue. -/
def residueBytes (P : ZMod CURVE_ORDER) : Bytes := (leBytes 33 P.val).reverse

theorem residueBytes_length (P : ZMod CURVE_ORDER) (_ : P ≠ 0) : (residueBytes P).length = 33 := by
  rw [residueBytes, List.length_reverse, leBytes_length]

theorem residueBytes_read (P : ZMod CURVE_ORDER) (_ : P ≠ 0) :
    some ((beNat (residueBytes P) : Nat) : ZMod CURVE_ORDER) = some P := by
  have hlt : P.val < 256 ^ 33 := (ZMod.val_lt P).trans (by decide)
  rw [residueBytes, beNat, List.reverse_reverse, leNat_leBytes_of_lt hlt, ZMod.natCast_zmod_val]

theorem residue_zero_mul (P : ZMod CURVE_ORDER) : ((0 : Nat) : ZMod CURVE_ORDER) * P = 0 := by
  rw [Nat.cast_zero, zero_mul]

theorem residue_succ_mul (n : Nat) (P : ZMod CURVE_ORDER) :
    ((n + 1 : Nat) : ZMod CURVE_ORDER) * P = n * P + P := by
  rw [Nat.cast_succ, add_mul, one_mul]

/-- The residues modulo the order, where a multiple is one product. -/
@[reducible] def residueGroup : AddCommGroup (ZMod CURVE_ORDER) :=
  { (inferInstance : AddCommGroup (ZMod CURVE_ORDER)) with
    nsmul := fun n P => n * P
    nsmul_zero := residue_zero_mul
    nsmul_succ := residue_succ_mul }

/-- A code of 64 bytes that depends on all bytes of the key and of the data. -/
def mix (key data : Bytes) : Nat := (leNat key + 1) * (leNat data + 257) ^ 2 % (2 ^ 512 - 569)

/-- The residues modulo the order, and a polynomial for a code. -/
@[reducible] def residues : Secp256k1 where
  Point := ZMod CURVE_ORDER
  group := residueGroup
  decEq := inferInstance
  generator := 1
  order := ZMod.addOrderOf_one CURVE_ORDER
  compress := residueBytes
  fromBytes data := some (beNat data : Nat)
  length_compress := residueBytes_length
  fromBytes_compress := residueBytes_read
  hmac key data := ⟨leBytes 64 (mix key data), leBytes_length 64 _⟩

theorem one_isScalar : 1 ≤ beNat (scalarBytes 1) ∧ beNat (scalarBytes 1) < CURVE_ORDER := by
  rw [ExtendedKey.beNat_scalarBytes (by decide)]
  decide

theorem noChainCode_length : (List.replicate 32 (0 : UInt8)).length = 32 := by decide

/-- A master key of the test network. -/
def master : ExtendedKey where
  key := scalarBytes 1
  chainCode := List.replicate 32 0
  depth := 0
  index := 0
  parentFingerprint := [0, 0, 0, 0]
  version := TESTNET_XPRV
  key_length := .inl (scalarBytes_length 1)
  chainCode_length := noChainCode_length
  parentFingerprint_length := rfl
  version_length := rfl

end Sample

section Instances

attribute [local instance] Sample.crypto Sample.residues

/-- A child of the master key, another key than the master's, and a grandchild. -/
theorem ExtendedKey.derive_public_agree_master : ∃ q child, Sample.master.toPublic = .ok q ∧
    q.derive 7 = .ok child ∧ child.key ≠ q.key ∧ Agree (Sample.master.derive 7) (.ok child) ∧
    Agree (Sample.master.derivePath (.text "m/7/1")) (q.derivePath (.text "m/7/1")) := by
  have hscalar : Sample.master.IsScalar :=
    ⟨scalarBytes_length 1, Sample.one_isScalar.1, Sample.one_isScalar.2⟩
  have hpath : ∀ indices, pathIndices (.text "m/7/1") = .ok indices → ∀ i ∈ indices,
      i < HARDENED := by
    intro indices h
    have hread : pathIndices (.text "m/7/1") = .ok [7, 1] := by decide +kernel
    obtain rfl := Except.ok.inj (hread.symm.trans h)
    decide
  obtain ⟨q, hq, hchild, hpaths⟩ := derive_public_agree hscalar
  have hderived : (Sample.master.toPublic.toOption.any fun q =>
      (q.derive 7).toOption.any fun child => child.key ≠ q.key) = true := by
    decide +kernel
  rw [hq, Except.toOption, Option.any_some] at hderived
  obtain ⟨child, hok, hne⟩ := (Option.any_eq_true _ _).mp hderived
  have hok := toOption_eq_some.mp hok
  exact ⟨q, child, hq, hok, of_decide_eq_true hne, hok ▸ hchild 7 (by decide), hpaths _ hpath⟩

end Instances

end ScarletCoin
