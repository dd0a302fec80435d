import ScarletCoin.Toolkit.Codec

/-!
# Exceptions, digests and keys

The exceptions of the node with the texts they carry, the digests of `crypto/hashing.py` and the
public keys of `crypto/keys.py`. SHA-256 and the curve are library code; the class `Crypto` takes
them as parameters, so everything below holds for any hash function and any signature scheme.

An exception class that derives from another is caught by a handler for that other class;
`PyError.isValidationError` is the handler for `ValidationError`.
-/

set_option autoImplicit false

namespace ScarletCoin

open Toolkit

/-! ## Digests as values -/

/-- A 32-byte digest. -/
abbrev Hash := { b : Bytes // b.length = 32 }

/-- A 20-byte payload of an output: the digest of a public key or of a script. -/
abbrev PubkeyHash := { b : Bytes // b.length = 20 }

/-- A byte string whose length a compact-size integer can spell. -/
abbrev Blob := { b : Bytes // b.length < 2 ^ 64 }

/-- The digest of 32 zero bytes, the parent of genesis and the transaction of a null outpoint. -/
def nullHash : Hash := ⟨List.replicate 32 0, List.length_replicate⟩

/-- A lower-case hexadecimal digit. -/
def hexDigit (n : Nat) : Char := Nat.digitChar n

/-- `bytes.hex`: two hexadecimal digits a byte. -/
def hex (bs : Bytes) : String :=
  String.ofList (bs.flatMap fun b => [hexDigit (b.toNat / 16), hexDigit (b.toNat % 16)])

/-- A digest in display order: the bytes reversed, in hexadecimal. -/
def displayHex (h : Hash) : String := hex h.val.reverse

/-- The format `#010x` of a 32-bit number. -/
def hexBits (n : Nat) : String :=
  String.ofList ('0' :: 'x' :: (List.range 8).reverse.map fun i => hexDigit (n / 16 ^ i % 16))

/-- The format `#04x` of a byte. -/
def hexByte (b : UInt8) : String := String.ofList ['0', 'x'] ++ hex [b]

/-! ## Exceptions -/

/-- The exceptions the modelled code raises, with their texts. `unending` is no exception: it marks
a `while` loop that never ends. -/
inductive PyError where
  | validation (message : String)
  | missingInput (message : String)
  | prematureBlock (message : String)
  | connect (blockHash : Hash) (message : String)
  | mempool (message : String)
  | transaction (message : String)
  | block (message : String)
  | auxPoW (message : String)
  | serialization (message : String)
  | script (message : String)
  | invalidKey (message : String)
  | invalidSignature (message : String)
  | value (message : String)
  | storage (message : String)
  | key (message : String)
  | index (message : String)
  | struct (message : String)
  | overflow (message : String)
  | memory (message : String)
  | runtime (message : String)
  | base58 (message : String)
  | insufficientFunds (message : String)
  | wallet (message : String)
  | unending
  deriving DecidableEq, Repr

namespace PyError

/-- `str(exc)`. -/
def message : PyError → String
  | validation m | missingInput m | prematureBlock m | connect _ m | mempool m | transaction m
  | block m | auxPoW m | serialization m | script m | invalidKey m | invalidSignature m | value m
  | storage m | key m | index m | struct m | overflow m | memory m | runtime m | base58 m
  | insufficientFunds m | wallet m => m
  | unending => ""

/-- Caught by `except ValidationError`: the class itself and the four that derive from it. -/
def isValidationError : PyError → Bool
  | validation _ | missingInput _ | prematureBlock _ | connect _ _ | mempool _ => true
  | _ => false

/-- Caught by `except ScriptError`. -/
def isScriptError : PyError → Bool
  | script _ => true
  | _ => false

/-- Caught by `except ValueError`: the structural errors all derive from it. -/
def isValueError : PyError → Bool
  | transaction _ | block _ | auxPoW _ | serialization _ | script _ | invalidKey _
  | invalidSignature _ | value _ | base58 _ | insufficientFunds _ => true
  | _ => false

end PyError

/-! ## Hash functions -/

/-- SHA-256 and the secp256k1 operations of the `cryptography` package. -/
class Crypto where
  /-- `hashlib.sha256(data).digest()`. -/
  sha256 : Bytes → Hash
  /-- `EllipticCurvePublicKey.from_encoded_point` accepts the 33 bytes. -/
  onCurve : Bytes → Bool
  /-- `key.verify` accepts the signature `(r, s)` of the digest. -/
  ecdsaVerify : Bytes → Nat → Nat → Bytes → Bool

variable [Crypto]

/-- SHA-256. -/
def sha256 (data : Bytes) : Hash := Crypto.sha256 data

/-- Double SHA-256. -/
def hash256 (data : Bytes) : Hash := sha256 (sha256 data).val

/-- The first 20 bytes of the double SHA-256. -/
def hash160 (data : Bytes) : PubkeyHash :=
  ⟨(hash256 data).val.take 20, by rw [List.length_take, (hash256 data).property]; rfl⟩

/-! ## Public keys -/

/-- Length of a compressed public key. -/
def PUBLIC_KEY_LENGTH : Nat := 33

/-- Length of a signature. -/
def SIGNATURE_LENGTH : Nat := 64

/-- Order of the secp256k1 group. -/
def CURVE_ORDER : Nat := 0xFFFFFFFFFFFFFFFFFFFFFFFFFFFFFFFEBAAEDCE6AF48A03BBFD25E8CD0364141

/-- Half of the group order: the largest canonical `s`. -/
def HALF_ORDER : Nat := CURVE_ORDER / 2

/-- The shape of a compressed key: 33 bytes, the first of them 2 or 3. -/
def isCompressedKey (data : Bytes) : Bool :=
  data.length == PUBLIC_KEY_LENGTH && (data.head? == some 2 || data.head? == some 3)

/-- A compressed secp256k1 public key: the bytes are those of a point on the curve. -/
structure PublicKey where
  data : Bytes
  compressed : isCompressedKey data = true
  point : Crypto.onCurve data = true

/-- Parse a 33-byte compressed public key. -/
def PublicKey.fromBytes (data : Bytes) : Except PyError PublicKey :=
  if hc : isCompressedKey data = true then
    if hp : Crypto.onCurve data = true then
      .ok ⟨data, hc, hp⟩
    else
      .error (.invalidKey "public key is not a valid curve point")
  else
    .error (.invalidKey "public key must be 33 bytes in compressed SEC1 form")

/-- The digest committed to by addresses and outputs. -/
def PublicKey.hash160 (key : PublicKey) : PubkeyHash := ScarletCoin.hash160 key.data

/-- Whether `signature` is a canonical signature of `digest`. -/
def PublicKey.verify (key : PublicKey) (digest signature : Bytes) : Except PyError Bool := do
  raiseIf (digest.length ≠ 32)
    (.value s!"expected a 32-byte digest, got {digest.length} bytes")
  raiseIf (signature.length ≠ SIGNATURE_LENGTH)
    (.invalidSignature s!"signature must be {SIGNATURE_LENGTH} bytes, got {signature.length}")
  let r := beNat (signature.take 32)
  let s := beNat (signature.drop 32)
  if 1 ≤ r ∧ r < CURVE_ORDER ∧ 1 ≤ s ∧ s ≤ HALF_ORDER then
    pure (Crypto.ecdsaVerify key.data r s digest)
  else
    pure false

theorem PublicKey.fromBytes_eq_ok {data : Bytes} {key : PublicKey}
    (h : PublicKey.fromBytes data = .ok key) : key.data = data := by
  unfold PublicKey.fromBytes at h
  split at h
  · split at h
    · exact congrArg PublicKey.data (Except.ok.inj h).symm
    · cases h
  · cases h

end ScarletCoin
