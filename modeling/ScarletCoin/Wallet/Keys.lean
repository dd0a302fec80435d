import ScarletCoin.Core.Params
import ScarletCoin.Wallet.Base58

/-!
# Keys and addresses

The private keys and addresses of `crypto/keys.py`, with the version bytes that the networks of
`core/params.py` give them. Deriving a public key and signing are library code; the class `Curve`
takes them as parameters. A private key survives its wallet import format
(`PrivateKey.fromWif_toWif`).
-/

set_option autoImplicit false

namespace ScarletCoin

open Toolkit

/-! ## Version bytes -/

namespace ChainParams

/-- Version byte of addresses. -/
def addressVersion (p : ChainParams) : UInt8 :=
  match p.name with
  | .mainnet => 63
  | .testnet | .regtest => 127

/-- Version byte of private keys. -/
def wifVersion (p : ChainParams) : UInt8 :=
  match p.name with
  | .mainnet => 191
  | .testnet | .regtest => 239

/-- The coin type in the derivation paths of a network. -/
def bip44CoinType (p : ChainParams) : Nat :=
  match p.name with
  | .mainnet => 0
  | .testnet | .regtest => 1

end ChainParams

/-! ## Keys -/

/-- Length of a private key. -/
def PRIVATE_KEY_LENGTH : Nat := 32

/-- A network version byte and a hash. -/
structure Address where
  version : UInt8
  hash : PubkeyHash
  deriving DecidableEq

/-- A private key: 32 bytes that spell a number within the order of the group. -/
structure PrivateKey where
  secret : Bytes
  length : secret.length = PRIVATE_KEY_LENGTH
  inRange : 1 ≤ beNat secret ∧ beNat secret < CURVE_ORDER
  deriving DecidableEq

/-- Wrap raw bytes as a private key. -/
def PrivateKey.fromBytes (data : Bytes) : Except PyError PrivateKey :=
  if hl : data.length = PRIVATE_KEY_LENGTH then
    if hr : 1 ≤ beNat data ∧ beNat data < CURVE_ORDER then
      .ok ⟨data, hl, hr⟩
    else
      .error (.invalidKey "private key is out of the valid secp256k1 range")
  else
    .error (.invalidKey s!"private key must be {PRIVATE_KEY_LENGTH} bytes, got {data.length}")

/-- The 32 bytes of a number, highest first. -/
def scalarBytes (n : Nat) : Bytes := (leBytes 32 n).reverse

theorem scalarBytes_length (n : Nat) : (scalarBytes n).length = 32 := by
  rw [scalarBytes, List.length_reverse, leBytes_length]

/-- The whitespace that `str.strip` removes. -/
def isWhitespace (c : Char) : Bool :=
  let n := c.toNat
  (0x09 ≤ n && n ≤ 0x0D) || (0x1C ≤ n && n ≤ 0x20) || n == 0x85 || n == 0xA0 || n == 0x1680 ||
    (0x2000 ≤ n && n ≤ 0x200A) || n == 0x2028 || n == 0x2029 || n == 0x202F || n == 0x205F ||
    n == 0x3000

/-- `str.strip`. -/
def strip (text : String) : String :=
  String.ofList ((text.toList.dropWhile isWhitespace).reverse.dropWhile isWhitespace).reverse

theorem strip_eq_self {text : String} (h : ∀ c ∈ text.toList, isWhitespace c = false) :
    strip text = text := by
  have hkeep : ∀ cs : List Char, (∀ c ∈ cs, isWhitespace c = false) →
      cs.dropWhile isWhitespace = cs := by
    intro cs hcs
    cases cs with
    | nil => rfl
    | cons c cs =>
      rw [List.dropWhile_cons, hcs c List.mem_cons_self]
      rfl
  rw [strip, hkeep _ h, hkeep _ fun c hc => h c (List.mem_reverse.mp hc), List.reverse_reverse,
    String.ofList_toList]

theorem not_special_of_isDigit {c : Char} (h : c.isDigit = true) :
    c ≠ '_' ∧ c ≠ '/' ∧ c ≠ '-' ∧ c ≠ '+' ∧ isWhitespace c = false := by
  simp only [Char.isDigit, Bool.and_eq_true, decide_eq_true_eq] at h
  have hlow : 48 ≤ c.toNat := h.1
  have hhigh : c.toNat ≤ 57 := h.2
  have hne : ∀ d : Char, (d.toNat < 48 ∨ 57 < d.toNat) → c ≠ d := by
    rintro d hd rfl
    omega
  refine ⟨hne '_' (by decide), hne '/' (by decide), hne '-' (by decide), hne '+' (by decide), ?_⟩
  simp only [isWhitespace, Bool.or_eq_false_iff, Bool.and_eq_false_iff, decide_eq_false_iff_not,
    beq_eq_false_iff_ne]
  omega

/-- A signature: two scalars. -/
abbrev Signature := { b : Bytes // b.length = SIGNATURE_LENGTH }

theorem scalarPair_length (r s : Nat) :
    (scalarBytes r ++ scalarBytes s).length = SIGNATURE_LENGTH := by
  rw [List.length_append, scalarBytes_length, scalarBytes_length]
  rfl

section Curve

variable [Crypto]

/-- The string of an address. -/
def Address.str (address : Address) : String := b58checkEncode address.version address.hash.val

/-- The secp256k1 operations of the `cryptography` package on private keys. -/
class Curve where
  /-- The point of a private key, in compressed form. -/
  publicKey : PrivateKey → PublicKey
  /-- `key.sign` of a digest, as the numbers `(r, s)`. -/
  ecdsaSign : PrivateKey → Bytes → Fin CURVE_ORDER × Fin CURVE_ORDER

/-- Import a key from its wallet import format. -/
def PrivateKey.fromWif (wif : String) (expectedVersion : Option UInt8) :
    Except PyError PrivateKey :=
  match b58checkDecode (strip wif) expectedVersion with
  | .error (.base58 message) => .error (.invalidKey s!"invalid private key: {message}")
  | .error e => .error e
  | .ok (_, payload) => do
      -- a trailing 1 marks a compressed public key
      let payload :=
        if payload.length = PRIVATE_KEY_LENGTH + 1 ∧ payload.getLast? = some 1 then payload.dropLast
        else payload
      raiseIf (payload.length ≠ PRIVATE_KEY_LENGTH)
        (.invalidKey "invalid private key: wrong payload length")
      PrivateKey.fromBytes payload

/-- Export the key as a Base58Check string. -/
def PrivateKey.toWif (key : PrivateKey) (version : UInt8) : String :=
  b58checkEncode version (key.secret ++ [1])

/-- An exported key is imported as itself. -/
theorem PrivateKey.fromWif_toWif (key : PrivateKey) (version : UInt8) :
    PrivateKey.fromWif (key.toWif version) (some version) = .ok key := by
  have hlength : (key.secret ++ [1]).length = PRIVATE_KEY_LENGTH + 1 := by
    rw [List.length_append, key.length]
    rfl
  have hstrip : strip (key.toWif version) = key.toWif version := by
    refine strip_eq_self fun c hc => ?_
    obtain ⟨d, hd, rfl⟩ := b58encode_chars hc
    interval_cases d <;> rfl
  unfold fromWif
  rw [hstrip, toWif, b58checkDecode_b58checkEncode]
  dsimp only
  rw [if_pos ⟨hlength, List.getLast?_concat⟩, List.dropLast_concat]
  refine raiseIf_bind_eq_ok.mpr ⟨not_not.mpr key.length, ?_⟩
  rw [fromBytes, dif_pos key.length, dif_pos key.inRange]

variable [Curve]

/-- The matching compressed public key. -/
def PrivateKey.publicKey (key : PrivateKey) : PublicKey := Curve.publicKey key

/-- The address of a key. -/
def PrivateKey.address (key : PrivateKey) (version : UInt8) : Address :=
  ⟨version, key.publicKey.hash160⟩

/-- A canonical signature of a 32-byte digest. -/
def PrivateKey.sign (key : PrivateKey) (digest : Bytes) : Except PyError Signature := do
  raiseIf (digest.length ≠ 32) (.value s!"expected a 32-byte digest, got {digest.length} bytes")
  let (r, s) := Curve.ecdsaSign key digest
  let s := if HALF_ORDER < s.val then CURVE_ORDER - s.val else s.val
  pure ⟨scalarBytes r.val ++ scalarBytes s, scalarPair_length r.val s⟩

omit [Curve] in
theorem PublicKey.length (key : PublicKey) : key.data.length = PUBLIC_KEY_LENGTH := by
  have h := key.compressed
  simp only [isCompressedKey, Bool.and_eq_true, beq_iff_eq] at h
  exact h.1

end Curve

end ScarletCoin
