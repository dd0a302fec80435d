import ScarletCoin.Pool.Hex
import ScarletCoin.Wallet.Keys

/-!
# The wallet file

The key store of `wallet/keystore.py`: a seed with the addresses derived from it, and imported keys,
with the file it is saved to and loaded from. A JSON text stands for the value it spells. What holds
of key stores holds for any derivation of keys from a seed and a path (`KeyDerivation`); that of
`crypto/bip32.py` is the instance `ExtendedKey.keyDerivation`. The cipher that seals the secret part
of a file is a parameter (`WalletCipher`); the envelope around it is that of `crypto/encryption.py`.
-/

set_option autoImplicit false

namespace ScarletCoin

open Toolkit

/-! ## Numbers in text -/

/-- Digits, with single underscores between them; `after` says whether a digit stands in front. -/
def digitsFrom (after : Bool) : List Char → Bool
  | [] => after
  | c :: cs => if c = '_' then after && digitsFrom false cs else c.isDigit && digitsFrom true cs

/-- The unsigned part of `int(text)`. -/
def parseDigits (cs : List Char) : Option Nat :=
  if digitsFrom false cs then some (Nat.ofDigitChars 10 (cs.filter fun c => c ≠ '_') 0) else none

/-- `int(text)`, for ASCII digits; `none` is a `ValueError`. -/
def parseInt (text : String) : Option Int :=
  match (strip text).toList with
  | '-' :: cs => (parseDigits cs).map fun n => -(n : Int)
  | '+' :: cs => (parseDigits cs).map fun n => (n : Int)
  | cs => (parseDigits cs).map fun n => (n : Int)

/-- `text.rsplit("/", 1)[1]`; `none` is an `IndexError`. -/
def afterSlash (text : String) : Option String :=
  if '/' ∈ text.toList then
    some (String.ofList (text.toList.reverse.takeWhile fun c => c ≠ '/').reverse)
  else none

/-! ## The envelope -/

/-- A key of the secret part of a file. -/
structure KeyItem where
  wif : String
  label : String
  created : Int
  path : Option String
  deriving DecidableEq

/-- The secret part of a file. -/
structure SecretPayload where
  seed : Option String
  imported : List KeyItem
  deriving DecidableEq

/-- The password-based cipher: `hashlib.scrypt`, and `AESGCM` of the `cryptography` package on the
JSON text of a payload. -/
class WalletCipher where
  /-- `hashlib.scrypt(password, salt=..., n=..., r=..., p=...)`. -/
  scrypt : String → Bytes → Nat → Nat → Nat → Bytes
  /-- `AESGCM(key).encrypt(nonce, plaintext, associated_data)`. -/
  encrypt : Bytes → Bytes → SecretPayload → String → Bytes
  /-- `AESGCM(key).decrypt(nonce, ciphertext, associated_data)`; `none` for an invalid tag. -/
  decrypt : Bytes → Bytes → Bytes → String → Option SecretPayload

/-- What the cipher encrypted, it decrypts with the same key, nonce and associated data. -/
def WalletCipher.Opens [WalletCipher] : Prop :=
  ∀ (key nonce : Bytes) (payload : SecretPayload) (associated : String),
    WalletCipher.decrypt key nonce (WalletCipher.encrypt key nonce payload associated) associated =
      some payload

/-- What decrypts with some key is what was encrypted; else the tag is invalid. -/
def WalletCipher.Authentic [WalletCipher] : Prop :=
  ∀ (key other nonce : Bytes) (payload opened : SecretPayload) (associated : String),
    WalletCipher.decrypt other nonce (WalletCipher.encrypt key nonce payload associated)
      associated = some opened → opened = payload

def KDF : String := "scrypt"

def CIPHER : String := "aes-256-gcm"

def SCRYPT_N : Nat := 2 ^ 16

def SCRYPT_R : Nat := 8

def SCRYPT_P : Nat := 1

/-- Most memory that scrypt may take. -/
def MAX_MEMORY : Nat := 256 * 1024 * 1024

/-- The sealed secret part of a file. -/
structure Envelope where
  kdf : String
  n : Nat
  r : Nat
  p : Nat
  salt : String
  cipher : String
  nonce : String
  ciphertext : String
  deriving DecidableEq

section Cipher

variable [WalletCipher]

/-- Encrypt a payload with a password; the salt and the nonce are random. -/
def encryptBlob (password : String) (payload : SecretPayload) (associated : String)
    (salt nonce : Bytes) : Except PyError Envelope := do
  raiseIf (password = "") (.value "password must not be empty")
  let key := WalletCipher.scrypt password salt SCRYPT_N SCRYPT_R SCRYPT_P
  pure ⟨KDF, SCRYPT_N, SCRYPT_R, SCRYPT_P, hex salt, CIPHER, hex nonce,
    hex (WalletCipher.encrypt key nonce payload associated)⟩

omit [WalletCipher] in
/-- A binary field of an envelope. -/
def decodeHex (text : String) : Except PyError Bytes :=
  match fromHex text with
  | .ok bytes => .ok bytes
  | .error e => .error (.value s!"malformed encrypted wallet: {e.message}")

/-- Decrypt an envelope. -/
def decryptBlob (password : String) (envelope : Envelope) (associated : String) :
    Except PyError SecretPayload := do
  raiseIf (envelope.kdf ≠ KDF ∨ envelope.cipher ≠ CIPHER)
    (.value "unsupported wallet encryption parameters")
  let salt ← decodeHex envelope.salt
  let nonce ← decodeHex envelope.nonce
  let ciphertext ← decodeHex envelope.ciphertext
  let (n, r, p) := (envelope.n, envelope.r, envelope.p)
  raiseIf (n ≤ 1 ∨ n &&& (n - 1) ≠ 0 ∨ r < 1 ∨ p < 1 ∨ MAX_MEMORY < n * r * 128 * p)
    (.value "refusing unreasonable scrypt parameters")
  match WalletCipher.decrypt (WalletCipher.scrypt password salt n r p) nonce ciphertext
      associated with
  | some payload => pure payload
  | none => .error (.value "wrong password, or the wallet file was modified")

end Cipher

/-! ## The key store -/

/-- The derivation of keys along a path below a seed. -/
class KeyDerivation where
  /-- `PrivateKey(seed_to_master(seed, mainnet=...).derive_path(path).private_key_bytes())`. -/
  derive : Bytes → Bool → String → Except PyError PrivateKey

/-- One key in the wallet; a key derived from the seed has a path. -/
structure KeyRecord where
  privateKey : PrivateKey
  label : String
  created : Int
  path : Option String
  deriving DecidableEq

/-- The public half of a key. -/
structure AddressRecord where
  address : String
  label : String
  created : Int
  path : Option String
  deriving DecidableEq

/-- What a mnemonic gives. -/
abbrev Seed := { b : Bytes // b.length = 64 }

/-- A key store in memory. -/
structure Keystore where
  params : ChainParams
  seed : Option Seed
  imported : List KeyRecord
  addresses : List AddressRecord
  nextIndex : Nat
  envelope : Option Envelope
  password : Option String

/-- A version 2 wallet file. -/
structure WalletFile where
  network : String
  encrypted : Bool
  nextIndex : Nat
  addresses : List AddressRecord
  crypto : Option Envelope
  secret : Option SecretPayload

/-- The chain parameters of a network. -/
def getParams (name : String) : Except PyError ChainParams :=
  match NETWORKS.find? fun params => params.name.text == name with
  | some params => .ok params
  | none => .error (.key s!"unknown network '{name}'; choose one of: mainnet, testnet, regtest")

namespace Keystore

/-- The path of a derived key. -/
def derivationPath (params : ChainParams) (index : Int) : String :=
  "m/44'/" ++ toString params.bip44CoinType ++ "'/0'/0/" ++ toString index

/-- The index at the end of a path, or 0. -/
def pathIndex (path : Option String) : Int :=
  match path.bind afterSlash with
  | none => 0
  | some text => (parseInt text).getD 0

def isEncrypted (k : Keystore) : Bool := k.envelope.isSome

/-- The secret material is not available. -/
def locked (k : Keystore) : Bool := k.isEncrypted && k.password.isNone

def requireKeys (k : Keystore) : Except PyError Unit :=
  raiseIf (k.locked = true) (.wallet "this wallet is encrypted; a password is required")

def associatedData (k : Keystore) : String := "scarletcoin-wallet-v2:" ++ k.params.name.text

section Keys

variable [Crypto] [Curve] [KeyDerivation]

/-- The address string of a key. -/
def addressOf (params : ChainParams) (key : PrivateKey) : String :=
  (key.address params.addressVersion).str

/-- Derive the key at an index. -/
def derive (params : ChainParams) (seed : Seed) (index now : Int) : Except PyError KeyRecord := do
  let path := derivationPath params index
  let key ← KeyDerivation.derive seed.val (params.name == .mainnet) path
  pure ⟨key, "", now, some path⟩

/-- Derive the key at an index from the seed of the wallet. -/
def deriveRecord (k : Keystore) (index now : Int) : Except PyError KeyRecord :=
  match k.seed with
  | none => .error (.wallet "this wallet has no seed; import or restore a wallet first")
  | some seed => derive k.params seed index now

/-- Every key: the derived ones and the imported ones. -/
def allKeys (k : Keystore) (now : Int) : Except PyError (List KeyRecord) := do
  let derived ← (k.addresses.filter fun record => record.path.isSome).mapM fun record =>
    k.deriveRecord (pathIndex record.path) now
  pure (derived ++ k.imported)

/-- A new address: the next one of the seed, or that of a random key. -/
def newKey (k : Keystore) (label : String) (now : Int) (random : PrivateKey) :
    Except PyError Keystore := do
  k.requireKeys
  match k.seed with
  | some seed =>
      let record ← derive k.params seed k.nextIndex now
      let label := if label = "" then record.label else label
      pure { k with
        nextIndex := k.nextIndex + 1
        addresses := k.addresses ++
          [⟨addressOf k.params record.privateKey, label, record.created, record.path⟩] }
  | none =>
      pure { k with
        imported := k.imported ++ [⟨random, label, now, none⟩]
        addresses := k.addresses ++ [⟨addressOf k.params random, label, now, none⟩] }

/-- The private key of a text; what is wrong with it is an error of the wallet. -/
def readWif (params : ChainParams) (wif : String) : Except PyError PrivateKey :=
  match PrivateKey.fromWif wif (some params.wifVersion) with
  | .error (.invalidKey message) => .error (.wallet message)
  | result => result

/-- Import a private key in wallet import format. -/
def importWif (k : Keystore) (wif label : String) (now : Int) : Except PyError Keystore := do
  k.requireKeys
  let key ← readWif k.params wif
  let keys ← k.allKeys now
  raiseIf ((keys.any fun record => record.privateKey = key) = true)
    (.wallet "that key is already in this wallet")
  pure { k with
    imported := k.imported ++ [⟨key, label, now, none⟩]
    addresses := k.addresses ++ [⟨addressOf k.params key, label, now, none⟩] }

/-- The private key of an address in wallet import format. -/
def exportWif (k : Keystore) (address : String) (now : Int) : Except PyError String := do
  k.requireKeys
  let keys ← k.allKeys now
  match keys.find? fun record => addressOf k.params record.privateKey == address with
  | some record => pure (record.privateKey.toWif k.params.wifVersion)
  | none => .error (.wallet s!"{address} is not in this wallet")

/-- Rename the first record of an address. -/
def relabel (address label : String) : List AddressRecord → Option (List AddressRecord)
  | [] => none
  | record :: records =>
      if record.address = address then some ({ record with label := label } :: records)
      else (relabel address label records).map (record :: ·)

omit [Crypto] [Curve] [KeyDerivation] in
/-- Rename an address. -/
def setLabel (k : Keystore) (address label : String) : Except PyError Keystore := do
  k.requireKeys
  match relabel address label k.addresses with
  | some addresses => pure { k with addresses := addresses }
  | none => .error (.wallet s!"{address} is not in this wallet")

end Keys

/-! ## Saving and loading -/

section Files

variable [Crypto]

/-- The secret part of the file. -/
def secretPayload (k : Keystore) : SecretPayload where
  seed := k.seed.map fun seed => hex seed.val
  imported := k.imported.map fun record =>
    ⟨record.privateKey.toWif k.params.wifVersion, record.label, record.created, record.path⟩

/-- An imported key of a file. -/
def decodeKey (params : ChainParams) (item : KeyItem) : Except PyError KeyRecord :=
  match PrivateKey.fromWif item.wif (some params.wifVersion) with
  | .ok key => .ok ⟨key, item.label, item.created, item.path⟩
  | .error (.invalidKey message) =>
      .error (.wallet s!"the wallet contains an unusable key: {message}")
  | .error e => .error e

omit [Crypto] in
/-- The seed of a file. -/
def decodeSeed (payload : SecretPayload) : Except PyError (Option Seed) :=
  match payload.seed with
  | none => .ok none
  | some text =>
      match fromHex text with
      | .error e => .error (.wallet s!"the wallet's seed is malformed: {e.message}")
      | .ok bytes =>
          if h : bytes.length = 64 then .ok (some ⟨bytes, h⟩)
          else .error (.wallet s!"the wallet's seed must be 64 bytes, got {bytes.length}")

/-- The key store with the seed and the imported keys of a payload. -/
def withSecrets (k : Keystore) (payload : SecretPayload) : Except PyError Keystore := do
  let seed ← decodeSeed payload
  let imported ← payload.imported.mapM (decodeKey k.params)
  pure { k with seed := seed, imported := imported }

variable [WalletCipher]

/-- Write the wallet to its file. -/
def save (k : Keystore) (salt nonce : Bytes) : Except PyError (WalletFile × Keystore) := do
  k.requireKeys
  match k.password.filter fun password => password ≠ "" with
  | some password =>
      let envelope ← encryptBlob password k.secretPayload k.associatedData salt nonce
      pure (⟨k.params.name.text, true, k.nextIndex, k.addresses, some envelope, none⟩,
        { k with envelope := some envelope })
  | none =>
      pure (⟨k.params.name.text, false, k.nextIndex, k.addresses, none, some k.secretPayload⟩, k)

/-- Decrypt the seed and the imported keys. -/
def unlock (k : Keystore) (password : String) : Except PyError Keystore :=
  match k.envelope with
  | none => .ok k
  | some envelope =>
      match decryptBlob password envelope k.associatedData with
      | .error e => .error (.wallet e.message)
      | .ok payload =>
          match k.withSecrets payload with
          | .error (.wallet message) =>
              .error (.wallet s!"the wallet's encrypted data is corrupt: {message}")
          | .error e => .error e
          | .ok k => .ok { k with password := some password }

/-- Open a wallet file. Without its password, an encrypted one is loaded locked. -/
def load (path : String) (file : WalletFile) (password : Option String) :
    Except PyError Keystore := do
  let params ← match getParams file.network with
    | .error (.key _) => .error (.wallet s!"{path} does not say which network it belongs to")
    | result => result
  let k : Keystore := ⟨params, none, [], file.addresses, file.nextIndex, none, none⟩
  if file.encrypted then
    match file.crypto with
    | none => .error (.wallet s!"{path} is marked encrypted but has no encrypted data")
    | some envelope =>
        let k := { k with envelope := some envelope }
        match password with
        | none => pure k
        | some password => k.unlock password
  else
    k.withSecrets (file.secret.getD ⟨none, []⟩)

variable [Curve] [KeyDerivation]

/-- A new wallet on a seed, with its first address, and its file. -/
def create (network : String) (seed : Seed) (password : Option String) (now : Int)
    (salt nonce : Bytes) : Except PyError (WalletFile × Keystore) := do
  let params ← getParams network
  let record ← derive params seed 0 now
  let k : Keystore := ⟨params, some seed, [],
    [⟨addressOf params record.privateKey, "main", record.created, record.path⟩], 1, none, password⟩
  k.save salt nonce

end Files

end Keystore

/-! ## Runs -/

/-- A key store and the file it is kept in. -/
structure Wallet where
  store : Keystore
  file : WalletFile

/-- The operations on a wallet. -/
inductive WalletOp where
  | newKey (label : String) (now : Int) (random : PrivateKey)
  | importWif (wif label : String) (now : Int)
  | setLabel (address label : String)
  | save (salt nonce : Bytes)
  | load (path : String) (password : Option String)

section Runs

variable [Crypto] [Curve] [KeyDerivation] [WalletCipher]

/-- One operation. -/
def Wallet.perform (w : Wallet) : WalletOp → Except PyError Wallet
  | .newKey label now random => do
      let store ← w.store.newKey label now random
      pure ⟨store, w.file⟩
  | .importWif wif label now => do
      let store ← w.store.importWif wif label now
      pure ⟨store, w.file⟩
  | .setLabel address label => do
      let store ← w.store.setLabel address label
      pure ⟨store, w.file⟩
  | .save salt nonce => do
      let (file, store) ← w.store.save salt nonce
      pure ⟨store, file⟩
  | .load path password => do
      let store ← Keystore.load path w.file password
      pure ⟨store, w.file⟩

/-- An operation that raises changes nothing. -/
def Wallet.step (w : Wallet) (op : WalletOp) : Wallet :=
  match w.perform op with
  | .ok next => next
  | .error _ => w

/-- Operations one after another. -/
def Wallet.run (w : Wallet) (ops : List WalletOp) : Wallet := ops.foldl Wallet.step w

end Runs

end ScarletCoin
