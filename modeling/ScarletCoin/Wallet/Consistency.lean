import ScarletCoin.Wallet.ExtendedKeys
import ScarletCoin.Wallet.Signing
import Mathlib.Logic.Equiv.List

/-!
# What a key store keeps

A key store is sound if its addresses are distinct and each is that of a key it holds or derives
(`Keystore.Sound`). A sound store exports every listed key (`Keystore.Sound.exports`), and what it
saves is loaded as the same store (`Keystore.load_save`). Importing checks for duplicates and
deriving does not, so a key that was imported before the seed comes to it is listed twice; runs in
which every key that enters has a new address stay sound (`Wallet.run_consistent`).
-/

set_option autoImplicit false

namespace ScarletCoin

open Toolkit

/-- Mapping succeeds if it does at each entry, and each entry has its result. -/
theorem exists_mapM_eq_ok {α β : Type} {f : α → Except PyError β} {P : α → β → Prop} {xs : List α}
    (h : ∀ x ∈ xs, ∃ y, f x = .ok y ∧ P x y) :
    ∃ ys, xs.mapM f = .ok ys ∧ ∀ x ∈ xs, ∃ y ∈ ys, P x y := by
  induction xs with
  | nil => exact ⟨[], rfl, fun x hx => absurd hx List.not_mem_nil⟩
  | cons x xs ih =>
    obtain ⟨y, hy, hP⟩ := h x List.mem_cons_self
    obtain ⟨ys, hys, hall⟩ := ih fun z hz => h z (List.mem_cons_of_mem x hz)
    refine ⟨y :: ys, by rw [List.mapM_cons, hy, ok_bind, hys]; rfl, fun z hz => ?_⟩
    rcases List.mem_cons.mp hz with rfl | hz
    · exact ⟨y, List.mem_cons_self, hP⟩
    · obtain ⟨w, hw, hPw⟩ := hall z hz
      exact ⟨w, List.mem_cons_of_mem y hw, hPw⟩

/-! ## Paths -/

theorem digitsFrom_of_isDigit {cs : List Char} (h : ∀ c ∈ cs, c.isDigit = true) :
    digitsFrom true cs = true := by
  induction cs with
  | nil => rfl
  | cons c cs ih =>
    have hc := h c List.mem_cons_self
    rw [digitsFrom, if_neg (not_special_of_isDigit hc).1, hc, Bool.true_and]
    exact ih fun d hd => h d (List.mem_cons_of_mem c hd)

/-- A number that is written is read back. -/
theorem parseInt_toString (n : Nat) : parseInt (toString (n : Int)) = some (n : Int) := by
  have hdigits : ∀ c ∈ Nat.toDigits 10 n, c.isDigit = true := fun c hc =>
    Nat.isDigit_of_mem_toDigits (by decide) (by decide) hc
  have htext : (toString (n : Int)).toList = Nat.toDigits 10 n := Nat.toList_repr
  have hstrip : strip (toString (n : Int)) = toString (n : Int) :=
    strip_eq_self fun c hc => (not_special_of_isDigit (hdigits c (htext ▸ hc))).2.2.2.2
  have hparse : parseDigits (Nat.toDigits 10 n) = some n := by
    have hall : digitsFrom false (Nat.toDigits 10 n) = true := by
      cases hcs : Nat.toDigits 10 n with
      | nil => exact absurd hcs Nat.toDigits_ne_nil
      | cons c cs =>
        rw [hcs] at hdigits
        have hc := hdigits c List.mem_cons_self
        rw [digitsFrom, if_neg (not_special_of_isDigit hc).1, hc, Bool.true_and]
        exact digitsFrom_of_isDigit fun d hd => hdigits d (List.mem_cons_of_mem c hd)
    have hfilter : (Nat.toDigits 10 n).filter (fun c => c ≠ '_') = Nat.toDigits 10 n :=
      List.filter_eq_self.mpr fun c hc => decide_eq_true (not_special_of_isDigit (hdigits c hc)).1
    rw [parseDigits, if_pos hall, hfilter, Nat.ofDigitChars_ten_toDigits]
  rw [parseInt, hstrip, htext]
  split
  · rename_i cs hcs
    rw [hcs] at hdigits
    exact absurd rfl (not_special_of_isDigit (hdigits '-' List.mem_cons_self)).2.2.1
  · rename_i cs hcs
    rw [hcs] at hdigits
    exact absurd rfl (not_special_of_isDigit (hdigits '+' List.mem_cons_self)).2.2.2.1
  · rw [hparse]
    rfl

namespace Keystore

/-- The index of a derived key is read back from its path. -/
theorem pathIndex_derivationPath (params : ChainParams) (n : Nat) :
    pathIndex (some (derivationPath params n)) = n := by
  have hdigits : ∀ c ∈ (toString (n : Int)).toList, (fun c => decide (c ≠ '/')) c = true := by
    intro c hc
    have htext : (toString (n : Int)).toList = Nat.toDigits 10 n := Nat.toList_repr
    exact decide_eq_true (not_special_of_isDigit
      (Nat.isDigit_of_mem_toDigits (by decide) (by decide) (htext ▸ hc))).2.1
  have hlist : ∃ front, (derivationPath params n).toList =
      front ++ '/' :: (toString (n : Int)).toList := by
    refine ⟨"m/44'/".toList ++ (toString params.bip44CoinType).toList ++ "'/0'/0".toList, ?_⟩
    simp [derivationPath, String.toList_append]
  obtain ⟨front, hfront⟩ := hlist
  have hafter : afterSlash (derivationPath params n) = some (toString (n : Int)) := by
    have hmem : '/' ∈ (derivationPath params n).toList := by
      rw [hfront]
      exact List.mem_append_right _ List.mem_cons_self
    rw [afterSlash, if_pos hmem, hfront]
    congr 1
    rw [List.reverse_append, List.reverse_cons, List.append_assoc, List.takeWhile_append_of_pos]
    · simp
    · intro c hc
      exact hdigits c (List.mem_reverse.mp hc)
  rw [pathIndex, Option.bind_some, hafter]
  exact congrArg (fun r => Option.getD r 0) (parseInt_toString n)

/-! ## Soundness -/

/-- The secrets are at hand: a store with an envelope has its password. -/
def Unlocked (k : Keystore) : Prop :=
  k.envelope.isSome = true → k.password.isSome = true

theorem Unlocked.requireKeys {k : Keystore} (h : k.Unlocked) : k.requireKeys = .ok ⟨⟩ := by
  rw [Keystore.requireKeys, raiseIf_eq_ok, locked, isEncrypted]
  cases henvelope : k.envelope with
  | none => simp
  | some envelope =>
    obtain ⟨password, hpassword⟩ := Option.isSome_iff_exists.mp (h (by rw [henvelope]; rfl))
    simp [hpassword]

/-- The stores are the same but for the envelope and the password. -/
structure Agrees (k l : Keystore) : Prop where
  params : k.params = l.params
  seed : k.seed = l.seed
  imported : k.imported = l.imported
  addresses : k.addresses = l.addresses
  nextIndex : k.nextIndex = l.nextIndex

section Sound

variable [Crypto] [Curve] [KeyDerivation]

/-- The store holds a key of the address, or derives it. -/
def Owns (k : Keystore) (record : AddressRecord) : Prop :=
  match record.path with
  | none => ∃ r ∈ k.imported, addressOf k.params r.privateKey = record.address
  | some path => ∃ (seed : Seed) (index : Nat) (key : PrivateKey), k.seed = some seed ∧
      path = derivationPath k.params index ∧
      KeyDerivation.derive seed.val (k.params.name == .mainnet) path = .ok key ∧
      addressOf k.params key = record.address

/-- A store on a known network that has its secrets at hand, with distinct addresses of its own
keys. -/
structure Sound (k : Keystore) : Prop where
  known : k.params ∈ NETWORKS
  unlocked : k.Unlocked
  keyed : ∀ record ∈ k.addresses, k.Owns record
  nodup : (k.addresses.map AddressRecord.address).Nodup

/-- Further imported keys do not matter. -/
theorem Owns.mono {k l : Keystore} (hparams : l.params = k.params) (hseed : l.seed = k.seed)
    (himported : k.imported ⊆ l.imported) {record : AddressRecord} (h : k.Owns record) :
    l.Owns record := by
  unfold Owns at h ⊢
  rw [hparams, hseed]
  cases hpath : record.path with
  | none =>
    rw [hpath] at h
    obtain ⟨r, hr, haddress⟩ := h
    exact ⟨r, himported hr, haddress⟩
  | some path => rwa [hpath] at h

/-- The address of an imported key is the store's own. -/
theorem owns_imported {k : Keystore} (r : KeyRecord) (hr : r ∈ k.imported) (label : String)
    (created : Int) : k.Owns ⟨addressOf k.params r.privateKey, label, created, none⟩ :=
  ⟨r, hr, rfl⟩

theorem Owns.of_agrees {k l : Keystore} (hagrees : l.Agrees k) {record : AddressRecord}
    (h : k.Owns record) : l.Owns record :=
  h.mono hagrees.params hagrees.seed (hagrees.imported ▸ List.Subset.refl _)

theorem Sound.of_agrees {k l : Keystore} (h : k.Sound) (hagrees : l.Agrees k)
    (hunlocked : l.Unlocked) : l.Sound where
  known := hagrees.params ▸ h.known
  unlocked := hunlocked
  keyed record hrecord := (h.keyed record (hagrees.addresses ▸ hrecord)).of_agrees hagrees
  nodup := hagrees.addresses ▸ h.nodup

omit [Crypto] [Curve] in
/-- Stores that agree have the same keys. -/
theorem Agrees.allKeys {k l : Keystore} (h : l.Agrees k) (now : Int) :
    l.allKeys now = k.allKeys now := by
  unfold Keystore.allKeys Keystore.deriveRecord
  rw [h.params, h.seed, h.imported, h.addresses]

/-- The key of a derived address is derived again. -/
theorem Owns.deriveRecord {k : Keystore} {record : AddressRecord} (h : k.Owns record)
    (hpath : record.path.isSome = true) (now : Int) :
    ∃ r, k.deriveRecord (pathIndex record.path) now = .ok r ∧
      addressOf k.params r.privateKey = record.address := by
  obtain ⟨path, hpath⟩ := Option.isSome_iff_exists.mp hpath
  rw [Owns, hpath] at h
  obtain ⟨seed, index, key, hseed, rfl, hkey, haddress⟩ := h
  refine ⟨⟨key, "", now, some (derivationPath k.params index)⟩, ?_, haddress⟩
  rw [hpath, pathIndex_derivationPath, Keystore.deriveRecord, hseed]
  dsimp only
  rw [derive, hkey]
  rfl

/-- Every listed address is that of one of the keys. -/
theorem Sound.allKeys {k : Keystore} (h : k.Sound) (now : Int) :
    ∃ keys, k.allKeys now = .ok keys ∧
      ∀ record ∈ k.addresses, ∃ r ∈ keys, addressOf k.params r.privateKey = record.address := by
  have hderive : ∀ record ∈ k.addresses.filter fun record => record.path.isSome,
      ∃ r, k.deriveRecord (pathIndex record.path) now = .ok r ∧
        addressOf k.params r.privateKey = record.address := fun record hrecord => by
    obtain ⟨hmem, hpath⟩ := List.mem_filter.mp hrecord
    exact (h.keyed record hmem).deriveRecord hpath now
  obtain ⟨derived, hderived, hall⟩ := exists_mapM_eq_ok hderive
  refine ⟨derived ++ k.imported, by rw [Keystore.allKeys, hderived]; rfl, fun record hrecord => ?_⟩
  cases hpath : record.path with
  | none =>
    have howns := h.keyed record hrecord
    rw [Owns, hpath] at howns
    obtain ⟨r, hr, haddress⟩ := howns
    exact ⟨r, List.mem_append_right derived hr, haddress⟩
  | some path =>
    obtain ⟨r, hr, haddress⟩ := hall record (List.mem_filter.mpr ⟨hrecord, by rw [hpath]; rfl⟩)
    exact ⟨r, List.mem_append_left k.imported hr, haddress⟩

/-- Every listed address is exported, as a key of that address. -/
theorem Sound.exports {k : Keystore} (h : k.Sound) (now : Int) {record : AddressRecord}
    (hrecord : record ∈ k.addresses) :
    ∃ wif key, k.exportWif record.address now = .ok wif ∧
      PrivateKey.fromWif wif (some k.params.wifVersion) = .ok key ∧
      addressOf k.params key = record.address := by
  obtain ⟨keys, hkeys, hall⟩ := h.allKeys now
  obtain ⟨r, hr, haddress⟩ := hall record hrecord
  cases hfind : keys.find? fun r => addressOf k.params r.privateKey == record.address with
  | none =>
    have hnone := List.find?_eq_none.mp hfind r hr
    rw [haddress, beq_self_eq_true] at hnone
    exact absurd rfl hnone
  | some found =>
    have hfound := List.find?_some hfind
    refine ⟨found.privateKey.toWif k.params.wifVersion, found.privateKey, ?_,
      PrivateKey.fromWif_toWif found.privateKey k.params.wifVersion, beq_iff_eq.mp hfound⟩
    rw [exportWif, h.unlocked.requireKeys, ok_bind, hkeys, ok_bind, hfind]
    rfl

end Sound

/-! ## Saving and loading -/

theorem getParams_of_known {params : ChainParams} (h : params ∈ NETWORKS) :
    getParams params.name.text = .ok params := by
  rcases List.mem_cons.mp h with rfl | h
  · rfl
  rcases List.mem_cons.mp h with rfl | h
  · rfl
  rcases List.mem_cons.mp h with rfl | h
  · rfl
  · cases h

/-- A network that is found is one of the networks. -/
theorem known_of_getParams {name : String} {params : ChainParams}
    (h : getParams name = .ok params) : params ∈ NETWORKS := by
  unfold getParams at h
  split at h
  · rename_i hfind
    exact Except.ok.inj h ▸ List.mem_of_find?_eq_some hfind
  · cases h

section Files

variable [Crypto]

/-- The secrets that are written are read back. -/
theorem withSecrets_secretPayload (k saved : Keystore) (hparams : k.params = saved.params) :
    k.withSecrets saved.secretPayload =
      .ok { k with seed := saved.seed, imported := saved.imported } := by
  have hseed : decodeSeed saved.secretPayload = .ok saved.seed := by
    cases hs : saved.seed with
    | none => simp [decodeSeed, secretPayload, hs]
    | some seed => simp [decodeSeed, secretPayload, hs, fromHex_hex, seed.property]
  have hkeys : saved.secretPayload.imported.mapM (decodeKey k.params) = .ok saved.imported := by
    rw [mapM_eq_ok, secretPayload, List.forall₂_map_left_iff]
    refine List.forall₂_same.mpr fun record _ => ?_
    rw [decodeKey, hparams, PrivateKey.fromWif_toWif]
  rw [withSecrets, hseed, ok_bind, hkeys, ok_bind]
  rfl

variable [WalletCipher]

omit [Crypto] in
/-- Decrypting what was encrypted comes down to the cipher. -/
theorem decryptBlob_eq {password : String} {payload : SecretPayload} {associated : String}
    {salt nonce : Bytes} {envelope : Envelope}
    (h : encryptBlob password payload associated salt nonce = .ok envelope) (given : String) :
    decryptBlob given envelope associated =
      match WalletCipher.decrypt (WalletCipher.scrypt given salt SCRYPT_N SCRYPT_R SCRYPT_P) nonce
        (WalletCipher.encrypt (WalletCipher.scrypt password salt SCRYPT_N SCRYPT_R SCRYPT_P)
          nonce payload associated) associated with
      | some payload => .ok payload
      | none => .error (.value "wrong password, or the wallet file was modified") := by
  obtain ⟨-, h⟩ := raiseIf_bind_eq_ok.mp h
  obtain rfl := pure_eq_ok.mp h
  have halgorithms : ¬ (KDF ≠ KDF ∨ CIPHER ≠ CIPHER) := by simp
  have hparameters : ¬ (SCRYPT_N ≤ 1 ∨ SCRYPT_N &&& (SCRYPT_N - 1) ≠ 0 ∨ SCRYPT_R < 1 ∨
      SCRYPT_P < 1 ∨ MAX_MEMORY < SCRYPT_N * SCRYPT_R * 128 * SCRYPT_P) := by decide
  simp only [decryptBlob, decodeHex, fromHex_hex, raiseIf, if_neg halgorithms, if_neg hparameters,
    ok_bind]
  rfl

omit [Crypto] in
/-- What is encrypted with a password is decrypted with it. -/
theorem decryptBlob_encryptBlob (hopens : WalletCipher.Opens) {password : String}
    {payload : SecretPayload} {associated : String} {salt nonce : Bytes} {envelope : Envelope}
    (h : encryptBlob password payload associated salt nonce = .ok envelope) :
    decryptBlob password envelope associated = .ok payload := by
  rw [decryptBlob_eq h, hopens]

omit [Crypto] in
/-- Whatever password decrypts an envelope, it gives what was encrypted. -/
theorem decryptBlob_authentic (hauthentic : WalletCipher.Authentic) {password : String}
    {payload : SecretPayload} {associated : String} {salt nonce : Bytes} {envelope : Envelope}
    (h : encryptBlob password payload associated salt nonce = .ok envelope) {given : String}
    {opened : SecretPayload} (hopened : decryptBlob given envelope associated = .ok opened) :
    opened = payload := by
  rw [decryptBlob_eq h] at hopened
  split at hopened
  · rename_i hdecrypt
    obtain rfl := Except.ok.inj hopened
    exact hauthentic _ _ _ _ _ _ hdecrypt
  · cases hopened

/-- What a file of a known network holds in the clear. -/
def loaded (params : ChainParams) (file : WalletFile) : Keystore :=
  ⟨params, none, [], file.addresses, file.nextIndex, none, none⟩

theorem load_clear {params : ChainParams} (hknown : params ∈ NETWORKS) {file : WalletFile}
    (hnetwork : file.network = params.name.text) (hclear : file.encrypted = false)
    {payload : SecretPayload} (hpayload : file.secret = some payload) (path : String)
    (password : Option String) : load path file password =
    (loaded params file).withSecrets payload := by
  unfold load
  rw [hnetwork, getParams_of_known hknown, hpayload]
  simp only [hclear, ok_bind, Bool.false_eq_true, if_false]
  rfl

theorem load_sealed {params : ChainParams} (hknown : params ∈ NETWORKS) {file : WalletFile}
    (hnetwork : file.network = params.name.text) (hsealed : file.encrypted = true)
    {envelope : Envelope} (henvelope : file.crypto = some envelope) (path password : String) :
    load path file (some password) =
      (⟨params, none, [], file.addresses, file.nextIndex, some envelope, none⟩ : Keystore).unlock
        password := by
  unfold load
  rw [hnetwork, getParams_of_known hknown, henvelope]
  simp only [hsealed, ok_bind, if_true]

/-- An envelope that opens with a password gives the secrets. -/
theorem unlock_eq (k saved : Keystore) (hparams : k.params = saved.params) {envelope : Envelope}
    (henvelope : k.envelope = some envelope) {given : String}
    (hopened : decryptBlob given envelope saved.associatedData = .ok saved.secretPayload) :
    k.unlock given = .ok { k with
      seed := saved.seed, imported := saved.imported, password := some given } := by
  have hassociated : k.associatedData = saved.associatedData := by
    unfold associatedData
    rw [hparams]
  have hsecrets := withSecrets_secretPayload k saved hparams
  simp only [unlock, henvelope, hassociated, hopened, hsecrets]

theorem unlock_error (k saved : Keystore) (hparams : k.params = saved.params) {envelope : Envelope}
    (henvelope : k.envelope = some envelope) {given : String} {e : PyError}
    (hfailed : decryptBlob given envelope saved.associatedData = .error e) :
    k.unlock given = .error (.wallet e.message) := by
  have hassociated : k.associatedData = saved.associatedData := by
    unfold associatedData
    rw [hparams]
  simp only [unlock, henvelope, hassociated, hfailed]

/-- Loading the file gives the store again, if the password for an encrypted one is at hand. -/
def Reloads (k : Keystore) (file : WalletFile) : Prop :=
  ∀ path password loaded, (file.encrypted = true → password.isSome = true) →
    load path file password = .ok loaded → loaded.Agrees k ∧ loaded.Unlocked

/-- The file of a store, written in the clear or sealed. -/
theorem save_eq_ok {k k' : Keystore} (hunlocked : k.Unlocked) {salt nonce : Bytes}
    {file : WalletFile} (h : k.save salt nonce = .ok (file, k')) :
    (file = ⟨k.params.name.text, false, k.nextIndex, k.addresses, none, some k.secretPayload⟩ ∧
      k' = k) ∨
    ∃ password envelope, k.password = some password ∧
      encryptBlob password k.secretPayload k.associatedData salt nonce = .ok envelope ∧
      file = ⟨k.params.name.text, true, k.nextIndex, k.addresses, some envelope, none⟩ ∧
      k' = { k with envelope := some envelope } := by
  unfold save at h
  rw [hunlocked.requireKeys, ok_bind] at h
  cases hpassword : k.password.filter fun password => password ≠ "" with
  | none =>
    rw [hpassword] at h
    obtain ⟨rfl, rfl⟩ := Prod.mk.inj (pure_eq_ok.mp h)
    exact .inl ⟨rfl, rfl⟩
  | some password =>
    rw [hpassword] at h
    obtain ⟨envelope, hencrypt, h⟩ := bind_eq_ok.mp h
    obtain ⟨rfl, rfl⟩ := Prod.mk.inj (pure_eq_ok.mp h)
    exact .inr ⟨password, envelope, (Option.filter_eq_some_iff.mp hpassword).1, hencrypt, rfl, rfl⟩

/-- A store with its secrets at hand is saved. -/
theorem save_ok {k : Keystore} (hunlocked : k.Unlocked) (salt nonce : Bytes) :
    ∃ file saved, k.save salt nonce = .ok (file, saved) := by
  unfold save
  rw [hunlocked.requireKeys, ok_bind]
  cases hpassword : k.password.filter fun password => password ≠ "" with
  | none => exact ⟨_, _, rfl⟩
  | some password =>
    have hne : password ≠ "" := of_decide_eq_true (Option.filter_eq_some_iff.mp hpassword).2
    dsimp only
    rw [encryptBlob, raiseIf, if_neg hne]
    exact ⟨_, _, rfl⟩

/-- Saving changes no key. -/
theorem save_agrees {k k' : Keystore} (hunlocked : k.Unlocked) {salt nonce : Bytes}
    {file : WalletFile} (h : k.save salt nonce = .ok (file, k')) : k'.Agrees k ∧ k'.Unlocked := by
  obtain ⟨-, rfl⟩ | ⟨password, envelope, hpassword, -, -, rfl⟩ := save_eq_ok hunlocked h
  · exact ⟨⟨rfl, rfl, rfl, rfl, rfl⟩, hunlocked⟩
  · exact ⟨⟨rfl, rfl, rfl, rfl, rfl⟩, fun _ => Option.isSome_iff_exists.mpr ⟨password, hpassword⟩⟩

/-- What is loaded from a file in the clear. -/
theorem load_clear_eq {k : Keystore} (hknown : k.params ∈ NETWORKS) (path : String)
    (password : Option String) :
    load path ⟨k.params.name.text, false, k.nextIndex, k.addresses, none,
      some k.secretPayload⟩ password =
      .ok ⟨k.params, k.seed, k.imported, k.addresses, k.nextIndex, none, none⟩ := by
  rw [load_clear hknown rfl rfl rfl]
  exact withSecrets_secretPayload (loaded k.params _) k rfl

/-- What is loaded from a sealed file, with a password that opens it. -/
theorem load_sealed_eq {k : Keystore} (hknown : k.params ∈ NETWORKS) {envelope : Envelope}
    {given : String}
    (hopened : decryptBlob given envelope k.associatedData = .ok k.secretPayload) (path : String) :
    load path ⟨k.params.name.text, true, k.nextIndex, k.addresses, some envelope,
      none⟩ (some given) =
      .ok ⟨k.params, k.seed, k.imported, k.addresses, k.nextIndex, some envelope, some given⟩ := by
  rw [load_sealed hknown rfl rfl rfl]
  exact unlock_eq ⟨k.params, none, [], k.addresses, k.nextIndex, some envelope,
    none⟩ k rfl rfl hopened

/-- The file of a store is loaded as that store. -/
theorem save_reloads (hauthentic : WalletCipher.Authentic) {k k' : Keystore}
    (hknown : k.params ∈ NETWORKS) (hunlocked : k.Unlocked) {salt nonce : Bytes} {file : WalletFile}
    (h : k.save salt nonce = .ok (file, k')) : k.Reloads file := by
  intro path password result hgiven hload
  obtain ⟨rfl, -⟩ | ⟨own, envelope, -, hencrypt, rfl, -⟩ := save_eq_ok hunlocked h
  · rw [load_clear_eq hknown] at hload
    obtain rfl := Except.ok.inj hload
    exact ⟨⟨rfl, rfl, rfl, rfl, rfl⟩, nofun⟩
  · obtain ⟨given, rfl⟩ := Option.isSome_iff_exists.mp (hgiven rfl)
    cases hopened : decryptBlob given envelope k.associatedData with
    | error e =>
      rw [load_sealed hknown rfl rfl rfl] at hload
      have hfailed :=
        unlock_error ⟨k.params, none, [], k.addresses, k.nextIndex, some envelope, none⟩ k
        rfl rfl hopened
      cases hfailed.symm.trans hload
    | ok payload =>
      obtain rfl := decryptBlob_authentic hauthentic hencrypt hopened
      rw [load_sealed_eq hknown hopened] at hload
      obtain rfl := Except.ok.inj hload
      exact ⟨⟨rfl, rfl, rfl, rfl, rfl⟩, fun _ => rfl⟩

/-- The file of a store is loaded with its password. -/
theorem load_save (hopens : WalletCipher.Opens) {k k' : Keystore} (hknown : k.params ∈ NETWORKS)
    (hunlocked : k.Unlocked) {salt nonce : Bytes} {file : WalletFile}
    (h : k.save salt nonce = .ok (file, k')) (path : String) :
    ∃ loaded, load path file k.password = .ok loaded ∧ loaded.Agrees k ∧ loaded.Unlocked := by
  obtain ⟨rfl, -⟩ | ⟨own, envelope, hpassword, hencrypt, rfl, -⟩ := save_eq_ok hunlocked h
  · exact ⟨_, load_clear_eq hknown path _, ⟨rfl, rfl, rfl, rfl, rfl⟩, nofun⟩
  · rw [hpassword]
    exact ⟨_, load_sealed_eq hknown (decryptBlob_encryptBlob hopens hencrypt) path,
      ⟨rfl, rfl, rfl, rfl, rfl⟩, fun _ => rfl⟩

end Files

/-! ## Operations -/

section Operations

variable [Crypto] [Curve] [KeyDerivation]

/-- A sound store stays sound with another address of its own. -/
theorem Sound.append {k l : Keystore} (h : k.Sound) (record : AddressRecord)
    (hnew : record.address ∉ k.addresses.map AddressRecord.address) (hparams : l.params = k.params)
    (hseed : l.seed = k.seed) (himported : k.imported ⊆ l.imported)
    (haddresses : l.addresses = k.addresses ++ [record]) (hunlocked : l.Unlocked)
    (howns : l.Owns record) : l.Sound where
  known := hparams ▸ h.known
  unlocked := hunlocked
  keyed other hother := by
    rw [haddresses] at hother
    rcases List.mem_append.mp hother with hold | hlast
    · exact (h.keyed other hold).mono hparams hseed himported
    · rwa [List.mem_singleton.mp hlast]
  nodup := by
    rw [haddresses, List.map_append, List.map_singleton]
    exact (List.nodup_append_comm).mp (List.nodup_cons.mpr ⟨hnew, h.nodup⟩)

/-- The address that a new key would have. -/
def nextAddress (k : Keystore) (now : Int) (random : PrivateKey) : Except PyError String :=
  match k.seed with
  | some seed => (derive k.params seed k.nextIndex now).map fun r => addressOf k.params r.privateKey
  | none => .ok (addressOf k.params random)

theorem Sound.newKey {k k' : Keystore} (h : k.Sound) {label : String} {now : Int}
    {random : PrivateKey} (hfresh : ∀ address, k.nextAddress now random = .ok address →
      address ∉ k.addresses.map AddressRecord.address)
    (hnew : k.newKey label now random = .ok k') : k'.Sound := by
  unfold Keystore.newKey at hnew
  rw [h.unlocked.requireKeys, ok_bind] at hnew
  cases hseed : k.seed with
  | some seed =>
    simp only [hseed] at hnew
    obtain ⟨record, hrecord, hnew⟩ := bind_eq_ok.mp hnew
    obtain rfl := pure_eq_ok.mp hnew
    have haddress : k.nextAddress now random = .ok (addressOf k.params record.privateKey) := by
      rw [nextAddress, hseed]
      dsimp only
      rw [hrecord]
      rfl
    obtain ⟨key, hkey, hrecord⟩ := bind_eq_ok.mp hrecord
    obtain rfl := pure_eq_ok.mp hrecord
    refine h.append ⟨addressOf k.params key, _, now,
      _⟩ (hfresh _ haddress) rfl hseed.symm (List.Subset.refl _) rfl
      (fun hsome => h.unlocked hsome) ?_
    exact ⟨seed, k.nextIndex, key, rfl, rfl, hkey, rfl⟩
  | none =>
    simp only [hseed] at hnew
    obtain rfl := pure_eq_ok.mp hnew
    have haddress : k.nextAddress now random = .ok (addressOf k.params random) := by
      rw [nextAddress, hseed]
    refine h.append ⟨addressOf k.params random, label, now, none⟩ (hfresh _ haddress) rfl hseed.symm
      (List.subset_append_left _ _) rfl (fun hsome => h.unlocked hsome) ?_
    exact owns_imported ⟨random, label, now, none⟩ (List.mem_append_right _ List.mem_cons_self)
      label now

/-- A key that is not in the store yet has a new address. -/
def ImportsFresh (k : Keystore) (wif : String) (now : Int) : Prop :=
  ∀ key, PrivateKey.fromWif wif (some k.params.wifVersion) = .ok key →
    (∀ keys, k.allKeys now = .ok keys → ∀ record ∈ keys, record.privateKey ≠ key) →
    addressOf k.params key ∉ k.addresses.map AddressRecord.address

theorem Sound.importWif {k k' : Keystore} (h : k.Sound) {wif label : String} {now : Int}
    (hfresh : k.ImportsFresh wif now) (hnew : k.importWif wif label now = .ok k') :
    k'.Sound := by
  unfold Keystore.importWif at hnew
  rw [h.unlocked.requireKeys, ok_bind] at hnew
  obtain ⟨key, hkey, hnew⟩ := bind_eq_ok.mp hnew
  obtain ⟨keys, hkeys, hnew⟩ := bind_eq_ok.mp hnew
  obtain ⟨hother, hnew⟩ := raiseIf_bind_eq_ok.mp hnew
  obtain rfl := pure_eq_ok.mp hnew
  have hkey' : PrivateKey.fromWif wif (some k.params.wifVersion) = .ok key := by
    unfold readWif at hkey
    split at hkey
    · cases hkey
    · exact hkey
  have hdistinct : ∀ found, k.allKeys now = .ok found → ∀ record ∈ found,
      record.privateKey ≠ key := by
    intro found hfound record hrecord heq
    obtain rfl := Except.ok.inj (hkeys.symm.trans hfound)
    exact hother (List.any_eq_true.mpr ⟨record, hrecord, decide_eq_true heq⟩)
  refine h.append ⟨addressOf k.params key, label, now, none⟩ (hfresh key hkey' hdistinct) rfl rfl
    (List.subset_append_left _ _) rfl (fun hsome => h.unlocked hsome) ?_
  exact owns_imported ⟨key, label, now, none⟩ (List.mem_append_right _ List.mem_cons_self) label now

omit [Crypto] [Curve] [KeyDerivation] in
/-- A new label leaves addresses and paths. -/
theorem relabel_eq_some {address label : String} {records records' : List AddressRecord}
    (h : relabel address label records = some records') :
    records'.map (fun r => (r.address, r.path)) = records.map fun r => (r.address, r.path) := by
  induction records generalizing records' with
  | nil => cases h
  | cons record records ih =>
    rw [relabel] at h
    split at h
    · obtain rfl := Option.some.inj h
      rfl
    · obtain ⟨rest, hrest, rfl⟩ := Option.map_eq_some_iff.mp h
      rw [List.map_cons, ih hrest, List.map_cons]

theorem Sound.setLabel {k k' : Keystore} (h : k.Sound) {address label : String}
    (hnew : k.setLabel address label = .ok k') : k'.Sound := by
  unfold Keystore.setLabel at hnew
  rw [h.unlocked.requireKeys, ok_bind] at hnew
  cases hrelabel : relabel address label k.addresses with
  | none =>
    rw [hrelabel] at hnew
    cases hnew
  | some records =>
    rw [hrelabel] at hnew
    obtain rfl := pure_eq_ok.mp hnew
    have hsame := relabel_eq_some hrelabel
    refine ⟨h.known, h.unlocked, fun record hrecord => ?_, ?_⟩
    · have hpair : (record.address, record.path) ∈ k.addresses.map fun r => (r.address, r.path) :=
        hsame ▸ List.mem_map.mpr ⟨record, hrecord, rfl⟩
      obtain ⟨old, hold, heq⟩ := List.mem_map.mp hpair
      obtain ⟨haddress, hpath⟩ := Prod.mk.inj heq
      have howns := h.keyed old hold
      unfold Owns at howns ⊢
      rwa [haddress, hpath] at howns
    · have haddresses := congrArg (List.map Prod.fst) hsame
      rw [List.map_map, List.map_map] at haddresses
      exact haddresses ▸ h.nodup

end Operations

end Keystore

/-! ## Runs -/

section Runs

variable [Crypto] [Curve] [KeyDerivation] [WalletCipher]

/-- Addresses are listed once, each exports a key of its own, and what is saved is loaded as it
was. -/
structure Keystore.Consistent (k : Keystore) : Prop where
  nodup : (k.addresses.map AddressRecord.address).Nodup
  exports : ∀ record ∈ k.addresses, ∀ now, ∃ wif key, k.exportWif record.address now = .ok wif ∧
    PrivateKey.fromWif wif (some k.params.wifVersion) = .ok key ∧
    Keystore.addressOf k.params key = record.address
  reloads : ∀ path salt nonce, ∃ file saved loaded, k.save salt nonce = .ok (file, saved) ∧
    Keystore.load path file k.password = .ok loaded ∧ loaded.Agrees k ∧
    ∀ now, loaded.allKeys now = k.allKeys now

theorem Keystore.Sound.consistent (hopens : WalletCipher.Opens) {k : Keystore} (h : k.Sound) :
    k.Consistent where
  nodup := h.nodup
  exports _ hrecord now := h.exports now hrecord
  reloads path salt nonce := by
    obtain ⟨file, saved, hsave⟩ := Keystore.save_ok h.unlocked salt nonce
    obtain ⟨loaded, hload, hagrees, -⟩ := Keystore.load_save hopens h.known h.unlocked hsave path
    exact ⟨file, saved, loaded, hsave, hload, hagrees, fun now => hagrees.allKeys now⟩

namespace Wallet

/-- A wallet that was created on a seed, or one without a seed and without keys. -/
inductive Starts : Wallet → Prop
  | created {network : String} {seed : Seed} {password : Option String} {now : Int}
      {salt nonce : Bytes} {file : WalletFile} {store : Keystore}
      (h : Keystore.create network seed password now salt nonce = .ok (file, store)) :
      Starts ⟨store, file⟩
  | legacy {params : ChainParams} {password : Option String} {salt nonce : Bytes}
      {file : WalletFile} {store : Keystore} (hknown : params ∈ NETWORKS)
      (h : Keystore.save ⟨params, none, [], [], 0, none, password⟩ salt nonce = .ok (file, store)) :
      Starts ⟨store, file⟩

/-- The address of a key that enters is not listed yet, and a sealed file is opened with a
password. -/
def Fresh (w : Wallet) : WalletOp → Prop
  | .newKey _ now random => ∀ address, w.store.nextAddress now random = .ok address →
      address ∉ w.store.addresses.map AddressRecord.address
  | .importWif wif _ now => w.store.ImportsFresh wif now
  | .load _ password => w.file.encrypted = true → password.isSome = true
  | .setLabel _ _ | .save _ _ => True

/-- Every operation is fresh where it comes. -/
def AllFresh : Wallet → List WalletOp → Prop
  | _, [] => True
  | w, op :: ops => w.Fresh op ∧ (w.step op).AllFresh ops

/-- The store is sound, and the file is that of a sound store. -/
structure Kept (w : Wallet) : Prop where
  sound : w.store.Sound
  file : ∃ saved : Keystore, saved.Sound ∧ saved.Reloads w.file

/-- Saving a sound store keeps a wallet. -/
theorem Kept.of_save (hauthentic : WalletCipher.Authentic) {k k' : Keystore} (h : k.Sound)
    {salt nonce : Bytes} {file : WalletFile} (hsave : k.save salt nonce = .ok (file, k')) :
    Kept ⟨k', file⟩ where
  sound :=
    have ⟨hagrees, hunlocked⟩ := Keystore.save_agrees h.unlocked hsave
    h.of_agrees hagrees hunlocked
  file := ⟨k, h, Keystore.save_reloads hauthentic h.known h.unlocked hsave⟩

theorem Starts.kept (hauthentic : WalletCipher.Authentic) {w : Wallet} (h : Starts w) : w.Kept := by
  cases h with
  | created h =>
    obtain ⟨params, hparams, h⟩ := bind_eq_ok.mp h
    obtain ⟨record, hrecord, h⟩ := bind_eq_ok.mp h
    obtain ⟨key, hkey, hrecord⟩ := bind_eq_ok.mp hrecord
    obtain rfl := pure_eq_ok.mp hrecord
    refine Kept.of_save hauthentic { known := ?_, unlocked := ?_, keyed := ?_, nodup := ?_ } h
    · exact Keystore.known_of_getParams hparams
    · exact fun henvelope => Bool.noConfusion henvelope
    · intro record hrecord
      obtain rfl := List.mem_singleton.mp hrecord
      exact ⟨_, 0, key, rfl, rfl, hkey, rfl⟩
    · exact List.nodup_singleton _
  | legacy hknown h =>
    refine Kept.of_save hauthentic { known := hknown, unlocked := ?_, keyed := ?_, nodup := ?_ } h
    · exact fun henvelope => Bool.noConfusion henvelope
    · exact fun record hrecord => absurd hrecord List.not_mem_nil
    · exact List.nodup_nil

/-- A fresh operation keeps a wallet. -/
theorem Kept.perform (hauthentic : WalletCipher.Authentic) {w w' : Wallet} (h : w.Kept)
    {op : WalletOp} (hfresh : w.Fresh op) (hop : w.perform op = .ok w') : w'.Kept := by
  cases op with
  | newKey label now random =>
    obtain ⟨store, hnew, hop⟩ := bind_eq_ok.mp hop
    obtain rfl := pure_eq_ok.mp hop
    exact ⟨h.sound.newKey hfresh hnew, h.file⟩
  | importWif wif label now =>
    obtain ⟨store, hnew, hop⟩ := bind_eq_ok.mp hop
    obtain rfl := pure_eq_ok.mp hop
    exact ⟨h.sound.importWif hfresh hnew, h.file⟩
  | setLabel address label =>
    obtain ⟨store, hnew, hop⟩ := bind_eq_ok.mp hop
    obtain rfl := pure_eq_ok.mp hop
    exact ⟨h.sound.setLabel hnew, h.file⟩
  | save salt nonce =>
    obtain ⟨⟨file, store⟩, hsave, hop⟩ := bind_eq_ok.mp hop
    obtain rfl := pure_eq_ok.mp hop
    exact Kept.of_save hauthentic h.sound hsave
  | load path password =>
    obtain ⟨store, hload, hop⟩ := bind_eq_ok.mp hop
    obtain rfl := pure_eq_ok.mp hop
    obtain ⟨saved, hsound, hreloads⟩ := h.file
    obtain ⟨hagrees, hunlocked⟩ := hreloads path password store hfresh hload
    exact ⟨hsound.of_agrees hagrees hunlocked, saved, hsound, hreloads⟩

theorem Kept.step (hauthentic : WalletCipher.Authentic) {w : Wallet} (h : w.Kept) {op : WalletOp}
    (hfresh : w.Fresh op) : (w.step op).Kept := by
  unfold Wallet.step
  split
  · rename_i hop
    exact h.perform hauthentic hfresh hop
  · exact h

theorem Kept.run (hauthentic : WalletCipher.Authentic) {w : Wallet} (h : w.Kept)
    {ops : List WalletOp} (hfresh : w.AllFresh ops) : (w.run ops).Kept := by
  induction ops generalizing w with
  | nil => exact h
  | cons op ops ih => exact ih (h.step hauthentic hfresh.1) hfresh.2

/-- A key store stays consistent as long as every key that enters it has an address of its own. -/
theorem run_consistent (hopens : WalletCipher.Opens) (hauthentic : WalletCipher.Authentic)
    {w : Wallet} (hstarts : Starts w) {ops : List WalletOp} (hfresh : w.AllFresh ops) :
    (w.run ops).store.Consistent :=
  ((hstarts.kept hauthentic).run hauthentic hfresh).sound.consistent hopens

end Wallet

end Runs

/-! ## A wallet to run -/

namespace Sample

/-- Strings are numbered through the codes of their characters. -/
@[reducible] def stringCode : Encodable String :=
  Encodable.ofLeftInjection (fun text => text.toList.map Char.toNat)
    (fun codes => some (String.ofList (codes.map Char.ofNat)))
    (fun text => by simp [Function.comp_def])

attribute [local instance] stringCode

/-- The fields of an item. -/
@[reducible] def itemCode : Encodable KeyItem :=
  Encodable.ofEquiv (String × String × Int × Option String)
    { toFun := fun item => (item.wif, item.label, item.created, item.path)
      invFun := fun fields => ⟨fields.1, fields.2.1, fields.2.2.1, fields.2.2.2⟩
      left_inv := fun _ => rfl
      right_inv := fun _ => rfl }

attribute [local instance] itemCode

/-- The fields of a payload. -/
@[reducible] def payloadCode : Encodable SecretPayload :=
  Encodable.ofEquiv (Option String × List KeyItem)
    { toFun := fun payload => (payload.seed, payload.imported)
      invFun := fun fields => ⟨fields.1, fields.2⟩
      left_inv := fun _ => rfl
      right_inv := fun _ => rfl }

attribute [local instance] payloadCode

/-- A cipher whose text is as long as the number of the payload. -/
@[reducible] def cipher : WalletCipher where
  scrypt _ salt _ _ _ := salt
  encrypt _ _ payload _ := List.replicate (Encodable.encode payload) 0
  decrypt _ _ ciphertext _ := Encodable.decode ciphertext.length

attribute [local instance] cipher

theorem cipher_opens : WalletCipher.Opens := by
  intro key nonce payload associated
  show Encodable.decode (List.replicate (Encodable.encode payload) 0).length = some payload
  rw [List.length_replicate, Encodable.encodek]

theorem cipher_authentic : WalletCipher.Authentic := by
  intro key other nonce payload opened associated h
  exact Option.some.inj (h.symm.trans (cipher_opens key nonce payload associated))

attribute [local instance] Sample.crypto Sample.curve Sample.residues

/-- A seed of threes. -/
def seed : Seed := ⟨List.replicate 64 3, List.length_replicate⟩

/-- The key of the seed at an index. -/
def keyAt (index : Int) : Except PyError PrivateKey :=
  KeyDerivation.derive seed.val false (Keystore.derivationPath REGTEST index)

theorem derive_keyAt {index now : Int} {key : PrivateKey} (h : keyAt index = .ok key) :
    Keystore.derive REGTEST seed index now =
      .ok ⟨key, "", now, some (Keystore.derivationPath REGTEST index)⟩ := by
  have hderive : KeyDerivation.derive seed.val (REGTEST.name == .mainnet)
      (Keystore.derivationPath REGTEST index) = .ok key := h
  rw [Keystore.derive, hderive]
  rfl

/-- The first two keys of the seed have addresses of their own. -/
theorem keysAt : ∃ key next, keyAt 0 = .ok key ∧ keyAt 1 = .ok next ∧
    Keystore.addressOf REGTEST next ≠ Keystore.addressOf REGTEST key := by
  have hkeys : ((keyAt 0).toOption.any fun key => (keyAt 1).toOption.any fun next =>
      Keystore.addressOf REGTEST next ≠ Keystore.addressOf REGTEST key) = true := by
    decide +kernel
  obtain ⟨key, hkey, hnext⟩ := (Option.any_eq_true _ _).mp hkeys
  obtain ⟨next, hnext, hne⟩ := (Option.any_eq_true _ _).mp hnext
  exact ⟨key, next, toOption_eq_some.mp hkey, toOption_eq_some.mp hnext, of_decide_eq_true hne⟩

/-- A new wallet with a password lists the first key of the seed. -/
theorem create_sealed {key : PrivateKey} (hkey : keyAt 0 = .ok key) : ∃ file store,
    Keystore.create "regtest" seed (some "secret") 0 [1] [2] = .ok (file, store) ∧
    store.params = REGTEST ∧ store.seed = some seed ∧ store.nextIndex = 1 ∧
    store.addresses.map AddressRecord.address = [Keystore.addressOf REGTEST key] := by
  have hunlocked :
      Keystore.Unlocked ⟨REGTEST, some seed, [], [⟨Keystore.addressOf REGTEST key, "main", 0,
      some (Keystore.derivationPath REGTEST 0)⟩], 1, none, some "secret"⟩ := fun _ => rfl
  obtain ⟨file, store, hsave⟩ := Keystore.save_ok hunlocked [1] [2]
  have hagrees := (Keystore.save_agrees hunlocked hsave).1
  have hcreate : Keystore.create "regtest" seed (some "secret") 0 [1] [2] = .ok (file, store) := by
    unfold Keystore.create
    rw [show getParams "regtest" = .ok REGTEST from rfl, ok_bind, derive_keyAt hkey]
    exact hsave
  refine ⟨file, store, hcreate, hagrees.params, hagrees.seed, hagrees.nextIndex, ?_⟩
  rw [hagrees.addresses]
  rfl

/-- A second address, in a wallet with a password that is saved and opened again. -/
theorem run_consistent_reopened : ∃ file store,
    Keystore.create "regtest" seed (some "secret") 0 [1] [2] = .ok (file, store) ∧
    (Wallet.run ⟨store, file⟩ [.newKey "savings" 1 privateKey, .save [3] [4],
      .load "wallet.json" (some "secret")]).store.Consistent := by
  obtain ⟨key, next, hkey, hnext, hne⟩ := keysAt
  obtain ⟨file, store, hcreate, hparams, hseed, hindex, haddresses⟩ := create_sealed hkey
  refine ⟨file, store, hcreate,
    Wallet.run_consistent cipher_opens cipher_authentic (.created hcreate)
    ⟨fun address haddress => ?_, trivial, fun _ => rfl, trivial⟩⟩
  -- the next key of the seed has an address of its own
  rw [Keystore.nextAddress, hseed, hparams, hindex] at haddress
  dsimp only at haddress
  rw [derive_keyAt (by exact hnext)] at haddress
  obtain rfl := Except.ok.inj haddress
  rw [haddresses, List.mem_singleton]
  exact hne

/-- A key that is imported before the seed comes to it is listed twice. -/
theorem not_consistent_imported : ∃ key file store, keyAt 1 = .ok key ∧
    Keystore.create "regtest" seed none 0 [] [] = .ok (file, store) ∧
    ¬ (Wallet.run ⟨store, file⟩ [.importWif (key.toWif REGTEST.wifVersion) "imported" 1,
      .newKey "" 2 privateKey]).store.Consistent := by
  have hrun : ((keyAt 1).toOption.any fun key =>
      (Keystore.create "regtest" seed none 0 [] []).toOption.any fun r =>
        !decide ((Wallet.run ⟨r.2, r.1⟩ [.importWif (key.toWif REGTEST.wifVersion) "imported" 1,
          .newKey "" 2 privateKey]).store.addresses.map AddressRecord.address).Nodup) = true := by
    decide +kernel
  obtain ⟨key, hkey, hcreate⟩ := (Option.any_eq_true _ _).mp hrun
  obtain ⟨⟨file, store⟩, hcreate, hlisted⟩ := (Option.any_eq_true _ _).mp hcreate
  refine ⟨key, file, store, toOption_eq_some.mp hkey, toOption_eq_some.mp hcreate, fun h => ?_⟩
  rw [Bool.not_eq_true', decide_eq_false_iff_not] at hlisted
  exact hlisted h.nodup

end Sample

end ScarletCoin
