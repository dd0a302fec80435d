import ScarletCoin.Toolkit.Digits
import ScarletCoin.Toolkit.Words
import ScarletCoin.Wallet.Keys
import ScarletCoin.Sample

/-!
# Mnemonic sentences

`crypto/bip39.py`: entropy with a checksum as a sentence of words from a list. The list is a
parameter, any 2048 distinct words without whitespace (`WordList`). What `validate_mnemonic` accepts
are the sentences of entropies, each of them that of one entropy (`validateMnemonic_eq_ok_iff`).
-/

set_option autoImplicit false

namespace ScarletCoin

open Toolkit

/-- The exceptions of the module; `MnemonicError` derives from `ValueError`. -/
inductive MnemonicError where
  | mnemonic (message : String)
  | value (message : String)
  | overflow (message : String)
  deriving DecidableEq, Repr

/-- Entropy sizes, mapped to their word counts. -/
def ENTROPY_BITS : List (Nat × Nat) := [(128, 12), (160, 15), (192, 18), (224, 21), (256, 24)]

/-- The word list. -/
structure WordList where
  words : List String
  length : words.length = 2048
  distinct : words.Nodup
  plain : ∀ w ∈ words, IsWord isWhitespace w.toList

/-- `text.split()`. -/
def splitText (text : String) : List String := (wordsOf isWhitespace text.toList).map String.ofList

/-- `" ".join(words)`. -/
def joinWords (words : List String) : String := " ".intercalate words

/-- `wordlist.index(word)`. -/
def WordList.index (wordlist : WordList) (word : String) : Except MnemonicError Nat :=
  if wordlist.words.contains word then .ok (wordlist.words.idxOf word)
  else .error (.mnemonic s!"unknown mnemonic word: '{word}'")

/-- `wordlist[index]`. -/
def WordList.word (wordlist : WordList) (index : Nat) : String := wordlist.words.getD index ""

/-- `value.to_bytes(length, "big")`. -/
def toBytes (value length : Nat) : Except MnemonicError Bytes :=
  if value < 256 ^ length then .ok (leBytes length value).reverse
  else .error (.overflow "int too big to convert")

section Sentences

variable [Crypto]

/-- The first byte of the digest of an entropy, as far as the checksum has bits. -/
def entropyChecksum (entropy : Bytes) (checksumBits : Nat) : Nat :=
  ((sha256 entropy).val.headD 0).toNat >>> (8 - checksumBits)

/-- Encode an entropy as a mnemonic sentence. -/
def entropyToMnemonic (wordlist : WordList) (entropy : Bytes) : Except MnemonicError String := do
  raiseIf (entropy.length ∉ ENTROPY_BITS.map fun p => p.1 / 8)
    (.value s!"entropy must be [128, 160, 192, 224, 256] bits, got {entropy.length * 8}")
  let checksumBits := entropy.length / 4
  let bits := (beNat entropy <<< checksumBits) ||| entropyChecksum entropy checksumBits
  let total := entropy.length * 8 + checksumBits
  -- the shifts are `range(total - 11, -1, -11)`
  let indices := (List.range ((total - 11) / 11 + 1)).map fun i =>
    (bits >>> (total - 11 - 11 * i)) &&& 0x7FF
  pure (joinWords (indices.map wordlist.word))

/-- Check that a text is a mnemonic sentence. -/
def validateMnemonic (wordlist : WordList) (mnemonic : String) : Except MnemonicError Unit := do
  let words := splitText mnemonic
  raiseIf (words.length ∉ ENTROPY_BITS.map Prod.snd)
    (.mnemonic s!"a mnemonic has [12, 15, 18, 21, 24] words, got {words.length}")
  let indices ← words.mapM wordlist.index
  let strength := ((ENTROPY_BITS.find? fun p => p.2 == words.length).map Prod.fst).getD 0
  let checksumBits := strength / 32
  let value := indices.foldl (fun value index => (value <<< 11) ||| index) 0
  let entropy ← toBytes (value >>> checksumBits) (strength / 8)
  let checksum := value &&& ((1 <<< checksumBits) - 1)
  raiseIf (checksum ≠ entropyChecksum entropy checksumBits)
    (.mnemonic "the mnemonic's checksum does not match its words")

end Sentences

/-! ## Words -/

theorem splitText_joinWords {words : List String} (h : ∀ w ∈ words, IsWord isWhitespace w.toList) :
    splitText (joinWords words) = words := by
  have hall : ∀ w ∈ words.map String.toList, IsWord isWhitespace w := by
    intro w hw
    obtain ⟨word, hword, rfl⟩ := List.mem_map.mp hw
    exact h word hword
  rw [splitText, joinWords, String.toList_intercalate, show " ".toList = [' '] from rfl,
    wordsOf_intercalate hall rfl, List.map_map]
  exact List.map_id'' (fun _ => String.ofList_toList) words

theorem isWord_of_mem_splitText {text w : String} (h : w ∈ splitText text) :
    IsWord isWhitespace w.toList := by
  obtain ⟨word, hword, rfl⟩ := List.mem_map.mp h
  rw [String.toList_ofList]
  exact isWord_of_mem hword

namespace WordList

variable {wordlist : WordList}

theorem word_mem {i : Nat} (h : i < 2048) : wordlist.word i ∈ wordlist.words := by
  have hlt : i < wordlist.words.length := by rwa [wordlist.length]
  rw [word, List.getD_eq_getElem?_getD, List.getElem?_eq_getElem hlt]
  exact List.getElem_mem hlt

/-- The index of a word of the list is its place. -/
theorem index_eq_ok_iff {word : String} {i : Nat} :
    wordlist.index word = .ok i ↔ i < 2048 ∧ wordlist.word i = word := by
  unfold index
  constructor
  · intro h
    split at h
    · rename_i hmem
      have hlt := List.idxOf_lt_length_of_mem (List.contains_iff_mem.mp hmem)
      obtain rfl := Except.ok.inj h
      refine ⟨by rwa [wordlist.length] at hlt, ?_⟩
      rw [WordList.word, List.getD_eq_getElem?_getD, List.getElem?_eq_getElem hlt]
      exact List.getElem_idxOf hlt
    · cases h
  · rintro ⟨hi, rfl⟩
    have hlt : i < wordlist.words.length := by rwa [wordlist.length]
    rw [if_pos (List.contains_iff_mem.mpr (word_mem hi)), WordList.word, List.getD_eq_getElem?_getD,
      List.getElem?_eq_getElem hlt]
    exact congrArg Except.ok (wordlist.distinct.idxOf_getElem i hlt)

theorem mapM_index_eq_ok_iff {words : List String} {indices : List Nat} :
    words.mapM wordlist.index = .ok indices ↔
      (∀ i ∈ indices, i < 2048) ∧ indices.map wordlist.word = words := by
  rw [mapM_eq_ok]
  constructor
  · intro h
    induction h with
    | nil => exact ⟨fun i hi => absurd hi List.not_mem_nil, rfl⟩
    | cons hhead _ ih =>
      obtain ⟨hlt, hword⟩ := index_eq_ok_iff.mp hhead
      refine ⟨fun i hi => ?_, by rw [List.map_cons, hword, ih.2]⟩
      rcases List.mem_cons.mp hi with rfl | hi
      · exact hlt
      · exact ih.1 i hi
  · rintro ⟨hlt, rfl⟩
    rw [List.forall₂_map_left_iff, List.forall₂_same]
    exact fun i hi => index_eq_ok_iff.mpr ⟨hlt i hi, rfl⟩

/-- Places within the list that hold the same words are the same. -/
theorem map_word_inj {xs ys : List Nat} (hx : ∀ i ∈ xs, i < 2048) (hy : ∀ i ∈ ys, i < 2048)
    (h : xs.map wordlist.word = ys.map wordlist.word) : xs = ys := by
  have hfirst : (ys.map wordlist.word).mapM wordlist.index = .ok xs :=
    mapM_index_eq_ok_iff.mpr ⟨hx, h⟩
  have hsecond : (ys.map wordlist.word).mapM wordlist.index = .ok ys :=
    mapM_index_eq_ok_iff.mpr ⟨hy, rfl⟩
  exact Except.ok.inj (hfirst.symm.trans hsecond)

theorem isWord_of_mem_map {xs : List Nat} (hx : ∀ i ∈ xs, i < 2048) :
    ∀ w ∈ xs.map wordlist.word, IsWord isWhitespace w.toList := by
  intro w hw
  obtain ⟨i, hi, rfl⟩ := List.mem_map.mp hw
  exact wordlist.plain _ (word_mem (hx i hi))

end WordList

/-! ## Sizes -/

/-- The five sizes: entropies of `4 * c` bytes, with `c` checksum bits, in `3 * c` words. -/
def IsSize (c : Nat) : Prop := 4 ≤ c ∧ c ≤ 8

theorem isSize_of_bytes {n : Nat} :
    n ∈ ENTROPY_BITS.map (fun p => p.1 / 8) ↔ ∃ c, IsSize c ∧ n = 4 * c := by
  constructor
  · intro h
    simp only [ENTROPY_BITS, List.map_cons, List.map_nil, List.mem_cons, List.not_mem_nil,
      or_false] at h
    exact ⟨n / 4, ⟨by omega, by omega⟩, by omega⟩
  · rintro ⟨c, ⟨hlow, hhigh⟩, rfl⟩
    interval_cases c <;> decide

theorem isSize_of_words {n : Nat} : n ∈ ENTROPY_BITS.map Prod.snd ↔ ∃ c, IsSize c ∧ n = 3 * c := by
  constructor
  · intro h
    simp only [ENTROPY_BITS, List.map_cons, List.map_nil, List.mem_cons, List.not_mem_nil,
      or_false] at h
    exact ⟨n / 3, ⟨by omega, by omega⟩, by omega⟩
  · rintro ⟨c, ⟨hlow, hhigh⟩, rfl⟩
    interval_cases c <;> decide

theorem IsSize.strength {c : Nat} (h : IsSize c) :
    ((ENTROPY_BITS.find? fun p => p.2 == 3 * c).map Prod.fst).getD 0 = 32 * c := by
  obtain ⟨hlow, hhigh⟩ := h
  interval_cases c <;> rfl

/-! ## The number behind a sentence -/

section Sentences

variable [Crypto] {wordlist : WordList} {c : Nat}

theorem entropyChecksum_lt (entropy : Bytes) (hc : IsSize c) :
    entropyChecksum entropy c < 2 ^ c := by
  have hbyte : ((sha256 entropy).val.headD 0).toNat < 2 ^ 8 := UInt8.toNat_lt _
  rw [entropyChecksum, Nat.shiftRight_eq_div_pow]
  refine Nat.div_lt_of_lt_mul ?_
  rw [← pow_add, Nat.sub_add_cancel hc.2]
  exact hbyte

/-- The entropy with its checksum. -/
def sentenceNumber (entropy : Bytes) (c : Nat) : Nat :=
  beNat entropy * 2 ^ c + entropyChecksum entropy c

theorem sentenceNumber_div (entropy : Bytes) (hc : IsSize c) :
    sentenceNumber entropy c / 2 ^ c = beNat entropy := by
  rw [sentenceNumber, Nat.mul_comm, Nat.mul_add_div (Nat.two_pow_pos c),
    Nat.div_eq_of_lt (entropyChecksum_lt entropy hc), Nat.add_zero]

theorem sentenceNumber_mod (entropy : Bytes) (hc : IsSize c) :
    sentenceNumber entropy c % 2 ^ c = entropyChecksum entropy c := by
  rw [sentenceNumber, Nat.mul_add_mod_self_right, Nat.mod_eq_of_lt (entropyChecksum_lt entropy hc)]

theorem sentenceNumber_lt {entropy : Bytes} (hc : IsSize c) (hlength : entropy.length = 4 * c) :
    sentenceNumber entropy c < 2048 ^ (3 * c) := by
  have hentropy := beNat_lt entropy
  rw [hlength, show 256 = 2 ^ 8 from rfl, ← pow_mul] at hentropy
  have hchecksum := entropyChecksum_lt entropy hc
  have hpow : 2048 ^ (3 * c) = 2 ^ (8 * (4 * c)) * 2 ^ c := by
    rw [show 2048 = 2 ^ 11 from rfl, ← pow_mul, ← pow_add]
    congr 1
    omega
  rw [hpow]
  calc sentenceNumber entropy c < (beNat entropy + 1) * 2 ^ c := by
        rw [sentenceNumber, Nat.add_mul, Nat.one_mul]
        omega
    _ ≤ 2 ^ (8 * (4 * c)) * 2 ^ c := Nat.mul_le_mul_right _ hentropy

/-- A sentence spells its number in base 2048. -/
theorem entropyToMnemonic_eq {entropy : Bytes} (hc : IsSize c) (hlength : entropy.length = 4 * c) :
    entropyToMnemonic wordlist entropy =
      .ok (joinWords ((digitsOf 2048 (3 * c) (sentenceNumber entropy c)).map wordlist.word)) := by
  have hquarter : entropy.length / 4 = c := by omega
  have hpos := hc.1
  have hbits : beNat entropy <<< c ||| entropyChecksum entropy c = sentenceNumber entropy c := by
    rw [← Nat.shiftLeft_add_eq_or_of_lt (entropyChecksum_lt entropy hc), Nat.shiftLeft_eq,
      sentenceNumber]
  refine raiseIf_bind_eq_ok.mpr ⟨not_not.mpr (isSize_of_bytes.mpr ⟨c, hc, hlength⟩), ?_⟩
  dsimp only
  rw [hquarter, hbits, hlength, digitsOf_eq_map]
  refine congrArg (fun indices : List Nat => Except.ok (joinWords (indices.map wordlist.word))) ?_
  rw [show (4 * c * 8 + c - 11) / 11 + 1 = 3 * c by omega]
  refine List.map_congr_left fun i hi => ?_
  have hlt := List.mem_range.mp hi
  rw [show 0x7FF = 2 ^ 11 - 1 from rfl, Nat.and_two_pow_sub_one_eq_mod, Nat.shiftRight_eq_div_pow,
    show 2048 = 2 ^ 11 from rfl, ← pow_mul]
  congr 3
  omega

/-- Only entropies of the five sizes have a sentence. -/
theorem entropyToMnemonic_eq_ok_iff {entropy : Bytes} {sentence : String} :
    entropyToMnemonic wordlist entropy = .ok sentence ↔ ∃ c, IsSize c ∧ entropy.length = 4 * c ∧
      sentence = joinWords
      ((digitsOf 2048 (3 * c) (sentenceNumber entropy c)).map wordlist.word) := by
  constructor
  · intro h
    obtain ⟨hsize, -⟩ := raiseIf_bind_eq_ok.mp h
    obtain ⟨c, hc, hlength⟩ := isSize_of_bytes.mp (not_not.mp hsize)
    rw [entropyToMnemonic_eq hc hlength] at h
    exact ⟨c, hc, hlength, (Except.ok.inj h).symm⟩
  · rintro ⟨c, hc, hlength, rfl⟩
    exact entropyToMnemonic_eq hc hlength

omit [Crypto] in
/-- What `validate_mnemonic` makes of the places of the words. -/
theorem foldl_index {indices : List Nat} (h : ∀ i ∈ indices, i < 2048) :
    indices.foldl (fun value index => (value <<< 11) ||| index) 0 = spell 2048 indices := by
  induction indices using List.reverseRecOn with
  | nil => rfl
  | append_singleton indices i ih =>
    have hi : i < 2 ^ 11 := h i (by simp)
    rw [List.foldl_append, ih fun x hx => h x (List.mem_append_left _ hx), spell_concat]
    exact (Nat.shiftLeft_add_eq_or_of_lt hi _).symm.trans (by rw [Nat.shiftLeft_eq])

omit [Crypto] in
theorem toBytes_eq_ok_iff {value length : Nat} {bytes : Bytes} :
    toBytes value length = .ok bytes ↔ bytes.length = length ∧ beNat bytes = value := by
  unfold toBytes
  constructor
  · intro h
    split at h
    · rename_i hlt
      obtain rfl := Except.ok.inj h
      rw [List.length_reverse, leBytes_length, beNat, List.reverse_reverse, leNat_leBytes_of_lt hlt]
      exact ⟨rfl, rfl⟩
    · cases h
  · rintro ⟨rfl, rfl⟩
    rw [if_pos (beNat_lt bytes), beNat, ← List.length_reverse, leBytes_leNat, List.reverse_reverse]

/-- A text is accepted when its words spell the number of an entropy. -/
theorem validateMnemonic_eq_ok_iff_number {text : String} :
    validateMnemonic wordlist text = .ok () ↔ ∃ c entropy, IsSize c ∧ entropy.length = 4 * c ∧
      splitText text = (digitsOf 2048 (3 * c) (sentenceNumber entropy c)).map wordlist.word := by
  unfold validateMnemonic
  dsimp only
  rw [raiseIf_bind_eq_ok, not_not, isSize_of_words]
  constructor
  · rintro ⟨⟨c, hc, hcount⟩, h⟩
    obtain ⟨indices, hindices, h₁⟩ := bind_eq_ok.mp h
    obtain ⟨hlt, hwords⟩ := WordList.mapM_index_eq_ok_iff.mp hindices
    rw [hcount, hc.strength, foldl_index hlt] at h₁
    obtain ⟨entropy, hentropy, h₂⟩ := bind_eq_ok.mp h₁
    have hsum := raiseIf_eq_ok.mp h₂
    rw [show 32 * c / 32 = c by omega] at hentropy hsum
    obtain ⟨hlength, hnumber⟩ := toBytes_eq_ok_iff.mp hentropy
    have hlength' : entropy.length = 4 * c := by omega
    -- the indices spell the entropy followed by its checksum
    have hsame : spell 2048 indices = sentenceNumber entropy c := by
      have hdiv := Nat.div_add_mod' (spell 2048 indices) (2 ^ c)
      rw [sentenceNumber, hnumber, ← not_not.mp hsum, Nat.shiftRight_eq_div_pow, Nat.one_shiftLeft,
        Nat.and_two_pow_sub_one_eq_mod]
      exact hdiv.symm
    refine ⟨c, entropy, hc, hlength', ?_⟩
    have hindices' : indices.length = 3 * c := by rw [← hcount, ← hwords, List.length_map]
    rw [← hsame, ← hindices', digitsOf_spell hlt, hwords]
  · rintro ⟨c, entropy, hc, hlength, hwords⟩
    have hlt : ∀ i ∈ digitsOf 2048 (3 * c) (sentenceNumber entropy c), i < 2048 := fun i hi =>
      lt_of_mem_digitsOf (by decide) hi
    have hcount : (splitText text).length =
      3 * c := by rw [hwords, List.length_map, length_digitsOf]
    have hbytes : toBytes (beNat entropy) (4 * c) = .ok entropy :=
      toBytes_eq_ok_iff.mpr ⟨hlength, rfl⟩
    refine ⟨⟨c, hc, hcount⟩, ?_⟩
    rw [WordList.mapM_index_eq_ok_iff.mpr ⟨hlt, hwords.symm⟩, ok_bind, hcount, hc.strength,
      foldl_index hlt, spell_digitsOf (sentenceNumber_lt hc hlength), show 32 * c / 32 = c by omega,
      show 32 * c / 8 = 4 * c by omega, Nat.shiftRight_eq_div_pow, sentenceNumber_div entropy hc,
      hbytes, ok_bind, Nat.one_shiftLeft, Nat.and_two_pow_sub_one_eq_mod,
      sentenceNumber_mod entropy hc]
    exact raiseIf_eq_ok.mpr (not_not.mpr rfl)

/-- An entropy is read off its sentence. -/
theorem entropyToMnemonic_injective {entropy entropy' : Bytes} {sentence : String}
    (h : entropyToMnemonic wordlist entropy = .ok sentence)
    (h' : entropyToMnemonic wordlist entropy' = .ok sentence) : entropy = entropy' := by
  obtain ⟨c, hc, hlength, hsentence⟩ := entropyToMnemonic_eq_ok_iff.mp h
  obtain ⟨c', hc', hlength', hsentence'⟩ := entropyToMnemonic_eq_ok_iff.mp h'
  have hlt : ∀ k n, ∀ i ∈ digitsOf 2048 k n, i < 2048 :=
    fun k n i hi => lt_of_mem_digitsOf (by decide) hi
  have hwords := congrArg splitText (hsentence.symm.trans hsentence')
  rw [splitText_joinWords (WordList.isWord_of_mem_map (hlt _ _)),
    splitText_joinWords (WordList.isWord_of_mem_map (hlt _ _))] at hwords
  have hdigits := WordList.map_word_inj (hlt _ _) (hlt _ _) hwords
  have hcount := congrArg List.length hdigits
  rw [length_digitsOf, length_digitsOf] at hcount
  obtain rfl : c = c' := by omega
  have hnumber := congrArg (spell 2048) hdigits
  rw [spell_digitsOf (sentenceNumber_lt hc hlength),
    spell_digitsOf (sentenceNumber_lt hc hlength')] at hnumber
  have hentropy := congrArg (· / 2 ^ c) hnumber
  rw [sentenceNumber_div entropy hc, sentenceNumber_div entropy' hc] at hentropy
  exact Except.ok.inj ((toBytes_eq_ok_iff.mpr ⟨hlength, hentropy⟩).symm.trans
    (toBytes_eq_ok_iff.mpr ⟨hlength', rfl⟩))

/-- The texts that are accepted are, up to whitespace, the sentences of entropies of the five sizes,
each the sentence of one entropy. -/
theorem validateMnemonic_eq_ok_iff (wordlist : WordList) (text : String) :
    validateMnemonic wordlist text = .ok () ↔
      ∃ entropy : Bytes, entropy.length ∈ [16, 20, 24, 28, 32] ∧
        entropyToMnemonic wordlist entropy = .ok (joinWords (splitText text)) ∧
        ∀ entropy', entropyToMnemonic wordlist entropy' = .ok (joinWords (splitText text)) →
          entropy' = entropy := by
  rw [validateMnemonic_eq_ok_iff_number]
  constructor
  · rintro ⟨c, entropy, hc, hlength, hwords⟩
    have hsentence : entropyToMnemonic wordlist entropy = .ok (joinWords (splitText text)) :=
      entropyToMnemonic_eq_ok_iff.mpr ⟨c, hc, hlength, congrArg joinWords hwords⟩
    exact ⟨entropy, isSize_of_bytes.mpr ⟨c, hc, hlength⟩, hsentence,
      fun entropy' h => entropyToMnemonic_injective h hsentence⟩
  · rintro ⟨entropy, -, hsentence, -⟩
    obtain ⟨c, hc, hlength, hjoined⟩ := entropyToMnemonic_eq_ok_iff.mp hsentence
    have hwords := congrArg splitText hjoined
    rw [splitText_joinWords fun w hw => isWord_of_mem_splitText hw,
      splitText_joinWords (WordList.isWord_of_mem_map fun i hi =>
        lt_of_mem_digitsOf (by decide) hi)] at hwords
    exact ⟨c, entropy, hc, hlength, hwords⟩

end Sentences

/-! ## A word list -/

namespace Sample

/-- The word of a number: its three digits in base 16, as letters. -/
def threeLetters (n : Nat) : String :=
  String.ofList ((digitsOf 16 3 n).map fun d => Char.ofNat (97 + d))

theorem threeLetters_inj {m n : Nat} (hm : m < 16 ^ 3) (hn : n < 16 ^ 3)
    (h : threeLetters m = threeLetters n) : m = n := by
  have hletter : ∀ d < 16, (Char.ofNat (97 + d)).toNat - 97 = d := by decide
  have hread : ∀ k n,
      ((digitsOf 16 k n).map fun d => Char.ofNat (97 + d)).map (fun c => c.toNat - 97) =
      digitsOf 16 k n := by
    intro k n
    rw [List.map_map]
    exact (List.map_congr_left fun d hd => hletter d (lt_of_mem_digitsOf (by decide) hd)).trans
      (List.map_id _)
  have hdigits : digitsOf 16 3 m = digitsOf 16 3 n := by
    rw [← hread 3 m, String.ofList_injective h, hread]
  rw [← spell_digitsOf hm, hdigits, spell_digitsOf hn]

theorem wordlist_distinct : ((List.range 2048).map threeLetters).Nodup :=
  List.nodup_range.map_on fun m hm n hn h => by
    have hm := List.mem_range.mp hm
    have hn := List.mem_range.mp hn
    exact threeLetters_inj (by omega) (by omega) h

theorem wordlist_plain :
    ∀ w ∈ (List.range 2048).map threeLetters, IsWord isWhitespace w.toList := by
  intro w hw
  obtain ⟨n, -, rfl⟩ := List.mem_map.mp hw
  have hletter : ∀ d < 16, isWhitespace (Char.ofNat (97 + d)) = false := by decide
  rw [threeLetters, String.toList_ofList]
  refine ⟨by simp [digitsOf], fun c hc => ?_⟩
  obtain ⟨d, hd, rfl⟩ := List.mem_map.mp hc
  exact hletter d (lt_of_mem_digitsOf (by decide) hd)

/-- A word list. -/
def wordlist : WordList where
  words := (List.range 2048).map threeLetters
  length := by simp
  distinct := wordlist_distinct
  plain := wordlist_plain

end Sample

section Instances

attribute [local instance] Sample.crypto

example : (entropyToMnemonic Sample.wordlist (List.replicate 16 0)).bind
    (validateMnemonic Sample.wordlist) = .ok () := by decide +kernel

end Instances

end ScarletCoin
