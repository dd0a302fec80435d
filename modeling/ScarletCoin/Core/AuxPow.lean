import ScarletCoin.Core.Transaction
import ScarletCoin.Core.Pow

/-!
# Merged mining

The merged-mining proofs of `core/auxpow.py`: Merkle branches, the parent header, the commitment in
the parent coinbase, the slot of a chain in the auxiliary tree and the validation of a proof. The
wire format of a proof determines it (`AuxPoW.serialize_injective`) and the parser accepts only that
format (`AuxPoW.deserialize_canonical`).
-/

set_option autoImplicit false

namespace ScarletCoin

open Toolkit

/-- The marker of a merged-mining commitment. -/
def MERGED_MINING_HEADER : Bytes := [0xFA, 0xBE, 0x6D, 0x6D]

/-- Largest depth of either Merkle branch. -/
def MAX_MERKLE_BRANCH_DEPTH : Nat := 30

/-! ## Parent header -/

/-- The 80-byte header of the parent chain. -/
structure ParentBlockHeader where
  version : UInt32
  prevHash : Hash
  merkleRoot : Hash
  timestamp : UInt32
  bits : UInt32
  nonce : UInt32
  deriving DecidableEq

/-- The 80 bytes of a header with these fields, which both chains lay out alike. -/
def headerBytes (version : UInt32) (prevHash merkleRoot : Hash) (timestamp bits nonce : UInt32) :
    Bytes :=
  Writer.uint32 version ++ (prevHash.val ++ (merkleRoot.val ++
    (Writer.uint32 timestamp ++ (Writer.uint32 bits ++ Writer.uint32 nonce))))

/-- The canonical 80-byte encoding. -/
def ParentBlockHeader.serialize (h : ParentBlockHeader) : Bytes :=
  headerBytes h.version h.prevHash h.merkleRoot h.timestamp h.bits h.nonce

/-- Parse one parent header from a stream. -/
def ParentBlockHeader.read : Reader PyError ParentBlockHeader := do
  let version ← Reader.uint32
  let prevHash ← Reader.hash32
  let merkleRoot ← Reader.hash32
  let timestamp ← Reader.uint32
  let bits ← Reader.uint32
  let nonce ← Reader.uint32
  pure ⟨version, prevHash, merkleRoot, timestamp, bits, nonce⟩

/-- Header bytes followed by anything agree only if all fields agree. -/
theorem headerBytes_selfDelimiting {v v' t t' b b' n n' : UInt32} {p p' m m' : Hash} {x y : Bytes}
    (heq : headerBytes v p m t b n ++ x = headerBytes v' p' m' t' b' n' ++ y) :
    (v = v' ∧ p = p' ∧ m = m' ∧ t = t' ∧ b = b' ∧ n = n') ∧ x = y := by
  simp only [headerBytes, List.append_assoc] at heq
  obtain ⟨hv, h₁⟩ := uint32_selfDelimiting _ _ _ _ trivial trivial heq
  obtain ⟨hp, h₂⟩ := hash_selfDelimiting _ _ _ _ trivial trivial h₁
  obtain ⟨hm, h₃⟩ := hash_selfDelimiting _ _ _ _ trivial trivial h₂
  obtain ⟨ht, h₄⟩ := uint32_selfDelimiting _ _ _ _ trivial trivial h₃
  obtain ⟨hb, h₅⟩ := uint32_selfDelimiting _ _ _ _ trivial trivial h₄
  obtain ⟨hn, hxy⟩ := uint32_selfDelimiting _ _ _ _ trivial trivial h₅
  exact ⟨⟨hv, hp, hm, ht, hb, hn⟩, hxy⟩

theorem headerBytes_length (v : UInt32) (p m : Hash) (t b n : UInt32) :
    (headerBytes v p m t b n).length = 80 := by
  simp [headerBytes, Writer.uint32, p.property, m.property]

theorem ParentBlockHeader.serialize_selfDelimiting :
    SelfDelimiting (fun _ => True) ParentBlockHeader.serialize := by
  intro a b x y _ _ heq
  obtain ⟨⟨hv, hp, hm, ht, hb, hn⟩, hxy⟩ := headerBytes_selfDelimiting heq
  cases a
  cases b
  simp_all

theorem ParentBlockHeader.read_canonical :
    Canonical ParentBlockHeader.serialize ParentBlockHeader.read := by
  intro bs h rest hread
  obtain ⟨version, s₁, hv, h₁⟩ := reader_bind_eq_ok.mp hread
  obtain ⟨prevHash, s₂, hp, h₂⟩ := reader_bind_eq_ok.mp h₁
  obtain ⟨merkleRoot, s₃, hm, h₃⟩ := reader_bind_eq_ok.mp h₂
  obtain ⟨timestamp, s₄, ht, h₄⟩ := reader_bind_eq_ok.mp h₃
  obtain ⟨bits, s₅, hb, h₅⟩ := reader_bind_eq_ok.mp h₄
  obtain ⟨nonce, s₆, hn, h₆⟩ := reader_bind_eq_ok.mp h₅
  obtain ⟨rfl, rfl⟩ := reader_pure_eq_ok.mp h₆
  rw [Reader.uint32_eq_ok.mp hv, Reader.hash32_eq_ok.mp hp, Reader.hash32_eq_ok.mp hm,
    Reader.uint32_eq_ok.mp ht, Reader.uint32_eq_ok.mp hb, Reader.uint32_eq_ok.mp hn]
  simp only [ParentBlockHeader.serialize, headerBytes, List.append_assoc]

/-! ## Commitments -/

/-- A commitment found in the data field of a parent coinbase. -/
structure AuxPoWCommitment where
  auxRoot : Hash
  treeSize : Nat
  nonce : Nat
  deriving DecidableEq

/-- `ceil(log2(tree_size))` for a power of two, computed by shifting. -/
def AuxPoWCommitment.auxTreeHeight (c : AuxPoWCommitment) : Nat := Nat.log2 c.treeSize

/-- The bytes after each occurrence of the marker, searched from left to right without overlaps;
`skip` bytes are still inside the last occurrence. -/
def afterMarkers : Nat → Bytes → List Bytes
  | _, [] => []
  | skip + 1, _ :: rest => afterMarkers skip rest
  | 0, b :: rest =>
      if MERGED_MINING_HEADER.isPrefixOf (b :: rest) then
        rest.drop 3 :: afterMarkers 3 rest
      else
        afterMarkers 0 rest

/-- The commitment in the bytes after a marker: an aux root, a positive tree size and a nonce. -/
def readCommitment (data : Bytes) : Option AuxPoWCommitment :=
  if data.length < 40 then none
  else
    let treeSize := leNat ((data.drop 32).take 4)
    let nonce := leNat ((data.drop 36).take 4)
    if h : (data.take 32).length = 32 then
      if treeSize < 1 then none else some ⟨⟨data.take 32, h⟩, treeSize, nonce⟩
    else none

/-- Search the data field of a coinbase for a merged-mining commitment. -/
def parseAuxpowCommitment (coinbaseData : Bytes) : Except PyError (Option AuxPoWCommitment) :=
  match (afterMarkers 0 coinbaseData).filterMap readCommitment with
  | [] => .ok none
  | [commitment] => .ok (some commitment)
  | results => .error (.auxPoW (s!"found {results.length} AuxPoW commitments in the parent" ++
      " coinbase; exactly one is required"))

/-- The slot of a chain in the auxiliary tree. -/
def getExpectedIndex (nonce chainId auxTreeHeight : Nat) : Nat :=
  let rand := nonce % 2 ^ 32
  let rand := (rand * 1103515245 + 12345) % 2 ^ 64
  let rand := (rand + chainId) % 2 ^ 64
  let rand := (rand * 1103515245 + 12345) % 2 ^ 64
  if auxTreeHeight = 0 then 0 else rand % 2 ^ auxTreeHeight

/-! ## Proofs -/

/-- A merged-mining proof. -/
structure AuxPoW where
  coinbaseTx : Transaction
  coinbaseMerkleBranch : List Bytes
  coinbaseIndex : Nat
  auxMerkleBranch : List Bytes
  auxChainIndex : Nat
  parentHeader : ParentBlockHeader
  deriving DecidableEq

namespace AuxPoW

/-- The wire format. -/
def serialize (a : AuxPoW) : Bytes :=
  Writer.varint a.coinbaseMerkleBranch.length ++ (a.coinbaseMerkleBranch.flatMap id ++
    (leBytes 4 a.coinbaseIndex ++ (Writer.varint a.auxMerkleBranch.length ++
      (a.auxMerkleBranch.flatMap id ++ (leBytes 4 a.auxChainIndex ++
        (Writer.varbytes a.coinbaseTx.serialize ++ a.parentHeader.serialize))))))

/-- Parse a Merkle branch; `which` names it in the error. -/
def readBranch (which : String) : Reader PyError (List Hash) := do
  let count ← Reader.varint
  if MAX_MERKLE_BRANCH_DEPTH < count then
    Reader.fail (.serialization
      s!"{which} Merkle branch too deep: {count} > {MAX_MERKLE_BRANCH_DEPTH}")
  else
    readMany Reader.hash32 count

/-- The proof has a wire format: 32-byte siblings and 32-bit indexes. -/
structure Serializable (a : AuxPoW) : Prop where
  coinbaseBranch : ∀ sibling ∈ a.coinbaseMerkleBranch, sibling.length = 32
  coinbaseDepth : a.coinbaseMerkleBranch.length < 2 ^ 64
  coinbaseIndex : a.coinbaseIndex < 2 ^ 32
  auxBranch : ∀ sibling ∈ a.auxMerkleBranch, sibling.length = 32
  auxDepth : a.auxMerkleBranch.length < 2 ^ 64
  auxIndex : a.auxChainIndex < 2 ^ 32
  size : a.serialize.length < 2 ^ 64

/-- The error for a parent coinbase that does not parse. -/
def coinbaseError : PyError → PyError
  | .serialization m => .serialization s!"invalid parent coinbase transaction: {m}"
  | .transaction m => .serialization s!"invalid parent coinbase transaction: {m}"
  | e => e

/-- Parse the parent coinbase, which is itself length-prefixed. -/
def readCoinbase : Reader PyError Transaction := do
  let bytes ← Reader.varbytes (some (MAX_COINBASE_DATA + 2000))
  match Transaction.deserialize bytes.val with
  | .ok t => pure t
  | .error e => Reader.fail (coinbaseError e)

/-- Parse one proof from a stream. -/
def read : Reader PyError AuxPoW := do
  let coinbaseBranch ← readBranch "coinbase"
  let coinbaseIndex ← Reader.uint32
  let auxBranch ← readBranch "aux"
  let auxChainIndex ← Reader.uint32
  let coinbase ← readCoinbase
  let parentHeader ← ParentBlockHeader.read
  pure ⟨coinbase, coinbaseBranch.map Subtype.val, coinbaseIndex.toNat,
    auxBranch.map Subtype.val, auxChainIndex.toNat, parentHeader⟩

theorem readBranch_eq_ok {which : String} {bs rest : Bytes} {branch : List Hash}
    (h : readBranch which bs = .ok (branch, rest)) :
    branch.length < 2 ^ 64 ∧
      bs = Writer.varint branch.length ++ ((branch.map Subtype.val).flatMap id ++ rest) := by
  obtain ⟨count, mid, hcount, hbody⟩ := reader_bind_eq_ok.mp h
  obtain ⟨hlt, rfl⟩ := Reader.varint_eq_ok.mp hcount
  split at hbody
  · exact absurd hbody Reader.fail_ne_ok
  · have hlen := readMany_length hbody
    have hhash : Canonical (fun h : Hash => h.val) Reader.hash32 :=
      fun _ _ _ hh => (Reader.hash32_eq_ok.mp hh).symm
    have hcanon := hhash.readMany _ _ _ _ hbody
    have hflat : (branch.map Subtype.val).flatMap id = branch.flatMap fun h : Hash => h.val := by
      rw [List.flatMap_map]
      rfl
    exact ⟨by rw [hlen]; exact hlt, by rw [hflat, hcanon, hlen]⟩

theorem readCoinbase_eq_ok {bs rest : Bytes} {t : Transaction}
    (h : readCoinbase bs = .ok (t, rest)) : bs = Writer.varbytes t.serialize ++ rest := by
  obtain ⟨bytes, mid, hbytes, hbody⟩ := reader_bind_eq_ok.mp h
  have hcanon := Reader.varbytes_canonical _ _ _ _ hbytes
  cases hd : Transaction.deserialize bytes.val with
  | error e =>
    rw [hd] at hbody
    exact absurd hbody Reader.fail_ne_ok
  | ok t' =>
    rw [hd] at hbody
    obtain ⟨rfl, rfl⟩ := reader_pure_eq_ok.mp hbody
    rw [Transaction.deserialize_canonical hd, hcanon]

/-- A parsed proof has a wire format, the one that was parsed. -/
theorem read_eq_ok {bs rest : Bytes} {a : AuxPoW} (h : read bs = .ok (a, rest))
    (hsize : bs.length < 2 ^ 64) : a.Serializable ∧ a.serialize ++ rest = bs := by
  obtain ⟨cbBranch, s₁, hcb, h₁⟩ := reader_bind_eq_ok.mp h
  obtain ⟨cbIndex, s₂, hci, h₂⟩ := reader_bind_eq_ok.mp h₁
  obtain ⟨auxBranch, s₃, hab, h₃⟩ := reader_bind_eq_ok.mp h₂
  obtain ⟨auxIndex, s₄, hai, h₄⟩ := reader_bind_eq_ok.mp h₃
  obtain ⟨coinbase, s₅, hc, h₅⟩ := reader_bind_eq_ok.mp h₄
  obtain ⟨header, s₆, hh, h₆⟩ := reader_bind_eq_ok.mp h₅
  obtain ⟨rfl, rfl⟩ := reader_pure_eq_ok.mp h₆
  obtain ⟨hcbLen, hcbEq⟩ := readBranch_eq_ok hcb
  obtain ⟨habLen, habEq⟩ := readBranch_eq_ok hab
  have h32 : ∀ branch : List Hash, ∀ sibling ∈ branch.map Subtype.val, sibling.length = 32 := by
    intro branch sibling hmem
    obtain ⟨hash, -, rfl⟩ := List.mem_map.mp hmem
    exact hash.property
  have hcanon : serialize ⟨coinbase, cbBranch.map Subtype.val, cbIndex.toNat,
      auxBranch.map Subtype.val, auxIndex.toNat, header⟩ ++ s₆ = bs := by
    simp only [serialize, List.append_assoc, List.length_map]
    rw [ParentBlockHeader.read_canonical _ _ _ hh, ← readCoinbase_eq_ok hc,
      show leBytes 4 auxIndex.toNat = Writer.uint32 auxIndex from rfl,
      ← Reader.uint32_eq_ok.mp hai, ← habEq,
      show leBytes 4 cbIndex.toNat = Writer.uint32 cbIndex from rfl,
      ← Reader.uint32_eq_ok.mp hci, ← hcbEq]
  have hlen := congrArg List.length hcanon
  rw [List.length_append] at hlen
  exact ⟨⟨h32 cbBranch, by simpa using hcbLen, UInt32.toNat_lt cbIndex, h32 auxBranch,
    by simpa using habLen, UInt32.toNat_lt auxIndex, by omega⟩, hcanon⟩

/-- A proof with a wire format. -/
abbrev Wire := { a : AuxPoW // a.Serializable }

/-- Parse a proof and insist that the stream ends after it. -/
def readAll : Reader PyError AuxPoW := do
  let a ← read
  Reader.expectEnd
  pure a

theorem readAll_eq_ok {bs rest : Bytes} {a : AuxPoW} (h : readAll bs = .ok (a, rest))
    (hsize : bs.length < 2 ^ 64) : a.Serializable ∧ a.serialize = bs := by
  obtain ⟨a', mid, ha, hrest⟩ := reader_bind_eq_ok.mp h
  obtain ⟨_, mid', hend, hpure⟩ := reader_bind_eq_ok.mp hrest
  obtain ⟨rfl, -⟩ := reader_pure_eq_ok.mp hpure
  obtain ⟨hser, hcanon⟩ := read_eq_ok ha hsize
  rw [(Reader.expectEnd_eq_ok.mp hend).1, List.append_nil] at hcanon
  exact ⟨hser, hcanon⟩

/-- Parse a proof that fills the whole byte string. -/
def deserialize (data : Blob) : Except PyError Wire :=
  match h : readAll data.val with
  | .ok (a, _) => .ok ⟨a, (readAll_eq_ok h data.property).1⟩
  | .error e => .error e

/-- A parsed proof is the one whose wire format was given. -/
theorem deserialize_canonical {data : Blob} {a : Wire} (h : deserialize data = .ok a) :
    a.val.serialize = data.val := by
  unfold deserialize at h
  split at h
  · rename_i a' rest hread
    obtain rfl := Except.ok.inj h
    exact (readAll_eq_ok hread data.property).2
  · cases h

/-- Equally many 32-byte siblings, joined, determine them. -/
theorem branch_split {as bs : List Bytes} {x y : Bytes} (hlen : as.length = bs.length)
    (ha : ∀ s ∈ as, s.length = 32) (hb : ∀ s ∈ bs, s.length = 32)
    (heq : as.flatMap id ++ x = bs.flatMap id ++ y) : as = bs ∧ x = y := by
  have hw : SelfDelimiting (fun s : Bytes => s.length = 32) id :=
    SelfDelimiting.of_length 32 (fun _ h => h) fun _ _ _ _ h => h
  exact hw.flatMap hlen ha hb heq

/-- The wire format determines the proof. -/
theorem serialize_injective {a b : AuxPoW} (ha : a.Serializable) (hb : b.Serializable)
    (heq : a.serialize = b.serialize) : a = b := by
  have hcoinbase : ∀ a : AuxPoW, a.Serializable → a.coinbaseTx.serialize.length < 2 ^ 64 := by
    intro a ha
    have hsize := ha.size
    simp only [serialize, Writer.varbytes, List.length_append] at hsize
    omega
  simp only [serialize] at heq
  obtain ⟨hcl, h₁⟩ := varint_selfDelimiting _ _ _ _ ha.coinbaseDepth hb.coinbaseDepth heq
  obtain ⟨hcb, h₂⟩ := branch_split hcl ha.coinbaseBranch hb.coinbaseBranch h₁
  obtain ⟨hci, h₃⟩ := append_split (by simp) h₂
  obtain ⟨hal, h₄⟩ := varint_selfDelimiting _ _ _ _ ha.auxDepth hb.auxDepth h₃
  obtain ⟨hab, h₅⟩ := branch_split hal ha.auxBranch hb.auxBranch h₄
  obtain ⟨hai, h₆⟩ := append_split (by simp) h₅
  obtain ⟨hct, h₇⟩ := varbytes_selfDelimiting ⟨_, hcoinbase a ha⟩ ⟨_, hcoinbase b hb⟩ _ _
    trivial trivial h₆
  have hindex := leBytes_inj (n := 4) (by simpa using ha.coinbaseIndex)
    (by simpa using hb.coinbaseIndex) hci
  have haux := leBytes_inj (n := 4) (by simpa using ha.auxIndex) (by simpa using hb.auxIndex) hai
  have htx := Transaction.serialize_selfDelimiting.injective trivial trivial
    (congrArg Subtype.val hct)
  have hheader := ParentBlockHeader.serialize_selfDelimiting.injective trivial trivial h₇
  cases a
  cases b
  simp_all

end AuxPoW

/-! ## Validation -/

variable [Crypto]

/-- The root of the tree that `branch` leads to from `leaf` at position `index`. -/
def climb (leaf : Bytes) : List Bytes → Nat → Except PyError Bytes
  | [], _ => .ok leaf
  | sibling :: branch, index => do
      raiseIf (sibling.length ≠ 32) (.auxPoW "Merkle branch hash must be 32 bytes")
      let current :=
        if index % 2 = 1 then hash256 (sibling ++ leaf) else hash256 (leaf ++ sibling)
      climb current.val branch (index / 2)

/-- Compute the Merkle root from a leaf, a branch and an index. -/
def checkMerkleBranch (leaf : Bytes) (branch : List Bytes) (index : Nat) :
    Except PyError Bytes := do
  raiseIf (leaf.length ≠ 32) (.auxPoW "Merkle leaf must be 32 bytes")
  raiseIf (MAX_MERKLE_BRANCH_DEPTH < branch.length)
    (.auxPoW (s!"Merkle branch is {branch.length} levels deep," ++
      s!" the limit is {MAX_MERKLE_BRANCH_DEPTH}"))
  climb leaf branch index

namespace AuxPoW

/-- The transaction id of the parent coinbase. -/
def coinbaseHash (a : AuxPoW) : Hash := a.coinbaseTx.txid

/-- The hash of the parent header. -/
def parentHash (a : AuxPoW) : Hash := hash256 a.parentHeader.serialize

end AuxPoW

/-- Validate a merged-mining proof for the block `auxBlockHash` against its target. -/
def validateAuxpow (auxpow : AuxPoW) (auxBlockHash : Bytes) (auxTarget chainId : Nat) :
    Except PyError Unit := do
  raiseIf (chainId = 0)
    (.auxPoW "AuxPoW is not configured for this network (chain_id=0)")
  -- step A: the structure
  raiseIf (MAX_MERKLE_BRANCH_DEPTH < auxpow.coinbaseMerkleBranch.length)
    (.auxPoW "coinbase Merkle branch exceeds maximum depth")
  raiseIf (MAX_MERKLE_BRANCH_DEPTH < auxpow.auxMerkleBranch.length)
    (.auxPoW "aux Merkle branch exceeds maximum depth")
  forEach (fun sibling : Bytes => raiseIf (sibling.length ≠ 32)
    (.auxPoW "coinbase Merkle branch hash is not 32 bytes")) auxpow.coinbaseMerkleBranch
  forEach (fun sibling : Bytes => raiseIf (sibling.length ≠ 32)
    (.auxPoW "aux Merkle branch hash is not 32 bytes")) auxpow.auxMerkleBranch
  raiseIf (auxpow.coinbaseTx.isCoinbase = false)
    (.auxPoW "parent coinbase transaction is not a coinbase")
  -- step B: the hash that is proved
  raiseIf (auxBlockHash.length ≠ 32) (.auxPoW "aux block hash must be 32 bytes")
  -- step C: the auxiliary root
  let auxRoot ← checkMerkleBranch auxBlockHash auxpow.auxMerkleBranch auxpow.auxChainIndex
  -- step D: the commitment to it in the parent coinbase
  let found ← parseAuxpowCommitment auxpow.coinbaseTx.coinbaseData.val
  match found with
  | none =>
      .error (.auxPoW "the parent coinbase does not contain a merged-mining commitment")
  | some commitment => do
      raiseIf (commitment.auxRoot.val ≠ auxRoot)
        (.auxPoW ("the auxiliary Merkle root in the coinbase commitment does not match" ++
          " the computed root"))
      -- step E: the slot
      raiseIf (commitment.treeSize < 1) (.auxPoW "aux tree size must be at least 1")
      raiseIf (commitment.treeSize &&& (commitment.treeSize - 1) ≠ 0)
        (.auxPoW s!"aux tree size {commitment.treeSize} is not a power of two")
      let expectedIndex := getExpectedIndex commitment.nonce chainId commitment.auxTreeHeight
      raiseIf (auxpow.auxChainIndex ≠ expectedIndex)
        (.auxPoW (s!"aux chain index is {auxpow.auxChainIndex}, expected {expectedIndex}" ++
          s!" for nonce {commitment.nonce} and chain_id {chainId}"))
      -- step F: the coinbase belongs to the parent block
      let coinbaseRoot ← checkMerkleBranch auxpow.coinbaseHash.val auxpow.coinbaseMerkleBranch
        auxpow.coinbaseIndex
      raiseIf (coinbaseRoot ≠ auxpow.parentHeader.merkleRoot.val)
        (.auxPoW ("the coinbase Merkle root does not match the parent block's" ++
          " Merkle root"))
      -- step G: the work of the parent block
      raiseIf (auxTarget < hashToInt auxpow.parentHash)
        (.auxPoW "parent block hash does not satisfy the ScarletCoin target")

end ScarletCoin
