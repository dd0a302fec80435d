import ScarletCoin.Core.AuxPow

/-!
# Blocks

Headers, Merkle roots and blocks of `core/block.py`, with the wire format and the checks that need
no chain. The hash of a block is the hash of its header; the header commits to the transaction ids
through the Merkle root, and to nothing else of the body.

The parser accepts only the wire format (`Block.deserialize_canonical`), and the wire format
determines the block (`Block.serialize_injective`), so parsing what was serialised gives the block
back or an error (`Block.deserialize_serialize`).
-/

set_option autoImplicit false

namespace ScarletCoin

open Toolkit

/-! ## Headers -/

/-- The 80 bytes that proof of work is computed over. -/
structure BlockHeader where
  version : UInt32
  prevHash : Hash
  merkleRoot : Hash
  timestamp : UInt32
  bits : UInt32
  nonce : UInt32
  deriving DecidableEq

/-- The canonical 80-byte encoding. -/
def BlockHeader.serialize (h : BlockHeader) : Bytes :=
  headerBytes h.version h.prevHash h.merkleRoot h.timestamp h.bits h.nonce

/-- Parse one header from a stream. -/
def BlockHeader.read : Reader PyError BlockHeader := do
  let version ← Reader.uint32
  let prevHash ← Reader.hash32
  let merkleRoot ← Reader.hash32
  let timestamp ← Reader.uint32
  let bits ← Reader.uint32
  let nonce ← Reader.uint32
  pure ⟨version, prevHash, merkleRoot, timestamp, bits, nonce⟩

theorem BlockHeader.serialize_selfDelimiting :
    SelfDelimiting (fun _ => True) BlockHeader.serialize := by
  intro a b x y _ _ heq
  obtain ⟨⟨hv, hp, hm, ht, hb, hn⟩, hxy⟩ := headerBytes_selfDelimiting heq
  cases a
  cases b
  simp_all

theorem BlockHeader.read_canonical : Canonical BlockHeader.serialize BlockHeader.read := by
  intro bs h rest hread
  obtain ⟨version, s₁, hv, h₁⟩ := reader_bind_eq_ok.mp hread
  obtain ⟨prevHash, s₂, hp, h₂⟩ := reader_bind_eq_ok.mp h₁
  obtain ⟨merkleRoot, s₃, hm, h₃⟩ := reader_bind_eq_ok.mp h₂
  obtain ⟨timestamp, s₄, ht, h₄⟩ := reader_bind_eq_ok.mp h₃
  obtain ⟨bits, s₅, hb, h₅⟩ := reader_bind_eq_ok.mp h₄
  obtain ⟨nonce, s₆, hn, h₆⟩ := reader_bind_eq_ok.mp h₅
  obtain ⟨rfl, rfl⟩ := reader_pure_eq_ok.mp h₆
  rw [Reader.uint32_eq_ok.mp hv, Reader.hash32_eq_ok.mp hp, Reader.hash32_eq_ok.mp hm,
    Reader.uint32_eq_ok.mp ht, Reader.uint32_eq_ok.mp hb, Reader.uint32_eq_ok.mp hn]
  simp only [BlockHeader.serialize, headerBytes, List.append_assoc]

/-! ## Blocks and their wire format -/

/-- A header with its transactions, and a proof if the block is merged-mined. -/
structure Block where
  header : BlockHeader
  transactions : List Transaction
  auxpow : Option AuxPoW.Wire
  transactions_fit : transactions.length < 2 ^ 64
  deriving DecidableEq

namespace Block

/-- The block carries a merged-mining proof. -/
def hasAuxpow (b : Block) : Bool := b.auxpow.isSome

/-- The coinbase transaction. -/
def coinbase (b : Block) : Except PyError Transaction :=
  match b.transactions with
  | [] => .error (.block "block has no transactions")
  | t :: _ => .ok t

/-- The marker and the proof after the transactions of a merged-mined block. -/
def serializeAuxpow : Option AuxPoW.Wire → Bytes
  | none => []
  | some a => 0x01 :: Writer.varbytes a.val.serialize

/-- The canonical encoding of the whole block. -/
def serialize (b : Block) : Bytes :=
  b.header.serialize ++ (Writer.varint b.transactions.length ++
    (b.transactions.flatMap Transaction.serialize ++ serializeAuxpow b.auxpow))

/-- Serialised size in bytes. -/
def size (b : Block) : Nat := b.serialize.length

/-- Parse the number of transactions and the transactions. -/
def readTransactionsRaw : Reader PyError (List Transaction) := do
  let count ← Reader.varint
  if count = 0 then
    Reader.fail (.serialization "block has no transactions")
  else do
    let left ← Reader.remaining
    if left < count then
      Reader.fail (.serialization "transaction count is larger than the remaining data")
    else
      readMany Transaction.read count

theorem readTransactionsRaw_eq_ok {bs rest : Bytes} {ts : List Transaction}
    (h : readTransactionsRaw bs = .ok (ts, rest)) :
    ts ≠ [] ∧ ts.length < 2 ^ 64 ∧
      bs = Writer.varint ts.length ++ (ts.flatMap Transaction.serialize ++ rest) := by
  obtain ⟨count, mid, hcount, hbody⟩ := reader_bind_eq_ok.mp h
  obtain ⟨hlt, hbs⟩ := Reader.varint_eq_ok.mp hcount
  split at hbody
  · exact absurd hbody Reader.fail_ne_ok
  · rename_i hzero
    obtain ⟨left, mid', hleft, hitems⟩ := reader_bind_eq_ok.mp hbody
    obtain ⟨-, rfl⟩ := Reader.remaining_eq_ok.mp hleft
    split at hitems
    · exact absurd hitems Reader.fail_ne_ok
    · have hlen := readMany_length hitems
      have hcanon := Transaction.read_canonical.readMany _ _ _ _ hitems
      refine ⟨?_, by rw [hlen]; exact hlt, by rw [hcanon, hlen, hbs]⟩
      rintro rfl
      exact hzero hlen.symm

/-- Parse the number of transactions and the transactions, with the bound on their number. -/
def readTransactions : Reader PyError { ts : List Transaction // ts.length < 2 ^ 64 } :=
  attach readTransactionsRaw fun _ _ _ h => (readTransactionsRaw_eq_ok h).2.1

/-- Parse what follows the transactions: nothing, or the marker and a proof. -/
def readAuxpow : Reader PyError (Option AuxPoW.Wire) := do
  let left ← Reader.remaining
  if left = 0 then
    pure none
  else do
    let marker ← Reader.uint8
    if marker ≠ 0x01 then
      Reader.fail (.serialization s!"unknown AuxPoW marker: {hexByte marker}")
    else do
      let data ← Reader.varbytes none
      match AuxPoW.deserialize data with
      | .ok a => pure (some a)
      | .error e => Reader.fail e

/-- Parse a block and insist that the stream ends after it. -/
def readAll : Reader PyError Block := do
  let header ← BlockHeader.read
  let transactions ← readTransactions
  let auxpow ← readAuxpow
  Reader.expectEnd
  pure ⟨header, transactions.val, auxpow, transactions.property⟩

/-- Parse a block from its wire format. -/
def deserialize (data : Bytes) : Except PyError Block :=
  match readAll data with
  | .ok (b, _) => .ok b
  | .error e => .error e

theorem readAuxpow_eq_ok {bs rest : Bytes} {a : Option AuxPoW.Wire}
    (h : readAuxpow bs = .ok (a, rest)) : bs = serializeAuxpow a ++ rest := by
  obtain ⟨left, mid, hleft, h₁⟩ := reader_bind_eq_ok.mp h
  obtain ⟨rfl, rfl⟩ := Reader.remaining_eq_ok.mp hleft
  split at h₁
  · obtain ⟨rfl, rfl⟩ := reader_pure_eq_ok.mp h₁
    rfl
  · obtain ⟨marker, mid', hmarker, h₂⟩ := reader_bind_eq_ok.mp h₁
    split at h₂
    · exact absurd h₂ Reader.fail_ne_ok
    · rename_i hone
      obtain ⟨data, mid'', hdata, h₃⟩ := reader_bind_eq_ok.mp h₂
      have hcanon := Reader.varbytes_canonical _ _ _ _ hdata
      cases hd : AuxPoW.deserialize data with
      | error e =>
        rw [hd] at h₃
        exact absurd h₃ Reader.fail_ne_ok
      | ok a' =>
        rw [hd] at h₃
        obtain ⟨rfl, rfl⟩ := reader_pure_eq_ok.mp h₃
        have hmark : marker = 0x01 := not_not.mp hone
        rw [Reader.uint8_eq_ok.mp hmarker, hmark, serializeAuxpow,
          AuxPoW.deserialize_canonical hd, List.cons_append, hcanon]

/-- A parsed block is the one whose wire format was given, and it has a transaction. -/
theorem deserialize_canonical {data : Bytes} {b : Block} (h : deserialize data = .ok b) :
    b.transactions ≠ [] ∧ b.serialize = data := by
  unfold deserialize at h
  split at h
  · rename_i b' rest hread
    obtain rfl := Except.ok.inj h
    obtain ⟨header, s₁, hh, h₁⟩ := reader_bind_eq_ok.mp hread
    obtain ⟨ts, s₂, hts, h₂⟩ := reader_bind_eq_ok.mp h₁
    obtain ⟨aux, s₃, haux, h₃⟩ := reader_bind_eq_ok.mp h₂
    obtain ⟨_, s₄, hend, h₄⟩ := reader_bind_eq_ok.mp h₃
    obtain ⟨rfl, rfl⟩ := reader_pure_eq_ok.mp h₄
    obtain ⟨hne, -, htsEq⟩ := readTransactionsRaw_eq_ok (attach_eq_ok.mp hts)
    have hauxEq := readAuxpow_eq_ok haux
    rw [(Reader.expectEnd_eq_ok.mp hend).1, List.append_nil] at hauxEq
    refine ⟨hne, ?_⟩
    simp only [serialize]
    rw [← hauxEq, ← htsEq, BlockHeader.read_canonical _ _ _ hh]
  · cases h

/-- The wire format determines the block. -/
theorem serialize_injective {a b : Block} (heq : a.serialize = b.serialize) : a = b := by
  simp only [serialize] at heq
  obtain ⟨hheader, h₁⟩ := BlockHeader.serialize_selfDelimiting _ _ _ _ trivial trivial heq
  obtain ⟨hlen, h₂⟩ :=
    varint_selfDelimiting _ _ _ _ a.transactions_fit b.transactions_fit h₁
  obtain ⟨hts, h₃⟩ := Transaction.serialize_selfDelimiting.flatMap hlen
    (fun _ _ => trivial) (fun _ _ => trivial) h₂
  have haux : a.auxpow = b.auxpow := by
    cases ha : a.auxpow with
    | none =>
      cases hb : b.auxpow with
      | none => rfl
      | some w =>
        rw [ha, hb] at h₃
        cases h₃
    | some v =>
      cases hb : b.auxpow with
      | none =>
        rw [ha, hb] at h₃
        cases h₃
      | some w =>
        rw [ha, hb] at h₃
        simp only [serializeAuxpow, List.cons.injEq, true_and] at h₃
        have hbytes := varbytes_selfDelimiting.injective (a := ⟨_, v.property.size⟩)
          (b := ⟨_, w.property.size⟩) trivial trivial h₃
        have hval := AuxPoW.serialize_injective v.property w.property
          (congrArg Subtype.val hbytes)
        rw [Subtype.ext hval]
  cases a
  cases b
  simp_all

/-- Parsing what was serialised gives the block back or an error. -/
theorem deserialize_serialize {a b : Block} (h : deserialize a.serialize = .ok b) : b = a :=
  serialize_injective (deserialize_canonical h).2

end Block

/-! ## Hashes and sanity -/

variable [Crypto]

/-- The block hash: the hash of the 80-byte header. -/
def BlockHeader.hash (h : BlockHeader) : Hash := hash256 h.serialize

/-- Whether the hash of the header meets the target it claims. -/
def BlockHeader.checkProofOfWork (h : BlockHeader) (powLimit : Nat) : Bool :=
  ScarletCoin.checkProofOfWork h.hash h.bits.toNat powLimit

/-- One level of a Merkle tree from the level below; an odd last node is paired with itself. -/
def merkleLevel : List Hash → List Hash
  | [] => []
  | [a] => [hash256 (a.val ++ a.val)]
  | a :: b :: rest => hash256 (a.val ++ b.val) :: merkleLevel rest

/-- The root above a level. Every round halves the level, so its length bounds the rounds. -/
def merkleRootFrom : Nat → List Hash → Option Hash
  | 0, level => level.head?
  | rounds + 1, level =>
      if level.length ≤ 1 then level.head? else merkleRootFrom rounds (merkleLevel level)

/-- The Merkle root of a list of transaction ids. -/
def merkleRoot (txids : List Hash) : Except PyError Hash :=
  match merkleRootFrom txids.length txids with
  | none => .error (.block "cannot compute a Merkle root of zero transactions")
  | some root => .ok root

namespace Block

/-- The block hash. -/
def hash (b : Block) : Hash := b.header.hash

/-- The block hash in display order. -/
def hashHex (b : Block) : String := displayHex b.hash

/-- The ids of all transactions, in order. -/
def txids (b : Block) : List Hash := b.transactions.map Transaction.txid

/-- Assemble a block, computing its Merkle root. -/
def create (prevHash : Hash) (transactions : List Transaction) (bits timestamp : UInt32)
    (version nonce : UInt32) (auxpow : Option AuxPoW.Wire)
    (hfit : transactions.length < 2 ^ 64) : Except PyError Block := do
  raiseIf (transactions = []) (.block "a block must contain at least the coinbase transaction")
  let root ← merkleRoot (transactions.map Transaction.txid)
  pure ⟨⟨version, prevHash, root, timestamp, bits, nonce⟩, transactions, auxpow, hfit⟩

/-- Validate the block without consulting the chain. -/
def checkSanity (b : Block) (powLimit maxBlockSize minOutputValue : Nat)
    (isAuxpowActive : Bool) : Except PyError Unit := do
  raiseIf (b.transactions = []) (.block "block has no transactions")
  raiseIf (maxBlockSize < b.size)
    (.block s!"block is too large: {b.size} > {maxBlockSize} bytes")
  raiseIf ((isAuxpowActive = false ∨ b.hasAuxpow = false) ∧
      b.header.checkProofOfWork powLimit = false)
    (.block "block hash does not meet its proof-of-work target")
  raiseIf ((b.transactions.head?.any fun t => !t.isCoinbase) = true)
    (.block "first transaction in a block must be the coinbase")
  forEach (fun t : Transaction => raiseIf (t.isCoinbase = true)
    (.block "block contains more than one coinbase transaction")) b.transactions.tail
  forEach (fun t : Transaction => t.checkSanity minOutputValue) b.transactions
  raiseIf (¬ b.txids.Nodup) (.block "block contains duplicate transactions")
  let root ← merkleRoot b.txids
  raiseIf (root ≠ b.header.merkleRoot)
    (.block "Merkle root does not match the block's transactions")

end Block

end ScarletCoin
