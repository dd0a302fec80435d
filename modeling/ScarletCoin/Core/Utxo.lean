import ScarletCoin.Core.Transaction
import ScarletCoin.Toolkit.Table

/-!
# Unspent outputs

The coins of `core/utxo.py`, their encoding in undo records (`Storage.put_undo`, `Storage.get_undo`)
and the scratch layer `CoinOverlay` that a block is validated against.

An undo record that was written is read back unchanged (`decodeUndo_encodeUndo`). Flushing an
overlay onto the table it lies over gives the table the overlay shows (`CoinOverlay.getCoin_eq`),
and spending or adding a coin through the overlay is deleting or writing a row of that table
(`CoinOverlay.flush_spend`, `CoinOverlay.flush_add`).
-/

set_option autoImplicit false

namespace ScarletCoin

open Toolkit

/-- An unspent transaction output. -/
structure Coin where
  value : Nat
  outputType : UInt8
  payload : PubkeyHash
  height : Nat
  isCoinbase : Bool
  deriving DecidableEq

/-- Whether the coin may be spent in a block at `height`. -/
def Coin.isSpendableAt (coin : Coin) (height maturity : Nat) : Bool :=
  if !coin.isCoinbase then true
  else decide ((maturity : Int) ≤ (height : Int) - (coin.height : Int))

/-! ## Undo records -/

/-- The amount and the height of the coin fit their fields. -/
def Coin.Fits (coin : Coin) : Prop := coin.value < 2 ^ 64 ∧ coin.height < 2 ^ 32

instance (coin : Coin) : Decidable coin.Fits := inferInstanceAs (Decidable (_ ∧ _))

/-- The bytes of a coin that fits. -/
def Coin.bytes (coin : Coin) : Bytes :=
  Writer.uint64 coin.value ++ (coin.outputType :: (coin.payload.val ++
    (leBytes 4 coin.height ++ [if coin.isCoinbase then 1 else 0])))

/-- Encode the coin. -/
def Coin.serialize (coin : Coin) : Except PyError Bytes := do
  raiseIf (¬ coin.Fits) (.struct "argument out of range")
  pure coin.bytes

/-- Decode a coin. -/
def Coin.read : Reader PyError Coin := do
  let value ← Reader.uint64
  let outputType ← Reader.uint8
  let payload ← Reader.payload
  let height ← Reader.uint 4
  let flag ← Reader.uint8
  pure ⟨value, outputType, payload, height, flag ≠ 0⟩

/-- One spent coin of an undo record. -/
abbrev UndoEntry := OutPoint × Coin

/-- The bytes of one spent coin. -/
def UndoEntry.bytes (entry : UndoEntry) : Bytes :=
  entry.1.txid.val ++ (Writer.uint32 entry.1.index ++ entry.2.bytes)

/-- Decode one spent coin. -/
def UndoEntry.read : Reader PyError UndoEntry := do
  let txid ← Reader.hash32
  let index ← Reader.uint32
  let coin ← Coin.read
  pure (⟨txid, index⟩, coin)

/-- The undo record of the spent coins: their number, then each of them. -/
def encodeUndo (spent : List UndoEntry) : Except PyError Bytes := do
  raiseIf (2 ^ 64 ≤ spent.length) (.serialization s!"varint out of range: {spent.length}")
  forEach (fun entry : UndoEntry => do
    let _ ← entry.2.serialize
    pure ()) spent
  pure (Writer.varint spent.length ++ spent.flatMap UndoEntry.bytes)

/-- The spent coins of an undo record. -/
def decodeUndo (data : Bytes) : Except PyError (List UndoEntry) :=
  match (do
    let count ← Reader.varint
    let spent ← readMany UndoEntry.read count
    Reader.expectEnd
    pure spent : Reader PyError (List UndoEntry)) data with
  | .ok (spent, _) => .ok spent
  | .error e => .error e

theorem Coin.read_inverts : Inverts Coin.Fits Coin.bytes Coin.read := by
  intro coin rest hfits
  unfold Coin.read Coin.bytes
  rw [List.append_assoc, reader_bind_of_ok (Reader.uint64_eq_ok.mpr ⟨hfits.1, rfl⟩),
    List.cons_append, reader_bind_of_ok (Reader.uint8_eq_ok.mpr rfl), List.append_assoc,
    reader_bind_of_ok (Reader.payload_eq_ok.mpr rfl), List.append_assoc,
    reader_bind_of_ok (Reader.uint_eq_ok.mpr ⟨hfits.2, rfl⟩), List.cons_append,
    reader_bind_of_ok (Reader.uint8_eq_ok.mpr rfl), List.nil_append]
  cases coin with
  | mk value outputType payload height isCoinbase =>
    cases isCoinbase <;> rfl

theorem UndoEntry.read_inverts :
    Inverts (fun entry : UndoEntry => entry.2.Fits) UndoEntry.bytes UndoEntry.read := by
  intro entry rest hfits
  unfold UndoEntry.read UndoEntry.bytes
  rw [List.append_assoc, reader_bind_of_ok (Reader.hash32_eq_ok.mpr rfl), List.append_assoc,
    reader_bind_of_ok (Reader.uint32_eq_ok.mpr rfl),
    reader_bind_of_ok (Coin.read_inverts entry.2 rest hfits)]
  rfl

/-- An undo record is written iff every coin of it fits. -/
theorem encodeUndo_eq_ok {spent : List UndoEntry} {data : Bytes} :
    encodeUndo spent = .ok data ↔ spent.length < 2 ^ 64 ∧ (∀ entry ∈ spent, entry.2.Fits) ∧
      data = Writer.varint spent.length ++ spent.flatMap UndoEntry.bytes := by
  have hcoin : ∀ coin : Coin, (do let _ ← coin.serialize; pure () : Except PyError Unit) = .ok () ↔
      coin.Fits := by
    intro coin
    unfold Coin.serialize
    by_cases h : coin.Fits
    · simp [raiseIf, h, pure, Except.pure]
    · simp [raiseIf, h]
  unfold encodeUndo
  rw [raiseIf_bind_eq_ok, bind_eq_ok]
  constructor
  · rintro ⟨hlen, ⟨⟩, hall, h⟩
    refine ⟨by omega, ?_, (pure_eq_ok.mp h).symm⟩
    intro entry hentry
    exact (hcoin entry.2).mp (forEach_eq_ok.mp hall entry hentry)
  · rintro ⟨hlen, hall, rfl⟩
    refine ⟨by omega, (), forEach_eq_ok.mpr ?_, rfl⟩
    intro entry hentry
    exact (hcoin entry.2).mpr (hall entry hentry)

/-- An undo record that was written is read back unchanged. -/
theorem decodeUndo_encodeUndo {spent : List UndoEntry} {data : Bytes}
    (h : encodeUndo spent = .ok data) : decodeUndo data = .ok spent := by
  obtain ⟨hlen, hfits, rfl⟩ := encodeUndo_eq_ok.mp h
  have hmany := UndoEntry.read_inverts.readMany spent [] hfits
  rw [List.append_nil] at hmany
  unfold decodeUndo
  rw [reader_bind_of_ok (Reader.varint_eq_ok.mpr ⟨hlen, rfl⟩), reader_bind_of_ok hmany]
  rfl

/-! ## Overlays -/

/-- A pending set of additions and spends over another view. No outpoint is pending as both. -/
structure CoinOverlay where
  base : OutPoint → Option Coin
  added : Table OutPoint Coin
  spent : List OutPoint
  disjoint : ∀ o ∈ spent, added.lookup o = none

namespace CoinOverlay

/-- The overlay with nothing pending. -/
def start (base : OutPoint → Option Coin) : CoinOverlay :=
  ⟨base, ∅, [], fun _ h => absurd h List.not_mem_nil⟩

/-- The coin at an outpoint as seen through the overlay. -/
def getCoin (overlay : CoinOverlay) (outpoint : OutPoint) : Option Coin :=
  if outpoint ∈ overlay.spent then none
  else (overlay.added.lookup outpoint).or (overlay.base outpoint)

/-- Mark an outpoint as spent. -/
def markSpent (overlay : CoinOverlay) (outpoint : OutPoint) : CoinOverlay where
  base := overlay.base
  added := overlay.added.erase outpoint
  spent := overlay.spent.insert outpoint
  disjoint := by
    intro o ho
    rw [Table.lookup_erase_if]
    rcases List.mem_insert_iff.mp ho with rfl | ho
    · rw [if_pos rfl]
    · rw [overlay.disjoint o ho, ite_self]

/-- Spend a coin and return it. -/
def spend (overlay : CoinOverlay) (outpoint : OutPoint) : Except PyError (Coin × CoinOverlay) :=
  match overlay.getCoin outpoint with
  | none => .error (.key s!"no unspent output at {outpoint.str}")
  | some coin => .ok (coin, overlay.markSpent outpoint)

/-- Record a new unspent output. -/
def add (overlay : CoinOverlay) (outpoint : OutPoint) (coin : Coin) : CoinOverlay where
  base := overlay.base
  added := overlay.added.insert outpoint coin
  spent := overlay.spent.filter (· ≠ outpoint)
  disjoint := by
    intro o ho
    obtain ⟨ho, hne⟩ := List.mem_filter.mp ho
    rw [Table.lookup_insert_if, if_neg (by simpa using hne), overlay.disjoint o ho]

/-- The table that results from writing the pending changes to `t`. -/
def flush (overlay : CoinOverlay) (t : Table OutPoint Coin) : Table OutPoint Coin :=
  Table.overwrite overlay.added (Table.eraseAll overlay.spent t)

theorem lookup_flush (overlay : CoinOverlay) (t : Table OutPoint Coin) (o : OutPoint) :
    (overlay.flush t).lookup o =
      if o ∈ overlay.spent then none else (overlay.added.lookup o).or (t.lookup o) := by
  unfold flush
  rw [Table.lookup_overwrite, Table.lookup_eraseAll]
  by_cases h : o ∈ overlay.spent
  · rw [if_pos h, if_pos h, overlay.disjoint o h, Option.or_none]
  · rw [if_neg h, if_neg h]

/-- The overlay shows the table that flushing it would give. -/
theorem getCoin_eq {overlay : CoinOverlay} {t : Table OutPoint Coin}
    (hbase : overlay.base = fun o => t.lookup o) (o : OutPoint) :
    overlay.getCoin o = (overlay.flush t).lookup o := by
  rw [lookup_flush, getCoin, hbase]

/-- Spending through the overlay deletes a row of the flushed table. -/
theorem flush_spend (overlay : CoinOverlay) (t : Table OutPoint Coin) (o : OutPoint) :
    (overlay.markSpent o).flush t = (overlay.flush t).erase o := by
  refine Finmap.ext_lookup fun k => ?_
  rw [Table.lookup_erase_if, lookup_flush, lookup_flush]
  by_cases hk : k = o
  · have hmem : k ∈ (overlay.markSpent o).spent := List.mem_insert_iff.mpr (.inl hk)
    rw [if_pos hk, if_pos hmem]
  · have hmem : k ∈ (overlay.markSpent o).spent ↔ k ∈ overlay.spent := by
      rw [markSpent, List.mem_insert_iff]
      exact or_iff_right hk
    have hadded : (overlay.markSpent o).added.lookup k = overlay.added.lookup k := by
      rw [markSpent, Table.lookup_erase_if, if_neg hk]
    rw [if_neg hk, hadded, if_congr hmem rfl rfl]

/-- Adding through the overlay writes a row of the flushed table. -/
theorem flush_add (overlay : CoinOverlay) (t : Table OutPoint Coin) (o : OutPoint) (coin : Coin) :
    (overlay.add o coin).flush t = (overlay.flush t).insert o coin := by
  refine Finmap.ext_lookup fun k => ?_
  rw [Table.lookup_insert_if, lookup_flush, lookup_flush]
  by_cases hk : k = o
  · have hnot : k ∉ (overlay.add o coin).spent := by
      rw [add, List.mem_filter]
      simp [hk]
    have hadded : (overlay.add o coin).added.lookup k = some coin := by
      rw [add, Table.lookup_insert_if, if_pos hk]
    rw [if_neg hnot, hadded, if_pos hk, Option.some_or]
  · have hmem : k ∈ (overlay.add o coin).spent ↔ k ∈ overlay.spent := by
      rw [add, List.mem_filter]
      simp [hk]
    have hadded : (overlay.add o coin).added.lookup k = overlay.added.lookup k := by
      rw [add, Table.lookup_insert_if, if_neg hk]
    rw [if_neg hk, hadded, if_congr hmem rfl rfl]

theorem flush_start (base : OutPoint → Option Coin) (t : Table OutPoint Coin) :
    (start base).flush t = t := by
  refine Finmap.ext_lookup fun k => ?_
  rw [lookup_flush]
  simp [start]

end CoinOverlay

/-! ## The outputs of a transaction -/

variable [Crypto]

/-- The coin that an output becomes in a block at `height`. -/
def TxOutput.toCoin (output : TxOutput) (height : Nat) (isCoinbase : Bool) : Coin :=
  ⟨output.value, output.type, output.payload, height, isCoinbase⟩

/-- The outpoints of a transaction, in order. -/
def Transaction.outpoints (t : Transaction) : List OutPoint :=
  (List.range t.outputs.length).map fun index => ⟨t.txid, UInt32.ofNat index⟩

/-- The coins a transaction creates in a block at `height`, with their outpoints. -/
def Transaction.coins (t : Transaction) (height : Nat) : List (OutPoint × Coin) :=
  t.outputs.zipIdx.map fun entry =>
    (⟨t.txid, UInt32.ofNat entry.2⟩, entry.1.toCoin height t.isCoinbase)

/-- Record every output created by a transaction. -/
def CoinOverlay.addTransaction (overlay : CoinOverlay) (t : Transaction) (height : Nat) :
    CoinOverlay :=
  (t.coins height).foldl (fun overlay entry => overlay.add entry.1 entry.2) overlay

theorem CoinOverlay.flush_addTransaction (overlay : CoinOverlay) (table : Table OutPoint Coin)
    (t : Transaction) (height : Nat) :
    (overlay.addTransaction t height).flush table =
      Table.insertAll (t.coins height) (overlay.flush table) := by
  unfold CoinOverlay.addTransaction
  induction t.coins height generalizing overlay with
  | nil => rfl
  | cons entry entries ih =>
    rw [List.foldl_cons, ih, CoinOverlay.flush_add]
    rfl

theorem CoinOverlay.base_addTransaction (overlay : CoinOverlay) (t : Transaction) (height : Nat) :
    (overlay.addTransaction t height).base = overlay.base := by
  unfold CoinOverlay.addTransaction
  induction t.coins height generalizing overlay with
  | nil => rfl
  | cons entry entries ih => exact ih (overlay.add entry.1 entry.2)

theorem Transaction.coins_fst (t : Transaction) (height : Nat) :
    (t.coins height).map Prod.fst = t.outpoints := by
  unfold Transaction.coins Transaction.outpoints
  rw [List.map_map, List.range_eq_range', ← List.zipIdx_map_snd 0 t.outputs, List.map_map]
  rfl

/-- A transaction creates its outputs at distinct outpoints. -/
theorem Transaction.outpoints_nodup (t : Transaction) : t.outpoints.Nodup := by
  refine List.Nodup.map_on ?_ List.nodup_range
  intro i hi j hj heq
  have hi' : i < 2 ^ 32 := Nat.lt_trans (List.mem_range.mp hi) t.outputs_fit
  have hj' : j < 2 ^ 32 := Nat.lt_trans (List.mem_range.mp hj) t.outputs_fit
  have hnat : (UInt32.ofNat i).toNat = (UInt32.ofNat j).toNat :=
    congrArg (fun o => o.index.toNat) heq
  rwa [UInt32.toNat_ofNat', UInt32.toNat_ofNat', Nat.mod_eq_of_lt hi', Nat.mod_eq_of_lt hj'] at hnat

theorem Transaction.outpoints_txid {t : Transaction} {o : OutPoint} (h : o ∈ t.outpoints) :
    o.txid = t.txid := by
  obtain ⟨i, -, rfl⟩ := List.mem_map.mp h
  rfl

/-- The values of the created coins add up to the total output. -/
theorem Transaction.coins_value (t : Transaction) (height : Nat) :
    ((t.coins height).map fun entry => entry.2.value).sum = t.totalOutput := by
  unfold Transaction.coins Transaction.totalOutput
  rw [List.map_map]
  conv_rhs => rw [← List.zipIdx_map_fst 0 t.outputs]
  rw [List.map_map]
  rfl

end ScarletCoin
