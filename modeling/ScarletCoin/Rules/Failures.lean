import ScarletCoin.Rules.Connection

/-!
# What can go wrong in a switch

A handler of the activation catches `ConnectError` alone and blames the block it names. Parsing
raises no `ValidationError` (`Block.deserialize_quiet`), connecting a block raises `ConnectError`
for that block alone (`connectBlock_blames`), and disconnecting a stored block raises none as long
as the block keeps its body (`disconnectBlock_quiet`).
-/

set_option autoImplicit false

namespace ScarletCoin

open Toolkit

/-- The exception is not caught by `except ValidationError`. -/
def PyError.Quiet (e : PyError) : Prop := e.isValidationError = false

/-! ## Parsing -/

section Readers

variable {α : Type}

theorem Reader.fail_quiet {e : PyError} (he : e.Quiet) :
    Raises PyError.Quiet (Reader.fail e : Reader PyError α) := by
  intro bs e' h
  rw [← Except.error.inj h]
  exact he

theorem Reader.remaining_quiet : Raises PyError.Quiet Reader.remaining := by
  intro bs e h
  cases h

theorem Reader.raw_quiet (n : Nat) : Raises PyError.Quiet (Reader.raw n) := by
  intro bs e h
  unfold raw at h
  split at h
  · rw [← Except.error.inj h]
    rfl
  · cases h

theorem Reader.uint8_quiet : Raises PyError.Quiet Reader.uint8 :=
  (raw_quiet 1).bind fun chunk => .pure (chunk.headD 0)

theorem Reader.uint_quiet (n : Nat) : Raises PyError.Quiet (Reader.uint n) :=
  (raw_quiet n).bind fun chunk => .pure (leNat chunk)

theorem Reader.uint32_quiet : Raises PyError.Quiet Reader.uint32 :=
  (uint_quiet 4).bind fun value => .pure (UInt32.ofNat value)

theorem Reader.uintAtLeast_quiet (n m : Nat) : Raises PyError.Quiet (Reader.uintAtLeast n m) := by
  refine (uint_quiet n).bind fun value => ?_
  split
  · exact fail_quiet rfl
  · exact .pure value

theorem Reader.varint_quiet : Raises PyError.Quiet Reader.varint := by
  refine uint8_quiet.bind fun head => ?_
  split
  · exact .pure _
  split
  · exact uintAtLeast_quiet 2 _
  split
  · exact uintAtLeast_quiet 4 _
  · exact uintAtLeast_quiet 8 _

theorem Reader.hash32_quiet : Raises PyError.Quiet Reader.hash32 := (raw_quiet 32).attach

theorem Reader.payload_quiet : Raises PyError.Quiet Reader.payload := (raw_quiet 20).attach

theorem Reader.varbytes_quiet (limit : Option Nat) :
    Raises PyError.Quiet (Reader.varbytes limit) := by
  refine Raises.attach (varint_quiet.bind fun length => ?_)
  cases limit with
  | none => exact raw_quiet length
  | some m =>
    dsimp only
    split
    · exact fail_quiet rfl
    · exact raw_quiet length

theorem Reader.expectEnd_quiet : Raises PyError.Quiet Reader.expectEnd := by
  refine remaining_quiet.bind fun left => ?_
  split
  · exact fail_quiet rfl
  · exact .pure ()

theorem Transaction.readSequence_quiet {item : Reader PyError α} (hitem : Raises PyError.Quiet item)
    (size : Nat) (none few : String) :
    Raises PyError.Quiet (Transaction.readSequence item size none few) := by
  refine Reader.varint_quiet.bind fun count => ?_
  split
  · exact Reader.fail_quiet rfl
  refine Reader.remaining_quiet.bind fun left => ?_
  split
  · exact Reader.fail_quiet rfl
  split
  · exact Reader.fail_quiet rfl
  · exact hitem.readMany count

theorem Transaction.readInputCore_quiet : Raises PyError.Quiet Transaction.readInputCore :=
  Reader.hash32_quiet.bind fun _ => Reader.uint32_quiet.bind fun _ =>
    Reader.uint32_quiet.bind fun _ => .pure _

theorem TxOutput.make_quiet {type : UInt8} {value : Nat} {payload : PubkeyHash} {e : PyError}
    (h : TxOutput.make type value payload = .error e) : e.Quiet := by
  unfold TxOutput.make at h
  split at h
  · split at h
    · cases h
    · rw [← Except.error.inj h]
      rfl
  · rw [← Except.error.inj h]
    rfl

theorem Transaction.readOutput_quiet : Raises PyError.Quiet Transaction.readOutput := by
  refine Reader.uint8_quiet.bind fun type => (Reader.uint_quiet 8).bind fun value =>
    Reader.payload_quiet.bind fun payload => ?_
  cases hmake : TxOutput.make type value payload with
  | ok output => exact .pure output
  | error e => exact Reader.fail_quiet (TxOutput.make_quiet hmake)

theorem Transaction.readWitness_quiet : Raises PyError.Quiet Transaction.readWitness :=
  Reader.varint_quiet.bind fun count => (Reader.varbytes_quiet _).readMany count

theorem Transaction.read_quiet : Raises PyError.Quiet Transaction.read :=
  Reader.uint32_quiet.bind fun _ =>
    (Raises.attach (readSequence_quiet readInputCore_quiet 40 _ _)).bind fun cores =>
    (Raises.attach (readSequence_quiet readOutput_quiet 29 _ _)).bind fun _ =>
    Reader.uint32_quiet.bind fun _ => (Reader.varbytes_quiet _).bind fun _ =>
    (Raises.readMany (Raises.attach readWitness_quiet) cores.val.length).bind fun _ => .pure _

theorem Transaction.deserialize_quiet {data : Bytes} {e : PyError}
    (h : Transaction.deserialize data = .error e) : e.Quiet := by
  have hread : Raises PyError.Quiet
      (do let t ← read; Reader.expectEnd; pure t : Reader PyError Transaction) :=
    read_quiet.bind fun t => Reader.expectEnd_quiet.bind fun _ => .pure t
  unfold deserialize at h
  split at h
  · cases h
  · rename_i e' he
    rw [← Except.error.inj h]
    exact hread data e' he

theorem AuxPoW.readBranch_quiet (which : String) :
    Raises PyError.Quiet (AuxPoW.readBranch which) := by
  refine Reader.varint_quiet.bind fun count => ?_
  split
  · exact Reader.fail_quiet rfl
  · exact Reader.hash32_quiet.readMany count

theorem AuxPoW.readCoinbase_quiet : Raises PyError.Quiet AuxPoW.readCoinbase := by
  refine (Reader.varbytes_quiet _).bind fun bytes => ?_
  cases hparse : Transaction.deserialize bytes.val with
  | ok t => exact .pure t
  | error e =>
    have hquiet := Transaction.deserialize_quiet hparse
    refine Reader.fail_quiet ?_
    -- the text changes, the class stays or becomes `SerializationError`
    cases e <;> first | rfl | cases hquiet

theorem ParentBlockHeader.read_quiet : Raises PyError.Quiet ParentBlockHeader.read :=
  Reader.uint32_quiet.bind fun _ => Reader.hash32_quiet.bind fun _ => Reader.hash32_quiet.bind
    fun _ => Reader.uint32_quiet.bind fun _ => Reader.uint32_quiet.bind fun _ =>
    Reader.uint32_quiet.bind fun _ => .pure _

theorem AuxPoW.readAll_quiet : Raises PyError.Quiet AuxPoW.readAll := by
  refine Raises.bind ?_ fun a => Reader.expectEnd_quiet.bind fun _ => .pure a
  exact (readBranch_quiet _).bind fun _ => Reader.uint32_quiet.bind fun _ =>
    (readBranch_quiet _).bind fun _ => Reader.uint32_quiet.bind fun _ =>
    readCoinbase_quiet.bind fun _ => ParentBlockHeader.read_quiet.bind fun _ => .pure _

theorem AuxPoW.deserialize_quiet {data : Blob} {e : PyError}
    (h : AuxPoW.deserialize data = .error e) : e.Quiet := by
  unfold deserialize at h
  split at h
  · cases h
  · rename_i e' he
    rw [← Except.error.inj h]
    exact readAll_quiet data.val e' he

theorem BlockHeader.read_quiet : Raises PyError.Quiet BlockHeader.read :=
  Reader.uint32_quiet.bind fun _ => Reader.hash32_quiet.bind fun _ => Reader.hash32_quiet.bind
    fun _ => Reader.uint32_quiet.bind fun _ => Reader.uint32_quiet.bind fun _ =>
    Reader.uint32_quiet.bind fun _ => .pure _

theorem Block.readTransactions_quiet : Raises PyError.Quiet Block.readTransactions := by
  refine Raises.attach (Reader.varint_quiet.bind fun count => ?_)
  split
  · exact Reader.fail_quiet rfl
  refine Reader.remaining_quiet.bind fun left => ?_
  split
  · exact Reader.fail_quiet rfl
  · exact Transaction.read_quiet.readMany count

theorem Block.readAuxpow_quiet : Raises PyError.Quiet Block.readAuxpow := by
  refine Reader.remaining_quiet.bind fun left => ?_
  split
  · exact .pure none
  refine Reader.uint8_quiet.bind fun marker => ?_
  split
  · exact Reader.fail_quiet rfl
  refine (Reader.varbytes_quiet _).bind fun data => ?_
  cases hparse : AuxPoW.deserialize data with
  | ok a => exact .pure (some a)
  | error e => exact Reader.fail_quiet (AuxPoW.deserialize_quiet hparse)

/-- Parsing a block raises no `ValidationError`. -/
theorem Block.deserialize_quiet {data : Bytes} {e : PyError}
    (h : Block.deserialize data = .error e) : e.Quiet := by
  have hread : Raises PyError.Quiet Block.readAll :=
    BlockHeader.read_quiet.bind fun _ => readTransactions_quiet.bind fun _ =>
      readAuxpow_quiet.bind fun _ => Reader.expectEnd_quiet.bind fun _ => .pure _
  unfold deserialize at h
  split at h
  · cases h
  · rename_i e' he
    rw [← Except.error.inj h]
    exact hread data e' he

theorem UndoEntry.read_quiet : Raises PyError.Quiet UndoEntry.read := by
  have hcoin : Raises PyError.Quiet Coin.read :=
    (Reader.uint_quiet 8).bind fun _ => Reader.uint8_quiet.bind fun _ =>
      Reader.payload_quiet.bind fun _ => (Reader.uint_quiet 4).bind fun _ =>
      Reader.uint8_quiet.bind fun _ => .pure _
  exact Reader.hash32_quiet.bind fun _ => Reader.uint32_quiet.bind fun _ =>
    hcoin.bind fun _ => .pure _

theorem decodeUndo_quiet {data : Bytes} {e : PyError} (h : decodeUndo data = .error e) :
    e.Quiet := by
  have hread : Raises PyError.Quiet (do
      let count ← Reader.varint
      let spent ← readMany UndoEntry.read count
      Reader.expectEnd
      pure spent : Reader PyError (List UndoEntry)) :=
    Reader.varint_quiet.bind fun count => (UndoEntry.read_quiet.readMany count).bind fun spent =>
      Reader.expectEnd_quiet.bind fun _ => .pure spent
  unfold decodeUndo at h
  split at h
  · cases h
  · rename_i e' he
    rw [← Except.error.inj h]
    exact hread data e' he

end Readers

/-! ## Loading -/

theorem Storage.getBlock_quiet {s : Storage} {h : Hash} {e : PyError}
    (hget : s.getBlock h = .error e) : e.Quiet := by
  unfold getBlock at hget
  split at hget
  · cases hget
  split at hget
  · cases hget
  · rcases bind_eq_error.mp hget with hparse | ⟨b, -, hpure⟩
    · exact Block.deserialize_quiet hparse
    · cases hpure

theorem encodeUndo_quiet {spent : List UndoEntry} {e : PyError} (h : encodeUndo spent = .error e) :
    e.Quiet := by
  rcases raiseIf_bind_eq_error.mp h with ⟨-, rfl⟩ | ⟨-, h₁⟩
  · rfl
  rcases bind_eq_error.mp h₁ with hloop | ⟨_, -, hpure⟩
  · obtain ⟨entry, -, hentry⟩ := forEach_error hloop
    rcases bind_eq_error.mp hentry with hcoin | ⟨_, -, hpure⟩
    · rcases raiseIf_bind_eq_error.mp hcoin with ⟨-, rfl⟩ | ⟨-, hpure⟩
      · rfl
      · cases hpure
    · cases hpure
  · cases hpure

variable [Crypto]

/-! ## Connecting and disconnecting -/

/-- The exception is a `ConnectError` that names the block, or no `ValidationError` at all. -/
def PyError.Blames (e : PyError) (h : Hash) : Prop := e.Quiet ∨ ∃ message, e = .connect h message

theorem connectTransaction_blames {params : ChainParams} {entry : BlockIndexEntry}
    {st : ConnectState} {t : Transaction} {e : PyError}
    (h : connectTransaction params entry st t = .error e) : e.Blames entry.hash := by
  unfold connectTransaction at h
  rcases raiseIf_bind_eq_error.mp h with ⟨-, rfl⟩ | ⟨-, h₁⟩
  · exact .inr ⟨_, rfl⟩
  split at h₁
  · cases h₁
  rcases bind_eq_error.mp h₁ with hcheck | ⟨fee, -, h₂⟩
  · -- the handler blames the block for a broken rule and passes on everything else
    obtain ⟨e', -, hhandled⟩ := rescue_eq_error.mp hcheck
    unfold blameBlock at hhandled
    by_cases hcaught : e'.isValidationError = true
    · rw [if_pos hcaught] at hhandled
      rcases hhandled with hblame | ⟨hblame, -⟩
      · rw [← Except.error.inj (Option.some.inj hblame)]
        exact .inr ⟨_, rfl⟩
      · cases hblame
    · rw [if_neg hcaught] at hhandled
      rcases hhandled with hblame | ⟨-, rfl⟩
      · cases hblame
      · exact .inl ((Bool.not_eq_true _).mp hcaught)
  · rcases bind_eq_error.mp h₂ with hspend | ⟨st₁, -, hpure⟩
    · obtain ⟨st₁, txin, -, -, hone⟩ := foldlM_error (fun _ => True)
        (fun _ _ _ _ _ _ => trivial) trivial hspend
      rcases bind_eq_error.mp hone with hcoin | ⟨_, -, hpure⟩
      · unfold CoinOverlay.spend at hcoin
        split at hcoin
        · rw [← Except.error.inj hcoin]
          exact .inl rfl
        · cases hcoin
      · cases hpure
    · cases hpure

/-- Connecting a block blames no other block. -/
theorem connectBlock_blames [ScanOrder Hash] {params : ChainParams} {s : Storage} {block : Block}
    {entry : BlockIndexEntry} {e : PyError} (h : connectBlock params s block entry = .error e) :
    e.Blames entry.hash := by
  unfold connectBlock at h
  rcases bind_eq_error.mp h with hloop | ⟨st, -, h₁⟩
  · obtain ⟨st, t, -, -, hone⟩ := foldlM_error (fun _ => True)
      (fun _ _ _ _ _ _ => trivial) trivial hloop
    exact connectTransaction_blames hone
  rcases bind_eq_error.mp h₁ with hcoinbase | ⟨coinbase, -, h₂⟩
  · unfold Block.coinbase at hcoinbase
    split at hcoinbase
    · rw [← Except.error.inj hcoinbase]
      exact .inl rfl
    · cases hcoinbase
  rcases raiseIf_bind_eq_error.mp h₂ with ⟨-, rfl⟩ | ⟨-, h₃⟩
  · exact .inr ⟨_, rfl⟩
  rcases bind_eq_error.mp h₃ with hput | ⟨s', -, hpure⟩
  · rcases bind_eq_error.mp hput with hdata | ⟨data, -, hpure⟩
    · exact .inl (encodeUndo_quiet hdata)
    · cases hpure
  · cases hpure

/-- Disconnecting a block that has its body blames nobody. -/
theorem disconnectBlock_quiet {s : Storage} {entry : BlockIndexEntry} {row : BlockRow} {e : PyError}
    (hrow : s.blocks.lookup entry.hash = some row) (hbody : row.pruned = false)
    (h : disconnectBlock s entry = .error e) : e.Quiet := by
  unfold disconnectBlock at h
  rcases bind_eq_error.mp h with hload | ⟨loaded, hload, h₁⟩
  · exact Storage.getBlock_quiet hload
  cases loaded with
  | none =>
    unfold Storage.getBlock at hload
    rw [hrow] at hload
    dsimp only at hload
    rw [if_neg (by simp [hbody])] at hload
    rcases bind_eq_ok.mp hload with ⟨b, -, hpure⟩
    cases pure_eq_ok.mp hpure
  | some block =>
    rcases bind_eq_error.mp h₁ with hundo | ⟨undo, -, hpure⟩
    · unfold Storage.getUndo at hundo
      split at hundo
      · rw [← Except.error.inj hundo]
        rfl
      · exact decodeUndo_quiet hundo
    · cases hpure

end ScarletCoin
