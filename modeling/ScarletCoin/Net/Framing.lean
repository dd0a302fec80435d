import ScarletCoin.Core.WireFormat
import ScarletCoin.Net.Session
import ScarletCoin.Toolkit.Chunks

/-!
# What is sent is what is received

A message within the limits of the decoders (`Message.WithinLimits`) has a payload that fits a frame
and decodes to the message (`Message.decode_encode`), its frame is taken apart again
(`Peer.receiveFrom_frame`), and a reader that is handed the frames of several messages one after the
other, in whatever chunks, returns the messages and leaves nothing (`framing_exact`).

The readers of the parts of a payload are exact, which lifts from the readers of the core
(`ofCore_exact`) and from one item to a counted list of them (`readItems_exact`). Reading from a
socket is reading from the bytes that it will deliver (`Peer.recvFrame_eq_ok`).
-/

set_option autoImplicit false

namespace ScarletCoin

open Toolkit

/-! ## Readers of payloads -/

theorem ofCore_eq_ok {α : Type} {r : Reader PyError α} {bs : Bytes} {x : α × Bytes} :
    Message.ofCore r bs = .ok x ↔ r bs = .ok x := by
  unfold Message.ofCore
  cases r bs with
  | error e => exact ⟨nofun, nofun⟩
  | ok y => simp [Except.mapError]

theorem ofCore_exact {α : Type} {P : α → Prop} {w : α → Bytes} {r : Reader PyError α}
    (h : Exact P w r) : Exact P w (Message.ofCore r) :=
  fun bs a rest => ofCore_eq_ok.trans (h bs a rest)

namespace Reader

theorem uint32_exact : Exact (fun _ => True) Writer.uint32 uint32 := by
  intro bs v rest
  rw [uint32_eq_ok, true_and]

theorem uint16_exact : Exact (fun _ => True) Writer.uint16 uint16 := by
  intro bs v rest
  rw [true_and]
  unfold uint16 Writer.uint16
  rw [reader_bind_eq_ok]
  constructor
  · rintro ⟨value, mid, hread, h⟩
    obtain ⟨hlt, rfl⟩ := uint_eq_ok.mp hread
    obtain ⟨rfl, rfl⟩ := reader_pure_eq_ok.mp h
    rw [UInt16.toNat_ofNat', Nat.mod_eq_of_lt (by simpa using hlt)]
  · rintro rfl
    have hlt : v.toNat < 256 ^ 2 := by simpa using UInt16.toNat_lt v
    exact ⟨v.toNat, rest, uint_eq_ok.mpr ⟨hlt, rfl⟩, reader_pure_eq_ok.mpr ⟨by simp, rfl⟩⟩

/-- The bytes that decode to a text are those it is encoded as. -/
theorem fromUTF8_eq_some {bs : Bytes} {text : String} :
    String.fromUTF8? ⟨bs.toArray⟩ = some text ↔ bs = text.toUTF8.data.toList := by
  constructor
  · intro h
    unfold String.fromUTF8? at h
    split at h
    · obtain rfl := Option.some.inj h
      rfl
    · cases h
  · rintro rfl
    have hwhole : (⟨text.toUTF8.data.toList.toArray⟩ : ByteArray) = text.toUTF8 := by
      rw [Array.toArray_toList]
    rw [hwhole]
    exact dif_pos text.isValidUTF8

/-- Text that is not too long is read from what the writer produces for it. -/
theorem varstr_exact {limit : Nat} (hlimit : limit < 2 ^ 64) :
    Exact (fun text : String => text.toUTF8.data.toList.length ≤ limit) Writer.varstr
      (varstr limit) := by
  intro bs text rest
  unfold varstr Writer.varstr
  rw [reader_bind_eq_ok]
  constructor
  · rintro ⟨data, mid, hread, h⟩
    obtain ⟨hle, hmid⟩ := (varbytes_exact _ _ _ _).mp hread
    cases htext : String.fromUTF8? ⟨data.val.toArray⟩ with
    | none =>
      rw [htext] at h
      exact absurd h fail_ne_ok
    | some text' =>
      rw [htext] at h
      obtain ⟨rfl, rfl⟩ := reader_pure_eq_ok.mp h
      have hlimit' := hle limit rfl
      dsimp only at hmid ⊢
      rw [fromUTF8_eq_some.mp htext] at hmid hlimit'
      exact ⟨hlimit', hmid⟩
  · rintro ⟨hle, rfl⟩
    refine ⟨⟨text.toUTF8.data.toList, by omega⟩, rest, (varbytes_exact _ _ _ _).mpr ⟨?_, rfl⟩, ?_⟩
    · intro m hm
      rw [← Option.some.inj hm]
      exact hle
    · dsimp only
      rw [fromUTF8_eq_some.mpr rfl]
      rfl

end Reader

/-- A counted list of items is read exactly if the items are. -/
theorem readItems_exact {α : Type} {P : α → Prop} {w : α → Bytes} {r : Reader NetError α}
    (hr : Exact P w r) {limit : Nat} (hlimit : limit < 2 ^ 64) (message : String) :
    Exact (fun as : List α => as.length ≤ limit ∧ ∀ a ∈ as, P a)
      (fun as => Writer.varint as.length ++ as.flatMap w)
      (Message.readItems limit message r) := by
  intro bs as rest
  unfold Message.readItems
  rw [reader_bind_eq_ok]
  constructor
  · rintro ⟨count, mid, hcount, h⟩
    obtain ⟨-, rfl⟩ := Reader.varint_eq_ok.mp (ofCore_eq_ok.mp hcount)
    split at h
    · cases h
    · rename_i hle
      obtain ⟨rfl, hP, rfl⟩ := hr.readMany_eq_ok.mp h
      exact ⟨⟨Nat.not_lt.mp hle, hP⟩, by rw [List.append_assoc]⟩
  · rintro ⟨⟨hle, hP⟩, rfl⟩
    refine ⟨as.length, as.flatMap w ++ rest,
      ofCore_eq_ok.mpr (Reader.varint_eq_ok.mpr ⟨by omega, by rw [List.append_assoc]⟩), ?_⟩
    rw [if_neg (Nat.not_lt.mpr hle)]
    exact hr.readMany_eq_ok.mpr ⟨rfl, hP, rfl⟩

namespace Message

theorem readInvItem_exact :
    Exact (fun _ => True) (fun item : InvItem => item.type.code :: item.hash.val) readInvItem := by
  intro bs item rest
  rw [true_and]
  unfold readInvItem
  rw [reader_bind_eq_ok]
  constructor
  · rintro ⟨type, mid, htype, h⟩
    obtain rfl := Reader.uint8_eq_ok.mp (ofCore_eq_ok.mp htype)
    obtain ⟨hash, mid', hhash, h₁⟩ := reader_bind_eq_ok.mp h
    obtain rfl := Reader.hash32_eq_ok.mp (ofCore_eq_ok.mp hhash)
    split at h₁
    · rename_i hone
      obtain ⟨rfl, rfl⟩ := reader_pure_eq_ok.mp h₁
      rw [hone]
      rfl
    · split at h₁
      · rename_i htwo
        obtain ⟨rfl, rfl⟩ := reader_pure_eq_ok.mp h₁
        rw [htwo]
        rfl
      · cases h₁
  · rintro rfl
    refine ⟨item.type.code, item.hash.val ++ rest,
      ofCore_eq_ok.mpr (Reader.uint8_eq_ok.mpr rfl), ?_⟩
    rw [reader_bind_of_ok (ofCore_eq_ok.mpr (Reader.hash32_eq_ok.mpr rfl))]
    cases item with
    | mk type hash => cases type <;> rfl

theorem readAddress_exact :
    Exact (fun a : NetworkAddress => a.host.toUTF8.data.toList.length ≤ 255)
      (fun a => Writer.varstr a.host ++ (Writer.uint16 a.port ++ Writer.uint32 a.lastSeen))
      readAddress := by
  have hhost := ofCore_exact (Reader.varstr_exact (show 255 < 2 ^ 64 by decide))
  have hport := ofCore_exact Reader.uint16_exact
  have hseen := ofCore_exact Reader.uint32_exact
  intro bs a rest
  unfold readAddress
  rw [reader_bind_eq_ok]
  constructor
  · rintro ⟨host, mid, hread, h⟩
    obtain ⟨hle, rfl⟩ := (hhost _ _ _).mp hread
    obtain ⟨port, mid', hread₁, h₁⟩ := reader_bind_eq_ok.mp h
    obtain ⟨-, rfl⟩ := (hport _ _ _).mp hread₁
    obtain ⟨lastSeen, mid'', hread₂, h₂⟩ := reader_bind_eq_ok.mp h₁
    obtain ⟨-, rfl⟩ := (hseen _ _ _).mp hread₂
    split at h₂
    · split at h₂
      · obtain ⟨rfl, rfl⟩ := reader_pure_eq_ok.mp h₂
        exact ⟨hle, by simp only [List.append_assoc]⟩
      · cases h₂
    · cases h₂
  · rintro ⟨hle, rfl⟩
    refine ⟨a.host, _, (hhost _ _ _).mpr ⟨hle, by rw [List.append_assoc]⟩, ?_⟩
    rw [List.append_assoc, reader_bind_of_ok ((hport _ _ _).mpr ⟨trivial, rfl⟩),
      reader_bind_of_ok ((hseen _ _ _).mpr ⟨trivial, rfl⟩), dif_pos a.host_length,
      dif_pos a.port_pos]
    rfl

theorem readLocator_exact :
    Exact (fun p : List Hash × Hash => p.1 ≠ [] ∧ p.1.length ≤ 64)
      (fun p => Writer.varint p.1.length ++ (p.1.flatMap Subtype.val ++ p.2.val)) readLocator := by
  have hhash := ofCore_exact Reader.hash32_exact
  intro bs p rest
  unfold readLocator
  rw [reader_bind_eq_ok]
  constructor
  · rintro ⟨count, mid, hcount, h⟩
    obtain ⟨-, rfl⟩ := Reader.varint_eq_ok.mp (ofCore_eq_ok.mp hcount)
    split at h
    · rename_i hbounds
      obtain ⟨locator, mid', hlocator, h₁⟩ := reader_bind_eq_ok.mp h
      obtain ⟨rfl, -, rfl⟩ := hhash.readMany_eq_ok.mp hlocator
      obtain ⟨stopHash, mid'', hstop, h₂⟩ := reader_bind_eq_ok.mp h₁
      obtain ⟨-, rfl⟩ := (hhash _ _ _).mp hstop
      obtain ⟨rfl, rfl⟩ := reader_pure_eq_ok.mp h₂
      exact ⟨⟨List.length_pos_iff.mp hbounds.1, hbounds.2⟩, by simp only [List.append_assoc]⟩
    · cases h
  · rintro ⟨⟨hne, hle⟩, rfl⟩
    refine ⟨p.1.length, _, ofCore_eq_ok.mpr (Reader.varint_eq_ok.mpr ⟨by omega, by
      rw [List.append_assoc]⟩), ?_⟩
    rw [if_pos ⟨List.length_pos_iff.mpr hne, hle⟩, List.append_assoc,
      reader_bind_of_ok (hhash.readMany_eq_ok.mpr ⟨rfl, fun _ _ => trivial, rfl⟩),
      reader_bind_of_ok ((hhash _ _ _).mpr ⟨trivial, rfl⟩)]
    rfl

theorem readRawHeader_exact :
    Exact (fun _ => True) (fun h : RawHeader => h.val) readRawHeader := by
  refine ofCore_exact fun bs h rest => ?_
  rw [attach_eq_ok, Reader.raw_eq_ok, true_and]
  exact and_iff_right h.property

/-- A reader that inverts a writer reads back a payload that the writer makes. -/
theorem readToEnd_of_ok {α : Type} {r : Reader NetError α} {payload : Bytes} {a : α}
    (h : r payload = .ok (a, [])) : readToEnd r payload = .ok a := by
  have hend : ofCore Reader.expectEnd [] = .ok ((), []) :=
    ofCore_eq_ok.mpr (Reader.expectEnd_eq_ok.mpr ⟨rfl, rfl⟩)
  unfold readToEnd
  rw [reader_bind_of_ok h, reader_bind_of_ok hend]
  rfl

theorem readToEnd_exact {α : Type} {P : α → Prop} {w : α → Bytes} {r : Reader NetError α}
    (hr : Exact P w r) {a : α} (ha : P a) : readToEnd r (w a) = .ok a :=
  readToEnd_of_ok ((hr _ _ _).mpr ⟨ha, (List.append_nil _).symm⟩)

/-! ## Payloads -/

/-- The limits of the decoders. -/
def WithinLimits : Message → Prop
  | version _ userAgent _ _ _ _ ephemeralPubkey =>
      userAgent.toUTF8.data.toList.length ≤ 128 ∧ ephemeralPubkey.val.length ≤ 33
  | addr addresses => addresses.length ≤ MAX_ADDR_ITEMS ∧
      ∀ a ∈ addresses, a.host.toUTF8.data.toList.length ≤ 255
  | inv items | getData items | notFound items => items.length ≤ MAX_INV_ITEMS
  | getBlocks locator _ | getHeaders locator _ => locator ≠ [] ∧ locator.length ≤ 64
  | .headers raw => raw.length ≤ MAX_HEADERS_PER_MESSAGE
  | .block b => b.WithinLimits ∧ b.serialize.length ≤ MAX_PAYLOAD
  | .tx t => t.WithinLimits ∧ t.serialize.length ≤ MAX_PAYLOAD
  | verAck | ping _ | pong _ | getAddr | mempool => True

/-- Items of at most `size` bytes take at most that much each. -/
theorem flatMap_length_le {α : Type} {w : α → Bytes} {size : Nat} {as : List α}
    (h : ∀ a ∈ as, (w a).length ≤ size) : (as.flatMap w).length ≤ size * as.length := by
  induction as with
  | nil => exact Nat.zero_le _
  | cons a as ih =>
    have hhead := h a List.mem_cons_self
    have htail := ih fun b hb => h b (List.mem_cons_of_mem a hb)
    rw [List.flatMap_cons, List.length_append, List.length_cons, Nat.mul_succ]
    omega

/-- A counted list of items of bounded size makes a payload that fits and is read back. -/
theorem counted_ok {α : Type} {P : α → Prop} {w : α → Bytes} {r : Reader NetError α}
    (hr : Exact P w r) {limit : Nat} (size : Nat) (hsize : ∀ a, P a → (w a).length ≤ size)
    (hfit : 9 + size * limit ≤ MAX_PAYLOAD) (hlimit : limit < 2 ^ 64) (message : String)
    {as : List α} (hlen : as.length ≤ limit) (hP : ∀ a ∈ as, P a) :
    ∃ payload, (do
        raiseIf (limit < as.length) (.protocol message)
        pure (Writer.varint as.length ++ as.flatMap w) : Except NetError Bytes) = .ok payload ∧
      payload.length ≤ MAX_PAYLOAD ∧ readToEnd (readItems limit message r) payload = .ok as := by
  refine ⟨_, raiseIf_bind_eq_ok.mpr ⟨Nat.not_lt.mpr hlen, rfl⟩, ?_,
    readToEnd_exact (readItems_exact hr hlimit message) ⟨hlen, hP⟩⟩
  have hcount := AuxPoW.varint_length_le as.length
  have hitems : (as.flatMap w).length ≤ size * as.length :=
    flatMap_length_le fun a ha => hsize a (hP a ha)
  have hmany : size * as.length ≤ size * limit := Nat.mul_le_mul_left size hlen
  rw [List.length_append]
  omega

theorem encodeInventory_ok {items : List InvItem} (h : items.length ≤ MAX_INV_ITEMS) :
    ∃ payload, encodeInventory items = .ok payload ∧ payload.length ≤ MAX_PAYLOAD ∧
      readToEnd (readItems MAX_INV_ITEMS "too many inventory items in one message" readInvItem)
        payload = .ok items := by
  refine counted_ok readInvItem_exact 33 (fun item _ => ?_) (by decide) (by decide) _ h
    fun _ _ => trivial
  rw [List.length_cons, item.hash.property]

theorem encodeAddresses_ok {addresses : List NetworkAddress}
    (h : addresses.length ≤ MAX_ADDR_ITEMS)
    (hhosts : ∀ a ∈ addresses, a.host.toUTF8.data.toList.length ≤ 255) :
    ∃ payload, encodeAddresses addresses = .ok payload ∧ payload.length ≤ MAX_PAYLOAD ∧
      readToEnd (readItems MAX_ADDR_ITEMS "too many addresses in one message" readAddress)
        payload = .ok addresses := by
  refine counted_ok readAddress_exact 270 (fun a hhost => ?_) (by decide) (by decide) _ h
    hhosts
  have hlength := AuxPoW.varint_length_le a.host.toUTF8.data.toList.length
  simp only [Writer.varstr, Writer.varbytes, Writer.uint16, Writer.uint32, List.length_append,
    leBytes_length]
  omega

theorem encodeHeaders_ok {raw : List RawHeader} (h : raw.length ≤ MAX_HEADERS_PER_MESSAGE) :
    ∃ payload, encodeHeaders raw = .ok payload ∧ payload.length ≤ MAX_PAYLOAD ∧
      readToEnd (readItems MAX_HEADERS_PER_MESSAGE "too many headers in one message" readRawHeader)
        payload = .ok raw :=
  counted_ok readRawHeader_exact 80 (fun header _ => header.property.le) (by decide)
    (by decide) _ h fun _ _ => trivial

/-- The payload of a request that carries a locator is read back. -/
theorem encodeLocator_ok {locator : List Hash} (stopHash : Hash) (hne : locator ≠ [])
    (hle : locator.length ≤ 64) :
    ∃ payload, encodeLocator locator stopHash = .ok payload ∧ payload.length ≤ MAX_PAYLOAD ∧
      readToEnd readLocator payload = .ok (locator, stopHash) := by
  have hread := readToEnd_exact readLocator_exact (a := (locator, stopHash)) ⟨hne, hle⟩
  refine ⟨_, raiseIf_bind_eq_ok.mpr ⟨?_, rfl⟩, ?_, hread⟩
  · rintro (hnil | hlong)
    · exact hne hnil
    · omega
  · have hcount := AuxPoW.varint_length_le locator.length
    have hhashes : (locator.flatMap Subtype.val).length ≤ 32 * locator.length :=
      flatMap_length_le fun h _ => h.property.le
    rw [List.length_append, List.length_append, stopHash.property]
    simp only [MAX_PAYLOAD]
    omega

/-- The payload of `version` is read back, with its key. -/
theorem readVersion_ok {number startHeight : UInt32} {userAgent : String} {nonce timestamp : UInt64}
    {listenPort : UInt16} {key : Blob} (hagent : userAgent.toUTF8.data.toList.length ≤ 128)
    (hkey : key.val.length ≤ 33) :
    readVersion (Writer.uint32 number ++ (Writer.varstr userAgent ++ (Writer.uint32 startHeight ++
      (Writer.uint64 nonce.toNat ++ (Writer.uint16 listenPort ++ (Writer.uint64 timestamp.toNat ++
        Writer.varbytes key.val)))))) =
      .ok (version number userAgent startHeight nonce listenPort timestamp key, []) := by
  have h64 : ∀ (v : UInt64) (rest : Bytes),
      ofCore Reader.uint64 (Writer.uint64 v.toNat ++ rest) = .ok (v.toNat, rest) :=
    fun v _ => ofCore_eq_ok.mpr (Reader.uint64_eq_ok.mpr ⟨v.toNat_lt, rfl⟩)
  have h32 := ofCore_exact Reader.uint32_exact
  have hkeyRead : ofCore (Reader.varbytes (some 33)) (Writer.varbytes key.val) = .ok (key, []) :=
    ofCore_eq_ok.mpr ((Reader.varbytes_exact _ _ _ _).mpr
      ⟨fun m hm => Option.some.inj hm ▸ hkey, (List.append_nil _).symm⟩)
  -- the length prefix of the key alone takes a byte, so something is left to read
  have hleft : (Writer.varbytes key.val).length ≠ 0 := by
    unfold Writer.varbytes Writer.varint
    split
    · simp
    · split
      · simp
      · split <;> simp
  unfold readVersion
  rw [reader_bind_of_ok ((h32 _ _ _).mpr ⟨trivial, rfl⟩),
    reader_bind_of_ok ((ofCore_exact (Reader.varstr_exact (by decide)) _ _ _).mpr ⟨hagent, rfl⟩),
    reader_bind_of_ok ((h32 _ _ _).mpr ⟨trivial, rfl⟩), reader_bind_of_ok (h64 nonce _),
    reader_bind_of_ok ((ofCore_exact Reader.uint16_exact _ _ _).mpr ⟨trivial, rfl⟩),
    reader_bind_of_ok (h64 timestamp _),
    reader_bind_of_ok (ofCore_eq_ok.mpr (Reader.remaining_eq_ok.mpr ⟨rfl, rfl⟩)), if_neg hleft,
    reader_bind_of_ok hkeyRead]
  simp only [UInt64.ofNat_toNat]
  rfl

/-- A message within the limits has a payload that fits a frame and decodes to the message. -/
theorem decode_encode {m : Message} (h : m.WithinLimits) :
    ∃ payload, m.encode = .ok payload ∧ payload.length ≤ MAX_PAYLOAD ∧
      decode m.command payload = some (.ok m) := by
  have hnonce : ∀ n : UInt64, ofCore Reader.uint64 (Writer.uint64 n.toNat) = .ok (n.toNat, []) :=
    fun n => ofCore_eq_ok.mpr (Reader.uint64_eq_ok.mpr ⟨n.toNat_lt, (List.append_nil _).symm⟩)
  cases m with
  | version number userAgent startHeight nonce listenPort timestamp key =>
    refine ⟨_, rfl, ?_, congrArg some (readToEnd_of_ok (readVersion_ok h.1 h.2))⟩
    -- the longest user agent and key keep the payload small
    have hagent := AuxPoW.varint_length_le userAgent.toUTF8.data.toList.length
    have hkey := AuxPoW.varint_length_le key.val.length
    have hlimits : userAgent.toUTF8.data.toList.length ≤ 128 ∧ key.val.length ≤ 33 := h
    simp only [Writer.varstr, Writer.varbytes, Writer.uint16, Writer.uint32, Writer.uint64,
      List.length_append, leBytes_length, MAX_PAYLOAD]
    omega
  | verAck | getAddr | mempool => exact ⟨[], rfl, by decide, rfl⟩
  | ping nonce =>
    refine ⟨_, rfl, by simp [Writer.uint64, MAX_PAYLOAD], congrArg some (readToEnd_of_ok ?_)⟩
    rw [reader_bind_of_ok (hnonce nonce), UInt64.ofNat_toNat]
    rfl
  | pong nonce =>
    refine ⟨_, rfl, by simp [Writer.uint64, MAX_PAYLOAD], congrArg some (readToEnd_of_ok ?_)⟩
    rw [reader_bind_of_ok (hnonce nonce), UInt64.ofNat_toNat]
    rfl
  | addr addresses =>
    obtain ⟨payload, hencode, hfits, hread⟩ := encodeAddresses_ok h.1 h.2
    refine ⟨payload, hencode, hfits, ?_⟩
    show some (addr <$> _) = _
    rw [hread]
    rfl
  -- kinds of message with one layout share one lemma
  | inv items | getData items | notFound items =>
    obtain ⟨payload, hencode, hfits, hread⟩ := encodeInventory_ok h
    refine ⟨payload, hencode, hfits, ?_⟩
    show some (_ <$> readToEnd _ payload) = _
    rw [hread]
    rfl
  | getBlocks locator stopHash | getHeaders locator stopHash =>
    obtain ⟨payload, hencode, hfits, hread⟩ := encodeLocator_ok stopHash h.1 h.2
    refine ⟨payload, hencode, hfits, ?_⟩
    show some (_ <$> readToEnd _ payload) = _
    rw [hread]
    rfl
  | headers raw =>
    obtain ⟨payload, hencode, hfits, hread⟩ := encodeHeaders_ok h
    refine ⟨payload, hencode, hfits, ?_⟩
    show some (headers <$> _) = _
    rw [hread]
    rfl
  | block b =>
    refine ⟨_, rfl, h.2, ?_⟩
    show some (block <$> _) = _
    rw [Block.deserialize_eq_ok.mpr ⟨h.1, rfl⟩]
    rfl
  | tx t =>
    refine ⟨_, rfl, h.2, ?_⟩
    show some (tx <$> _) = _
    rw [Transaction.deserialize_eq_ok.mpr ⟨h.1, rfl⟩]
    rfl

/-- A command name that survives the padding of the header. -/
def Plain (name : String) : Prop :=
  (asciiBytes name).length ≤ 12 ∧ ¬ (name = "" ∨ 12 < name.length) ∧
  (((asciiBytes name).rightpad 12 0).reverse.dropWhile (· == 0)).reverse = asciiBytes name ∧
  ¬ ((asciiBytes name).any fun b => decide (128 ≤ b)) = true ∧
  ¬ ((asciiBytes name).any fun b => decide (b < 32 ∨ b = 127)) = true ∧
  asciiString (asciiBytes name) = name

theorem command_plain (m : Message) : Plain m.command := by
  cases m <;> simp only [command, Plain] <;> decide

end Message

/-! ## Frames -/

section Frames

variable [Crypto]

/-- Wrap a message in its envelope. -/
def encodeMessage (magic : Bytes) (message : Message) : Except NetError Bytes := do
  let payload ← message.encode
  encodePayload magic message.command payload

theorem checksumOf_length (payload : Bytes) : (checksumOf payload).length = 4 := by
  unfold checksumOf
  rw [List.length_take, (hash256 payload).property]
  rfl

theorem frameHeader_length {magic : Bytes} (hmagic : magic.length = 4) (m : Message)
    (payload : Bytes) : (frameHeader magic m.command payload).length = HEADER_SIZE := by
  have hcommand := m.command_plain.1
  unfold frameHeader
  simp only [List.length_append, hmagic, List.length_rightpad, leBytes_length, checksumOf_length,
    HEADER_SIZE]
  omega

/-- The header of a frame is taken apart into what it was made of. -/
theorem parseHeader_frameHeader {magic : Bytes} (hmagic : magic.length = 4) (m : Message)
    {payload : Bytes} (hfits : payload.length ≤ MAX_PAYLOAD) :
    parseHeader (frameHeader magic m.command payload) magic =
      .ok (m.command, payload.length, checksumOf payload) := by
  obtain ⟨hshort, -, hstrip, hascii, hprintable, hname⟩ := m.command_plain
  let padded := (asciiBytes m.command).rightpad 12 0
  let length := leBytes 4 payload.length
  have hpadded : padded.length = 12 := by
    show ((asciiBytes m.command).rightpad 12 0).length = 12
    rw [List.length_rightpad]
    omega
  have hlength : length.length = 4 := leBytes_length 4 _
  have hheader : frameHeader magic m.command payload =
      magic ++ (padded ++ (length ++ checksumOf payload)) := rfl
  have hfour : (frameHeader magic m.command payload).take 4 = magic := by
    rw [hheader, ← hmagic, List.take_left]
  have hname' : ((frameHeader magic m.command payload).drop 4).take 12 = padded := by
    rw [hheader, ← hmagic, List.drop_left, ← hpadded, List.take_left]
  have hsize : ((frameHeader magic m.command payload).drop 16).take 4 = length := by
    rw [hheader, ← List.append_assoc, List.drop_left' (by rw [List.length_append]; omega),
      ← hlength, List.take_left]
  have hsum : ((frameHeader magic m.command payload).drop 20).take 4 = checksumOf payload := by
    rw [hheader, ← List.append_assoc, ← List.append_assoc,
      List.drop_left' (by simp only [List.length_append]; omega),
      List.take_of_length_le (checksumOf_length payload).le]
  have hvalue : leNat length = payload.length :=
    leNat_leBytes_of_lt (by simp only [MAX_PAYLOAD] at hfits; omega)
  unfold parseHeader
  dsimp only
  rw [hfour, hname', hsize, hsum, hvalue]
  refine raiseIf_bind_eq_ok.mpr ⟨not_not.mpr (frameHeader_length hmagic m payload), ?_⟩
  refine raiseIf_bind_eq_ok.mpr ⟨not_not.mpr rfl, ?_⟩
  rw [show (padded.reverse.dropWhile (· == 0)).reverse = asciiBytes m.command from hstrip]
  refine raiseIf_bind_eq_ok.mpr ⟨hascii, raiseIf_bind_eq_ok.mpr ⟨hprintable, ?_⟩⟩
  refine raiseIf_bind_eq_ok.mpr ⟨Nat.not_lt.mpr hfits, ?_⟩
  rw [hname]
  rfl

/-- The frame of a message within the limits: a header and a payload, from which the message is
recovered. -/
theorem encodeMessage_ok {magic : Bytes} (hmagic : magic.length = 4) {m : Message}
    (h : m.WithinLimits) :
    ∃ payload, payload.length ≤ MAX_PAYLOAD ∧
      encodeMessage magic m = .ok (frameHeader magic m.command payload ++ payload) ∧
      decodePayload m.command payload (some (checksumOf payload)) = .ok (some m) := by
  obtain ⟨payload, hencode, hfits, hdecode⟩ := Message.decode_encode h
  refine ⟨payload, hfits, ?_, ?_⟩
  · unfold encodeMessage encodePayload
    rw [hencode, ok_bind]
    refine raiseIf_bind_eq_ok.mpr ⟨not_not.mpr hmagic, ?_⟩
    refine raiseIf_bind_eq_ok.mpr ⟨m.command_plain.2.1, ?_⟩
    exact raiseIf_bind_eq_ok.mpr ⟨Nat.not_lt.mpr hfits, rfl⟩
  · unfold decodePayload
    refine raiseIf_bind_eq_ok.mpr ⟨by simp, ?_⟩
    rw [hdecode]
    rfl

end Frames

/-! ## Reading from a socket -/

/-- `Peer._recv_exactly`: read from the socket, at most 65536 bytes at a time, until so many bytes
are there. A read that gives nothing is a connection that was closed. -/
def recvExactly (length : Nat) (socket : List Bytes) : Except NetError (Bytes × List Bytes) :=
  match gather 65536 length [] socket with
  | none => .error (.disconnected "connection closed by the remote end")
  | some read => .ok read

theorem recvExactly_eq_ok {length : Nat} {socket : List Bytes} (hsocket : Chunked socket)
    (hlong : length ≤ socket.flatten.length) :
    ∃ rest, recvExactly length socket = .ok (socket.flatten.take length, rest) ∧
      rest.flatten = socket.flatten.drop length ∧ Chunked rest := by
  have hbuffer : ([] : Bytes).length ≤ length := Nat.zero_le length
  have hlimit : 0 < 65536 := by decide
  obtain ⟨rest, hgather, hrest, hproper⟩ := gather_eq_some hlimit hsocket hbuffer hlong
  refine ⟨rest, ?_, hrest, hproper⟩
  unfold recvExactly
  rw [hgather]
  rfl

theorem recvExactly_eq_error {length : Nat} {socket : List Bytes}
    (hshort : socket.flatten.length < length) :
    recvExactly length socket = .error (.disconnected "connection closed by the remote end") := by
  unfold recvExactly
  rw [gather_eq_none (by rw [List.length_nil]; omega)]

namespace Peer

/-- The part of `receive` that reads from the socket. -/
def recvFrame (p : Peer) (socket : List Bytes) : Except NetError (Frame × List Bytes) := do
  let (header, afterHeader) ← recvExactly HEADER_SIZE socket
  let (command, length, checksum) ← parseHeader header p.magic
  let (payload, rest) ← if length = 0 then pure ([], afterHeader)
    else recvExactly length afterHeader
  pure (⟨command, payload, checksum⟩, rest)

/-- However the stream is cut, reading a frame from the socket is reading it from the bytes that are
going to arrive; the bytes behind it are left. -/
theorem recvFrame_eq_ok {p : Peer} {socket : List Bytes} (hsocket : Chunked socket) {frame : Frame}
    (h : p.readFrame socket.flatten = .ok frame) :
    ∃ rest, p.recvFrame socket = .ok (frame, rest) ∧ Chunked rest ∧
      rest.flatten = socket.flatten.drop (HEADER_SIZE + frame.payload.length) := by
  obtain ⟨hheader, h₁⟩ := raiseIf_bind_eq_ok.mp h
  obtain ⟨⟨command, length, checksum⟩, hparse, h₂⟩ := bind_eq_ok.mp h₁
  obtain ⟨hpayload, h₃⟩ := raiseIf_bind_eq_ok.mp h₂
  obtain rfl := pure_eq_ok.mp h₃
  obtain ⟨rest, hrecv, hrest, hchunks⟩ := recvExactly_eq_ok hsocket (Nat.not_lt.mp hheader)
  have hlen : length ≤ rest.flatten.length := hrest ▸ Nat.not_lt.mp hpayload
  unfold recvFrame
  rw [hrecv, ok_bind]
  dsimp only
  rw [hparse, ok_bind]
  dsimp only
  have htaken : ((socket.flatten.drop HEADER_SIZE).take length).length = length := by
    rw [← hrest, List.length_take]
    omega
  by_cases hzero : length = 0
  · refine ⟨rest, ?_, hchunks, ?_⟩
    · rw [if_pos hzero, hzero]
      rfl
    · rw [hrest, htaken, hzero, Nat.add_zero]
  · obtain ⟨rest', hrecv', hrest', hchunks'⟩ := recvExactly_eq_ok hchunks hlen
    refine ⟨rest', ?_, hchunks', ?_⟩
    · rw [if_neg hzero, hrecv', ok_bind, hrest]
      rfl
    · rw [hrest', hrest, List.drop_drop, htaken]

section Receive

variable [Crypto] [Aead]

/-- Read one message from the socket. -/
def receiveFrom (p : Peer) (socket : List Bytes) :
    Peer × Except NetError (Option Message × List Bytes) :=
  match p.recvFrame socket with
  | .error e => (p, .error e)
  | .ok (frame, rest) => ((p.openFrame frame).1, (p.openFrame frame).2.map fun m => (m, rest))

/-- Read so many messages from the socket, one after the other. -/
def receiveMany (p : Peer) : Nat → List Bytes → Except NetError (List (Option Message) × List Bytes)
  | 0, socket => .ok ([], socket)
  | n + 1, socket =>
      match p.receiveFrom socket with
      | (_, .error e) => .error e
      | (p', .ok (m, rest)) => (p'.receiveMany n rest).map fun read => (m :: read.1, read.2)

end Receive

end Peer

/-! ## Streams of messages -/

section Streams

variable [Crypto]

/-- The frames of messages, one after the other. -/
def encodeMessages (magic : Bytes) : List Message → Except NetError Bytes
  | [] => .ok []
  | m :: messages => do
      let frame ← encodeMessage magic m
      let rest ← encodeMessages magic messages
      pure (frame ++ rest)

variable [Aead]

/-- A message is received from the front of a stream that begins with its frame. -/
theorem Peer.receiveFrom_frame {p : Peer} (hcipher : p.cipher = none) (hmagic : p.magic.length = 4)
    {m : Message} (h : m.WithinLimits) {frame tail : Bytes}
    (hframe : encodeMessage p.magic m = .ok frame) {socket : List Bytes} (hsocket : Chunked socket)
    (hflatten : socket.flatten = frame ++ tail) :
    ∃ rest, p.receiveFrom socket = (p, .ok (some m, rest)) ∧ Chunked rest ∧
      rest.flatten = tail := by
  obtain ⟨payload, hfits, hencode, hdecode⟩ := encodeMessage_ok hmagic h
  obtain rfl := Except.ok.inj (hencode.symm.trans hframe)
  have hheader := frameHeader_length hmagic m payload
  rw [List.append_assoc] at hflatten
  have hread : p.readFrame socket.flatten = .ok ⟨m.command, payload, checksumOf payload⟩ := by
    unfold readFrame
    rw [hflatten, List.take_left' hheader, List.drop_left' hheader,
      parseHeader_frameHeader hmagic m hfits]
    refine raiseIf_bind_eq_ok.mpr ⟨by rw [List.length_append, hheader]; omega, ?_⟩
    refine raiseIf_bind_eq_ok.mpr ⟨by rw [List.length_append]; omega, ?_⟩
    rw [List.take_left]
    rfl
  obtain ⟨rest, hrecv, hchunks, hrest⟩ := recvFrame_eq_ok hsocket hread
  have hopen : p.openFrame ⟨m.command, payload, checksumOf payload⟩ = (p, .ok (some m)) := by
    unfold openFrame
    rw [hcipher]
    exact congrArg (Prod.mk p) hdecode
  refine ⟨rest, ?_, hchunks, ?_⟩
  · unfold receiveFrom
    rw [hrecv]
    dsimp only
    rw [hopen]
    rfl
  · rw [hrest, hflatten, ← List.append_assoc, List.drop_left' (by rw [List.length_append, hheader])]

/-- A sequence of messages is received from the front of a stream that begins with their frames, and
the reads that follow see what is behind. -/
theorem Peer.receiveMany_frames {p : Peer} (hcipher : p.cipher = none)
    (hmagic : p.magic.length = 4) {messages : List Message}
    (hlimits : ∀ m ∈ messages, m.WithinLimits) (tail : Bytes) :
    ∃ stream, encodeMessages p.magic messages = .ok stream ∧ ∀ socket, Chunked socket →
      socket.flatten = stream ++ tail → ∃ rest, Chunked rest ∧ rest.flatten = tail ∧
        ∀ k, p.receiveMany (messages.length + k) socket =
          (p.receiveMany k rest).map fun read => (messages.map some ++ read.1, read.2) := by
  induction messages with
  | nil =>
    refine ⟨[], rfl, fun socket hsocket hflatten => ⟨socket, hsocket, hflatten, fun k => ?_⟩⟩
    rw [List.length_nil, Nat.zero_add]
    cases p.receiveMany k socket <;> rfl
  | cons m messages ih =>
    have hm := hlimits m List.mem_cons_self
    obtain ⟨payload, -, hencode, -⟩ := encodeMessage_ok hmagic hm
    obtain ⟨stream, hstream, hreads⟩ := ih fun m' hm' => hlimits m' (List.mem_cons_of_mem m hm')
    refine ⟨frameHeader p.magic m.command payload ++ payload ++ stream, ?_, ?_⟩
    · rw [encodeMessages, hencode, ok_bind, hstream]
      rfl
    · intro socket hsocket hflatten
      rw [List.append_assoc] at hflatten
      obtain ⟨rest₁, hreceive, hchunks₁, hrest₁⟩ :=
        receiveFrom_frame hcipher hmagic hm hencode hsocket hflatten
      obtain ⟨rest, hchunks, hrest, hmany⟩ := hreads rest₁ hchunks₁ hrest₁
      refine ⟨rest, hchunks, hrest, fun k => ?_⟩
      rw [List.length_cons, Nat.add_right_comm, receiveMany, hreceive]
      dsimp only
      rw [hmany k]
      cases p.receiveMany k rest <;> rfl

/-- **Messages arrive as they were sent.** A message within the limits of the decoders is recovered
from its frame; and whoever reads the frames of a list of such messages from a socket that delivers
them in any chunks receives exactly these messages, in their order, and then finds the connection at
its end. -/
theorem framing_exact {magic : Bytes} (hmagic : magic.length = 4) :
    (∀ m : Message, m.WithinLimits → ∃ frame checksum, encodeMessage magic m = .ok frame ∧
      parseHeader (frame.take HEADER_SIZE) magic =
        .ok (m.command, (frame.drop HEADER_SIZE).length, checksum) ∧
      decodePayload m.command (frame.drop HEADER_SIZE) (some checksum) = .ok (some m)) ∧
    ∀ messages : List Message, (∀ m ∈ messages, m.WithinLimits) →
      ∃ stream, encodeMessages magic messages = .ok stream ∧
        ∀ socket, Chunked socket → socket.flatten = stream →
          (Peer.mk magic none false).receiveMany messages.length socket =
            .ok (messages.map some, []) ∧
          (Peer.mk magic none false).receiveMany (messages.length + 1) socket =
            .error (.disconnected "connection closed by the remote end") := by
  constructor
  · intro m hm
    obtain ⟨payload, hfits, hencode, hdecode⟩ := encodeMessage_ok hmagic hm
    have hheader := frameHeader_length hmagic m payload
    refine ⟨_, checksumOf payload, hencode, ?_, ?_⟩
    · rw [List.take_left' hheader, List.drop_left' hheader]
      exact parseHeader_frameHeader hmagic m hfits
    · rw [List.drop_left' hheader]
      exact hdecode
  · intro messages hlimits
    obtain ⟨stream, hstream, hreads⟩ :=
      Peer.receiveMany_frames (p := ⟨magic, none, false⟩) rfl hmagic hlimits []
    refine ⟨stream, hstream, fun socket hsocket hflatten => ?_⟩
    obtain ⟨rest, hchunks, hrest, hmany⟩ :=
      hreads socket hsocket (by rw [hflatten, List.append_nil])
    obtain rfl := hchunks.eq_nil hrest
    refine ⟨(hmany 0).trans ?_, (hmany 1).trans ?_⟩
    · show Except.ok (messages.map some ++ [], []) = _
      rw [List.append_nil]
    · -- one more frame finds the connection closed
      have hend : (Peer.mk magic none false).receiveFrom [] =
          (⟨magic, none, false⟩, .error (.disconnected "connection closed by the remote end")) := by
        unfold Peer.receiveFrom Peer.recvFrame
        rw [recvExactly_eq_error (by decide)]
        rfl
      rw [Peer.receiveMany, hend]
      rfl

end Streams

section Instances

attribute [local instance] Sample.crypto Sample.aead

/-- Two messages that arrive byte by byte. -/
theorem framing_exact_bytewise :
    ∃ stream, encodeMessages [0x53, 0x43, 0x52, 0x4C] [.ping 7, .verAck] = .ok stream ∧
      (Peer.mk [0x53, 0x43, 0x52, 0x4C] none false).receiveMany 2 (stream.map fun b => [b]) =
        .ok ([some (.ping 7), some .verAck], []) := by
  have hexact := framing_exact (show ([0x53, 0x43, 0x52, 0x4C] : Bytes).length = 4 from rfl)
  have hlimits : ∀ m ∈ [Message.ping 7, .verAck], m.WithinLimits := by
    intro m hm
    rcases List.mem_pair.mp hm with rfl | rfl <;> exact trivial
  obtain ⟨stream, hstream, hreads⟩ := hexact.2 [.ping 7, .verAck] hlimits
  refine ⟨stream, hstream, (hreads _ ?_ ?_).1⟩
  · intro chunk hchunk
    obtain ⟨b, -, rfl⟩ := List.mem_map.mp hchunk
    exact List.cons_ne_nil b []
  · rw [← List.flatMap_def, List.flatMap_singleton']

end Instances

end ScarletCoin
