import ScarletCoin.Core.Block

/-!
# The wire protocol

The messages and the envelope of `net/protocol.py`. A message is a command name with a payload; a
frame is a 24-byte header, which names the network, the command, the length of the payload and a
checksum, followed by the payload.
-/

set_option autoImplicit false

namespace ScarletCoin

open Toolkit

/-- Size of the header of a frame. -/
def HEADER_SIZE : Nat := 24

/-- Largest payload that is read. -/
def MAX_PAYLOAD : Nat := 2 * 1024 * 1024

/-- Most hashes announced or requested in a single message. -/
def MAX_INV_ITEMS : Nat := 5000

/-- Most addresses in a single `addr` message. -/
def MAX_ADDR_ITEMS : Nat := 1000

/-- Most headers in a single `headers` message. -/
def MAX_HEADERS_PER_MESSAGE : Nat := 2000

/-- What the network code raises: its own two exceptions, or one of the core. -/
inductive NetError where
  | protocol (message : String)
  | disconnected (message : String)
  | python (e : PyError)
  deriving DecidableEq, Repr

/-! ## Messages -/

/-- Inventory item types. -/
inductive InvType where
  | tx
  | block
  deriving DecidableEq, Repr

/-- The byte of an inventory item type. -/
def InvType.code : InvType → UInt8
  | .tx => 1
  | .block => 2

/-- One announced or requested object. -/
structure InvItem where
  type : InvType
  hash : Hash
  deriving DecidableEq

/-- A peer's address as gossiped in `addr` messages. -/
structure NetworkAddress where
  host : String
  port : UInt16
  lastSeen : UInt32
  host_length : 1 ≤ host.length ∧ host.length ≤ 255
  port_pos : 1 ≤ port.toNat
  deriving DecidableEq

/-- The 80 bytes of a header, as a `headers` message carries them. -/
abbrev RawHeader := { b : Bytes // b.length = 80 }

/-- The protocol messages. -/
inductive Message where
  | version (version : UInt32) (userAgent : String) (startHeight : UInt32) (nonce : UInt64)
      (listenPort : UInt16) (timestamp : UInt64) (ephemeralPubkey : Blob)
  | verAck
  | ping (nonce : UInt64)
  | pong (nonce : UInt64)
  | getAddr
  | addr (addresses : List NetworkAddress)
  | inv (items : List InvItem)
  | getData (items : List InvItem)
  | notFound (items : List InvItem)
  | getBlocks (locator : List Hash) (stopHash : Hash)
  | getHeaders (locator : List Hash) (stopHash : Hash)
  | headers (headers : List RawHeader)
  | block (block : Block)
  | tx (transaction : Transaction)
  | mempool
  deriving DecidableEq

namespace Message

/-- The command name of a message. -/
def command : Message → String
  | version .. => "version"
  | verAck => "verack"
  | ping _ => "ping"
  | pong _ => "pong"
  | getAddr => "getaddr"
  | addr _ => "addr"
  | inv _ => "inv"
  | getData _ => "getdata"
  | notFound _ => "notfound"
  | getBlocks .. => "getblocks"
  | getHeaders .. => "getheaders"
  | headers _ => "headers"
  | block _ => "block"
  | tx _ => "tx"
  | mempool => "mempool"

/-! ## Encoding -/

/-- The payload of the three inventory messages. -/
def encodeInventory (items : List InvItem) : Except NetError Bytes := do
  raiseIf (MAX_INV_ITEMS < items.length) (.protocol "too many inventory items in one message")
  pure (Writer.varint items.length ++
    items.flatMap fun item => item.type.code :: item.hash.val)

/-- The payload of `getblocks` and `getheaders`. -/
def encodeLocator (locator : List Hash) (stopHash : Hash) : Except NetError Bytes := do
  raiseIf (locator = [] ∨ 64 < locator.length)
    (.protocol "a locator must contain between 1 and 64 hashes")
  pure (Writer.varint locator.length ++ (locator.flatMap Subtype.val ++ stopHash.val))

/-- The payload of `addr`. -/
def encodeAddresses (addresses : List NetworkAddress) : Except NetError Bytes := do
  raiseIf (MAX_ADDR_ITEMS < addresses.length) (.protocol "too many addresses in one message")
  pure (Writer.varint addresses.length ++ addresses.flatMap fun a =>
    Writer.varstr a.host ++ (Writer.uint16 a.port ++ Writer.uint32 a.lastSeen))

/-- The payload of `headers`. -/
def encodeHeaders (headers : List RawHeader) : Except NetError Bytes := do
  raiseIf (MAX_HEADERS_PER_MESSAGE < headers.length) (.protocol "too many headers in one message")
  pure (Writer.varint headers.length ++ headers.flatMap Subtype.val)

/-- The payload of a message. -/
def encode : Message → Except NetError Bytes
  | version number userAgent startHeight nonce listenPort timestamp ephemeralPubkey =>
      .ok (Writer.uint32 number ++ (Writer.varstr userAgent ++ (Writer.uint32 startHeight ++
        (Writer.uint64 nonce.toNat ++ (Writer.uint16 listenPort ++
          (Writer.uint64 timestamp.toNat ++ Writer.varbytes ephemeralPubkey.val))))))
  | ping nonce | pong nonce => .ok (Writer.uint64 nonce.toNat)
  | verAck | getAddr | mempool => .ok []
  | addr addresses => encodeAddresses addresses
  | inv items | getData items | notFound items => encodeInventory items
  | getBlocks locator stopHash | getHeaders locator stopHash => encodeLocator locator stopHash
  | .headers raw => encodeHeaders raw
  | .block b => .ok b.serialize
  | .tx t => .ok t.serialize

/-! ## Decoding -/

/-- A reader of the core within the network code. -/
def ofCore {α : Type} (r : Reader PyError α) : Reader NetError α := fun bs =>
  (r bs).mapError .python

/-- Raise `ProtocolError` from a reader. -/
def refuse {α : Type} (message : String) : Reader NetError α := fun _ => .error (.protocol message)

/-- Run a reader on a whole payload. -/
def readToEnd {α : Type} (r : Reader NetError α) (payload : Bytes) : Except NetError α :=
  match (do let a ← r; ofCore Reader.expectEnd; pure a : Reader NetError α) payload with
  | .ok (a, _) => .ok a
  | .error e => .error e

/-- A number of items, refused above `limit`, and the items. -/
def readItems {α : Type} (limit : Nat) (message : String) (r : Reader NetError α) :
    Reader NetError (List α) := do
  let count ← ofCore Reader.varint
  if limit < count then refuse message else readMany r count

/-- Parse an inventory item. -/
def readInvItem : Reader NetError InvItem := do
  let type ← ofCore Reader.uint8
  let hash ← ofCore Reader.hash32
  if type = 1 then pure ⟨.tx, hash⟩
  else if type = 2 then pure ⟨.block, hash⟩
  else refuse s!"unknown inventory type {type}"

/-- Parse an address. -/
def readAddress : Reader NetError NetworkAddress := do
  let host ← ofCore (Reader.varstr 255)
  let port ← ofCore Reader.uint16
  let lastSeen ← ofCore Reader.uint32
  if hh : 1 ≤ host.length ∧ host.length ≤ 255 then
    if hp : 1 ≤ port.toNat then pure ⟨host, port, lastSeen, hh, hp⟩
    else refuse s!"peer port out of range: {port}"
  else refuse "peer host must be between 1 and 255 characters"

/-- Parse the payload of `getblocks` and `getheaders`. -/
def readLocator : Reader NetError (List Hash × Hash) := do
  let count ← ofCore Reader.varint
  if 1 ≤ count ∧ count ≤ 64 then do
    let locator ← readMany (ofCore Reader.hash32) count
    let stopHash ← ofCore Reader.hash32
    pure (locator, stopHash)
  else refuse "a locator must contain between 1 and 64 hashes"

/-- Parse 80 raw bytes. -/
def readRawHeader : Reader NetError RawHeader :=
  ofCore (attach (Reader.raw 80) fun _ _ _ h => (Reader.raw_eq_ok.mp h).1)

theorem noBytes_fit : ([] : Bytes).length < 2 ^ 64 := by decide

/-- Parse the payload of `version`; the key is left out by peers of protocol version 1. -/
def readVersion : Reader NetError Message := do
  let number ← ofCore Reader.uint32
  let userAgent ← ofCore (Reader.varstr 128)
  let startHeight ← ofCore Reader.uint32
  let nonce ← ofCore Reader.uint64
  let listenPort ← ofCore Reader.uint16
  let timestamp ← ofCore Reader.uint64
  let left ← ofCore Reader.remaining
  let key ← if left = 0 then pure ⟨[], noBytes_fit⟩ else ofCore (Reader.varbytes (some 33))
  pure (version number userAgent startHeight (.ofNat nonce) listenPort (.ofNat timestamp) key)

/-- Parse the payload of a message that has none. -/
def readNothing (message : Message) (payload : Bytes) : Except NetError Message := do
  raiseIf (payload ≠ []) (.protocol s!"{message.command} takes no payload")
  pure message

/-- `message_type.decode` for the type with the command; there is none for an unknown command. -/
def decode (command : String) (payload : Bytes) : Option (Except NetError Message) :=
  match command with
  | "version" => some (readToEnd readVersion payload)
  | "verack" => some (readNothing verAck payload)
  | "ping" => some (readToEnd (do let n ← ofCore Reader.uint64; pure (ping (.ofNat n))) payload)
  | "pong" => some (readToEnd (do let n ← ofCore Reader.uint64; pure (pong (.ofNat n))) payload)
  | "getaddr" => some (readNothing getAddr payload)
  | "addr" => some (addr <$> readToEnd
      (readItems MAX_ADDR_ITEMS "too many addresses in one message" readAddress) payload)
  | "inv" => some (inv <$> readToEnd
      (readItems MAX_INV_ITEMS "too many inventory items in one message" readInvItem) payload)
  | "getdata" => some (getData <$> readToEnd
      (readItems MAX_INV_ITEMS "too many inventory items in one message" readInvItem) payload)
  | "notfound" => some (notFound <$> readToEnd
      (readItems MAX_INV_ITEMS "too many inventory items in one message" readInvItem) payload)
  | "getblocks" => some ((fun p => getBlocks p.1 p.2) <$> readToEnd readLocator payload)
  | "getheaders" => some ((fun p => getHeaders p.1 p.2) <$> readToEnd readLocator payload)
  | "headers" => some (headers <$> readToEnd
      (readItems MAX_HEADERS_PER_MESSAGE "too many headers in one message" readRawHeader) payload)
  | "block" => some (block <$> (Block.deserialize payload).mapError .python)
  | "tx" => some (tx <$> (Transaction.deserialize payload).mapError .python)
  | "mempool" => some (readNothing mempool payload)
  | _ => none

end Message

variable [Crypto]

/-- The first four bytes of the double SHA-256 of a payload. -/
def checksumOf (payload : Bytes) : Bytes := (hash256 payload).val.take 4

/-- Verify the checksum of a payload, when one is given, and decode it. The answer is `None` for an
unknown command. -/
def decodePayload (command : String) (payload : Bytes) (checksum : Option Bytes) :
    Except NetError (Option Message) := do
  raiseIf ((checksum.any fun c => checksumOf payload ≠ c) = true)
    (.protocol s!"bad checksum on {command} message")
  match Message.decode command payload with
  | none => pure none
  | some (.ok message) => pure (some message)
  | some (.error (.python e)) =>
      if e.isValueError then .error (.protocol s!"malformed {command} message: {e.message}")
      else .error (.python e)
  | some (.error e) => .error e

/-! ## The envelope -/

/-- `command.encode("ascii")`. -/
def asciiBytes (command : String) : Bytes := command.toList.map fun c => UInt8.ofNat c.toNat

/-- `raw.decode("ascii")`, for bytes below 128. -/
def asciiString (raw : Bytes) : String := String.ofList (raw.map fun b => Char.ofNat b.toNat)

/-- The header of a frame: magic, command, length and checksum. -/
def frameHeader (magic : Bytes) (command : String) (payload : Bytes) : Bytes :=
  magic ++ ((asciiBytes command).rightpad 12 0 ++
    (leBytes 4 payload.length ++ checksumOf payload))

/-- Wrap a command name and a payload in the envelope. -/
def encodePayload (magic : Bytes) (command : String) (payload : Bytes) :
    Except NetError Bytes := do
  raiseIf (magic.length ≠ 4) (.protocol "network magic must be 4 bytes")
  raiseIf (command = "" ∨ 12 < command.length) (.protocol s!"invalid command name b'{command}'")
  raiseIf (MAX_PAYLOAD < payload.length)
    (.protocol s!"payload is too large: {payload.length} bytes")
  pure (frameHeader magic command payload ++ payload)

omit [Crypto] in
/-- Split the header of a frame into the command, the length of the payload and the checksum. -/
def parseHeader (header magic : Bytes) : Except NetError (String × Nat × Bytes) := do
  raiseIf (header.length ≠ HEADER_SIZE)
    (.protocol s!"message header must be {HEADER_SIZE} bytes")
  raiseIf (header.take 4 ≠ magic) (.protocol "message is for a different network")
  let rawCommand := (((header.drop 4).take 12).reverse.dropWhile (· == 0)).reverse
  raiseIf ((rawCommand.any fun b => decide (128 ≤ b)) = true)
    (.protocol "command name is not ASCII")
  raiseIf ((rawCommand.any fun b => decide (b < 32 ∨ b = 127)) = true)
    (.protocol "command name contains control characters")
  let length := leNat ((header.drop 16).take 4)
  raiseIf (MAX_PAYLOAD < length) (.protocol s!"payload of {length} bytes is too large")
  pure (asciiString rawCommand, length, (header.drop 20).take 4)

end ScarletCoin
