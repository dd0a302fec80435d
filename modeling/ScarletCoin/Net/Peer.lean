import ScarletCoin.Net.Protocol

/-!
# Encrypted links

The cipher of `net/cipher.py` and the traffic of a connection of `net/peer.py`. The authenticated
cipher is library code; the class `Aead` takes it as a parameter.

`Link` is a connection between two endpoints that hold one session key, with the record of what each
of them encrypted, sent, was handed by the network and received. The network is not modelled as a
channel: it hands each call of `receive` any bytes it likes, so a run covers delays, losses, changes
of order, repetitions, reflections, alterations and injections.
-/

set_option autoImplicit false

namespace ScarletCoin

open Toolkit

/-! ## The cipher -/

/-- Length of a nonce. -/
def NONCE_SIZE : Nat := 12

/-- Length of an authentication tag. -/
def TAG_SIZE : Nat := 16

/-- `ChaCha20Poly1305` of the `cryptography` package, without associated data. -/
class Aead where
  /-- `ChaCha20Poly1305(key).encrypt(nonce, plaintext, None)`. -/
  encrypt : Bytes → Bytes → Bytes → Bytes
  /-- `ChaCha20Poly1305(key).decrypt(nonce, ciphertext, None)`; `none` for an invalid tag. -/
  decrypt : Bytes → Bytes → Bytes → Option Bytes

/-- The ciphers of the two directions, which have one key, and their counters. -/
structure P2PCipher where
  key : Bytes
  sendNonce : Nat
  recvNonce : Nat
  deriving DecidableEq

namespace P2PCipher

/-- The cipher of a new session. -/
def start (key : Bytes) : P2PCipher := ⟨key, 0, 0⟩

/-- `value.to_bytes(NONCE_SIZE, "big")`, for values below `2 ^ 96`. -/
def nonceBytes (value : Nat) : Bytes := (leBytes NONCE_SIZE value).reverse

variable [Aead]

/-- Encrypt one outgoing message. -/
def encrypt (c : P2PCipher) (plaintext : Bytes) : Except PyError (P2PCipher × Bytes) := do
  raiseIf (256 ^ NONCE_SIZE ≤ c.sendNonce) (.overflow "int too big to convert")
  let nonce := nonceBytes c.sendNonce
  pure ({ c with sendNonce := c.sendNonce + 1 }, nonce ++ Aead.encrypt c.key nonce plaintext)

/-- Decrypt one incoming message. -/
def decrypt (c : P2PCipher) (ciphertext : Bytes) : P2PCipher × Option Bytes :=
  if ciphertext.length < NONCE_SIZE + TAG_SIZE then
    (c, none)
  else
    match Aead.decrypt c.key (ciphertext.take NONCE_SIZE) (ciphertext.drop NONCE_SIZE) with
    | none => (c, none)
    | some plaintext => ({ c with recvNonce := c.recvNonce + 1 }, some plaintext)

end P2PCipher

/-! ## One end of a connection -/

/-- What the traffic of a connection depends on. -/
structure Peer where
  magic : Bytes
  cipher : Option P2PCipher
  closed : Bool

/-- The command and the payload of a frame, and the checksum its header claims. -/
structure Frame where
  command : String
  payload : Bytes
  checksum : Bytes
  deriving DecidableEq

namespace Peer

/-- Turn on link encryption with the shared session key. -/
def enableEncryption (p : Peer) (key : Bytes) : Peer := { p with cipher := some (.start key) }

/-- The part of `receive` that reads from the socket: a header, and as many bytes as it announces. A
stream that ends too early is a connection that was lost. -/
def readFrame (p : Peer) (stream : Bytes) : Except NetError Frame := do
  raiseIf (stream.length < HEADER_SIZE) (.disconnected "connection closed by the remote end")
  let (command, length, checksum) ← parseHeader (stream.take HEADER_SIZE) p.magic
  let rest := stream.drop HEADER_SIZE
  raiseIf (rest.length < length) (.disconnected "connection closed by the remote end")
  pure ⟨command, rest.take length, checksum⟩

variable [Crypto] [Aead]

/-- Send a message; the answer is what goes out on the socket. The counter of the cipher has moved
also when the frame turns out to be too large. -/
def send (p : Peer) (message : Message) : Peer × Except NetError Bytes :=
  if p.closed then (p, .error (.disconnected "the connection is closed"))
  else
    match message.encode with
    | .error e => (p, .error e)
    | .ok payload =>
        match p.cipher with
        | none => (p, encodePayload p.magic message.command payload)
        | some cipher =>
            match cipher.encrypt payload with
            | .error e => (p, .error (.python e))
            | .ok (cipher', sealed) =>
                ({ p with cipher := some cipher' }, encodePayload p.magic message.command sealed)

/-- Decrypt the payload of a frame if the link is encrypted, and decode it. -/
def openFrame (p : Peer) (frame : Frame) : Peer × Except NetError (Option Message) :=
  match p.cipher with
  | none => (p, decodePayload frame.command frame.payload (some frame.checksum))
  | some cipher =>
      match cipher.decrypt frame.payload with
      | (cipher', none) =>
          ({ p with cipher := some cipher' },
            .error (.protocol "cannot decrypt message (forged or replayed)"))
      | (cipher', some plaintext) =>
          ({ p with cipher := some cipher' }, decodePayload frame.command plaintext none)

/-- Read one message. -/
def receive (p : Peer) (stream : Bytes) : Peer × Except NetError (Option Message) :=
  match p.readFrame stream with
  | .error e => (p, .error e)
  | .ok frame => p.openFrame frame

end Peer

/-! ## The two ends of a connection -/

/-- The two endpoints of a connection. -/
inductive Side where
  | inbound
  | outbound
  deriving DecidableEq, Repr

/-- The opposite endpoint. -/
def Side.other : Side → Side
  | inbound => outbound
  | outbound => inbound

/-- One call of `P2PCipher.encrypt`: the key and the nonce it used, the message it was for, and what
it returned. -/
structure Sealing where
  key : Bytes
  nonce : Bytes
  command : String
  plaintext : Bytes
  sealed : Bytes
  deriving DecidableEq

/-- A message that `receive` returned, with the plaintext it was decoded from and the payload of the
frame it came in. -/
structure Receipt where
  command : String
  plaintext : Bytes
  sealed : Bytes
  deriving DecidableEq

/-- An endpoint with what it encrypted, what it sent, the frames it was handed and what it received,
each in the order of events. -/
structure Endpoint where
  peer : Peer
  sealings : List Sealing
  sent : List Sealing
  handed : List Frame
  received : List Receipt

namespace Endpoint

variable [Crypto] [Aead]

/-- An endpoint right after encryption was turned on. -/
def start (magic key : Bytes) : Endpoint :=
  ⟨(Peer.mk magic none false).enableEncryption key, [], [], [], []⟩

/-- The encryption that sending a message makes, if any. -/
def sealing (e : Endpoint) (message : Message) : Option Sealing :=
  if e.peer.closed then none
  else
    match e.peer.cipher, message.encode with
    | some cipher, .ok payload =>
        match cipher.encrypt payload with
        | .ok (_, sealed) => some
            ⟨cipher.key, P2PCipher.nonceBytes cipher.sendNonce, message.command, payload, sealed⟩
        | .error _ => none
    | _, _ => none

/-- Send a message. -/
def send (e : Endpoint) (message : Message) : Endpoint :=
  let made := (e.sealing message).toList
  let (peer, outcome) := e.peer.send message
  { e with
    peer := peer
    sealings := e.sealings ++ made
    sent := e.sent ++ if outcome.isOk then made else [] }

/-- The receipt for a frame, if `receive` returns a message for it. -/
def receipt (e : Endpoint) (frame : Frame) : Option Receipt :=
  match e.peer.cipher, (e.peer.openFrame frame).2 with
  | some cipher, .ok (some _) =>
      (cipher.decrypt frame.payload).2.map fun plaintext =>
        ⟨frame.command, plaintext, frame.payload⟩
  | _, _ => none

/-- Read one message from the bytes that the network hands over. -/
def receive (e : Endpoint) (stream : Bytes) : Endpoint :=
  match e.peer.readFrame stream with
  | .error _ => e
  | .ok frame =>
      { e with
        peer := (e.peer.receive stream).1
        handed := e.handed ++ [frame]
        received := e.received ++ (e.receipt frame).toList }

end Endpoint

/-- A connection. -/
structure Link where
  inbound : Endpoint
  outbound : Endpoint

/-- An event on a connection: an endpoint sends a message, or reads bytes the network hands it. -/
inductive LinkEvent where
  | send (side : Side) (message : Message)
  | receive (side : Side) (stream : Bytes)

namespace Link

/-- The endpoint on one side. -/
def endpoint (l : Link) : Side → Endpoint
  | .inbound => l.inbound
  | .outbound => l.outbound

/-- Replace the endpoint on one side. -/
def update (l : Link) (side : Side) (e : Endpoint) : Link :=
  match side with
  | .inbound => { l with inbound := e }
  | .outbound => { l with outbound := e }

variable [Crypto] [Aead]

/-- A connection whose endpoints have derived the session key. -/
def start (magic key : Bytes) : Link := ⟨.start magic key, .start magic key⟩

/-- The connection after an event. -/
def step (l : Link) : LinkEvent → Link
  | .send side message => l.update side ((l.endpoint side).send message)
  | .receive side stream => l.update side ((l.endpoint side).receive stream)

/-- The connection after a sequence of events. -/
def run (l : Link) (events : List LinkEvent) : Link := events.foldl step l

/-- Everything either endpoint has encrypted. -/
def sealings (l : Link) : List Sealing := l.inbound.sealings ++ l.outbound.sealings

end Link

end ScarletCoin
