import ScarletCoin.Toolkit.Table
import Mathlib.Data.List.Sort
import Mathlib.Algebra.Order.Ring.Rat

/-!
# Known peers and bans

The address book of `net/addrbook.py`, and the parts of `net/node.py` that write to it: inbound and
outbound connections, the misbehaviour of peers, and gossiped addresses. Times are seconds, as
rational numbers; an operation reads the clock once. What a dialled address answers is an argument,
and the file that the entries are kept in is left out.
-/

set_option autoImplicit false

namespace ScarletCoin

open Toolkit

/-! ## The address book -/

/-- Give up on an address after this many consecutive failures. -/
def MAX_FAILURES : Nat := 10

/-- Forget addresses that were not heard from in a month. -/
def STALE_AFTER : ℚ := 30 * 24 * 3600

/-- One known address, and how the attempts to reach it went. -/
structure AddressEntry where
  host : String
  port : Nat
  lastSeen : Int
  lastTry : Int
  failures : Nat
  source : String
  deriving DecidableEq

/-- Identity of the entry. -/
def AddressEntry.key (entry : AddressEntry) : String × Nat := (entry.host, entry.port)

/-- Known addresses in the order they were added, and until when hosts are banned. -/
structure AddressBook where
  entries : List AddressEntry
  banned : Table String ℚ

namespace AddressBook

/-- Change the entry of an address, which is added first if there is none. -/
def update (book : AddressBook) (host : String) (port : Nat)
    (change : AddressEntry → AddressEntry) : AddressBook :=
  let entries :=
    if book.entries.any fun entry => entry.key == (host, port) then book.entries
    else book.entries ++ [⟨host, port, 0, 0, 0, "gossip"⟩]
  { book with entries := entries.map fun entry =>
      if entry.key = (host, port) then change entry else entry }

/-- Record an address, keeping the newest `lastSeen`. -/
def add (book : AddressBook) (now : ℚ) (host : String) (port : Nat) (source : String)
    (lastSeen : Int) : AddressBook :=
  if book.entries.any fun entry => entry.key == (host, port) then
    book.update host port fun entry => { entry with lastSeen := max entry.lastSeen lastSeen }
  else
    let lastSeen := if lastSeen = 0 then now.floor else lastSeen
    { book with entries := book.entries ++ [⟨host, port, lastSeen, 0, 0, source⟩] }

/-- Drop one address, without banning the host. -/
def forget (book : AddressBook) (host : String) (port : Nat) : AddressBook :=
  { book with entries := book.entries.filter fun entry => entry.key ≠ (host, port) }

/-- Record a successful connection. -/
def markSuccess (book : AddressBook) (now : ℚ) (host : String) (port : Nat) : AddressBook :=
  book.update host port fun entry =>
    { entry with lastSeen := now.floor, lastTry := now.floor, failures := 0 }

/-- Record a failed connection attempt. -/
def markFailure (book : AddressBook) (now : ℚ) (host : String) (port : Nat) : AddressBook :=
  let book := book.update host port fun entry =>
    { entry with lastTry := now.floor, failures := entry.failures + 1 }
  if book.entries.any fun entry => entry.key == (host, port) &&
    decide (MAX_FAILURES ≤ entry.failures)
  then book.forget host port
  else book

/-- Refuse connections from a host for a while. -/
def ban (book : AddressBook) (now : ℚ) (host : String) (seconds : ℚ) : AddressBook :=
  { entries := book.entries.filter fun entry => entry.host ≠ host
    banned := book.banned.insert host (now + seconds) }

/-- Whether the host is banned. A ban that is over is forgotten. -/
def isBanned (book : AddressBook) (now : ℚ) (host : String) : Bool × AddressBook :=
  match book.banned.lookup host with
  | none => (false, book)
  | some expiry =>
      if expiry < now then (false, { book with banned := book.banned.erase host }) else (true, book)

/-- Drop addresses that were not heard from in a long time. -/
def prune (book : AddressBook) (now : ℚ) : AddressBook :=
  { book with entries := book.entries.filter fun entry =>
      !(entry.source != "seed" && entry.lastSeen != 0 &&
        decide ((entry.lastSeen : ℚ) < now - STALE_AFTER)) }

/-- What `candidates` does with one entry. -/
def consider (now : ℚ) (exclude : List (String × Nat)) (retryDelay : ℚ)
    (found : List AddressEntry × AddressBook) (entry : AddressEntry) :
    List AddressEntry × AddressBook :=
  if entry.key ∈ exclude then found
  else
    let (banned, book) := found.2.isBanned now entry.host
    if !banned && decide (retryDelay * (entry.failures + 1) ≤ now - entry.lastTry) then
      (found.1 ++ [entry], book)
    else (found.1, book)

/-- Addresses worth trying now, most promising first. -/
def candidates (book : AddressBook) (now : ℚ) (exclude : List (String × Nat)) (retryDelay : ℚ) :
    List AddressEntry × AddressBook :=
  let (options, book) := book.entries.foldl (consider now exclude retryDelay) ([], book)
  (options.insertionSort fun a b =>
    a.failures < b.failures ∨ (a.failures = b.failures ∧ b.lastSeen ≤ a.lastSeen), book)

end AddressBook

/-! ## The gate of a node -/

/-- Points of misbehaviour from which on a peer is banned. -/
def BAN_THRESHOLD : Nat := 100

/-- A host that connects this many times within the window is banned. -/
def RECONNECT_THRESHOLD : Nat := 10

/-- The window for counting rapid reconnects. -/
def RECONNECT_WINDOW : ℚ := 60

/-- Longest ban for rapid reconnects. -/
def MAX_RECONNECT_BAN : ℚ := 3600

/-- Duration of a ban for misbehaviour, after which the peer may reconnect. -/
def MISBEHAVIOUR_BAN_DURATION : ℚ := 86400

/-- Delay between two attempts to reach an address. -/
def RETRY_DELAY : ℚ := 60

/-- What a node keeps of a connected peer here. -/
structure GatePeer where
  id : Nat
  host : String
  inbound : Bool
  misbehaviour : Nat
  deriving DecidableEq

/-- The state behind bans: the address book, the times of recent inbound connections, and the
peers. -/
structure Gate where
  addrbook : AddressBook
  connectHistory : Table String (List ℚ)
  peers : List GatePeer
  nextId : Nat

/-- What dialling an address comes to. -/
inductive Dial where
  | alreadyConnected
  | own
  | unreachable
  | connected

/-- The operations on the gate of a node. -/
inductive GateOp where
  /-- A turn of the accept loop with a connection from a host. -/
  | accept (host : String)
  /-- `connect_peer`. -/
  | connect (host : String) (port : Nat) (outcome : Dial)
  /-- The choice of addresses in the connect loop. -/
  | seek (exclude : List (String × Nat))
  /-- `_misbehave`, for a connected peer. -/
  | misbehave (peer : Nat) (points : Nat)
  /-- `_unregister`. -/
  | unregister (peer : Nat)
  /-- An address from gossip, a handshake, a seed or the configuration. -/
  | learn (host : String) (port : Nat) (source : String) (lastSeen : Int)
  | forget (host : String) (port : Nat)
  | isBanned (host : String)
  | prune

namespace Gate

/-- A node that starts with the entries of its file. Bans are not kept there. -/
def start (entries : List AddressEntry) : Gate := ⟨⟨entries, ∅⟩, ∅, [], 0⟩

/-- Add a peer. -/
def register (g : Gate) (host : String) (inbound : Bool) : Gate :=
  { g with peers := g.peers ++ [⟨g.nextId, host, inbound, 0⟩], nextId := g.nextId + 1 }

/-- The connections of a host within the window, with the one that is made now. -/
def recentConnects (g : Gate) (now : ℚ) (host : String) : List ℚ :=
  ((g.connectHistory.lookup host).getD [] ++ [now]).filter fun t => now - t < RECONNECT_WINDOW

/-- How long a host is banned for that many connections. -/
def reconnectBan (recent : Nat) : ℚ :=
  min MAX_RECONNECT_BAN (60 * ((recent : ℚ) - RECONNECT_THRESHOLD + 1))

/-- Ban hosts that repeatedly connect and disconnect in a short window; whether this one is. -/
def checkReconnectBan (g : Gate) (now : ℚ) (host : String) : Bool × Gate :=
  let recent := g.recentConnects now host
  if recent.length < RECONNECT_THRESHOLD then
    (false, { g with connectHistory := g.connectHistory.insert host recent })
  else
    (true, { g with
      addrbook := g.addrbook.ban now host (reconnectBan recent.length)
      connectHistory := g.connectHistory.erase host })

/-- A turn of the accept loop. -/
def accept (maxInbound : Nat) (g : Gate) (now : ℚ) (host : String) : Gate :=
  let (refused, g) := g.checkReconnectBan now host
  if refused then g
  else
    let (banned, book) := g.addrbook.isBanned now host
    let g := { g with addrbook := book }
    if banned then g
    else if maxInbound ≤ (g.peers.filter GatePeer.inbound).length then g
    else g.register host true

/-- Open an outbound connection. -/
def connectPeer (g : Gate) (now : ℚ) (host : String) (port : Nat) (outcome : Dial) : Gate :=
  let (banned, book) := g.addrbook.isBanned now host
  let g := { g with addrbook := book }
  if banned then g
  else
    match outcome with
    | .alreadyConnected => g
    | .own => { g with addrbook := g.addrbook.forget host port }
    | .unreachable => { g with addrbook := g.addrbook.markFailure now host port }
    | .connected => { g with addrbook := g.addrbook.markSuccess now host port }.register host false

/-- Count points against a peer, and ban its host from the threshold on. -/
def misbehave (g : Gate) (now : ℚ) (id points : Nat) : Gate :=
  match g.peers.find? fun peer => peer.id == id with
  | none => g
  | some peer =>
      let g := { g with peers := g.peers.map fun p =>
        if p.id = id then { p with misbehaviour := p.misbehaviour + points } else p }
      if BAN_THRESHOLD ≤ peer.misbehaviour + points then
        { g with addrbook := g.addrbook.ban now peer.host MISBEHAVIOUR_BAN_DURATION }
      else g

/-- One operation at a time. -/
def step (maxInbound : Nat) (g : Gate) (now : ℚ) : GateOp → Gate
  | .accept host => g.accept maxInbound now host
  | .connect host port outcome => g.connectPeer now host port outcome
  | .seek exclude => { g with addrbook := (g.addrbook.candidates now exclude RETRY_DELAY).2 }
  | .misbehave id points => g.misbehave now id points
  | .unregister id => { g with peers := g.peers.filter fun peer => peer.id ≠ id }
  | .learn host port source lastSeen =>
      { g with addrbook := g.addrbook.add now host port source lastSeen }
  | .forget host port => { g with addrbook := g.addrbook.forget host port }
  | .isBanned host => { g with addrbook := (g.addrbook.isBanned now host).2 }
  | .prune => { g with addrbook := g.addrbook.prune now }

/-- Operations one after another, each at its time. -/
def run (maxInbound : Nat) (g : Gate) (ops : List (ℚ × GateOp)) : Gate :=
  ops.foldl (fun g op => g.step maxInbound op.1 op.2) g

end Gate

end ScarletCoin
