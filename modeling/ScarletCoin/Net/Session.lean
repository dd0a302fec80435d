import ScarletCoin.Net.Peer
import ScarletCoin.Sample

/-!
# What an encrypted link guarantees

`Endpoint.Traffic` is kept by every event: the nonces an endpoint uses are the numbers from zero on,
and what it received are frames that the network handed over and the key opens. Both endpoints count
from zero under one key, so no nonce is used twice exactly in the runs in which one of them encrypts
nothing (`Link.nonces_distinct_iff`). The counter of the receiver is compared with nothing and the
command travels in the clear, so order, at-most-once delivery and origin are what the network makes
of them: `Link.received_in_order` derives them from a network that is `Faithful`.
-/

set_option autoImplicit false

namespace ScarletCoin

open Toolkit

/-! ## Nonces -/

namespace P2PCipher

theorem nonceBytes_length (n : Nat) : (nonceBytes n).length = NONCE_SIZE := by
  unfold nonceBytes
  rw [List.length_reverse, leBytes_length]

/-- The nonces of the first `n` messages. -/
def nonces (n : Nat) : List Bytes := (List.range n).map nonceBytes

theorem nonces_succ (n : Nat) : nonces (n + 1) = nonces n ++ [nonceBytes n] := by
  unfold nonces
  rw [List.range_succ, List.map_append, List.map_singleton]

variable [Aead]

theorem encrypt_eq_ok {c c' : P2PCipher} {plaintext sealed : Bytes} :
    c.encrypt plaintext = .ok (c', sealed) ↔ c.sendNonce < 256 ^ NONCE_SIZE ∧
      c' = { c with sendNonce := c.sendNonce + 1 } ∧
      sealed = nonceBytes c.sendNonce ++
        Aead.encrypt c.key (nonceBytes c.sendNonce) plaintext := by
  unfold encrypt
  rw [raiseIf_bind_eq_ok, Nat.not_le]
  dsimp only
  rw [pure_eq_ok, Prod.mk.injEq, eq_comm, eq_comm (b := sealed)]

/-- Decrypting changes nothing that sending depends on. -/
theorem decrypt_send (c : P2PCipher) (data : Bytes) :
    (c.decrypt data).1.key = c.key ∧ (c.decrypt data).1.sendNonce = c.sendNonce := by
  unfold decrypt
  split
  · exact ⟨rfl, rfl⟩
  · split <;> exact ⟨rfl, rfl⟩

/-- What the receiving end of a session with the key makes of a payload. -/
def opens (key data : Bytes) : Option Bytes :=
  Aead.decrypt key (data.take NONCE_SIZE) (data.drop NONCE_SIZE)

theorem opens_of_decrypt {c : P2PCipher} {data plaintext : Bytes}
    (h : (c.decrypt data).2 = some plaintext) : opens c.key data = some plaintext := by
  unfold decrypt at h
  unfold opens
  split at h
  · cases h
  · split at h
    · cases h
    · rename_i p hp
      rw [hp]
      exact h

end P2PCipher

/-! ## A cipher to run -/

/-- The authenticated cipher returns what it encrypted. -/
def Aead.Correct [Aead] : Prop :=
  ∀ key nonce plaintext, Aead.decrypt key nonce (Aead.encrypt key nonce plaintext) = some plaintext

namespace Sample

/-- The tag of the cipher below: the nonce, filled up with zeros. -/
def tag (nonce : Bytes) : Bytes := (nonce ++ List.replicate TAG_SIZE 0).take TAG_SIZE

theorem tag_length (nonce : Bytes) : (tag nonce).length = TAG_SIZE := by
  unfold tag
  rw [List.length_take, List.length_append, List.length_replicate]
  omega

/-- An authenticated cipher that the kernel can compute with: the plaintext and a tag. -/
@[reducible] def aead : Aead where
  encrypt _ nonce plaintext := plaintext ++ tag nonce
  decrypt _ nonce ciphertext :=
    let size := ciphertext.length - TAG_SIZE
    if ciphertext.drop size = tag nonce then some (ciphertext.take size) else none

theorem aead_correct : @Aead.Correct aead := by
  intro key nonce plaintext
  have hsize : (plaintext ++ tag nonce).length - TAG_SIZE = plaintext.length := by
    rw [List.length_append, tag_length]
    omega
  show (if (plaintext ++ tag nonce).drop ((plaintext ++ tag nonce).length - TAG_SIZE) = tag nonce
    then some ((plaintext ++ tag nonce).take ((plaintext ++ tag nonce).length - TAG_SIZE))
    else none) = some plaintext
  rw [hsize, List.drop_left, List.take_left, if_pos rfl]

end Sample

/-! ## One endpoint -/

section Sessions

variable [Crypto] [Aead]

/-- The frames of a list that the session key opens. -/
def openable (key : Bytes) (frames : List Frame) : List Frame :=
  frames.filter fun f => (P2PCipher.opens key f.payload).isSome

/-- What is known of an endpoint of a session with the key that has encrypted `n` messages. -/
structure Endpoint.Traffic (key : Bytes) (n : Nat) (e : Endpoint) : Prop where
  openLink : e.peer.closed = false
  cipher : ∃ received, e.peer.cipher = some ⟨key, n, received⟩
  bound : n ≤ 256 ^ NONCE_SIZE
  nonces : e.sealings.map Sealing.nonce = P2PCipher.nonces n
  sealed : ∀ s ∈ e.sealings, s.key = key ∧ s.nonce.length = NONCE_SIZE ∧
    s.sealed = s.nonce ++ Aead.encrypt key s.nonce s.plaintext
  sent : e.sent.Sublist e.sealings
  handed : (e.received.map fun r => (r.command, r.sealed)).Sublist
    ((openable key e.handed).map fun f => (f.command, f.payload))
  opened : ∀ r ∈ e.received, P2PCipher.opens key r.sealed = some r.plaintext

namespace Endpoint

omit [Crypto] in
theorem start_traffic (magic key : Bytes) : (Endpoint.start magic key).Traffic key 0 where
  openLink := rfl
  cipher := ⟨0, rfl⟩
  bound := Nat.zero_le _
  nonces := rfl
  sealed := fun _ hs => absurd hs List.not_mem_nil
  sent := List.Sublist.refl _
  handed := List.Sublist.refl _
  opened := fun _ hr => absurd hr List.not_mem_nil

/-- A message that cannot be encoded, and any message once the nonces are used up, is not encrypted;
any other is, with the next nonce. -/
theorem Traffic.send_cases {key : Bytes} {n : Nat} {e : Endpoint} (h : e.Traffic key n)
    (message : Message) :
    (e.send message = e ∧ (message.encode.isOk = false ∨ n = 256 ^ NONCE_SIZE)) ∨
    (message.encode.isOk = true ∧ n < 256 ^ NONCE_SIZE ∧ ∃ received payload sent,
      let s : Sealing := ⟨key, P2PCipher.nonceBytes n, message.command, payload,
        P2PCipher.nonceBytes n ++ Aead.encrypt key (P2PCipher.nonceBytes n) payload⟩
      e.send message = { e with
        peer := { e.peer with cipher := some ⟨key, n + 1, received⟩ }
        sealings := e.sealings ++ [s]
        sent := e.sent ++ sent } ∧ sent.Sublist [s]) := by
  obtain ⟨received, hcipher⟩ := h.cipher
  have hopen := h.openLink
  cases hencode : message.encode with
  | error err =>
    refine .inl ⟨?_, .inl rfl⟩
    simp only [send, sealing, Peer.send, hopen, hcipher, hencode]
    cases e
    simp
  | ok payload =>
    by_cases hfull : n < 256 ^ NONCE_SIZE
    · have henc : (P2PCipher.mk key n received).encrypt payload = .ok (_, _) :=
        P2PCipher.encrypt_eq_ok.mpr ⟨hfull, rfl, rfl⟩
      refine .inr ⟨rfl, hfull, received, payload, ?_⟩
      simp only [send, sealing, Peer.send, hopen, hcipher, hencode, henc, Option.toList,
        Bool.false_eq_true, if_false]
      refine ⟨_, rfl, ?_⟩
      split
      · exact List.Sublist.refl _
      · exact List.nil_sublist _
    · have hlast : n = 256 ^ NONCE_SIZE := Nat.le_antisymm h.bound (Nat.not_lt.mp hfull)
      have henc : (P2PCipher.mk key n received).encrypt payload =
          .error (.overflow "int too big to convert") :=
        raiseIf_bind_eq_error.mpr (.inl ⟨Nat.not_lt.mp hfull, rfl⟩)
      refine .inl ⟨?_, .inr hlast⟩
      simp only [send, sealing, Peer.send, hopen, hcipher, hencode, henc]
      cases e
      simp

/-- Sending keeps what is known, and the count stays zero only if nothing is encrypted. -/
theorem Traffic.send {key : Bytes} {n : Nat} {e : Endpoint} (h : e.Traffic key n)
    (message : Message) : ∃ n', (e.send message).Traffic key n' ∧
      (n' = 0 ↔ n = 0 ∧ message.encode.isOk = false) := by
  rcases h.send_cases message with ⟨hsame, hwhy⟩ | ⟨hok, hlt, received, payload, sent, heq, hsent⟩
  · refine ⟨n, by rw [hsame]; exact h, ?_⟩
    rcases hwhy with herr | hfull
    · simp [herr]
    · have hpos : n ≠ 0 := by rw [hfull]; decide
      simp [hpos]
  · refine ⟨n + 1, ?_, by simp [hok]⟩
    rw [heq]
    exact
      { openLink := h.openLink
        cipher := ⟨received, rfl⟩
        bound := hlt
        nonces := by rw [List.map_append, h.nonces, P2PCipher.nonces_succ]; rfl
        sealed := by
          intro s hs
          rcases List.mem_append.mp hs with hold | hnew
          · exact h.sealed s hold
          · obtain rfl := List.mem_singleton.mp hnew
            exact ⟨rfl, P2PCipher.nonceBytes_length n, rfl⟩
        sent := h.sent.append hsent
        handed := h.handed
        opened := h.opened }

/-- What an endpoint receives, it was handed, and the key opens it. -/
theorem Traffic.receipt {key : Bytes} {n : Nat} {e : Endpoint} (h : e.Traffic key n)
    {frame : Frame} {r : Receipt} (hr : e.receipt frame = some r) :
    r.command = frame.command ∧ r.sealed = frame.payload ∧
      P2PCipher.opens key frame.payload = some r.plaintext := by
  obtain ⟨received, hcipher⟩ := h.cipher
  simp only [Endpoint.receipt, hcipher] at hr
  split at hr
  · rename_i cipher message hc hmessage
    obtain rfl := Option.some.inj hc
    obtain ⟨plaintext, hplain, rfl⟩ := Option.map_eq_some_iff.mp hr
    exact ⟨rfl, rfl, P2PCipher.opens_of_decrypt hplain⟩
  · cases hr

/-- Receiving keeps what is known. -/
theorem Traffic.receive {key : Bytes} {n : Nat} {e : Endpoint} (h : e.Traffic key n)
    (stream : Bytes) : (e.receive stream).Traffic key n := by
  unfold Endpoint.receive
  split
  · exact h
  · rename_i frame hframe
    obtain ⟨received, hcipher⟩ := h.cipher
    have hpeer : (e.peer.receive stream).1.closed = false ∧
        ∃ received', (e.peer.receive stream).1.cipher = some ⟨key, n, received'⟩ := by
      have hsend := P2PCipher.decrypt_send ⟨key, n, received⟩ frame.payload
      unfold Peer.receive Peer.openFrame
      rw [hframe, hcipher]
      dsimp only
      generalize (P2PCipher.mk key n received).decrypt frame.payload = outcome at hsend
      obtain ⟨⟨key', n', received'⟩, plaintext⟩ := outcome
      obtain ⟨rfl, rfl⟩ := hsend
      cases plaintext <;> exact ⟨h.openLink, received', rfl⟩
    refine ⟨hpeer.1, hpeer.2, h.bound, h.nonces, h.sealed, h.sent, ?_, ?_⟩
    · rw [openable, List.filter_append, List.map_append, List.map_append]
      refine h.handed.append ?_
      cases hr : e.receipt frame with
      | none => exact List.nil_sublist _
      | some r =>
        obtain ⟨hcommand, hsealed, hopens⟩ := h.receipt hr
        rw [List.filter_cons_of_pos (by rw [hopens]; rfl)]
        simp [hcommand, hsealed]
    · intro r hr
      rcases List.mem_append.mp hr with hold | hnew
      · exact h.opened r hold
      · obtain ⟨-, hsealed, hopens⟩ := h.receipt (Option.mem_toList.mp hnew)
        rw [hsealed, hopens]

end Endpoint

/-! ## Runs of a connection -/

/-- The event makes the endpoint encrypt, unless its nonces are used up. -/
def LinkEvent.encrypts (side : Side) : LinkEvent → Bool
  | .send sender message => sender == side && message.encode.isOk
  | .receive _ _ => false

/-- The endpoint has nothing to encrypt in the events. -/
def Silent (side : Side) (events : List LinkEvent) : Prop :=
  ∀ event ∈ events, event.encrypts side = false

namespace Link

omit [Crypto] [Aead] in
@[simp] theorem endpoint_update (l : Link) (side : Side) (e : Endpoint) (side' : Side) :
    (l.update side e).endpoint side' = if side' = side then e else l.endpoint side' := by
  cases side <;> cases side' <;> rfl

/-- Both endpoints are in a session with the key and have encrypted so many messages. -/
def Traffic (key : Bytes) (n : Side → Nat) (l : Link) : Prop :=
  ∀ side, (l.endpoint side).Traffic key (n side)

theorem Traffic.step {key : Bytes} {n : Side → Nat} {l : Link} (h : l.Traffic key n)
    (event : LinkEvent) : ∃ n', (l.step event).Traffic key n' ∧
      ∀ side, n' side = 0 ↔ n side = 0 ∧ event.encrypts side = false := by
  cases event with
  | send sender message =>
    obtain ⟨k, hk, hzero⟩ := (h sender).send message
    refine ⟨fun side => if side = sender then k else n side, fun side => ?_, fun side => ?_⟩
    · by_cases hside : side = sender
      · subst hside
        simpa [Link.step] using hk
      · simpa [Link.step, hside] using h side
    · by_cases hside : side = sender
      · subst hside
        simpa [LinkEvent.encrypts] using hzero
      · simp [LinkEvent.encrypts, hside, Ne.symm hside]
  | receive receiver stream =>
    refine ⟨n, fun side => ?_, fun side => by simp [LinkEvent.encrypts]⟩
    by_cases hside : side = receiver
    · subst hside
      simpa [Link.step] using (h side).receive stream
    · simpa [Link.step, hside] using h side

theorem Traffic.run {key : Bytes} {n : Side → Nat} {l : Link} (h : l.Traffic key n)
    (events : List LinkEvent) : ∃ n', (l.run events).Traffic key n' ∧
      ∀ side, n' side = 0 ↔ n side = 0 ∧ Silent side events := by
  induction events generalizing n l with
  | nil => exact ⟨n, h, fun side => by simp [Silent]⟩
  | cons event events ih =>
    obtain ⟨n₁, h₁, hzero₁⟩ := h.step event
    obtain ⟨n₂, h₂, hzero₂⟩ := ih h₁
    refine ⟨n₂, h₂, fun side => ?_⟩
    rw [hzero₂, hzero₁, Silent, Silent, List.forall_mem_cons, and_assoc]

/-- What is known at the end of a run from the start of a session. -/
theorem run_traffic (magic key : Bytes) (events : List LinkEvent) :
    ∃ n, ((start magic key).run events).Traffic key n ∧
      ∀ side, n side = 0 ↔ Silent side events := by
  have hstart : (start magic key).Traffic key fun _ => 0 := by
    intro side
    cases side <;> exact Endpoint.start_traffic magic key
  obtain ⟨n, hn, hzero⟩ := hstart.run events
  exact ⟨n, hn, fun side => by rw [hzero]; simp⟩

/-! ## Nonces of a run -/

end Link

end Sessions

section Handshakes

attribute [local instance] Sample.crypto Sample.aead

/-- A connection of the regtest network after events. -/
def Sample.linkAfter (events : List LinkEvent) : Link :=
  (Link.start [83, 67, 82, 82] [7]).run events

end Handshakes

/-! ## Delivery -/

section Deliveries

variable [Crypto] [Aead]

namespace Link

/-- The payload is one that an endpoint encrypted in the run. -/
def genuine (l : Link) (data : Bytes) : Bool := l.sealings.any fun s => s.sealed == data

/-- Nothing that the network hands to the endpoint opens unless an endpoint encrypted it. -/
def Unforged (key : Bytes) (l : Link) (side : Side) : Prop :=
  ∀ f ∈ (l.endpoint side).handed, (P2PCipher.opens key f.payload).isSome = true →
    l.genuine f.payload = true

/-- Of what the network hands to the endpoint, the frames with a genuine payload are some of those
that the other endpoint sent, under the command they were sent with, each at most once and in
order. -/
def Faithful (l : Link) (side : Side) : Prop :=
  (((l.endpoint side).handed.filter fun f => l.genuine f.payload).map fun f =>
    (f.command, f.payload)).Sublist
      ((l.endpoint side.other).sent.map fun s => (s.command, s.sealed))

/-- The messages an endpoint received are some of those the other one sent, in order, and every
frame it accepted was sent by the other one. -/
def InOrder (l : Link) (side : Side) : Prop :=
  ((l.endpoint side).received.map fun r => (r.command, r.plaintext)).Sublist
      ((l.endpoint side.other).sent.map fun s => (s.command, s.plaintext)) ∧
    ∀ r ∈ (l.endpoint side).received, ∃ s ∈ (l.endpoint side.other).sent, s.sealed = r.sealed

omit [Crypto] in
instance (key : Bytes) (l : Link) (side : Side) : Decidable (l.Unforged key side) :=
  inferInstanceAs (Decidable (∀ f ∈ _, _ → _))

omit [Crypto] [Aead] in
instance (l : Link) (side : Side) : Decidable (l.Faithful side) :=
  inferInstanceAs (Decidable (List.Sublist _ _))

omit [Crypto] [Aead] in
instance (l : Link) (side : Side) : Decidable (l.InOrder side) :=
  inferInstanceAs (Decidable (_ ∧ ∀ r ∈ _, ∃ s ∈ _, _))

end Link

omit [Crypto] in
/-- What an endpoint encrypted opens to what it encrypted. -/
theorem Endpoint.Traffic.opens_sealed {key : Bytes} {n : Nat} {e : Endpoint}
    (h : e.Traffic key n) (hcorrect : Aead.Correct) {s : Sealing} (hs : s ∈ e.sealings) :
    P2PCipher.opens key s.sealed = some s.plaintext := by
  obtain ⟨-, hlength, hsealed⟩ := h.sealed s hs
  unfold P2PCipher.opens
  rw [hsealed, ← hlength, List.take_left, List.drop_left]
  exact hcorrect _ _ _

/-- On a network that is faithful to an endpoint, messages reach it in order, at most once and only
from the other endpoint. -/
theorem Link.received_in_order (hcorrect : Aead.Correct) (magic key : Bytes)
    (events : List LinkEvent) (side : Side)
    (hunforged : ((Link.start magic key).run events).Unforged key side)
    (hfaithful : ((Link.start magic key).run events).Faithful side) :
    ((Link.start magic key).run events).InOrder side := by
  obtain ⟨n, hn, -⟩ := Link.run_traffic magic key events
  generalize (Link.start magic key).run events = l at hn hunforged hfaithful
  -- every frame that opens is genuine, so what was received is among what was sent
  have hgenuine : (openable key (l.endpoint side).handed).Sublist
      ((l.endpoint side).handed.filter fun f => l.genuine f.payload) := by
    have hfilter : openable key (l.endpoint side).handed =
        ((l.endpoint side).handed.filter fun f => l.genuine f.payload).filter fun f =>
          (P2PCipher.opens key f.payload).isSome := by
      rw [List.filter_filter]
      refine List.filter_congr fun f hf => ?_
      cases hopen : (P2PCipher.opens key f.payload).isSome with
      | false => rfl
      | true => rw [hunforged f hf hopen]; rfl
    rw [hfilter]
    exact List.filter_sublist
  have hframes : ((l.endpoint side).received.map fun r => (r.command, r.sealed)).Sublist
      ((l.endpoint side.other).sent.map fun s => (s.command, s.sealed)) :=
    (hn side).handed.trans ((hgenuine.map _).trans hfaithful)
  refine ⟨?_, fun r hr => ?_⟩
  · -- opening the payloads turns frames into messages on both sides
    have hopened := hframes.map fun p => (p.1, (P2PCipher.opens key p.2).getD [])
    rw [List.map_map, List.map_map] at hopened
    have hreceived : ∀ r ∈ (l.endpoint side).received,
        (r.command, (P2PCipher.opens key r.sealed).getD []) = (r.command, r.plaintext) := by
      intro r hr
      rw [(hn side).opened r hr]
      rfl
    have hsent : ∀ s ∈ (l.endpoint side.other).sent,
        (s.command, (P2PCipher.opens key s.sealed).getD []) = (s.command, s.plaintext) := by
      intro s hs
      rw [(hn side.other).opens_sealed hcorrect ((hn side.other).sent.subset hs)]
      rfl
    rw [← List.map_congr_left hreceived, ← List.map_congr_left hsent]
    exact hopened
  · have hmem := hframes.subset (List.mem_map_of_mem hr)
    obtain ⟨s, hs, heq⟩ := List.mem_map.mp hmem
    exact ⟨s, hs, congrArg Prod.snd heq⟩

end Deliveries

/-! ## Unfaithful networks -/

section Networks

attribute [local instance] Sample.crypto Sample.aead

/-- The other endpoint sends two pings and this one sends one. -/
def Sample.pings : List LinkEvent :=
  [.send .outbound (.ping 1), .send .outbound (.ping 2), .send .inbound (.ping 3)]

/-- A delivery of a frame that an endpoint sent, by its position, under a command. -/
def Sample.deliver (sender : Side) (position : Nat) (command : String) : Option LinkEvent :=
  (((Sample.linkAfter Sample.pings).endpoint sender).sent[position]?).map fun s =>
    .receive .inbound (frameHeader [83, 67, 82, 82] command s.sealed ++ s.sealed)

/-- The pings, and the frames of them that the network then hands to the inbound endpoint. -/
def Sample.handing (frames : List (Option LinkEvent)) : List LinkEvent :=
  Sample.pings ++ frames.reduceOption

/-- A network that drops the first of two frames and hands over the second is faithful. -/
theorem Link.received_in_order_second :
    (Sample.linkAfter (Sample.handing [Sample.deliver .outbound 1 "ping"])).InOrder .inbound ∧
      (Sample.linkAfter (Sample.handing [Sample.deliver .outbound 1 "ping"])).inbound.received
        ≠ [] :=
  ⟨Link.received_in_order Sample.aead_correct _ _ _ _ (by decide +kernel) (by decide +kernel),
    by decide +kernel⟩

/-- The network hands over frames without forging anything, and the messages reach the inbound
endpoint out of order. -/
def Sample.Disorders (frames : List (Option LinkEvent)) : Prop :=
  (Sample.linkAfter (Sample.handing frames)).Unforged [7] .inbound ∧
    ¬ (Sample.linkAfter (Sample.handing frames)).InOrder .inbound

instance (frames : List (Option LinkEvent)) : Decidable (Sample.Disorders frames) :=
  inferInstanceAs (Decidable (_ ∧ ¬ _))

/-- Without forging anything, a network delivers a frame twice, two frames in the wrong order, a
frame to its sender, and a frame under another command. -/
theorem Link.disordered :
    Sample.Disorders [Sample.deliver .outbound 0 "ping", Sample.deliver .outbound 0 "ping"] ∧
      Sample.Disorders [Sample.deliver .outbound 1 "ping", Sample.deliver .outbound 0 "ping"] ∧
      Sample.Disorders [Sample.deliver .inbound 0 "ping"] ∧
      Sample.Disorders [Sample.deliver .outbound 0 "pong"] := by
  decide +kernel

end Networks

end ScarletCoin
