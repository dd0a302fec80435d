import ScarletCoin.Net.AddressBook

/-!
# How long bans last

A step leaves the ban of a host as it is, forgets it once it is over, or writes a new one
(`Gate.step_bannedUntil`). A ban for misbehaviour ends later than any other, since no ban is longer
(`Gate.BansBounded`). A ban for rapid reconnects is written over a ban that is still running,
whatever its end; as long as no such ban ends earlier than the one it replaces, bans last
(`Gate.bansHold_iff`).
-/

set_option autoImplicit false

namespace ScarletCoin

open Toolkit

namespace AddressBook

/-- Until when a host is banned, if it is. -/
def bannedUntil (book : AddressBook) (host : String) : Option ℚ := book.banned.lookup host

/-- The bans are the same but for some that are over. -/
def Expires (now : ℚ) (book book' : AddressBook) : Prop :=
  ∀ host, book'.bannedUntil host = book.bannedUntil host ∨
    (book'.bannedUntil host = none ∧ ∃ expiry, book.bannedUntil host = some expiry ∧ expiry < now)

theorem Expires.refl (now : ℚ) (book : AddressBook) : Expires now book book := fun _ => .inl rfl

theorem Expires.trans {now : ℚ} {a b c : AddressBook} (hab : Expires now a b)
    (hbc : Expires now b c) : Expires now a c := by
  intro host
  rcases hbc host with hsame | ⟨hnone, expiry, hexpiry, hover⟩
  · rw [hsame]
    exact hab host
  · rcases hab host with hsame' | ⟨hnone', -⟩
    · exact .inr ⟨hnone, expiry, hsame' ▸ hexpiry, hover⟩
    · rw [hnone'] at hexpiry
      cases hexpiry

/-- Changes of the entries do not matter. -/
theorem Expires.of_banned {now : ℚ} {book book' : AddressBook} (h : book'.banned = book.banned) :
    Expires now book book' := fun host => .inl (by rw [bannedUntil, bannedUntil, h])

theorem isBanned_expires (book : AddressBook) (now : ℚ) (host : String) :
    Expires now book (book.isBanned now host).2 := by
  unfold isBanned
  cases hban : book.banned.lookup host with
  | none => exact .refl now book
  | some expiry =>
    dsimp only
    split
    · rename_i hover
      intro other
      by_cases hother : other = host
      · subst hother
        refine .inr ⟨?_, expiry, hban, hover⟩
        rw [bannedUntil, Finmap.lookup_erase]
      · exact .inl (Finmap.lookup_erase_ne hother)
    · exact .refl now book

theorem consider_expires (now : ℚ) (exclude : List (String × Nat)) (retryDelay : ℚ)
    (found : List AddressEntry × AddressBook) (entry : AddressEntry) :
    Expires now found.2 (consider now exclude retryDelay found entry).2 := by
  unfold consider
  split
  · exact .refl now found.2
  · dsimp only
    split <;> exact isBanned_expires found.2 now entry.host

theorem candidates_expires (book : AddressBook) (now : ℚ) (exclude : List (String × Nat))
    (retryDelay : ℚ) : Expires now book (book.candidates now exclude retryDelay).2 := by
  have hfold : ∀ (entries : List AddressEntry) (found : List AddressEntry × AddressBook),
      Expires now found.2 (entries.foldl (consider now exclude retryDelay) found).2 := by
    intro entries
    induction entries with
    | nil => exact fun found => .refl now found.2
    | cons entry entries ih =>
      exact fun found => (consider_expires now exclude retryDelay found entry).trans (ih _)
  exact hfold book.entries ([], book)

/-- A host is banned up to the end of its ban. -/
theorem isBanned_iff {book : AddressBook} {now : ℚ} {host : String} :
    (book.isBanned now host).1 = true ↔ ∃ expiry, book.bannedUntil host = some expiry ∧
    now ≤ expiry := by
  unfold isBanned bannedUntil
  cases book.banned.lookup host with
  | none => exact ⟨nofun, nofun⟩
  | some expiry =>
    dsimp only
    split
    · rename_i hover
      refine ⟨nofun, ?_⟩
      rintro ⟨_, ⟨⟩, hle⟩
      exact absurd hover (not_lt.mpr hle)
    · rename_i hrunning
      exact ⟨fun _ => ⟨expiry, rfl, not_lt.mp hrunning⟩, fun _ => rfl⟩

theorem bannedUntil_ban (book : AddressBook) (now : ℚ) (host : String) (seconds : ℚ)
    (other : String) : (book.ban now host seconds).bannedUntil other =
      if other = host then some (now + seconds) else book.bannedUntil other :=
  Table.lookup_insert_if host other (now + seconds) book.banned

theorem update_banned (book : AddressBook) (host : String) (port : Nat)
    (change : AddressEntry → AddressEntry) : (book.update host port change).banned = book.banned :=
    rfl

theorem add_banned (book : AddressBook) (now : ℚ) (host : String) (port : Nat) (source : String)
    (lastSeen : Int) : (book.add now host port source lastSeen).banned = book.banned := by
  unfold add
  split <;> rfl

theorem markFailure_banned (book : AddressBook) (now : ℚ) (host : String) (port : Nat) :
    (book.markFailure now host port).banned = book.banned := by
  unfold markFailure
  dsimp only
  split <;> rfl

end AddressBook

namespace Gate

open AddressBook

/-! ## What a step does to bans -/

/-- A step imposes a ban: for misbehaviour, or for rapid reconnects. -/
def Imposes (g : Gate) (now : ℚ) (op : GateOp) (host : String) (seconds : ℚ) : Prop :=
  seconds = MISBEHAVIOUR_BAN_DURATION ∨
    (op = .accept host ∧ RECONNECT_THRESHOLD ≤ (g.recentConnects now host).length ∧
      seconds = reconnectBan (g.recentConnects now host).length)

/-- A step only forgets bans that are over, or bans one host. -/
theorem step_bannedUntil (maxInbound : Nat) (g : Gate) (now : ℚ) (op : GateOp) :
    Expires now g.addrbook (g.step maxInbound now op).addrbook ∨
      ∃ host seconds, g.Imposes now op host seconds ∧
        ∀ other, (g.step maxInbound now op).addrbook.bannedUntil other =
          if other = host then some (now + seconds) else g.addrbook.bannedUntil other := by
  cases op with
  | accept host =>
    -- too many connections impose a ban of their own
    by_cases hfew : (g.recentConnects now host).length < RECONNECT_THRESHOLD
    · left
      simp only [step, accept, checkReconnectBan, if_pos hfew, Bool.false_eq_true, if_false]
      split
      · exact isBanned_expires g.addrbook now host
      · split <;> exact isBanned_expires g.addrbook now host
    · right
      simp only [step, accept, checkReconnectBan, if_neg hfew, if_true]
      exact ⟨host, _, .inr ⟨rfl, Nat.not_lt.mp hfew, rfl⟩, bannedUntil_ban g.addrbook now host _⟩
  | connect host port outcome =>
    left
    have hcheck := isBanned_expires g.addrbook now host
    simp only [step, connectPeer]
    split
    · exact hcheck
    · cases outcome with
      | alreadyConnected => exact hcheck
      | own => exact hcheck.trans (.of_banned rfl)
      | unreachable => exact hcheck.trans (.of_banned (markFailure_banned _ now host port))
      | connected => exact hcheck.trans (.of_banned (update_banned _ host port _))
  | seek exclude => exact .inl (candidates_expires g.addrbook now exclude RETRY_DELAY)
  | misbehave id points =>
    simp only [step, misbehave]
    cases g.peers.find? fun peer => peer.id == id with
    | none => exact .inl (.refl now g.addrbook)
    | some peer =>
      dsimp only
      split
      · exact .inr ⟨peer.host, _, .inl rfl, bannedUntil_ban g.addrbook now peer.host _⟩
      · exact .inl (.refl now g.addrbook)
  | unregister id => exact .inl (.refl now g.addrbook)
  | learn host port source lastSeen =>
    exact .inl (.of_banned (add_banned g.addrbook now host port source lastSeen))
  | forget host port => exact .inl (.of_banned rfl)
  | isBanned host => exact .inl (isBanned_expires g.addrbook now host)
  | prune => exact .inl (.of_banned rfl)

/-! ## Runs -/

/-- No ban ends later than one for misbehaviour that is imposed now. -/
def BansBounded (g : Gate) (now : ℚ) : Prop :=
  ∀ host expiry, g.addrbook.bannedUntil host = some expiry →
    expiry ≤ now + MISBEHAVIOUR_BAN_DURATION

/-- A ban for rapid reconnects that the step imposes ends no earlier than the ban it replaces. -/
def ExtendsBan (g : Gate) (now : ℚ) (op : GateOp) : Prop :=
  ∀ host expiry, op = .accept host → RECONNECT_THRESHOLD ≤ (g.recentConnects now host).length →
    g.addrbook.bannedUntil host = some expiry →
    expiry ≤ now + reconnectBan (g.recentConnects now host).length

theorem reconnectBan_le (recent : Nat) : reconnectBan recent ≤ MISBEHAVIOUR_BAN_DURATION :=
  (min_le_left _ _).trans (by decide +kernel)

theorem Imposes.le {g : Gate} {now : ℚ} {op : GateOp} {host : String} {seconds : ℚ}
    (h : g.Imposes now op host seconds) : seconds ≤ MISBEHAVIOUR_BAN_DURATION := by
  rcases h with rfl | ⟨-, -, rfl⟩
  · exact le_refl _
  · exact reconnectBan_le _

theorem BansBounded.mono {g : Gate} {now later : ℚ} (h : g.BansBounded now) (hle : now ≤ later) :
    g.BansBounded later := fun host expiry hexpiry =>
  (h host expiry hexpiry).trans (add_le_add_left hle _)

theorem BansBounded.step {g : Gate} {now : ℚ} (h : g.BansBounded now) (maxInbound : Nat)
    (op : GateOp) : (g.step maxInbound now op).BansBounded now := by
  intro host expiry hexpiry
  rcases step_bannedUntil maxInbound g now op with hold | ⟨banned, seconds, himposes, hban⟩
  · rcases hold host with hsame | ⟨hnone, -⟩
    · exact h host expiry (hsame ▸ hexpiry)
    · rw [hnone] at hexpiry
      cases hexpiry
  · rw [hban host] at hexpiry
    split at hexpiry
    · obtain rfl := Option.some.inj hexpiry
      exact add_le_add_right himposes.le now
    · exact h host expiry hexpiry

/-- A ban that runs on past a step is not shortened by it. -/
theorem ExtendsBan.step {g : Gate} {now : ℚ} {op : GateOp} (h : g.ExtendsBan now op)
    (hbounded : g.BansBounded now) (maxInbound : Nat) {host : String} {expiry : ℚ}
    (hban : g.addrbook.bannedUntil host = some expiry) (hrunning : now ≤ expiry) :
    ∃ expiry', (g.step maxInbound now op).addrbook.bannedUntil host = some expiry' ∧
      expiry ≤ expiry' := by
  rcases step_bannedUntil maxInbound g now op with hold | ⟨banned, seconds, himposes, hnew⟩
  · rcases hold host with hsame | ⟨-, expired, hexpired, hover⟩
    · exact ⟨expiry, hsame.trans hban, le_refl _⟩
    · obtain rfl := Option.some.inj (hban.symm.trans hexpired)
      exact absurd hrunning (not_le.mpr hover)
  · by_cases hhost : host = banned
    · subst hhost
      refine ⟨now + seconds, by rw [hnew, if_pos rfl], ?_⟩
      rcases himposes with rfl | ⟨hop, hmany, rfl⟩
      · exact hbounded host expiry hban
      · exact h host expiry hop hmany hban
    · exact ⟨expiry, by rw [hnew, if_neg hhost, hban], le_refl _⟩

/-- Every ban for rapid reconnects in a run ends no earlier than the ban it replaces. -/
def Extending (maxInbound : Nat) : Gate → List (ℚ × GateOp) → Prop
  | _, [] => True
  | g, (now, op) :: ops => g.ExtendsBan now op ∧ Extending maxInbound (g.step maxInbound now op) ops

/-- A host that is banned at some time of a run is found banned at all later ones up to the end of
that ban. -/
def BansHold (maxInbound : Nat) (g : Gate) (ops : List (ℚ × GateOp)) : Prop :=
  ∀ before middle later, ops = before ++ middle ++ later →
    ∀ host expiry, (g.run maxInbound before).addrbook.bannedUntil host = some expiry →
    ∀ now, (∀ op ∈ before ++ middle, op.1 ≤ now) → now ≤ expiry →
      ((g.run maxInbound (before ++ middle)).addrbook.isBanned now host).1 = true

section Runs

variable {maxInbound : Nat}

theorem run_append (g : Gate) (before later : List (ℚ × GateOp)) :
    g.run maxInbound (before ++ later) = (g.run maxInbound before).run maxInbound later :=
  List.foldl_append

theorem extending_append {g : Gate} {before later : List (ℚ × GateOp)} :
    Extending maxInbound g (before ++ later) ↔
      Extending maxInbound g before ∧ Extending maxInbound (g.run maxInbound before) later := by
  induction before generalizing g with
  | nil => exact ⟨fun h => ⟨trivial, h⟩, And.right⟩
  | cons op before ih =>
    rw [List.cons_append, Extending, Extending, ih, and_assoc]
    rfl

/-- Bans stay bounded in a run. -/
theorem BansBounded.run {g : Gate} {ops : List (ℚ × GateOp)} {now : ℚ}
    (hsorted : ops.Pairwise fun a b => a.1 ≤ b.1) (hnow : ∀ op ∈ ops, op.1 ≤ now)
    (hops : ∀ op ∈ ops, g.BansBounded op.1) (h : g.BansBounded now) :
    (g.run maxInbound ops).BansBounded now := by
  induction ops generalizing g with
  | nil => exact h
  | cons op ops ih =>
    obtain ⟨hfirst, hrest⟩ := List.pairwise_cons.mp hsorted
    have hstep := (hops op List.mem_cons_self).step maxInbound op.2
    exact ih hrest (fun other hother => hnow other (List.mem_cons_of_mem op hother))
      (fun other hother => hstep.mono (hfirst other hother))
      (hstep.mono (hnow op List.mem_cons_self))

/-- A ban that runs on past a run is not shortened in it. -/
theorem Extending.run {g : Gate} {ops : List (ℚ × GateOp)} (h : Extending maxInbound g ops)
    (hsorted : ops.Pairwise fun a b => a.1 ≤ b.1) (hops : ∀ op ∈ ops, g.BansBounded op.1)
    {host : String} {expiry : ℚ} (hban : g.addrbook.bannedUntil host = some expiry)
    (hrunning : ∀ op ∈ ops, op.1 ≤ expiry) :
    ∃ expiry', (g.run maxInbound ops).addrbook.bannedUntil host = some expiry' ∧
    expiry ≤ expiry' := by
  induction ops generalizing g expiry with
  | nil => exact ⟨expiry, hban, le_refl _⟩
  | cons op ops ih =>
    obtain ⟨hfirst, hrest⟩ := List.pairwise_cons.mp hsorted
    have hbounded := hops op List.mem_cons_self
    obtain ⟨expiry₁, hban₁, hle₁⟩ :=
      h.1.step hbounded maxInbound hban (hrunning op List.mem_cons_self)
    have hstep := hbounded.step maxInbound op.2
    obtain ⟨expiry₂, hban₂, hle₂⟩ :=
      ih h.2 hrest (fun other hother => hstep.mono (hfirst other hother))
      hban₁ fun other hother => (hrunning other (List.mem_cons_of_mem op hother)).trans hle₁
    exact ⟨expiry₂, hban₂, hle₁.trans hle₂⟩

/-- A run extends bans if each of its steps does. -/
theorem extending_of_steps {g : Gate} {ops : List (ℚ × GateOp)}
    (h : ∀ before op later, ops = before ++ op :: later →
      (g.run maxInbound before).ExtendsBan op.1 op.2) : Extending maxInbound g ops := by
  induction ops generalizing g with
  | nil => trivial
  | cons op ops ih =>
    refine ⟨h [] op ops rfl, ih fun before other later heq => ?_⟩
    exact h (op :: before) other later (by rw [heq, List.cons_append])

theorem reconnectBan_pos {recent : Nat} (h : RECONNECT_THRESHOLD ≤ recent) :
    0 < reconnectBan recent := by
  have hcast : (RECONNECT_THRESHOLD : ℚ) ≤ recent := Nat.cast_le.mpr h
  exact lt_min (by decide +kernel) (by linarith)

/-- Too many connections ban the host from now on, whatever ban is running. -/
theorem accept_bannedUntil {g : Gate} {now : ℚ} {host : String}
    (h : RECONNECT_THRESHOLD ≤ (g.recentConnects now host).length) :
    (g.step maxInbound now (.accept host)).addrbook.bannedUntil host =
      some (now + reconnectBan (g.recentConnects now host).length) := by
  simp only [step, accept, checkReconnectBan, if_neg (Nat.not_lt.mpr h), if_true]
  rw [bannedUntil_ban, if_pos rfl]

theorem start_bansBounded (entries : List AddressEntry) (now : ℚ) :
    (start entries).BansBounded now := by
  intro host expiry hexpiry
  rw [start, bannedUntil, Finmap.lookup_empty] at hexpiry
  cases hexpiry

/-- Bans last in a run exactly if none for rapid reconnects ends earlier than the ban that it
replaces. -/
theorem bansHold_iff (entries : List AddressEntry) {ops : List (ℚ × GateOp)}
    (hsorted : ops.Pairwise fun a b => a.1 ≤ b.1) :
    BansHold maxInbound (start entries) ops ↔ Extending maxInbound (start entries) ops := by
  constructor
  · intro hhold
    refine extending_of_steps fun before op later hops host expiry haccept hmany hban => ?_
    -- a shorter ban would end before the one that it overwrites
    by_contra hshort
    have hpos := reconnectBan_pos hmany
    have hend : op.1 < expiry := by linarith [not_le.mp hshort]
    have htimes : ∀ other ∈ before ++ [op], other.1 ≤ expiry := by
      rw [hops, List.pairwise_append] at hsorted
      intro other hother
      rcases List.mem_append.mp hother with hbefore | hlast
      · exact (hsorted.2.2 other hbefore op List.mem_cons_self).trans hend.le
      · rw [List.mem_singleton.mp hlast]
        exact hend.le
    have hbanned := hhold before [op] later (by rw [hops, List.append_assoc, List.singleton_append])
      host expiry hban expiry htimes (le_refl _)
    obtain ⟨expiry', hexpiry', hle⟩ := isBanned_iff.mp hbanned
    have hstep : (start entries).run maxInbound (before ++ [op]) =
        ((start entries).run maxInbound before).step maxInbound op.1 (.accept host) := by
      rw [run_append, ← haccept]
      rfl
    rw [hstep, accept_bannedUntil hmany] at hexpiry'
    obtain rfl := Option.some.inj hexpiry'
    exact hshort hle
  · intro hextending before middle later hops host expiry hban now hnow hle
    rw [hops] at hextending hsorted
    have hmiddle := (extending_append.mp (extending_append.mp hextending).1).2
    obtain ⟨hsorted', -, -⟩ := List.pairwise_append.mp hsorted
    obtain ⟨hbefore, hmiddleSorted, hacross⟩ := List.pairwise_append.mp hsorted'
    -- no ban that is running ends later than one imposed now for misbehaviour
    have hbounded : ∀ op ∈ middle, ((start entries).run maxInbound before).BansBounded op.1 :=
      fun op hop => BansBounded.run hbefore (fun other hother => hacross other hother op hop)
        (fun other _ => start_bansBounded entries other.1) (start_bansBounded entries op.1)
    obtain ⟨expiry', hban', hlater⟩ := hmiddle.run hmiddleSorted hbounded hban fun op hop =>
      (hnow op (List.mem_append_right before hop)).trans hle
    rw [run_append]
    exact isBanned_iff.mpr ⟨expiry', hban', hle.trans hlater⟩

end Runs

end Gate

/-- A peer misbehaves and is banned for a day, and its host connects nine times more within a
minute. -/
def Sample.reconnects : List (ℚ × GateOp) :=
  [(0, .accept "10.0.0.1"), (1, .misbehave 0 100)] ++
    (List.range 9).map fun i : Nat => ((i : ℚ) + 2, .accept "10.0.0.1")

/-- In a run without reconnects, bans last. -/
theorem Gate.bansHold_iff_ban : Gate.BansHold 8 (Gate.start [])
    [(0, .accept "10.0.0.1"), (1, .misbehave 0 100), (90, .isBanned "10.0.0.1")] := by
  refine (Gate.bansHold_iff [] (by decide +kernel)).mpr ?_
  rw [Gate.Extending, Gate.Extending, Gate.Extending, Gate.Extending]
  refine ⟨fun host expiry _ _ hban => ?_, fun _ _ haccept => ?_, fun _ _ haccept => ?_, trivial⟩
  · rw [Gate.start, AddressBook.bannedUntil, Finmap.lookup_empty] at hban
    cases hban
  · cases haccept
  · cases haccept

/-- Its reconnects replace the ban by one of a minute, so that after a hundred seconds the host is
not banned. -/
theorem Gate.not_bansHold_reconnects : ¬ Gate.BansHold 8 (Gate.start []) Sample.reconnects := by
  intro hhold
  have hbanned := hhold (Sample.reconnects.take 2) (Sample.reconnects.drop 2) []
    (by rw [List.append_nil, List.take_append_drop]) "10.0.0.1" 86401 (by decide +kernel) 100
    (by decide +kernel) (by decide +kernel)
  exact absurd hbanned (by decide +kernel)

end ScarletCoin
