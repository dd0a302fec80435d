import ScarletCoin.Toolkit.ByteCodec
import ScarletCoin.Toolkit.Exceptions

/-!
# Writers and readers of byte strings

A writer of values of type `α` is a function `α → Bytes`; a reader consumes a prefix of a byte
string and may raise. Four properties relate them. A writer is *self-delimiting* on a set of values
when two encodings followed by anything are equal only if the values and what follows are equal
(`SelfDelimiting`). A reader *inverts* a writer on a set of values when it returns every such value
from its encoding, whatever follows (`Inverts`). A reader is *canonical* for a writer when it
accepts only encodings the writer produces (`Canonical`). A reader that does both, and returns the
values of the set alone, is *exact* (`Exact`). The lemmas lift each property from parts to
sequences, so that a record's codec needs one line a field.
-/

set_option autoImplicit false

namespace Toolkit

variable {ε α β : Type}

/-- A reader consumes a prefix of a byte string, or raises. -/
abbrev Reader (ε α : Type) := StateT Bytes (Except ε) α

/-- Two encodings followed by anything agree only if the values and what follows agree. -/
def SelfDelimiting (P : α → Prop) (w : α → Bytes) : Prop :=
  ∀ a b x y, P a → P b → w a ++ x = w b ++ y → a = b ∧ x = y

/-- The reader returns every value in `P` from its encoding, whatever follows. -/
def Inverts (P : α → Prop) (w : α → Bytes) (r : Reader ε α) : Prop :=
  ∀ a rest, P a → r (w a ++ rest) = .ok (a, rest)

/-- The reader accepts only what the writer produces. -/
def Canonical (w : α → Bytes) (r : Reader ε α) : Prop :=
  ∀ bs a rest, r bs = .ok (a, rest) → w a ++ rest = bs

/-- The reader returns exactly the values in `P`, each from its encoding. -/
def Exact (P : α → Prop) (w : α → Bytes) (r : Reader ε α) : Prop :=
  ∀ bs a rest, r bs = .ok (a, rest) ↔ P a ∧ bs = w a ++ rest

/-- A writer that some reader inverts is self-delimiting. -/
theorem Inverts.selfDelimiting {P : α → Prop} {w : α → Bytes} {r : Reader ε α}
    (h : Inverts P w r) : SelfDelimiting P w := by
  intro a b x y ha hb heq
  have hread : r (w a ++ x) = r (w b ++ y) := congrArg r heq
  rw [h a x ha, h b y hb] at hread
  have hpair : (a, x) = (b, y) := Except.ok.inj hread
  exact ⟨congrArg Prod.fst hpair, congrArg Prod.snd hpair⟩

/-- On the empty remainder, a self-delimiting writer is injective. -/
theorem SelfDelimiting.injective {P : α → Prop} {w : α → Bytes} (h : SelfDelimiting P w)
    {a b : α} (ha : P a) (hb : P b) (heq : w a = w b) : a = b :=
  (h a b [] [] ha hb (by rw [heq])).1

/-- Writers of one fixed width are self-delimiting as soon as they are injective. -/
theorem SelfDelimiting.of_length {P : α → Prop} {w : α → Bytes} (n : Nat)
    (hlen : ∀ a, P a → (w a).length = n)
    (hinj : ∀ a b, P a → P b → w a = w b → a = b) : SelfDelimiting P w := by
  intro a b x y ha hb heq
  have hsplit := append_split (by rw [hlen a ha, hlen b hb]) heq
  exact ⟨hinj a b ha hb hsplit.1, hsplit.2⟩

section Exact

variable {P : α → Prop} {w : α → Bytes} {r : Reader ε α}

theorem Exact.inverts (h : Exact P w r) : Inverts P w r :=
  fun a rest ha => (h _ a rest).mpr ⟨ha, rfl⟩

theorem Exact.canonical (h : Exact P w r) : Canonical w r :=
  fun bs a rest hread => ((h bs a rest).mp hread).2.symm

theorem Exact.of_canonical (hcanon : Canonical w r)
    (hmem : ∀ bs a rest, r bs = .ok (a, rest) → P a) (hinv : Inverts P w r) : Exact P w r := by
  intro bs a rest
  constructor
  · intro hread
    exact ⟨hmem bs a rest hread, (hcanon bs a rest hread).symm⟩
  · rintro ⟨ha, rfl⟩
    exact hinv a rest ha

end Exact

section Sequences

/-- Running a reader after another one. -/
theorem reader_bind_eq_ok {r : Reader ε α} {f : α → Reader ε β} {bs rest : Bytes} {b : β} :
    (r >>= f) bs = .ok (b, rest) ↔
      ∃ a mid, r bs = .ok (a, mid) ∧ f a mid = .ok (b, rest) := by
  show (r bs >>= fun p => f p.1 p.2) = .ok (b, rest) ↔ _
  rw [bind_eq_ok]
  constructor
  · rintro ⟨⟨a, mid⟩, h₁, h₂⟩
    exact ⟨a, mid, h₁, h₂⟩
  · rintro ⟨a, mid, h₁, h₂⟩
    exact ⟨(a, mid), h₁, h₂⟩

theorem reader_bind_of_ok {r : Reader ε α} {f : α → Reader ε β} {bs mid : Bytes} {a : α}
    (h : r bs = .ok (a, mid)) : (r >>= f) bs = f a mid := by
  show (r bs >>= fun p => f p.1 p.2) = _
  rw [h]
  rfl

theorem reader_pure_eq_ok {a b : α} {bs rest : Bytes} :
    (pure a : Reader ε α) bs = .ok (b, rest) ↔ a = b ∧ bs = rest := by
  show (Except.ok (a, bs) : Except ε (α × Bytes)) = .ok (b, rest) ↔ _
  simp

/-- A reader whose results carry a property that all of them have. -/
def attach {P : α → Prop} (r : Reader ε α) (h : ∀ bs a rest, r bs = .ok (a, rest) → P a) :
    Reader ε { a // P a } := fun bs =>
  match hr : r bs with
  | .error e => .error e
  | .ok (a, rest) => .ok (⟨a, h bs a rest hr⟩, rest)

theorem attach_eq_ok {P : α → Prop} {r : Reader ε α} {h : ∀ bs a rest, r bs = .ok (a, rest) → P a}
    {bs rest : Bytes} {x : { a // P a }} :
    attach r h bs = .ok (x, rest) ↔ r bs = .ok (x.val, rest) := by
  unfold attach
  split
  · rename_i e hr
    constructor
    · intro hc
      cases hc
    · intro hc
      cases hr.symm.trans hc
  · rename_i a rest' hr
    constructor
    · intro hc
      obtain ⟨rfl, rfl⟩ := Prod.mk.inj (Except.ok.inj hc)
      exact hr
    · intro hc
      obtain ⟨hval, rfl⟩ := Prod.mk.inj (Except.ok.inj (hr.symm.trans hc))
      exact congrArg Except.ok (Prod.ext (Subtype.ext hval) rfl)

/-- Read `n` values one after the other. -/
def readMany (r : Reader ε α) : Nat → Reader ε (List α)
  | 0 => pure []
  | n + 1 => do
      let a ← r
      let as ← readMany r n
      pure (a :: as)

theorem readMany_length {r : Reader ε α} {n : Nat} {bs rest : Bytes} {as : List α}
    (h : readMany r n bs = .ok (as, rest)) : as.length = n := by
  induction n generalizing bs rest as with
  | zero =>
    obtain ⟨rfl, -⟩ := reader_pure_eq_ok.mp h
    rfl
  | succ n ih =>
    obtain ⟨a, mid, -, h⟩ := reader_bind_eq_ok.mp h
    obtain ⟨as', mid', htail, h⟩ := reader_bind_eq_ok.mp h
    obtain ⟨rfl, -⟩ := reader_pure_eq_ok.mp h
    rw [List.length_cons, ih htail]

theorem Canonical.readMany {w : α → Bytes} {r : Reader ε α} (hr : Canonical w r) (n : Nat) :
    Canonical (List.flatMap w) (Toolkit.readMany r n) := by
  induction n with
  | zero =>
    intro bs as rest h
    obtain ⟨rfl, rfl⟩ := reader_pure_eq_ok.mp h
    rfl
  | succ n ih =>
    intro bs as rest h
    obtain ⟨a, mid, hhead, h⟩ := reader_bind_eq_ok.mp h
    obtain ⟨as', mid', htail, h⟩ := reader_bind_eq_ok.mp h
    obtain ⟨rfl, rfl⟩ := reader_pure_eq_ok.mp h
    rw [List.flatMap_cons, List.append_assoc, ih mid as' mid' htail, hr bs a mid hhead]

theorem Inverts.readMany {P : α → Prop} {w : α → Bytes} {r : Reader ε α} (hr : Inverts P w r)
    (as : List α) (rest : Bytes) (hP : ∀ a ∈ as, P a) :
    Toolkit.readMany r as.length (as.flatMap w ++ rest) = .ok (as, rest) := by
  induction as with
  | nil => rfl
  | cons a as ih =>
    have hhead := hr a (as.flatMap w ++ rest) (hP a List.mem_cons_self)
    have htail := ih fun b hb => hP b (List.mem_cons_of_mem a hb)
    rw [List.flatMap_cons, List.append_assoc, List.length_cons, Toolkit.readMany,
      reader_bind_of_ok hhead, reader_bind_of_ok htail]
    rfl

theorem Exact.readMany_eq_ok {P : α → Prop} {w : α → Bytes} {r : Reader ε α} (hr : Exact P w r)
    {n : Nat} {bs rest : Bytes} {as : List α} :
    Toolkit.readMany r n bs = .ok (as, rest) ↔
      as.length = n ∧ (∀ a ∈ as, P a) ∧ bs = as.flatMap w ++ rest := by
  constructor
  · intro h
    refine ⟨readMany_length h, ?_, (hr.canonical.readMany n bs as rest h).symm⟩
    induction n generalizing bs as with
    | zero =>
      obtain ⟨rfl, -⟩ := reader_pure_eq_ok.mp h
      exact fun a ha => absurd ha List.not_mem_nil
    | succ n ih =>
      obtain ⟨a, mid, hhead, h⟩ := reader_bind_eq_ok.mp h
      obtain ⟨as', mid', htail, h⟩ := reader_bind_eq_ok.mp h
      obtain ⟨rfl, rfl⟩ := reader_pure_eq_ok.mp h
      intro b hb
      rcases List.mem_cons.mp hb with rfl | hb
      · exact ((hr bs b mid).mp hhead).1
      · exact ih htail b hb
  · rintro ⟨rfl, hP, rfl⟩
    exact hr.inverts.readMany as rest hP

/-- Equally long sequences of self-delimiting encodings are self-delimiting. -/
theorem SelfDelimiting.flatMap {P : α → Prop} {w : α → Bytes} (hw : SelfDelimiting P w)
    {as bs : List α} {x y : Bytes} (hlen : as.length = bs.length)
    (has : ∀ a ∈ as, P a) (hbs : ∀ b ∈ bs, P b)
    (heq : as.flatMap w ++ x = bs.flatMap w ++ y) : as = bs ∧ x = y := by
  induction as generalizing bs with
  | nil =>
    cases bs with
    | nil => exact ⟨rfl, heq⟩
    | cons b bs => exact absurd hlen (by simp)
  | cons a as ih =>
    cases bs with
    | nil => exact absurd hlen (by simp)
    | cons b bs =>
      rw [List.flatMap_cons, List.flatMap_cons, List.append_assoc, List.append_assoc] at heq
      obtain ⟨hab, htail⟩ := hw a b _ _ (has a List.mem_cons_self) (hbs b List.mem_cons_self) heq
      obtain ⟨hrest, hxy⟩ := ih (by simpa using hlen)
        (fun c hc => has c (List.mem_cons_of_mem a hc))
        (fun c hc => hbs c (List.mem_cons_of_mem b hc)) htail
      exact ⟨by rw [hab, hrest], hxy⟩

end Sequences

/-! ## Exceptions of a reader -/

section Raises

/-- Every exception of the reader satisfies `P`. -/
def Raises (P : ε → Prop) (r : Reader ε α) : Prop := ∀ bs e, r bs = .error e → P e

variable {P : ε → Prop} {r : Reader ε α}

theorem Raises.pure (a : α) : Raises P (pure a : Reader ε α) := by
  intro bs e h
  exact absurd h pure_ne_error

theorem Raises.bind {f : α → Reader ε β} (hr : Raises P r) (hf : ∀ a, Raises P (f a)) :
    Raises P (r >>= f) := by
  intro bs e h
  rcases bind_eq_error.mp (show (r bs >>= fun p => f p.1 p.2) = .error e from h) with
    h | ⟨⟨a, mid⟩, -, h⟩
  · exact hr bs e h
  · exact hf a mid e h

theorem Raises.attach {Q : α → Prop} {h : ∀ bs a rest, r bs = .ok (a, rest) → Q a}
    (hr : Raises P r) : Raises P (Toolkit.attach r h) := by
  intro bs e he
  unfold Toolkit.attach at he
  split at he
  · rename_i e' hread
    obtain rfl := Except.error.inj he
    exact hr bs _ hread
  · cases he

theorem Raises.readMany (hr : Raises P r) (n : Nat) : Raises P (Toolkit.readMany r n) := by
  induction n with
  | zero => exact Raises.pure []
  | succ n ih => exact hr.bind fun a => ih.bind fun as => Raises.pure (a :: as)

end Raises

end Toolkit
