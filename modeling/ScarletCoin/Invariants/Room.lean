import ScarletCoin.Invariants.Frontier
import ScarletCoin.Invariants.Remembered

/-!
# Room for refused blocks

`MAX_REMEMBERED_INVALID` bounds the remembered hashes only where they are counted. `_invalidate`
makes room for one hash and then adds a whole tree of them, and the branches of `add_block` that
refuse a block before storing it count nothing. As long as neither happens without room
(`Call.HasRoom`), the bound holds (`Roomy.remembered_bounded`); a stream of blocks without proof of
work breaks it (`remembered_not_bounded`).
-/

set_option autoImplicit false

namespace ScarletCoin

open Toolkit

section Room

variable [ScanOrder Hash]

/-! ## What is added -/

/-- The blocks that a refused block takes with it: itself, and the stored children of those among
them that are not known yet. -/
inductive Storage.Spreads (s : Storage) (known : List Hash) (h : Hash) : Hash → Prop where
  | self : s.Spreads known h h
  | child {x : Hash} {e : BlockIndexEntry} :
      s.Spreads known h x → x ∉ known → e ∈ s.childrenOf x → s.Spreads known h e.hash

omit [ScanOrder Hash] in
theorem Blockchain.setInvalid_of_new {invalid : List (Hash × String)} {h : Hash} {reason : String}
    (hnew : h ∉ rememberedHashes invalid) : setInvalid invalid h reason =
    invalid ++ [(h, reason)] :=
  if_neg fun hknown => hnew (any_remembered.mp hknown)

/-- The second list continues the first with hashes of a kind that it does not have, each once. -/
def Continues (P : Hash → Prop) (invalid result : List (Hash × String)) : Prop :=
  ∃ added, result = invalid ++ added ∧ (rememberedHashes added).Nodup ∧
    ∀ x ∈ rememberedHashes added, P x ∧ x ∉ rememberedHashes invalid

omit [ScanOrder Hash] in
theorem Continues.refl (P : Hash → Prop) (invalid : List (Hash × String)) :
    Continues P invalid invalid :=
  ⟨[], (List.append_nil invalid).symm, List.nodup_nil, fun _ hx => absurd hx List.not_mem_nil⟩

omit [ScanOrder Hash] in
theorem Continues.cons {P : Hash → Prop} {invalid result : List (Hash × String)} {h : Hash}
    {why : String}
    (hh : P h) (hnew : h ∉ rememberedHashes invalid)
    (hrest : Continues P (invalid ++ [(h, why)]) result) : Continues P invalid result := by
  obtain ⟨added, heq, hnodup, hadded⟩ := hrest
  have hkeys : rememberedHashes (invalid ++ [(h, why)]) = rememberedHashes invalid ++ [h] := by
    rw [rememberedHashes, List.map_append]
    rfl
  refine ⟨(h, why) :: added, by rw [heq, List.append_assoc]; rfl, ?_, ?_⟩
  · refine List.nodup_cons.mpr ⟨fun hmem => (hadded h hmem).2 ?_, hnodup⟩
    rw [hkeys]
    simp
  · intro x hx
    rcases List.mem_cons.mp hx with rfl | hx
    · exact ⟨hh, hnew⟩
    · obtain ⟨hPx, hunknown⟩ := hadded x hx
      rw [hkeys, List.mem_append, not_or] at hunknown
      exact ⟨hPx, hunknown.1⟩

/-- The search over the descendants adds hashes that were unknown, each once. -/
theorem Blockchain.invalidateFrom_continues {s : Storage} (P : Hash → Prop) {rounds : Nat}
    {pending invalid : List (Hash × String)}
    (hchild : ∀ x, P x → x ∉ rememberedHashes invalid → ∀ e ∈ s.childrenOf x, P e.hash)
    (hpending : ∀ p ∈ pending, P p.1) :
    Continues P invalid (invalidateFrom s rounds pending invalid) := by
  induction rounds generalizing pending invalid with
  | zero => exact .refl P invalid
  | succ rounds ih =>
    cases pending with
    | nil => exact .refl P invalid
    | cons p pending =>
      obtain ⟨current, why⟩ := p
      have hrest : ∀ q ∈ pending, P q.1 := fun q hq => hpending q (List.mem_cons_of_mem _ hq)
      have hcurrent : P current := hpending _ List.mem_cons_self
      unfold invalidateFrom
      split
      · exact ih hchild hrest
      · rename_i hunknown
        have hnew : current ∉ rememberedHashes invalid := fun h => hunknown (any_remembered.mpr h)
        dsimp only
        rw [setInvalid_of_new hnew]
        refine .cons hcurrent hnew (ih (fun x hx hafter => hchild x hx fun hbefore => hafter ?_) ?_)
        · rw [rememberedHashes, List.map_append]
          exact List.mem_append_left _ hbefore
        · intro q hq
          rcases List.mem_append.mp hq with hq | hq
          · obtain ⟨e, he, rfl⟩ := List.mem_map.mp (List.mem_reverse.mp hq)
            exact hchild current hcurrent hnew e he
          · exact hrest q hq

/-! ## Room -/

namespace Blockchain

/-- The block and what it takes with it fit next to what `_invalidate` keeps. -/
def Fits (c : Blockchain) (h : Hash) : Prop :=
  ∀ hashes : List Hash, hashes.Nodup →
    (∀ x ∈ hashes, c.storage.Spreads (rememberedHashes (evictOldest c.invalid)) h x ∧
      x ∉ rememberedHashes (evictOldest c.invalid)) →
    (evictOldest c.invalid).length + hashes.length ≤ MAX_REMEMBERED_INVALID

theorem invalidate_bounded {c : Blockchain} {h : Hash} {reason : String} (hfits : c.Fits h) :
    (c.invalidate h reason).invalid.length ≤ MAX_REMEMBERED_INVALID := by
  have hcontinues : Continues (c.storage.Spreads (rememberedHashes (evictOldest c.invalid)) h)
      (evictOldest c.invalid)
      (invalidateFrom c.storage (c.storage.blockCount + 2) [(h, reason)] (evictOldest c.invalid)) :=
    invalidateFrom_continues _ (fun x hx hunknown e he => .child hx hunknown he)
      (fun p hp => by rw [List.mem_singleton.mp hp]; exact .self)
  obtain ⟨added, heq, hnodup, hadded⟩ := hcontinues
  have hroom := hfits (rememberedHashes added) hnodup hadded
  rw [rememberedHashes, List.length_map] at hroom
  rw [c.invalidate_invalid, heq, List.length_append]
  exact hroom

omit [ScanOrder Hash] in
theorem length_setInvalid {invalid : List (Hash × String)} {h : Hash} {reason : String} :
    (setInvalid invalid h reason).length =
      if invalid.any fun p => p.1 == h then invalid.length else invalid.length + 1 := by
  unfold setInvalid
  split
  · exact List.length_map _
  · rw [List.length_append, List.length_singleton]

omit [ScanOrder Hash] in
theorem length_remember {c : Blockchain} {h : Hash} {reason : String}
    (hnew : c.isInvalid h = false) :
    (c.remember h reason).invalid.length = c.invalid.length + 1 := by
  rw [remember, length_setInvalid, if_neg]
  rw [show (c.invalid.any fun p => p.1 == h) = false from hnew]
  exact Bool.false_ne_true

omit [ScanOrder Hash] in
/-- A refusal before storing keeps the bound only where there is room for one more. -/
theorem remember_bounded_iff {c : Blockchain} {h : Hash} {reason : String}
    (hnew : c.isInvalid h = false) : (c.remember h reason).invalid.length ≤ MAX_REMEMBERED_INVALID ↔
      c.invalid.length < MAX_REMEMBERED_INVALID := by
  rw [length_remember hnew]
  exact Nat.lt_iff_add_one_le.symm

variable [Crypto]

/-- The block is refused before it would be stored, and its hash was not remembered yet. -/
def Refuses (params : ChainParams) (now : Nat) (c : Blockchain) (b : Block) : Prop :=
  c.isInvalid b.hash = false ∧
    ∃ reason r, c.admitBlock params now b = .ok (.answered (c.remember b.hash reason) r)

end Blockchain

variable [Crypto]

/-- The block that a round of the activation blames fits. -/
def Activation.Fits (params : ChainParams) (a : Activation) : Prop :=
  ∀ candidate h message, a.chain.bestCandidate = some candidate →
    switchTo params a.chain.storage a.chain.isInvalid a.chain.tip candidate =
    .error (.connect h message) → a.chain.Fits h

/-- Nothing is refused before storing while the memory is full, and every block that the activation
blames fits with what it takes with it. -/
def Call.HasRoom (params : ChainParams) (c : Blockchain) : Call → Prop
  | .addBlock _ now b =>
      (c.Refuses params now b → c.invalid.length < MAX_REMEMBERED_INVALID) ∧
      ∀ c₁ height a, c.admitBlock params now b = .ok (.stored c₁ height) →
        Visits (activateRound params) ⟨c₁, false⟩ a → a.Fits params
  | .addHeader _ => True
  | .prune _ => True

/-- The states that calls with room lead to from a new chain. -/
inductive Roomy (params : ChainParams) : Blockchain → Prop where
  | create {c : Blockchain} : Blockchain.create params = .ok c → Roomy params c
  | call {c c' : Blockchain} (op : Call) :
      Roomy params c → op.HasRoom params c → op.run params c = some c' → Roomy params c'

variable {params : ChainParams}

/-- A round whose blamed block fits keeps the bound. -/
theorem activateRound_bounded {a b : Activation} (hfits : a.Fits params)
    (hbound : a.chain.invalid.length ≤ MAX_REMEMBERED_INVALID)
    (h : activateRound params a = .next b) : b.chain.invalid.length ≤ MAX_REMEMBERED_INVALID := by
  unfold activateRound at h
  split at h
  · cases h
  · rename_i candidate hcand
    split at h
    · obtain rfl := Round.next.inj h
      exact hbound
    · rename_i hash message hswitch
      obtain rfl := Round.next.inj h
      exact Blockchain.invalidate_bounded (hfits candidate hash message hcand hswitch)
    · cases h

theorem visits_bounded {a b : Activation}
    (hfits : ∀ m, Visits (activateRound params) a m → m.Fits params)
    (hbound : a.chain.invalid.length ≤ MAX_REMEMBERED_INVALID)
    (hvisits : Visits (activateRound params) a b) : b.chain.invalid.length ≤
    MAX_REMEMBERED_INVALID :=
  hvisits.invariant (fun m => m.chain.invalid.length ≤ MAX_REMEMBERED_INVALID) hbound
    fun _ _ hvisit hlen hnext => activateRound_bounded (hfits _ hvisit) hlen hnext

/-- A call with room keeps the bound. -/
theorem Call.run_bounded {c c' : Blockchain} {op : Call} (hroom : op.HasRoom params c)
    (hbound : c.invalid.length ≤ MAX_REMEMBERED_INVALID) (h : op.run params c = some c') :
    c'.invalid.length ≤ MAX_REMEMBERED_INVALID := by
  cases op with
  | addBlock rounds now b =>
    obtain ⟨⟨c₁, answer⟩, hadd, rfl⟩ := Option.map_eq_some_iff.mp h
    rcases Blockchain.addBlock_cases hadd with ⟨e, -, rfl, -⟩ | ⟨r, haccept, -⟩ |
      ⟨p, work, r, outcome, hplace, hvisits, -, -⟩
    · exact hbound
    · rcases Blockchain.admitBlock_answered haccept with rfl | ⟨reason, rfl⟩
      · exact hbound
      · -- a hash that is remembered again takes no room
        cases hknown : c.isInvalid b.hash with
        | false =>
          exact (Blockchain.remember_bounded_iff hknown).mpr (hroom.1 ⟨hknown, reason, r, haccept⟩)
        | true =>
          dsimp only [Blockchain.remember]
          rw [Blockchain.length_setInvalid,
            if_pos (show (c.invalid.any fun p => p.1 == b.hash) = true from hknown)]
          exact hbound
    · have haccept := Blockchain.admitBlock_eq_stored.mpr ⟨p, work, hplace, rfl, rfl⟩
      exact visits_bounded (fun m hm => hroom.2 _ _ m haccept hm) hbound hvisits
  | addHeader header =>
    unfold Call.run at h
    dsimp only at h
    split at h
    · rename_i c₁ answer hadd
      obtain rfl := Option.some.inj h
      rcases Blockchain.addHeader_cases hadd with rfl | ⟨p, work, -, -, -, -, rfl⟩
      · exact hbound
      · exact hbound
    · obtain rfl := Option.some.inj h
      exact hbound
  | prune keepBlocks =>
    obtain rfl := Option.some.inj h
    unfold Blockchain.prune
    dsimp only
    split
    · exact hbound
    · exact hbound

/-- In every run of calls with room at most `MAX_REMEMBERED_INVALID` hashes are remembered. -/
theorem Roomy.remembered_bounded {c : Blockchain} (h : Roomy params c) :
    c.invalid.length ≤ MAX_REMEMBERED_INVALID := by
  induction h with
  | create hc =>
    obtain ⟨-, -, -, hnone⟩ := Blockchain.create_standing hc
    rw [hnone]
    exact Nat.zero_le _
  | call op _ hroom hop ih => exact Call.run_bounded hroom ih hop

/-! ## Room at a glance -/

/-- Where few blocks are stored and few hashes are remembered, whatever is blamed fits. -/
def Blockchain.few (c : Blockchain) : Bool :=
  decide (c.invalid.length + (c.storage.blockCount + 1) ≤ MAX_REMEMBERED_INVALID)

omit [Crypto] in
theorem Blockchain.fits_of_few {c : Blockchain} (h : c.few = true) (x : Hash) : c.Fits x := by
  intro hashes hnodup hspreads
  have hsub : hashes.toFinset ⊆ insert x c.storage.blocks.keys := by
    intro y hy
    rw [Finset.mem_insert, Finmap.mem_keys]
    obtain ⟨hspread, -⟩ := hspreads y (List.mem_toFinset.mp hy)
    cases hspread with
    | self => exact .inl rfl
    | child _ _ he =>
      obtain ⟨row, hrow, -⟩ := Storage.mem_childrenOf he
      exact .inr (Finmap.mem_of_lookup_eq_some hrow)
  have hcard := (Finset.card_le_card hsub).trans (Finset.card_insert_le x _)
  rw [List.toFinset_card_of_nodup hnodup] at hcard
  have hkept : (evictOldest c.invalid).length ≤ c.invalid.length := by
    rw [evictOldest, List.length_drop]
    exact Nat.sub_le _ _
  have hroom : c.invalid.length + (c.storage.blocks.keys.card + 1) ≤ MAX_REMEMBERED_INVALID :=
    of_decide_eq_true h
  omega

/-- The activation halts within some rounds, with few blocks and hashes all the while. -/
def fewRounds (params : ChainParams) : Nat → Activation → Bool
  | 0, _ => false
  | rounds + 1, a => a.chain.few &&
      match activateRound params a with
      | .halt _ => true
      | .next b => fewRounds params rounds b

theorem visits_few {rounds : Nat} {a b : Activation} (h : fewRounds params rounds a = true)
    (hvisits : Visits (activateRound params) a b) : b.chain.few = true := by
  have hrest : ∃ n, fewRounds params n b = true := by
    refine hvisits.invariant (fun m => ∃ n, fewRounds params n m = true) ⟨rounds, h⟩ ?_
    rintro m m' - ⟨n, hn⟩ hnext
    cases n with
    | zero => cases hn
    | succ n =>
      rw [fewRounds, hnext, Bool.and_eq_true] at hn
      exact ⟨n, hn.2⟩
  obtain ⟨n, hn⟩ := hrest
  cases n with
  | zero => cases hn
  | succ n =>
    rw [fewRounds, Bool.and_eq_true] at hn
    exact hn.1

/-- An admission is followed by few rounds, if the block is stored. -/
def fewAfter (params : ChainParams) : Except PyError Admission → Bool
  | .ok (.stored c _) => fewRounds params 8 ⟨c, false⟩
  | _ => true

/-- The chain after blocks that are submitted with few blocks stored and few hashes remembered. -/
def submitFew (params : ChainParams) : Blockchain → List Block → Option Blockchain
  | c, [] => some c
  | c, b :: bs =>
      let now := b.header.timestamp.toNat
      if c.few && fewAfter params (c.admitBlock params now b) then
        ((Call.addBlock 8 now b).run params c).bind fun c' => submitFew params c' bs
      else none

theorem Roomy.submitFew {c c' : Blockchain} {bs : List Block} (h : Roomy params c)
    (hbs : ScarletCoin.submitFew params c bs = some c') : Roomy params c' := by
  induction bs generalizing c with
  | nil =>
    obtain rfl := Option.some.inj hbs
    exact h
  | cons b bs ih =>
    unfold ScarletCoin.submitFew at hbs
    dsimp only at hbs
    split at hbs
    · rename_i hfew
      rw [Bool.and_eq_true] at hfew
      obtain ⟨hroom, hcalm⟩ := hfew
      obtain ⟨c₁, hcall, hrest⟩ := Option.bind_eq_some_iff.mp hbs
      have hspare : (Call.addBlock 8 b.header.timestamp.toNat b).HasRoom params c := by
        constructor
        · intro _
          have hsum := of_decide_eq_true hroom
          omega
        · intro c₂ height a haccept hvisits candidate x message _ _
          rw [haccept] at hcalm
          exact Blockchain.fits_of_few (visits_few hcalm hvisits) x
      exact ih (.call _ h hspare hcall) hrest
    · cases hbs

end Room

section Instances

attribute [local instance] Sample.crypto Sample.order

/-- One block that is refused before it is stored, one that the activation blames, and a good
one. -/
theorem remembered_bounded_greedy : ∃ c, Roomy REGTEST c ∧ c.height = 1 ∧ c.invalid.length = 2 ∧
    c.invalid.length ≤ MAX_REMEMBERED_INVALID := by
  have hrun : ((Blockchain.create REGTEST).toOption.any fun start =>
      (submitFew REGTEST start
        [hollowBlock, greedyBlock, Sample.regtestBlock Sample.genesisHash 1 0]).any fun c =>
      decide (c.height = 1 ∧ c.invalid.length = 2)) = true := by
    decide +kernel
  obtain ⟨start, hstart, h⟩ := (Option.any_eq_true _ _).mp hrun
  obtain ⟨c, hc, hcheck⟩ := (Option.any_eq_true _ _).mp h
  obtain ⟨hheight, htwo⟩ := of_decide_eq_true hcheck
  have hroomy : Roomy REGTEST c := (Roomy.create (toOption_eq_some.mp hstart)).submitFew hc
  exact ⟨c, hroomy, hheight, htwo, hroomy.remembered_bounded⟩

end Instances

/-! ## A stream of blocks without work -/

section Stream

/-- A hash function that keeps digests and takes the last four bytes of anything else. -/
@[reducible] def countingCrypto : Crypto where
  sha256 data :=
    if h : data.length = 32 then ⟨data, h⟩
    else ⟨leBytes 32 (leNat (data.drop (data.length - 4))), leBytes_length 32 _⟩
  onCurve _ := true
  ecdsaVerify _ _ _ _ := true

attribute [local instance] countingCrypto Sample.order

/-- The digest that spells a number. -/
def numbered (n : Nat) : Hash := ⟨leBytes 32 n, leBytes_length 32 n⟩

theorem numbered_inj {n m : Nat} (hn : n < 2 ^ 32) (hm : m < 2 ^ 32) (h : numbered n = numbered m) :
    n = m := by
  have hle : 2 ^ 32 ≤ 256 ^ 32 := by decide
  have hbytes := congrArg leNat (congrArg Subtype.val h)
  rwa [numbered, numbered, leNat_leBytes_of_lt (Nat.lt_of_lt_of_le hn hle),
    leNat_leBytes_of_lt (Nat.lt_of_lt_of_le hm hle)] at hbytes

theorem workless_fits : [Sample.coinbase 1 0 Sample.reward].length < 2 ^ 64 := Sample.alone_fits _

/-- A block on genesis whose header claims the target zero. -/
def workless (nonce : Nat) : Block where
  header :=
    { version := 1
      prevHash := numbered 5
      merkleRoot := nullHash
      timestamp := 1700000012
      bits := 0
      nonce := UInt32.ofNat nonce }
  transactions := [Sample.coinbase 1 0 Sample.reward]
  auxpow := none
  transactions_fit := workless_fits

theorem workless_hash {nonce : Nat} (h : nonce < 2 ^ 32) :
    (workless nonce).hash = numbered nonce := by
  have hlength : (workless nonce).header.serialize.length = 80 := headerBytes_length _ _ _ _ _ _
  have hlast : (workless nonce).header.serialize.drop 76 = leBytes 4 nonce := by
    have hnonce : (UInt32.ofNat nonce).toNat = nonce := UInt32.toNat_ofNat_of_lt' h
    have hsplit : (workless nonce).header.serialize =
        (Writer.uint32 1 ++ ((numbered 5).val ++ (nullHash.val ++ (Writer.uint32 1700000012 ++
          Writer.uint32 0)))) ++ leBytes 4 nonce := by
      rw [show (workless nonce).header.serialize = headerBytes 1 (numbered 5) nullHash 1700000012 0
        (UInt32.ofNat nonce) from rfl]
      simp only [headerBytes, List.append_assoc]
      rw [show Writer.uint32 (UInt32.ofNat nonce) = leBytes 4 (UInt32.ofNat nonce).toNat from rfl,
        hnonce]
    rw [hsplit]
    exact List.drop_left' (by decide)
  have houter : ∀ d : Hash, sha256 d.val = d := fun d => dif_pos d.property
  have hinner : ∀ data : Bytes, data.length ≠ 32 →
      sha256 data = numbered (leNat (data.drop (data.length - 4))) := fun data hne => dif_neg hne
  have hlong : ¬ (workless nonce).header.serialize.length = 32 := by
    rw [hlength]
    decide
  rw [Block.hash, BlockHeader.hash, hash256, houter, hinner _ hlong, hlength, hlast,
    leNat_leBytes_of_lt (Nat.lt_of_lt_of_le h (by decide))]

/-- The proof of work of the block is refused, if its size is not. -/
theorem workless_insane (nonce : Nat) (active : Bool) :
    ∃ m, (workless nonce).checkSanity REGTEST.powLimit REGTEST.maxBlockSize REGTEST.minOutputValue
      active = .error (.block m) := by
  have hwork : (workless nonce).header.checkProofOfWork REGTEST.powLimit = false := by
    have hbits : bitsToTarget 0 = .ok 0 := by rfl
    unfold BlockHeader.checkProofOfWork ScarletCoin.checkProofOfWork
    rw [show (workless nonce).header.bits.toNat = 0 from rfl, hbits]
    rfl
  by_cases hsize : REGTEST.maxBlockSize < (workless nonce).size
  · exact ⟨_, raiseIf_bind_eq_error.mpr (.inr ⟨List.cons_ne_nil _ _,
      raiseIf_bind_eq_error.mpr (.inl ⟨hsize, rfl⟩)⟩)⟩
  · exact ⟨_, raiseIf_bind_eq_error.mpr (.inr ⟨List.cons_ne_nil _ _,
      raiseIf_bind_eq_error.mpr
      (.inr ⟨hsize, raiseIf_bind_eq_error.mpr (.inl ⟨⟨.inr rfl, hwork⟩, rfl⟩)⟩)⟩)⟩

/-- Submit blocks with consecutive nonces. -/
def stream (first n : Nat) : List Call :=
  (List.range' first n).map fun nonce => .addBlock 100 1700001000 (workless nonce)

theorem admitBlock_workless {c : Blockchain} {e : BlockIndexEntry} {nonce : Nat}
    (hlt : nonce < 2 ^ 32) (hgenesis : c.storage.getEntry (numbered 5) = some e)
    (hnew : c.isInvalid (numbered nonce) = false)
    (hfree : c.storage.hasBlock (numbered nonce) = false) :
    ∃ m, c.admitBlock REGTEST 1700001000 (workless nonce) =
    .ok (c.reject (numbered nonce) none m) := by
  obtain ⟨m, hm⟩ := workless_insane nonce (auxpowActiveAt REGTEST (e.height + 1))
  refine ⟨m, ?_⟩
  unfold Blockchain.admitBlock
  rw [workless_hash hlt, hnew, hfree, if_neg Bool.false_ne_true, if_neg Bool.false_ne_true,
    show (workless nonce).header.prevHash = numbered 5 from rfl, hgenesis]
  dsimp only
  rw [if_neg (fun h => Bool.false_ne_true h.1), hm]

/-- Every block of the stream is remembered. -/
theorem runCalls_stream {c : Blockchain} {e : BlockIndexEntry} {first n : Nat}
    (hgenesis : c.storage.getEntry (numbered 5) = some e)
    (hstored : ∀ h, c.storage.hasBlock h = true → h = numbered 5)
    (hknown : ∀ x ∈ rememberedHashes c.invalid, ∃ i, i < first ∧ x = numbered i)
    (hfirst : 5 < first) (hlast : first + n ≤ 2 ^ 32) :
    ∃ c', runCalls REGTEST c (stream first n) = some c' ∧
      c'.invalid.length = c.invalid.length + n := by
  induction n generalizing c first with
  | zero => exact ⟨c, rfl, rfl⟩
  | succ n ih =>
    have hlt : first < 2 ^ 32 := by omega
    -- the hash of the next block is neither remembered nor stored
    have hnew : c.isInvalid (numbered first) = false := by
      by_contra hbad
      obtain ⟨i, hi, heq⟩ := hknown _ (Blockchain.isInvalid_iff.mp ((Bool.not_eq_false _).mp hbad))
      have hsame := numbered_inj hlt (by omega) heq
      omega
    have hfree : c.storage.hasBlock (numbered first) = false := by
      by_contra hthere
      have hsame := numbered_inj hlt (by omega) (hstored _ ((Bool.not_eq_false _).mp hthere))
      omega
    obtain ⟨m, hm⟩ := admitBlock_workless hlt hgenesis hnew hfree
    have hcall : (Call.addBlock 100 1700001000 (workless first)).run REGTEST c =
        some (c.remember (numbered first) m) := by
      unfold Call.run Blockchain.addBlock
      dsimp only
      rw [hm]
      rfl
    have hknown' : ∀ x ∈ rememberedHashes (c.remember (numbered first) m).invalid,
        ∃ i, i < first + 1 ∧ x = numbered i := by
      intro x hx
      rcases Blockchain.mem_setInvalid.mp hx with hold | rfl
      · obtain ⟨i, hi, heq⟩ := hknown x hold
        exact ⟨i, Nat.lt_succ_of_lt hi, heq⟩
      · exact ⟨first, Nat.lt_succ_self _, rfl⟩
    have hmore : (c.remember (numbered first) m).invalid.length = c.invalid.length + 1 :=
      Blockchain.length_remember hnew
    obtain ⟨c', hrun, hlength⟩ := ih (c := c.remember (numbered first) m) hgenesis hstored hknown'
      (Nat.lt_succ_of_lt hfirst) (by omega)
    refine ⟨c', ?_, by rw [hlength, hmore]; omega⟩
    rw [stream, List.range'_succ, List.map_cons, runCalls, hcall, Option.bind_some]
    exact hrun

/-- Five thousand and one blocks that claim the target zero are all remembered. -/
theorem remembered_not_bounded : ∃ c c', Blockchain.create REGTEST = .ok c ∧
    runCalls REGTEST c (stream 6 5001) = some c' ∧ MAX_REMEMBERED_INVALID < c'.invalid.length := by
  have hrun : ((Blockchain.create REGTEST).toOption.any fun c =>
      (c.storage.getEntry (numbered 5)).isSome && c.invalid.isEmpty &&
      (scan c.storage.blocks).all fun p => decide (p.1 = numbered 5)) = true := by
    decide +kernel
  obtain ⟨c, hc, h⟩ := (Option.any_eq_true _ _).mp hrun
  simp only [Bool.and_eq_true] at h
  obtain ⟨⟨hentry, hnone⟩, hblocks⟩ := h
  obtain ⟨e, he⟩ := Option.isSome_iff_exists.mp hentry
  have hempty : c.invalid = [] := List.isEmpty_iff.mp hnone
  have hstored : ∀ h, c.storage.hasBlock h = true → h = numbered 5 := by
    intro h hthere
    obtain ⟨row, hrow⟩ := Option.isSome_iff_exists.mp hthere
    exact of_decide_eq_true (List.all_eq_true.mp hblocks (h, row) ((mem_scan _ h row).mpr hrow))
  have hknown : ∀ x ∈ rememberedHashes c.invalid, ∃ i, i < 6 ∧ x = numbered i := by
    rw [hempty]
    exact fun x hx => absurd hx List.not_mem_nil
  obtain ⟨c', hcalls, hlength⟩ :=
    runCalls_stream (n := 5001) he hstored hknown (by decide) (by decide)
  refine ⟨c, c', toOption_eq_some.mp hc, hcalls, ?_⟩
  rw [hlength, hempty]
  decide

end Stream

end ScarletCoin
