import ScarletCoin.Core.Chain

/-!
# What admission guarantees

`Block.Sane` and `Admitted` collect what is known of a block that passed the checks of `add_block`:
its shape, that its transactions are distinct and committed to by the header, and that its coinbase
claims the height it is stored at. `Placement` lists everything `add_block` demands before it stores
a block, and `admitBlock_eq_stored` says that it stores exactly the blocks that meet the list.
-/

set_option autoImplicit false

namespace ScarletCoin

open Toolkit

/-! ## Sane transactions -/

/-- What is known of a transaction that passed its sanity check. -/
structure Transaction.Sane (t : Transaction) : Prop where
  inputs : t.inputs ≠ []
  outputs : t.outputs ≠ []
  money : t.totalOutput ≤ MAX_MONEY
  distinct : t.isCoinbase = false → (t.inputs.map TxInput.prevout).Nodup
  proper : t.isCoinbase = false → ∀ o ∈ t.inputs.map TxInput.prevout, o.isNull = false

/-- Inputs that pass one after the other spend distinct outpoints that are not null, none of them
seen before. -/
theorem checkInputSanity_nodup {inputs : List TxInput} {seen seen' : List OutPoint}
    (h : inputs.foldlM Transaction.checkInputSanity seen = .ok seen') :
    (inputs.map TxInput.prevout).Nodup ∧
      ∀ o ∈ inputs.map TxInput.prevout, o.isNull = false ∧ o ∉ seen := by
  induction inputs generalizing seen with
  | nil => exact ⟨List.nodup_nil, fun o ho => absurd ho List.not_mem_nil⟩
  | cons txin inputs ih =>
    obtain ⟨seen₁, hhead, htail⟩ := foldlM_cons_eq_ok.mp h
    obtain ⟨hnull, h₁⟩ := raiseIf_bind_eq_ok.mp hhead
    obtain ⟨hnew, h₂⟩ := raiseIf_bind_eq_ok.mp h₁
    obtain ⟨_, -, h₃⟩ := bind_eq_ok.mp h₂
    obtain rfl := pure_eq_ok.mp h₃
    obtain ⟨hnodup, hfresh⟩ := ih htail
    refine ⟨List.nodup_cons.mpr ⟨fun hmem => ?_, hnodup⟩, fun o ho => ?_⟩
    · exact (hfresh _ hmem).2 List.mem_cons_self
    · rcases List.mem_cons.mp ho with rfl | ho
      · exact ⟨(Bool.not_eq_true _).mp hnull, hnew⟩
      · exact ⟨(hfresh o ho).1, fun hseen => (hfresh o ho).2 (List.mem_cons_of_mem _ hseen)⟩

theorem Transaction.checkSanity_sane {t : Transaction} {minOutputValue : Nat}
    (h : t.checkSanity minOutputValue = .ok ()) : t.Sane := by
  unfold Transaction.checkSanity at h
  obtain ⟨hin, h₁⟩ := raiseIf_bind_eq_ok.mp h
  obtain ⟨hout, h₂⟩ := raiseIf_bind_eq_ok.mp h₁
  obtain ⟨hmoney, h₃⟩ := raiseIf_bind_eq_ok.mp h₂
  obtain ⟨_, -, h₄⟩ := bind_eq_ok.mp h₃
  have hchecked : t.isCoinbase = false → (t.inputs.map TxInput.prevout).Nodup ∧
      ∀ o ∈ t.inputs.map TxInput.prevout, o.isNull = false := by
    intro hcoinbase
    rw [if_neg (by simp [hcoinbase])] at h₄
    obtain ⟨-, h₅⟩ := raiseIf_bind_eq_ok.mp h₄
    obtain ⟨seen, hseen, -⟩ := bind_eq_ok.mp h₅
    obtain ⟨hnodup, hproper⟩ := checkInputSanity_nodup hseen
    exact ⟨hnodup, fun o ho => (hproper o ho).1⟩
  exact ⟨hin, hout, Nat.not_lt.mp hmoney, fun hc => (hchecked hc).1, fun hc => (hchecked hc).2⟩

/-! ## Sane blocks -/

variable [Crypto]

/-- What is known of a block that passed its sanity check. -/
structure Block.Sane (params : ChainParams) (b : Block) : Prop where
  first : ∃ coinbase rest, b.transactions = coinbase :: rest ∧ coinbase.isCoinbase = true ∧
    ∀ t ∈ rest, t.isCoinbase = false
  clean : ∀ t ∈ b.transactions, t.Sane
  distinct : b.txids.Nodup
  committed : merkleRoot b.txids = .ok b.header.merkleRoot
  small : b.size ≤ params.maxBlockSize

theorem Block.checkSanity_sane {params : ChainParams} {b : Block} {powLimit minOutputValue : Nat}
    {active : Bool}
    (h : b.checkSanity powLimit params.maxBlockSize minOutputValue active = .ok ()) :
    b.Sane params := by
  unfold Block.checkSanity at h
  obtain ⟨hne, h₁⟩ := raiseIf_bind_eq_ok.mp h
  obtain ⟨hsize, h₂⟩ := raiseIf_bind_eq_ok.mp h₁
  obtain ⟨-, h₃⟩ := raiseIf_bind_eq_ok.mp h₂
  obtain ⟨hfirst, h₄⟩ := raiseIf_bind_eq_ok.mp h₃
  obtain ⟨_, hothers, h₅⟩ := bind_eq_ok.mp h₄
  obtain ⟨_, hclean, h₆⟩ := bind_eq_ok.mp h₅
  obtain ⟨hdistinct, h₇⟩ := raiseIf_bind_eq_ok.mp h₆
  obtain ⟨root, hroot, h₈⟩ := bind_eq_ok.mp h₇
  have heq : root = b.header.merkleRoot := not_not.mp (raiseIf_eq_ok.mp h₈)
  refine ⟨?_, fun t ht => ?_, not_not.mp hdistinct, heq ▸ hroot, Nat.not_lt.mp hsize⟩
  · cases hts : b.transactions with
    | nil => exact absurd hts hne
    | cons coinbase rest =>
      rw [hts] at hfirst hothers
      refine ⟨coinbase, rest, rfl, by simpa using hfirst, fun t ht => ?_⟩
      have hraise := forEach_eq_ok.mp hothers t ht
      exact Bool.not_eq_true _ ▸ raiseIf_eq_ok.mp hraise
  · exact Transaction.checkSanity_sane (forEach_eq_ok.mp hclean t ht)

/-- What is known of a block that is stored at `height`. -/
structure Admitted (params : ChainParams) (height : Nat) (b : Block) : Prop where
  sane : b.Sane params
  claims : ∃ coinbase, b.coinbase = .ok coinbase ∧ coinbaseHeight coinbase = .ok height

/-- A stored block has a height of 32 bits. -/
theorem Admitted.height_lt {params : ChainParams} {height : Nat} {b : Block}
    (h : Admitted params height b) : height < 2 ^ 32 := by
  obtain ⟨coinbase, -, hheight⟩ := h.claims
  exact coinbaseHeight_lt hheight

/-- Only the coinbase of an admitted block mints, and it is the first transaction. -/
theorem Block.Sane.coinbase_eq {params : ChainParams} {b : Block} (h : b.Sane params)
    {t : Transaction} (ht : t ∈ b.transactions) (hc : t.isCoinbase = true) :
    b.coinbase = .ok t := by
  obtain ⟨coinbase, rest, hts, -, hothers⟩ := h.first
  unfold Block.coinbase
  rw [hts] at ht ⊢
  rcases List.mem_cons.mp ht with rfl | hrest
  · rfl
  · rw [hothers t hrest] at hc
    cases hc

/-! ## Placing a block -/

variable [ScanOrder Hash]

omit [Crypto] in
/-- A block that passes the context check claims its height. -/
theorem checkContext_claims {params : ChainParams} {s : Storage} {now : Nat} {b : Block}
    {parent : BlockIndexEntry} {height : Nat}
    (h : checkContext params s now b parent height = .ok ()) :
    ∃ coinbase, b.coinbase = .ok coinbase ∧ coinbaseHeight coinbase = .ok height := by
  unfold checkContext at h
  obtain ⟨expected, -, h₁⟩ := bind_eq_ok.mp h
  obtain ⟨-, h₂⟩ := raiseIf_bind_eq_ok.mp h₁
  obtain ⟨-, h₃⟩ := raiseIf_bind_eq_ok.mp h₂
  obtain ⟨-, h₄⟩ := raiseIf_bind_eq_ok.mp h₃
  obtain ⟨claimed, hclaimed, h₅⟩ := bind_eq_ok.mp h₄
  have hheight : claimed = height := not_not.mp (raiseIf_eq_ok.mp h₅)
  subst hheight
  rcases rescue_eq_ok.mp hclaimed with hok | ⟨e, -, hcaught⟩
  · exact bind_eq_ok.mp hok
  · cases e <;> cases hcaught

namespace Blockchain

/-- Everything `add_block` demands of a block before it stores it on top of the row `p`. -/
structure Placement (params : ChainParams) (now : Nat) (c : Blockchain) (b : Block) (p : BlockRow)
    (work : Nat) : Prop where
  notInvalid : c.isInvalid b.hash = false
  unknown : c.storage.blocks.lookup b.hash = none
  parent : c.storage.blocks.lookup b.header.prevHash = some p
  proofAllowed : ¬ (b.hasAuxpow = true ∧ auxpowActiveAt params (p.height + 1) = false)
  sane : b.checkSanity params.powLimit params.maxBlockSize params.minOutputValue
    (auxpowActiveAt params (p.height + 1)) = .ok ()
  parentValid : c.isInvalid b.header.prevHash = false
  checkpoint : ¬ ((params.checkpoints.lookup (p.height + 1)).any (· ≠ b.hashHex)) = true
  context : checkContext params c.storage now b (p.entry b.header.prevHash) (p.height + 1) = .ok ()
  proof : checkAuxpow params b = .ok ()
  workEq : blockWork b.header.bits.toNat = .ok work
  fits : p.chainwork + work < 2 ^ 256

/-- The chain after `b` has been stored on top of the row `p`. -/
def place (c : Blockchain) (b : Block) (p : BlockRow) (work : Nat) : Blockchain :=
  { c with storage := { c.storage with
      blocks := c.storage.blocks.insert b.hash
        ⟨p.height + 1, p.chainwork + work, false, false, b, b.transactions.length⟩ } }

theorem Placement.admitted {params : ChainParams} {now : Nat} {c : Blockchain} {b : Block}
    {p : BlockRow} {work : Nat} (h : c.Placement params now b p work) :
    Admitted params (p.height + 1) b :=
  ⟨Block.checkSanity_sane h.sane, checkContext_claims h.context⟩

omit [ScanOrder Hash] in
theorem putBlock_eq_ok {s s' : Storage} {b : Block} {height chainwork : Nat}
    {entry : BlockIndexEntry} :
    s.putBlock b height chainwork false = .ok (s', entry) ↔ chainwork < 2 ^ 256 ∧
      s' = { s with
        blocks := s.blocks.insert b.hash
          ⟨height, chainwork, false, false, b, b.transactions.length⟩ } ∧
      entry = BlockRow.entry b.hash ⟨height, chainwork, false, false, b,
        b.transactions.length⟩ := by
  unfold Storage.putBlock
  rw [raiseIf_bind_eq_ok, pure_eq_ok, Prod.mk.injEq, Nat.not_le]
  constructor
  · rintro ⟨hfit, rfl, rfl⟩
    exact ⟨hfit, rfl, rfl⟩
  · rintro ⟨hfit, rfl, rfl⟩
    exact ⟨hfit, rfl, rfl⟩

omit [ScanOrder Hash] in
theorem storeBlock_eq_stored {params : ChainParams} {c c' : Blockchain} {b : Block}
    {parent : BlockIndexEntry} {height height' : Nat} :
    storeBlock params c b parent height = .ok (.stored c' height') ↔
      checkAuxpow params b = .ok () ∧ ∃ work, blockWork b.header.bits.toNat = .ok work ∧
        parent.chainwork + work < 2 ^ 256 ∧ height' = height ∧
        c' = { c with storage := { c.storage with
          blocks := c.storage.blocks.insert b.hash
            ⟨height, parent.chainwork + work, false, false, b, b.transactions.length⟩ } } := by
  unfold storeBlock
  cases hproof : checkAuxpow params b with
  | error e =>
    dsimp only
    split
    · simp [reject]
    · simp
  | ok u =>
    dsimp only
    rw [bind_eq_ok]
    constructor
    · rintro ⟨work, hwork, hrest⟩
      obtain ⟨⟨s, entry⟩, hput, hpure⟩ := bind_eq_ok.mp hrest
      obtain ⟨hfit, rfl, -⟩ := putBlock_eq_ok.mp hput
      injection pure_eq_ok.mp hpure with hc hheight
      exact ⟨rfl, work, hwork, hfit, hheight.symm, hc.symm⟩
    · rintro ⟨-, work, hwork, hfit, rfl, rfl⟩
      exact ⟨work, hwork, bind_eq_ok.mpr ⟨_, putBlock_eq_ok.mpr ⟨hfit, rfl, rfl⟩, rfl⟩⟩

theorem judgeBlock_eq_stored {params : ChainParams} {now : Nat} {c c' : Blockchain} {b : Block}
    {parent : BlockIndexEntry} {height height' : Nat} :
    judgeBlock params now c b parent height = .ok (.stored c' height') ↔
      c.isInvalid parent.hash = false ∧
      ¬ ((params.checkpoints.lookup height).any (· ≠ b.hashHex)) = true ∧
      checkContext params c.storage now b parent height = .ok () ∧
      storeBlock params c b parent height = .ok (.stored c' height') := by
  unfold judgeBlock
  by_cases hparent : c.isInvalid parent.hash = true
  · rw [if_pos hparent]
    refine iff_of_false (fun h => ?_) (fun h => absurd hparent (by simp [h.1]))
    cases Except.ok.inj h
  rw [if_neg hparent]
  by_cases hpoint : ((params.checkpoints.lookup height).any (· ≠ b.hashHex)) = true
  · rw [if_pos hpoint]
    refine iff_of_false (fun h => ?_) (fun h => h.2.1 hpoint)
    cases Except.ok.inj h
  rw [if_neg hpoint]
  cases hcontext : checkContext params c.storage now b parent height with
  | ok u => exact ⟨fun h => ⟨Bool.not_eq_true _ ▸ hparent, hpoint, rfl, h⟩, fun h => h.2.2.2⟩
  | error e =>
    refine iff_of_false (fun h => ?_) (fun h => nomatch h.2.2.1)
    cases e <;> cases h

/-- `add_block` stores exactly the blocks that meet every demand. -/
theorem admitBlock_eq_stored {params : ChainParams} {now : Nat} {c c' : Blockchain} {b : Block}
    {height : Nat} :
    c.admitBlock params now b = .ok (.stored c' height) ↔
      ∃ p work, c.Placement params now b p work ∧ height = p.height + 1 ∧
      c' = c.place b p work := by
  unfold admitBlock
  -- each early answer contradicts a field of the placement
  by_cases hinvalid : c.isInvalid b.hash = true
  · rw [if_pos hinvalid]
    constructor
    · intro h
      cases Except.ok.inj h
    · rintro ⟨p, work, hplace, -⟩
      rw [hplace.notInvalid] at hinvalid
      cases hinvalid
  rw [if_neg hinvalid]
  have hinvalid' : c.isInvalid b.hash = false := Bool.not_eq_true _ ▸ hinvalid
  by_cases hknown : c.storage.hasBlock b.hash = true
  · rw [if_pos hknown]
    constructor
    · intro h
      cases Except.ok.inj h
    · rintro ⟨p, work, hplace, -⟩
      rw [Storage.hasBlock, hplace.unknown] at hknown
      cases hknown
  rw [if_neg hknown]
  have hunknown : c.storage.blocks.lookup b.hash = none := by
    simpa [Storage.hasBlock] using hknown
  unfold Storage.getEntry
  cases hparent : c.storage.blocks.lookup b.header.prevHash with
  | none =>
    constructor
    · intro h
      cases Except.ok.inj h
    · rintro ⟨p, work, hplace, -⟩
      have hp := hplace.parent
      rw [hparent] at hp
      cases hp
  | some p =>
    -- the parent of the placement is the row that was found
    have hrow : ∀ p', c.storage.blocks.lookup b.header.prevHash = some p' → p' = p :=
      fun p' hp' => Option.some.inj (hp'.symm.trans hparent)
    rw [Option.map_some]
    dsimp only
    rw [show (p.entry b.header.prevHash).height = p.height from rfl]
    by_cases hproof : b.hasAuxpow = true ∧ auxpowActiveAt params (p.height + 1) = false
    · rw [if_pos hproof]
      constructor
      · intro h
        cases Except.ok.inj h
      · rintro ⟨p', work, hplace, -⟩
        obtain rfl := hrow p' hplace.parent
        exact absurd hproof hplace.proofAllowed
    rw [if_neg hproof]
    cases hsane : b.checkSanity params.powLimit params.maxBlockSize params.minOutputValue
        (auxpowActiveAt params (p.height + 1)) with
    | error e =>
      have hno : ¬ ∃ p work, c.Placement params now b p work ∧ height = p.height + 1 ∧
          c' = c.place b p work := by
        rintro ⟨p', work, hplace, -⟩
        obtain rfl := hrow p' hplace.parent
        have hok := hplace.sane
        rw [hsane] at hok
        cases hok
      refine iff_of_false (fun h => ?_) hno
      cases e <;> cases h
    | ok u =>
      -- what is left is the judgement and the storing, each with its own inversion
      dsimp only
      rw [judgeBlock_eq_stored, storeBlock_eq_stored]
      constructor
      · rintro ⟨hvalid, hpoint, hcontext, haux, work, hwork, hfit, rfl, rfl⟩
        exact ⟨p, work,
          ⟨hinvalid', hunknown, hparent, hproof, hsane, hvalid, hpoint, hcontext, haux,
          hwork, hfit⟩, rfl, rfl⟩
      · rintro ⟨p', work, hplace, rfl, rfl⟩
        obtain rfl := hrow p' hplace.parent
        exact ⟨hplace.parentValid, hplace.checkpoint, hplace.context, hplace.proof, work,
          hplace.workEq, hplace.fits, rfl, rfl⟩

/-! ## Answers without storing -/

/-- An answer leaves the chain as it is, or remembers the hash of the block. -/
def AtMostRemembers (c : Blockchain) (b : Block) (c' : Blockchain) : Prop :=
  c' = c ∨ ∃ reason, c' = c.remember b.hash reason

omit [ScanOrder Hash] in
theorem AtMostRemembers.of_reject {c c' : Blockchain} {b : Block} {height : Option Nat}
    {reason : String} {r : AddBlockResult}
    (h : c.reject b.hash height reason = .answered c' r) : AtMostRemembers c b c' := by
  injection h with hc _
  exact .inr ⟨reason, hc.symm⟩

omit [ScanOrder Hash] in
theorem storeBlock_answered {params : ChainParams} {c c' : Blockchain} {b : Block}
    {parent : BlockIndexEntry} {height : Nat} {r : AddBlockResult}
    (h : storeBlock params c b parent height = .ok (.answered c' r)) : AtMostRemembers c b c' := by
  unfold storeBlock at h
  split at h
  · split at h
    · exact .of_reject (Except.ok.inj h)
    · cases h
  · obtain ⟨work, -, hrest⟩ := bind_eq_ok.mp h
    obtain ⟨⟨s, entry⟩, -, hpure⟩ := bind_eq_ok.mp hrest
    cases pure_eq_ok.mp hpure

theorem judgeBlock_answered {params : ChainParams} {now : Nat} {c c' : Blockchain} {b : Block}
    {parent : BlockIndexEntry} {height : Nat} {r : AddBlockResult}
    (h : judgeBlock params now c b parent height = .ok (.answered c' r)) :
    AtMostRemembers c b c' := by
  unfold judgeBlock at h
  split at h
  · exact .of_reject (Except.ok.inj h)
  split at h
  · exact .of_reject (Except.ok.inj h)
  split at h
  · injection Except.ok.inj h with hc _
    exact .inl hc.symm
  · split at h
    · exact .of_reject (Except.ok.inj h)
    · cases h
  · exact storeBlock_answered h

/-- A block that is not stored changes at most what is remembered about its own hash. -/
theorem admitBlock_answered {params : ChainParams} {now : Nat} {c c' : Blockchain} {b : Block}
    {r : AddBlockResult} (h : c.admitBlock params now b = .ok (.answered c' r)) :
    AtMostRemembers c b c' := by
  unfold admitBlock at h
  split at h
  · injection Except.ok.inj h with hc _
    exact .inl hc.symm
  split at h
  · injection Except.ok.inj h with hc _
    exact .inl hc.symm
  split at h
  · injection Except.ok.inj h with hc _
    exact .inl hc.symm
  · dsimp only at h
    split at h
    · exact .of_reject (Except.ok.inj h)
    split at h
    · exact .of_reject (Except.ok.inj h)
    · exact .of_reject (Except.ok.inj h)
    · cases h
    · exact judgeBlock_answered h

end Blockchain

end ScarletCoin
