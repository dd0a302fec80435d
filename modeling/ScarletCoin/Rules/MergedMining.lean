import ScarletCoin.Core.AuxPow
import ScarletCoin.Sample
import ScarletCoin.Toolkit.HashPath

/-!
# Merged mining

`validateAuxpow_eq_ok` lists what a merged-mining proof must meet. Nothing in the list ties the
parent coinbase to a position in the parent block, or the length of the auxiliary branch to the
height of the tree that the commitment announces. So one parent header can carry proofs for several
blocks, in either of two ways: through two transactions of the parent block that both are coinbases,
and through two depths of one auxiliary tree (`parent_counted_twice`).

Where the coinbases hold one commitment, or both stand first, and the auxiliary branches are equally
long (`SamePlace`), the proofs are for one block (`validateAuxpow_unique`).
-/

set_option autoImplicit false

namespace ScarletCoin

open Toolkit

/-! ## Merkle branches as paths -/

/-- The sides on which a climb of `levels` levels from position `index` stands. -/
def sides : Nat → Nat → List Bool
  | 0, _ => []
  | levels + 1, index => decide (index % 2 = 1) :: sides levels (index / 2)

theorem sides_length (levels index : Nat) : (sides levels index).length = levels := by
  induction levels generalizing index with
  | zero => rfl
  | succ levels ih => simp only [sides, List.length_cons, ih]

theorem sides_zero (levels : Nat) : ∀ right ∈ sides levels 0, right = false := by
  induction levels with
  | zero =>
    intro right hr
    cases hr
  | succ levels ih =>
    intro right hr
    rcases List.mem_cons.mp hr with rfl | hr
    · rfl
    · exact ih right hr

/-- Two digests side by side. -/
def joined (a b : Hash) : Bytes := a.val ++ b.val

theorem joined_injective (a b a' b' : Hash) (h : joined a b = joined a' b') : a = a' ∧ b = b' := by
  obtain ⟨ha, hb⟩ := append_split (by rw [a.property, a'.property]) h
  exact ⟨Subtype.ext ha, Subtype.ext hb⟩

theorem joined_length (a b : Hash) : (joined a b).length = 64 := by
  rw [joined, List.length_append, a.property, b.property]

section Climb

variable [Crypto]

/-- The messages that a climb hashes. -/
def climbed : Bytes → List Bytes → Nat → List Bytes
  | _, [], _ => []
  | leaf, sibling :: branch, index =>
      let message := if index % 2 = 1 then sibling ++ leaf else leaf ++ sibling
      message :: climbed (hash256 message).val branch (index / 2)

/-- A climb that returns follows a path. -/
theorem climb_path {leaf : Hash} {branch : List Bytes} {index : Nat} {root : Bytes}
    (h : climb leaf.val branch index = .ok root) :
    ∃ path : List (Bool × Hash), path.map Prod.fst = sides branch.length index ∧
      (HashPath.top hash256 joined leaf path).val = root ∧
      HashPath.hashed hash256 joined leaf path = climbed leaf.val branch index := by
  induction branch generalizing leaf index with
  | nil => exact ⟨[], rfl, Except.ok.inj h, rfl⟩
  | cons sibling branch ih =>
    simp only [climb] at h
    obtain ⟨hlen, hrest⟩ := raiseIf_bind_eq_ok.mp h
    obtain ⟨s, rfl⟩ : ∃ s : Hash, s.val = sibling := ⟨⟨sibling, not_not.mp hlen⟩, rfl⟩
    have hmessage : HashPath.message joined (decide (index % 2 = 1)) leaf s =
        if index % 2 = 1 then s.val ++ leaf.val else leaf.val ++ s.val := by
      simp only [HashPath.message, joined, decide_eq_true_eq]
    have hcurrent : (if index % 2 = 1 then hash256 (s.val ++ leaf.val)
        else hash256 (leaf.val ++ s.val)) =
          hash256 (HashPath.message joined (decide (index % 2 = 1)) leaf s) := by
      rw [hmessage]
      split <;> rfl
    rw [hcurrent] at hrest
    obtain ⟨path, hsides, htop, hhashed⟩ := ih hrest
    refine ⟨(decide (index % 2 = 1), s) :: path, ?_, htop, ?_⟩
    · simp only [List.map_cons, List.length_cons, sides, hsides]
    · simp only [HashPath.hashed, climbed, hhashed]
      rw [hmessage]

/-- Every message of a path is two digests long. -/
theorem hashed_length {leaf : Hash} {path : List (Bool × Hash)} :
    ∀ x ∈ HashPath.hashed hash256 joined leaf path, x.length = 64 := by
  induction path generalizing leaf with
  | nil =>
    intro x hx
    cases hx
  | cons step path ih =>
    intro x hx
    simp only [HashPath.hashed] at hx
    rcases List.mem_cons.mp hx with rfl | hx
    · cases hside : step.1 <;> simp only [HashPath.message] <;> exact joined_length _ _
    · exact ih x hx

theorem checkMerkleBranch_eq_ok {leaf root : Bytes} {branch : List Bytes} {index : Nat} :
    checkMerkleBranch leaf branch index = .ok root ↔
      leaf.length = 32 ∧ branch.length ≤ MAX_MERKLE_BRANCH_DEPTH ∧
        climb leaf branch index = .ok root := by
  simp only [checkMerkleBranch, raiseIf_bind_eq_ok, not_not, Nat.not_lt]

end Climb

/-! ## What a proof must meet -/

section Rules

variable [Crypto]

/-- The rules of `validate_auxpow`, with the commitment found in the parent coinbase. -/
structure AuxPoWRules (a : AuxPoW) (auxBlockHash : Bytes) (auxTarget chainId : Nat)
    (commitment : AuxPoWCommitment) : Prop where
  configured : chainId ≠ 0
  coinbaseDepth : a.coinbaseMerkleBranch.length ≤ MAX_MERKLE_BRANCH_DEPTH
  auxDepth : a.auxMerkleBranch.length ≤ MAX_MERKLE_BRANCH_DEPTH
  coinbaseSiblings : ∀ sibling ∈ a.coinbaseMerkleBranch, sibling.length = 32
  auxSiblings : ∀ sibling ∈ a.auxMerkleBranch, sibling.length = 32
  isCoinbase : a.coinbaseTx.isCoinbase = true
  hashSize : auxBlockHash.length = 32
  auxRoot : checkMerkleBranch auxBlockHash a.auxMerkleBranch a.auxChainIndex =
    .ok commitment.auxRoot.val
  committed : parseAuxpowCommitment a.coinbaseTx.coinbaseData.val = .ok (some commitment)
  positive : 1 ≤ commitment.treeSize
  powerOfTwo : commitment.treeSize &&& (commitment.treeSize - 1) = 0
  slot : a.auxChainIndex =
    getExpectedIndex commitment.nonce chainId commitment.auxTreeHeight
  coinbaseRoot : checkMerkleBranch a.coinbaseHash.val a.coinbaseMerkleBranch a.coinbaseIndex =
    .ok a.parentHeader.merkleRoot.val
  work : hashToInt a.parentHash ≤ auxTarget

/-- `validate_auxpow` returns iff all its rules are met. -/
theorem validateAuxpow_eq_ok {a : AuxPoW} {auxBlockHash : Bytes} {auxTarget chainId : Nat} :
    validateAuxpow a auxBlockHash auxTarget chainId = .ok () ↔
      ∃ commitment, AuxPoWRules a auxBlockHash auxTarget chainId commitment := by
  have hsiblings : ∀ (branch : List Bytes) (text : String),
      forEach (fun sibling : Bytes => raiseIf (sibling.length ≠ 32) (PyError.auxPoW text)) branch =
        .ok () ↔ ∀ sibling ∈ branch, sibling.length = 32 := by
    intro branch text
    rw [forEach_eq_ok]
    simp only [raiseIf_eq_ok, not_not]
  simp only [validateAuxpow]
  constructor
  · -- the checks in the order in which they are made
    intro h
    obtain ⟨hchain, h⟩ := raiseIf_bind_eq_ok.mp h
    obtain ⟨hdepth, h⟩ := raiseIf_bind_eq_ok.mp h
    obtain ⟨hauxDepth, h⟩ := raiseIf_bind_eq_ok.mp h
    obtain ⟨⟨⟩, hcoinbaseBranch, h⟩ := bind_eq_ok.mp h
    obtain ⟨⟨⟩, hauxBranch, h⟩ := bind_eq_ok.mp h
    obtain ⟨hcoinbase, h⟩ := raiseIf_bind_eq_ok.mp h
    obtain ⟨hsize, h⟩ := raiseIf_bind_eq_ok.mp h
    obtain ⟨auxRoot, hroot, h⟩ := bind_eq_ok.mp h
    obtain ⟨found, hfound, h⟩ := bind_eq_ok.mp h
    cases found with
    | none => cases h
    | some commitment =>
      obtain ⟨hauxRoot, h⟩ := raiseIf_bind_eq_ok.mp h
      obtain ⟨hpositive, h⟩ := raiseIf_bind_eq_ok.mp h
      obtain ⟨hpower, h⟩ := raiseIf_bind_eq_ok.mp h
      obtain ⟨hslot, h⟩ := raiseIf_bind_eq_ok.mp h
      obtain ⟨coinbaseRoot, hcbRoot, h⟩ := bind_eq_ok.mp h
      obtain ⟨hmerkle, h⟩ := raiseIf_bind_eq_ok.mp h
      have hwork := raiseIf_eq_ok.mp h
      obtain rfl := not_not.mp hauxRoot
      obtain rfl := not_not.mp hmerkle
      exact ⟨commitment, hchain, Nat.not_lt.mp hdepth, Nat.not_lt.mp hauxDepth,
        (hsiblings _ _).mp hcoinbaseBranch, (hsiblings _ _).mp hauxBranch,
        Bool.not_eq_false _ ▸ hcoinbase, not_not.mp hsize, hroot, hfound, Nat.not_lt.mp hpositive,
        not_not.mp hpower, not_not.mp hslot, hcbRoot, Nat.not_lt.mp hwork⟩
  · rintro ⟨commitment, h⟩
    refine raiseIf_bind_eq_ok.mpr ⟨h.configured, raiseIf_bind_eq_ok.mpr
      ⟨Nat.not_lt.mpr h.coinbaseDepth, raiseIf_bind_eq_ok.mpr ⟨Nat.not_lt.mpr h.auxDepth, ?_⟩⟩⟩
    refine bind_eq_ok.mpr ⟨(), (hsiblings _ _).mpr h.coinbaseSiblings, ?_⟩
    refine bind_eq_ok.mpr ⟨(), (hsiblings _ _).mpr h.auxSiblings, ?_⟩
    refine raiseIf_bind_eq_ok.mpr ⟨by simp [h.isCoinbase], raiseIf_bind_eq_ok.mpr
      ⟨not_not.mpr h.hashSize, bind_eq_ok.mpr ⟨_, h.auxRoot, bind_eq_ok.mpr ⟨_, h.committed, ?_⟩⟩⟩⟩
    refine raiseIf_bind_eq_ok.mpr ⟨not_not.mpr rfl, raiseIf_bind_eq_ok.mpr
      ⟨Nat.not_lt.mpr h.positive, raiseIf_bind_eq_ok.mpr ⟨not_not.mpr h.powerOfTwo,
        raiseIf_bind_eq_ok.mpr ⟨not_not.mpr h.slot, bind_eq_ok.mpr ⟨_, h.coinbaseRoot, ?_⟩⟩⟩⟩⟩
    exact raiseIf_bind_eq_ok.mpr ⟨not_not.mpr rfl, raiseIf_eq_ok.mpr (Nat.not_lt.mpr h.work)⟩

/-! ## Proofs at one place -/

/-- The messages whose digests a validation compares: the body of the parent coinbase and the nodes
of the two climbs. -/
def AuxPoW.messages (a : AuxPoW) (auxBlockHash : Bytes) : List Bytes :=
  a.coinbaseTx.serializeBody ::
    (climbed a.coinbaseHash.val a.coinbaseMerkleBranch a.coinbaseIndex ++
      climbed auxBlockHash a.auxMerkleBranch a.auxChainIndex)

/-- The proofs look at one place: the parent coinbases hold the same commitment or both stand first,
and the auxiliary branches are equally long. -/
structure SamePlace (a b : AuxPoW) : Prop where
  coinbase : parseAuxpowCommitment a.coinbaseTx.coinbaseData.val =
      parseAuxpowCommitment b.coinbaseTx.coinbaseData.val ∨
    (a.coinbaseIndex = 0 ∧ b.coinbaseIndex = 0)
  level : a.auxMerkleBranch.length = b.auxMerkleBranch.length

omit [Crypto] in
theorem length_of_mem_afterMarkers {skip : Nat} {data x : Bytes}
    (hx : x ∈ afterMarkers skip data) : x.length ≤ data.length := by
  induction data generalizing skip with
  | nil => cases skip <;> simp [afterMarkers] at hx
  | cons b rest ih =>
    cases skip with
    | succ skip => exact Nat.le_succ_of_le (ih hx)
    | zero =>
      simp only [afterMarkers] at hx
      split at hx
      · rcases List.mem_cons.mp hx with rfl | hx
        · simp only [List.length_drop, List.length_cons]
          omega
        · exact Nat.le_succ_of_le (ih hx)
      · exact Nat.le_succ_of_le (ih hx)

omit [Crypto] in
/-- A data field with a commitment has room for it. -/
theorem commitment_length {data : Bytes} {commitment : AuxPoWCommitment}
    (h : parseAuxpowCommitment data = .ok (some commitment)) : 40 ≤ data.length := by
  have hfound : ∃ x ∈ afterMarkers 0 data, readCommitment x = some commitment := by
    rw [← List.mem_filterMap]
    simp only [parseAuxpowCommitment] at h
    split at h
    · cases h
    · rename_i found hfilter
      obtain rfl := Option.some.inj (Except.ok.inj h)
      rw [hfilter]
      exact List.mem_singleton_self _
    · cases h
  obtain ⟨x, hx, hread⟩ := hfound
  have hlen := length_of_mem_afterMarkers hx
  simp only [readCommitment] at hread
  split at hread
  · cases hread
  · omega

omit [Crypto] in
/-- The body of a coinbase with a commitment is longer than two digests. -/
theorem coinbaseBody_length {t : Transaction} {commitment : AuxPoWCommitment}
    (hcoinbase : t.isCoinbase = true)
    (h : parseAuxpowCommitment t.coinbaseData.val = .ok (some commitment)) :
    64 < t.serializeBody.length := by
  have hdata := commitment_length h
  -- the one input takes 40 bytes and the commitment at least another 40
  obtain ⟨txin, hinputs⟩ : ∃ txin, t.inputs = [txin] := by
    unfold Transaction.isCoinbase at hcoinbase
    split at hcoinbase
    · exact ⟨_, ‹_›⟩
    · cases hcoinbase
  have hinput : (t.inputs.flatMap fun txin => InputCore.serialize txin.core).length = 40 := by
    rw [hinputs]
    simp [InputCore.serialize, Writer.uint32, txin.core.1.txid.property]
  simp only [Transaction.serializeBody, List.length_append, Writer.varbytes, hinput]
  omega

/-- With the parent coinbases at position zero of one parent block, both are the same transaction,
but for the witnesses. -/
theorem AuxPoWRules.first_coinbase {a b : AuxPoW} {h₁ h₂ : Bytes} {t₁ t₂ chainId : Nat}
    {c₁ c₂ : AuxPoWCommitment} (ha : AuxPoWRules a h₁ t₁ chainId c₁)
    (hb : AuxPoWRules b h₂ t₂ chainId c₂) (hparent : a.parentHeader = b.parentHeader)
    (hai : a.coinbaseIndex = 0) (hbi : b.coinbaseIndex = 0)
    (hcol : CollisionFree hash256 (a.messages h₁ ++ b.messages h₂))
    (hlen : a.coinbaseMerkleBranch.length ≤ b.coinbaseMerkleBranch.length) :
    a.coinbaseTx.serializeBody = b.coinbaseTx.serializeBody := by
  obtain ⟨-, -, hclimb⟩ := checkMerkleBranch_eq_ok.mp ha.coinbaseRoot
  obtain ⟨-, -, hclimb'⟩ := checkMerkleBranch_eq_ok.mp hb.coinbaseRoot
  obtain ⟨path, hsides, htop, hhashed⟩ := climb_path hclimb
  obtain ⟨path', hsides', htop', hhashed'⟩ := climb_path hclimb'
  have hpath : path.length = a.coinbaseMerkleBranch.length := by
    have hl := congrArg List.length hsides
    rwa [List.length_map, sides_length] at hl
  have hpath' : path'.length = b.coinbaseMerkleBranch.length := by
    have hl := congrArg List.length hsides'
    rwa [List.length_map, sides_length] at hl
  have hroots : HashPath.top hash256 joined a.coinbaseHash path =
      HashPath.top hash256 joined b.coinbaseHash path' := by
    apply Subtype.ext
    rw [htop, htop', hparent]
  have hbody : a.coinbaseTx.serializeBody ∈ a.messages h₁ ++ b.messages h₂ :=
    List.mem_append_left _ List.mem_cons_self
  have hclimbed : ∀ x ∈ HashPath.hashed hash256 joined b.coinbaseHash path',
      x ∈ a.messages h₁ ++ b.messages h₂ := by
    intro x hx
    rw [hhashed'] at hx
    exact List.mem_append_right _ (List.mem_cons_of_mem _ (List.mem_append_left _ hx))
  have hclimbed₀ : ∀ x ∈ HashPath.hashed hash256 joined a.coinbaseHash path,
      x ∈ a.messages h₁ ++ b.messages h₂ := by
    intro x hx
    rw [hhashed] at hx
    exact List.mem_append_left _ (List.mem_cons_of_mem _ (List.mem_append_left _ hx))
  rcases HashPath.leaf_of_constant_side joined_injective (by rw [hsides, hai]; exact sides_zero _)
    (by rw [hsides', hbi]; exact sides_zero _) (hcol.sublist fun x hx =>
      (List.mem_append.mp hx).elim (hclimbed₀ x) (hclimbed x)) hroots
        (by rw [hpath, hpath']; exact hlen)
    with hleaf | ⟨x, hx, hleaf⟩
  · exact hcol _ hbody _ (List.mem_append_right _ List.mem_cons_self) hleaf
  · -- the body of a coinbase is no node of a tree
    have hlong := coinbaseBody_length ha.isCoinbase ha.committed
    have hnode := hcol _ hbody x (hclimbed x hx) hleaf
    rw [hnode, hashed_length x hx] at hlong
    exact absurd hlong (Nat.lt_irrefl 64)

/-- **Proofs at one place of one parent block are for one block**, unless two of the messages that
they hash collide. -/
theorem validateAuxpow_unique {a b : AuxPoW} {h₁ h₂ : Bytes} {t₁ t₂ chainId : Nat}
    (hparent : a.parentHeader = b.parentHeader) (hplace : SamePlace a b)
    (hcol : CollisionFree hash256 (a.messages h₁ ++ b.messages h₂))
    (ha : validateAuxpow a h₁ t₁ chainId = .ok ()) (hb : validateAuxpow b h₂ t₂ chainId = .ok ()) :
    h₁ = h₂ := by
  obtain ⟨c₁, ha⟩ := validateAuxpow_eq_ok.mp ha
  obtain ⟨c₂, hb⟩ := validateAuxpow_eq_ok.mp hb
  have hsame : parseAuxpowCommitment a.coinbaseTx.coinbaseData.val =
      parseAuxpowCommitment b.coinbaseTx.coinbaseData.val := by
    rcases hplace.coinbase with hsame | ⟨hai, hbi⟩
    · exact hsame
    · have hbody : a.coinbaseTx.serializeBody = b.coinbaseTx.serializeBody := by
        rcases Nat.le_total a.coinbaseMerkleBranch.length b.coinbaseMerkleBranch.length with hle |
          hle
        · exact ha.first_coinbase hb hparent hai hbi hcol hle
        · refine (hb.first_coinbase ha hparent.symm hbi hai (hcol.sublist fun x hx => ?_) hle).symm
          exact (List.mem_append.mp hx).elim (List.mem_append_right _) (List.mem_append_left _)
      obtain ⟨⟨-, -, -, -, hdata⟩, -⟩ := Transaction.serializeBody_selfDelimiting
        (a := a.coinbaseTx) (b := b.coinbaseTx) (x := []) (y := []) (by rw [hbody])
      rw [hdata]
  obtain rfl : c₁ = c₂ := by
    have hfound := ha.committed
    rw [hsame, hb.committed] at hfound
    exact (Option.some.inj (Except.ok.inj hfound)).symm
  -- one commitment names one root and one slot, and the branches turn alike at every level
  obtain ⟨hsize, -, hclimb⟩ := checkMerkleBranch_eq_ok.mp ha.auxRoot
  obtain ⟨hsize', -, hclimb'⟩ := checkMerkleBranch_eq_ok.mp hb.auxRoot
  obtain ⟨leaf, rfl⟩ : ∃ leaf : Hash, leaf.val = h₁ := ⟨⟨h₁, hsize⟩, rfl⟩
  obtain ⟨leaf', rfl⟩ : ∃ leaf' : Hash, leaf'.val = h₂ := ⟨⟨h₂, hsize'⟩, rfl⟩
  obtain ⟨path, hsides, htop, hhashed⟩ := climb_path hclimb
  obtain ⟨path', hsides', htop', hhashed'⟩ := climb_path hclimb'
  have hturns : path.map Prod.fst = path'.map Prod.fst := by
    rw [hsides, hsides', ha.slot, hb.slot, hplace.level]
  have hroots : HashPath.top hash256 joined leaf path =
      HashPath.top hash256 joined leaf' path' := by
    apply Subtype.ext
    rw [htop, htop']
  refine congrArg Subtype.val
    (HashPath.top_injective joined_injective hturns (hcol.sublist fun x hx => ?_) hroots)
  rw [hhashed, hhashed'] at hx
  rcases List.mem_append.mp hx with hx | hx
  · exact List.mem_append_left _ (List.mem_cons_of_mem _ (List.mem_append_right _ hx))
  · exact List.mem_append_right _ (List.mem_cons_of_mem _ (List.mem_append_right _ hx))

end Rules

/-! ## One parent block, two blocks -/

section Twice

attribute [local instance] Sample.crypto Sample.order

/-- A parent coinbase that commits to `root`, for a tree of `treeSize` leaves and the nonce zero. -/
def mergedCoinbase (root : Hash) (treeSize : Nat) (witness : List Blob)
    (h : witness.length < 2 ^ 64) : Transaction where
  version := 1
  inputs := [⟨COINBASE_OUTPOINT, SEQUENCE_FINAL, witness, h⟩]
  outputs := [Sample.reward]
  lockTime := 0
  coinbaseData := ⟨leBytes 4 0 ++ (MERGED_MINING_HEADER ++ (root.val ++ (leBytes 4 treeSize ++
    leBytes 4 0))), by simp [MERGED_MINING_HEADER, root.property]⟩
  inputs_fit := by simp
  outputs_fit := by simp

/-- A parent header over a Merkle root. -/
def parentOver (root : Hash) : ParentBlockHeader := ⟨1, nullHash, root, 0, 0, 0⟩

/-- Two blocks at the same height. -/
def firstBlock : Hash := (Sample.regtestBlock Sample.genesisHash 1 0).hash

def secondBlock : Hash := (Sample.regtestBlock Sample.genesisHash 1 1).hash

/-- The left half of an auxiliary tree with the second block as its right leaf. -/
def leftHalf : Hash := hash256 (joined nullHash secondBlock)

/-- A coinbase that announces two leaves and commits to a tree with the first block one level down
and the second block two levels down. -/
def deepCoinbase (witness : List Blob) (h : witness.length < 2 ^ 64) : Transaction :=
  mergedCoinbase (hash256 (joined leftHalf firstBlock)) 2 witness h

/-- The proof for the first block: the right leaf of the tree. -/
def shallowProof (witness : List Blob) (h : witness.length < 2 ^ 64) : AuxPoW :=
  ⟨deepCoinbase witness h, [], 0, [leftHalf.val], 1,
    parentOver (deepCoinbase [] Sample.noItems_fit).txid⟩

/-- The proof for the second block: the right leaf of the left half. -/
def deepProof : AuxPoW :=
  ⟨deepCoinbase [] Sample.noItems_fit, [], 0, [nullHash.val, firstBlock.val], 1,
    parentOver (deepCoinbase [] Sample.noItems_fit).txid⟩

/-- A coinbase that commits to one block. -/
def plainCoinbase (block : Hash) : Transaction := mergedCoinbase block 1 [] Sample.noItems_fit

/-- A parent header over the two coinbases. -/
def sharedParent : ParentBlockHeader :=
  parentOver (hash256 (joined (plainCoinbase firstBlock).txid (plainCoinbase secondBlock).txid))

/-- The proof for the first block, through the first transaction of the parent block. -/
def leftProof : AuxPoW :=
  ⟨plainCoinbase firstBlock, [(plainCoinbase secondBlock).txid.val], 0, [], 0, sharedParent⟩

/-- The proof for the second block, through the second transaction. -/
def rightProof : AuxPoW :=
  ⟨plainCoinbase secondBlock, [(plainCoinbase firstBlock).txid.val], 1, [], 0, sharedParent⟩

/-- It holds of two proofs that differ in the witness of the coinbase. -/
theorem validateAuxpow_unique_shallow :
    ∃ (a b : AuxPoW) (h₁ h₂ : Bytes), a ≠ b ∧ a.parentHeader = b.parentHeader ∧
      validateAuxpow a h₁ REGTEST.powLimit 3 = .ok () ∧
      validateAuxpow b h₂ REGTEST.powLimit 3 = .ok () ∧ h₁ = h₂ := by
  let a := shallowProof [] Sample.noItems_fit
  let b := shallowProof [⟨[1], by decide⟩] (by decide)
  have hparent : a.parentHeader = b.parentHeader := rfl
  have hplace : SamePlace a b := ⟨.inl (by decide +kernel), rfl⟩
  have hcol : CollisionFree hash256 (a.messages firstBlock.val ++ b.messages firstBlock.val) := by
    decide +kernel
  have ha : validateAuxpow a firstBlock.val REGTEST.powLimit 3 = .ok () := by decide +kernel
  have hb : validateAuxpow b firstBlock.val REGTEST.powLimit 3 = .ok () := by decide +kernel
  exact ⟨a, b, _, _, by decide +kernel, hparent, ha, hb,
    validateAuxpow_unique hparent hplace hcol ha hb⟩

/-- One parent header backs two blocks, without a collision among the hashed messages: at two depths
of one auxiliary tree, and through two coinbases of one parent block. -/
theorem parent_counted_twice :
    (¬ ∀ (a b : AuxPoW) (h₁ h₂ : Bytes) (t₁ t₂ chainId : Nat), a.parentHeader = b.parentHeader →
      parseAuxpowCommitment a.coinbaseTx.coinbaseData.val =
        parseAuxpowCommitment b.coinbaseTx.coinbaseData.val →
      CollisionFree hash256 (a.messages h₁ ++ b.messages h₂) →
      validateAuxpow a h₁ t₁ chainId = .ok () → validateAuxpow b h₂ t₂ chainId = .ok () → h₁ = h₂) ∧
    ¬ ∀ (a b : AuxPoW) (h₁ h₂ : Bytes) (t₁ t₂ chainId : Nat), a.parentHeader = b.parentHeader →
      a.auxMerkleBranch.length = b.auxMerkleBranch.length →
      CollisionFree hash256 (a.messages h₁ ++ b.messages h₂) →
      validateAuxpow a h₁ t₁ chainId = .ok () → validateAuxpow b h₂ t₂ chainId = .ok () →
      h₁ = h₂ := by
  have hne : ¬ firstBlock.val = secondBlock.val := by decide +kernel
  constructor
  · intro h
    apply hne
    exact h (shallowProof [] Sample.noItems_fit) deepProof _ _ REGTEST.powLimit
      REGTEST.powLimit 3 rfl
      (by decide +kernel) (by decide +kernel) (by decide +kernel) (by decide +kernel)
  · intro h
    apply hne
    exact h leftProof rightProof _ _ REGTEST.powLimit REGTEST.powLimit 3 rfl rfl
      (by decide +kernel) (by decide +kernel) (by decide +kernel)

end Twice

end ScarletCoin
