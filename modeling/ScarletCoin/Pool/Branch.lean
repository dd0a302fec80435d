import ScarletCoin.Rules.MergedMining
import ScarletCoin.Rules.MerkleCommitment
import ScarletCoin.Pool.Coinbase

/-!
# The branch of the coinbase

The pool computes the Merkle branch of the coinbase before it knows the coinbase. No sibling is
derived from the placeholder that stands in for it (`branchFrom_placeholder`): each round joins leaf
0 with the sibling it lists, and the rest of the level is joined as in the tree of the block. So
folding the branch over any coinbase hash gives the Merkle root of the block, and the validator
climbs to the same root from position 0 (`coinbaseMerkleBranch_root`).
-/

set_option autoImplicit false

namespace ScarletCoin

open Toolkit

/-! ## Levels -/

section Branch

variable [Crypto]

theorem pairDigests_length {level : List Bytes} : ∀ x ∈ pairDigests level, x.length = 32 := by
  induction level using pairDigests.induct with
  | case1 a b rest ih =>
    intro x hx
    rcases List.mem_cons.mp hx with rfl | hx
    · exact (hash256 _).property
    · exact ih x hx
  | case2 level hlevel =>
    intro x hx
    rw [pairDigests] at hx
    · cases hx
    · exact hlevel

omit [Crypto] in
theorem mem_evenLevel {level : List Bytes} {x : Bytes} (h : x ∈ evenLevel level) : x ∈ level := by
  unfold evenLevel at h
  split at h
  · rcases List.mem_append.mp h with h | h
    · exact h
    · exact List.mem_of_getLast? (Option.mem_toList.mp h)
  · exact h

/-- A tree over 32-byte leaves has 32-byte siblings. -/
theorem branchFrom_length {rounds : Nat} {level : List Bytes} (h : ∀ x ∈ level, x.length = 32) :
    ∀ x ∈ branchFrom rounds level, x.length = 32 := by
  induction rounds generalizing level with
  | zero =>
    intro x hx
    cases hx
  | succ rounds ih =>
    intro x hx
    unfold branchFrom at hx
    split at hx
    · cases hx
    · rcases List.mem_append.mp hx with hx | hx
      · exact h x (mem_evenLevel (List.mem_of_getElem? (Option.mem_toList.mp hx)))
      · exact ih pairDigests_length x hx

theorem coinbaseMerkleBranch_length {txids : List Bytes} (h : ∀ id ∈ txids, id.length = 32) :
    ∀ x ∈ coinbaseMerkleBranch txids, x.length = 32 := by
  refine branchFrom_length fun x hx => ?_
  rcases List.mem_cons.mp hx with rfl | hx
  · exact nullHash.property
  · exact h x hx

/-- Folding a branch is climbing it from position 0. -/
theorem foldBranch_climb {leaf root : Hash} {branch : List Bytes} (h : ∀ x ∈ branch, x.length = 32)
    (hfold : foldBranch leaf (branch.map hex) = .ok root) : climb leaf.val branch 0 =
    .ok root.val := by
  induction branch generalizing leaf with
  | nil =>
    obtain rfl := Except.ok.inj hfold
    rfl
  | cons sibling branch ih =>
    have hlen := h sibling List.mem_cons_self
    rw [List.map_cons, foldBranch, fromHex_hex, ok_bind] at hfold
    have hrest := ih (fun x hx => h x (List.mem_cons_of_mem sibling hx)) hfold
    rw [climb]
    exact raiseIf_bind_eq_ok.mpr ⟨not_not.mpr hlen, hrest⟩

omit [Crypto] in
theorem evenLevel_cons (a b : Bytes) (rest : List Bytes) :
    evenLevel (a :: b :: rest) = a :: b :: evenLevel rest := by
  have hparity : (a :: b :: rest).length % 2 = rest.length % 2 := by
    simp only [List.length_cons]
    omega
  unfold evenLevel
  rw [hparity]
  split
  · rename_i hodd
    cases rest with
    | nil => cases hodd
    | cons c rest =>
      rw [List.getLast?_cons_cons, List.getLast?_cons_cons, List.cons_append, List.cons_append]
  · rfl

/-- The digests of a level of hashes are the level of the block's tree above it. -/
theorem pairDigests_evenLevel (hashes : List Hash) :
    pairDigests (evenLevel (hashes.map Subtype.val)) = (merkleLevel hashes).map Subtype.val := by
  fun_induction merkleLevel hashes with
  | case1 => rfl
  | case2 a => rfl
  | case3 a b rest ih =>
    rw [List.map_cons, List.map_cons, evenLevel_cons, pairDigests, ih, List.map_cons]

/-- A round lists the second entry of the level and joins it with leaf 0. -/
theorem branchFrom_succ (rounds : Nat) (leaf b : Bytes) (rest : List Bytes) :
    branchFrom (rounds + 1) (leaf :: b :: rest) =
      b :: branchFrom rounds ((hash256 (leaf ++ b)).val :: pairDigests (evenLevel rest)) := by
  rw [branchFrom, if_neg (by simp), evenLevel_cons, pairDigests]
  rfl

/-- The branch does not depend on what stands at leaf 0. -/
theorem branchFrom_placeholder {rounds : Nat} {rest : List Bytes} (leaf leaf' : Bytes) :
    branchFrom rounds (leaf :: rest) = branchFrom rounds (leaf' :: rest) := by
  induction rounds generalizing leaf leaf' rest with
  | zero => rfl
  | succ rounds ih =>
    cases rest with
    | nil => rfl
    | cons b rest => rw [branchFrom_succ, branchFrom_succ, ih]

/-- Folding the branch over leaf 0 gives the root of the tree. -/
theorem foldBranch_merkleRootFrom {rounds : Nat} {rest : List Hash} (first : Hash)
    (placeholder : Bytes) (h : rest.length < rounds) :
    ∃ root, merkleRootFrom rounds (first :: rest) = some root ∧
      foldBranch first ((branchFrom rounds (placeholder :: rest.map Subtype.val)).map hex) =
        .ok root := by
  induction rounds generalizing first rest placeholder with
  | zero => exact absurd h (Nat.not_lt_zero _)
  | succ rounds ih =>
    cases rest with
    | nil => exact ⟨first, rfl, rfl⟩
    | cons b rest =>
      have hlen : (merkleLevel rest).length < rounds := by
        rw [merkleLevel_eq, MerkleTree.level_length]
        rw [List.length_cons] at h
        omega
      obtain ⟨root, hroot, hfold⟩ := ih (hash256 (first.val ++ b.val))
        (hash256 (placeholder ++ b.val)).val hlen
      refine ⟨root, ?_, ?_⟩
      · rw [merkleRootFrom, if_neg (by simp), merkleLevel]
        exact hroot
      · rw [List.map_cons, branchFrom_succ, List.map_cons, foldBranch, fromHex_hex, ok_bind,
          pairDigests_evenLevel]
        exact hfold

/-- The branch of the coinbase is right for every block: folded over the coinbase hash it gives the
Merkle root, the validator climbs it to the same root, and any placeholder gives the same branch. -/
theorem coinbaseMerkleBranch_root (coinbaseHash : Hash) (txids : List Hash) :
    ∃ root, computeMerkleRoot coinbaseHash txids = .ok root ∧
      foldBranch coinbaseHash ((coinbaseMerkleBranch (txids.map Subtype.val)).map hex) = .ok root ∧
      ((coinbaseMerkleBranch (txids.map Subtype.val)).length ≤ MAX_MERKLE_BRANCH_DEPTH →
        checkMerkleBranch coinbaseHash.val (coinbaseMerkleBranch (txids.map Subtype.val)) 0 =
          .ok root.val) ∧
      ∀ placeholder : Bytes, branchFrom (txids.length + 1) (placeholder :: txids.map Subtype.val) =
        coinbaseMerkleBranch (txids.map Subtype.val) := by
  have hlength : txids.length + 1 = (txids.map Subtype.val).length + 1 := by rw [List.length_map]
  obtain ⟨root, hroot, hfold⟩ :=
    foldBranch_merkleRootFrom coinbaseHash nullHash.val (Nat.lt_add_one txids.length)
  rw [hlength] at hfold
  have hsiblings : ∀ x ∈ coinbaseMerkleBranch (txids.map Subtype.val), x.length = 32 := by
    refine coinbaseMerkleBranch_length fun id hid => ?_
    obtain ⟨hash, -, rfl⟩ := List.mem_map.mp hid
    exact hash.property
  refine ⟨root, ?_, hfold, fun hdepth => ?_, fun placeholder => ?_⟩
  · rw [computeMerkleRoot, merkleRoot, List.length_cons, hroot]
  · exact checkMerkleBranch_eq_ok.mpr
      ⟨coinbaseHash.property, hdepth, foldBranch_climb hsiblings hfold⟩
  · rw [hlength, coinbaseMerkleBranch]
    exact branchFrom_placeholder _ _

end Branch

end ScarletCoin
