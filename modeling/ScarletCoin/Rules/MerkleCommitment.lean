import ScarletCoin.Rules.Admission
import ScarletCoin.Toolkit.MerkleTree
import ScarletCoin.Sample

/-!
# What a Merkle root commits to

`merkle_root` joins the ids of the transactions level by level, and an odd last id with itself. A
body of a transaction is never as short as two digests, so an id is told from a joined pair, and no
id occurs twice in a block. As far as hash256 has no collisions among the bodies and the pairs that
are hashed, the root determines the list of the ids, whatever its length (`merkleRoot_commits`).
-/

set_option autoImplicit false

namespace ScarletCoin

open Toolkit

/-! ## Sizes -/

theorem Writer.varint_length_pos (value : Nat) : 1 ≤ (Writer.varint value).length := by
  unfold Writer.varint
  split
  · rw [leBytes_length]
  split
  · exact Nat.succ_pos _
  split
  · exact Nat.succ_pos _
  · exact Nat.succ_pos _

theorem InputCore.serialize_length (core : InputCore) : core.serialize.length = 40 := by
  unfold InputCore.serialize Writer.uint32
  rw [List.length_append, List.length_append, leBytes_length, leBytes_length, core.1.txid.property]

theorem TxOutput.serialize_length (txout : TxOutput) : txout.serialize.length = 29 := by
  unfold TxOutput.serialize Writer.uint64
  rw [List.length_append, List.length_append, leBytes_length, txout.payload.property,
    List.length_singleton]

/-- The body of a sane transaction takes at least 80 bytes: one input and one output are among
them. -/
theorem Transaction.Sane.body_length {t : Transaction} (h : t.Sane) :
    80 ≤ t.serializeBody.length := by
  obtain ⟨txin, inputs, hin⟩ := List.exists_cons_of_ne_nil h.inputs
  obtain ⟨txout, outputs, hout⟩ := List.exists_cons_of_ne_nil h.outputs
  have hinCount := Writer.varint_length_pos t.inputs.length
  have houtCount := Writer.varint_length_pos t.outputs.length
  have hdata := Writer.varint_length_pos t.coinbaseData.val.length
  have hinput := InputCore.serialize_length txin.core
  have houtput := txout.serialize_length
  have hinputs : 40 ≤ (t.inputs.flatMap fun i => InputCore.serialize i.core).length := by
    rw [hin, List.flatMap_cons, List.length_append, hinput]
    omega
  have houtputs : 29 ≤ (t.outputs.flatMap TxOutput.serialize).length := by
    rw [hout, List.flatMap_cons, List.length_append, houtput]
    omega
  simp only [Transaction.serializeBody, Writer.uint32, Writer.varbytes, List.length_append,
    leBytes_length]
  omega

/-! ## The tree of the ids -/

section Commitment

variable [Crypto]

/-- The digest of two digests. -/
def joinHashes (a b : Hash) : Hash := hash256 (a.val ++ b.val)

theorem merkleLevel_eq (hashes : List Hash) :
    merkleLevel hashes = MerkleTree.level joinHashes hashes := by
  fun_induction merkleLevel hashes with
  | case1 => rfl
  | case2 => rfl
  | case3 a b rest ih => rw [ih, MerkleTree.level, joinHashes]

theorem merkleRootFrom_eq (rounds : Nat) (hashes : List Hash) :
    merkleRootFrom rounds hashes = MerkleTree.rootFrom joinHashes rounds hashes := by
  induction rounds generalizing hashes with
  | zero => rfl
  | succ rounds ih => rw [merkleRootFrom, ih, merkleLevel_eq, MerkleTree.rootFrom]

/-- All that is hashed from the bodies to the root: the bodies, and the pairs of digests. -/
def hashedInputs (bodies : List Bytes) : List Bytes :=
  bodies ++ (MerkleTree.pairsFrom joinHashes bodies.length (bodies.map hash256)).map
    fun p => p.1.val ++ p.2.val

/-- hash256 tells the inputs apart. -/
def NoCollisions (inputs : List Bytes) : Prop :=
  ∀ x ∈ inputs, ∀ y ∈ inputs, hash256 x = hash256 y → x = y

instance (inputs : List Bytes) : Decidable (NoCollisions inputs) :=
  inferInstanceAs (Decidable (∀ x ∈ inputs, ∀ y ∈ inputs, hash256 x = hash256 y → x = y))

/-- Bodies without collisions are apart from the pairs above them. -/
theorem apart_of_noCollisions {bodies bodies' : List Bytes}
    (hlong : ∀ body ∈ bodies ++ bodies', 80 ≤ body.length)
    (hdistinct : NoCollisions (hashedInputs bodies ++ hashedInputs bodies')) :
    MerkleTree.Apart joinHashes
      (fun p => p ∈ MerkleTree.pairsFrom joinHashes bodies.length (bodies.map hash256) ∨
        p ∈ MerkleTree.pairsFrom joinHashes bodies'.length (bodies'.map hash256))
      (fun id => ∃ body ∈ bodies ++ bodies', hash256 body = id) := by
  have hpair : ∀ p : Hash × Hash,
      (p ∈ MerkleTree.pairsFrom joinHashes bodies.length (bodies.map hash256) ∨
        p ∈ MerkleTree.pairsFrom joinHashes bodies'.length (bodies'.map hash256)) →
      p.1.val ++ p.2.val ∈ hashedInputs bodies ++ hashedInputs bodies' := by
    rintro p (hp | hp)
    · exact List.mem_append_left _ (List.mem_append_right _ (List.mem_map_of_mem hp))
    · exact List.mem_append_right _ (List.mem_append_right _ (List.mem_map_of_mem hp))
  constructor
  · intro p q hp hq heq
    have hbytes := hdistinct _ (hpair p hp) _ (hpair q hq) heq
    obtain ⟨hleft, hright⟩ := append_split (p.1.property.trans q.1.property.symm) hbytes
    exact Prod.ext (Subtype.ext hleft) (Subtype.ext hright)
  · rintro p hp ⟨body, hbody, heq⟩
    have hmem : body ∈ hashedInputs bodies ++ hashedInputs bodies' := by
      rcases List.mem_append.mp hbody with h | h
      · exact List.mem_append_left _ (List.mem_append_left _ h)
      · exact List.mem_append_right _ (List.mem_append_left _ h)
    have hbytes := hdistinct _ hmem _ (hpair p hp) heq
    have hlen := hlong body hbody
    rw [hbytes, List.length_append, p.1.property, p.2.property] at hlen
    omega

/-- The root of the ids of bodies determines the ids. -/
theorem merkleRoot_injective {bodies bodies' : List Bytes} {root : Hash}
    (hlong : ∀ body ∈ bodies ++ bodies', 80 ≤ body.length)
    (hnodup : (bodies.map hash256).Nodup) (hnodup' : (bodies'.map hash256).Nodup)
    (hdistinct : NoCollisions (hashedInputs bodies ++ hashedInputs bodies'))
    (hroot : merkleRoot (bodies.map hash256) = .ok root)
    (hroot' : merkleRoot (bodies'.map hash256) = .ok root) :
    bodies.map hash256 = bodies'.map hash256 := by
  have hfound : ∀ {hashes : List Hash}, merkleRoot hashes = .ok root →
      MerkleTree.rootFrom joinHashes hashes.length hashes = some root := by
    intro hashes h
    unfold merkleRoot at h
    split at h
    · cases h
    · rename_i r hr
      obtain rfl := Except.ok.inj h
      rw [← merkleRootFrom_eq, hr]
  have hleaf : ∀ {part : List Bytes}, (∀ body ∈ part, body ∈ bodies ++ bodies') →
      ∀ id ∈ part.map hash256, MerkleTree.AtLevel joinHashes
        (fun p => p ∈ MerkleTree.pairsFrom joinHashes bodies.length (bodies.map hash256) ∨
          p ∈ MerkleTree.pairsFrom joinHashes bodies'.length (bodies'.map hash256))
        (fun id => ∃ body ∈ bodies ++ bodies', hash256 body = id) 0 id := by
    intro part hpart id hid
    obtain ⟨body, hbody, heq⟩ := List.mem_map.mp hid
    exact ⟨body, hpart body hbody, heq⟩
  have hroot₁ := hfound hroot
  have hroot₂ := hfound hroot'
  rw [List.length_map] at hroot₁ hroot₂
  exact MerkleTree.rootFrom_injective (apart_of_noCollisions hlong hdistinct)
    (Nat.le_of_eq (List.length_map _)) (Nat.le_of_eq (List.length_map _))
    (fun p hp => .inl hp) (fun p hp => .inr hp)
    (hleaf fun body hbody => List.mem_append_left _ hbody)
    (hleaf fun body hbody => List.mem_append_right _ hbody) hnodup hnodup' hroot₁ hroot₂

/-- Equal ids are the ids of equal bodies. -/
theorem map_hash256_injective {inputs xs ys : List Bytes} (hdistinct : NoCollisions inputs)
    (hxs : ∀ x ∈ xs, x ∈ inputs) (hys : ∀ y ∈ ys, y ∈ inputs)
    (heq : xs.map hash256 = ys.map hash256) : xs = ys := by
  induction xs generalizing ys with
  | nil => exact (List.map_eq_nil_iff.mp heq.symm).symm
  | cons x xs ih =>
    cases ys with
    | nil => cases heq
    | cons y ys =>
      obtain ⟨hhead, htail⟩ := List.cons.inj heq
      have hxy := hdistinct x (hxs x List.mem_cons_self) y (hys y List.mem_cons_self) hhead
      rw [hxy, ih (fun z hz => hxs z (List.mem_cons_of_mem x hz))
        (fun z hz => hys z (List.mem_cons_of_mem y hz)) htail]

/-- A Merkle root commits to the list of the ids, and the header of a sane block to the bodies of
its transactions, as far as hash256 has no collisions among what is hashed. -/
theorem merkleRoot_commits :
    (∀ bodies bodies' : List Bytes, bodies ≠ [] → bodies' ≠ [] →
      (∀ body ∈ bodies ++ bodies', 80 ≤ body.length) →
      (bodies.map hash256).Nodup → (bodies'.map hash256).Nodup →
      NoCollisions (hashedInputs bodies ++ hashedInputs bodies') →
      merkleRoot (bodies.map hash256) = merkleRoot (bodies'.map hash256) →
      bodies.map hash256 = bodies'.map hash256) ∧
    ∀ (params params' : ChainParams) (b b' : Block) (powLimit powLimit' minValue minValue' : Nat)
      (active active' : Bool),
      b.checkSanity powLimit params.maxBlockSize minValue active = .ok () →
      b'.checkSanity powLimit' params'.maxBlockSize minValue' active' = .ok () →
      NoCollisions (hashedInputs (b.transactions.map Transaction.serializeBody) ++
        hashedInputs (b'.transactions.map Transaction.serializeBody)) →
      b.header = b'.header →
      b.transactions.map Transaction.serializeBody =
      b'.transactions.map Transaction.serializeBody := by
  constructor
  · intro bodies bodies' hne hne' hlong hnodup hnodup' hdistinct hroots
    obtain ⟨root, hroot⟩ : ∃ root, merkleRoot (bodies.map hash256) = .ok root := by
      obtain ⟨root, hroot⟩ := MerkleTree.exists_rootFrom joinHashes
        (mt List.map_eq_nil_iff.mp hne) (Nat.le_refl (bodies.map hash256).length)
      refine ⟨root, ?_⟩
      unfold merkleRoot
      rw [merkleRootFrom_eq, hroot]
    exact merkleRoot_injective hlong hnodup hnodup' hdistinct hroot (hroots ▸ hroot)
  · intro params params' b b' powLimit powLimit' minValue minValue' active active' hsane hsane'
      hdistinct hheader
    -- sane blocks have distinct ids and commit to them
    have hs := Block.checkSanity_sane hsane
    have hs' := Block.checkSanity_sane hsane'
    have hids : ∀ c : Block,
        (c.transactions.map Transaction.serializeBody).map hash256 = c.txids := by
      intro c
      rw [List.map_map]
      rfl
    have hlong : ∀ body ∈ b.transactions.map Transaction.serializeBody ++
        b'.transactions.map Transaction.serializeBody, 80 ≤ body.length := by
      intro body hbody
      rcases List.mem_append.mp hbody with h | h
      · obtain ⟨t, ht, rfl⟩ := List.mem_map.mp h
        exact (hs.clean t ht).body_length
      · obtain ⟨t, ht, rfl⟩ := List.mem_map.mp h
        exact (hs'.clean t ht).body_length
    have heq := merkleRoot_injective hlong (by rw [hids]; exact hs.distinct)
      (by rw [hids]; exact hs'.distinct) hdistinct (by rw [hids]; exact hs.committed)
      (by rw [hids, hheader]; exact hs'.committed)
    -- equal ids are equal bodies, for the bodies are among the messages hashed
    refine map_hash256_injective hdistinct (fun x hx => ?_) (fun x hx => ?_) heq
    · exact List.mem_append_left _ (List.mem_append_left _ hx)
    · exact List.mem_append_right _ (List.mem_append_left _ hx)

end Commitment

section Instances

attribute [local instance] Sample.crypto

/-- A block with a spend of an output of its own coinbase, for any witness. -/
def Sample.witnessed (item : Blob) : Block :=
  Sample.block Sample.genesisHash 0x207FFFFF 1700000012
    [Sample.coinbase 1 0 Sample.reward,
      Sample.transfer ⟨(Sample.coinbase 1 0 Sample.reward).txid, 0⟩ [item] Sample.reward (by simp)]
    (by simp)

theorem Sample.item_fits : [(1 : UInt8)].length < 2 ^ 64 := by decide

theorem Sample.longItem_fits : [(1 : UInt8), 2].length < 2 ^ 64 := by decide

/-- A list of ids and a longer one with another root, and two sane blocks with one header that
differ in a witness. -/
theorem merkleRoot_commits_sample :
    merkleRoot ([List.replicate 80 1, List.replicate 80 2].map hash256) ≠
        merkleRoot ([List.replicate 80 1, List.replicate 80 2, List.replicate 80 3].map hash256) ∧
      Sample.witnessed ⟨[1], Sample.item_fits⟩ ≠ Sample.witnessed ⟨[1, 2], Sample.longItem_fits⟩ ∧
      (Sample.witnessed ⟨[1], Sample.item_fits⟩).transactions.map Transaction.serializeBody =
        (Sample.witnessed ⟨[1, 2], Sample.longItem_fits⟩).transactions.map
        Transaction.serializeBody :=
  ⟨fun heq => absurd
      (merkleRoot_commits.1 _ _ (by decide) (by decide) (by decide) (by decide +kernel)
      (by decide +kernel) (by decide +kernel) heq) (by decide +kernel),
    by decide +kernel,
    merkleRoot_commits.2 REGTEST REGTEST (Sample.witnessed ⟨[1], Sample.item_fits⟩)
      (Sample.witnessed ⟨[1, 2], Sample.longItem_fits⟩) REGTEST.powLimit REGTEST.powLimit 0 0
      false false (by decide +kernel) (by decide +kernel) (by decide +kernel) rfl⟩

end Instances

end ScarletCoin
