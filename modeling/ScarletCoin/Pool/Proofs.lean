import ScarletCoin.Core.WireFormat
import ScarletCoin.Rules.Commitments
import ScarletCoin.Rules.MergedMining
import ScarletCoin.Pool.Branch
import ScarletCoin.Pool.Shares

/-!
# The proofs that the pool assembles

The pool writes the coinbase, the branch, the header and the commitment on its own; the node reads
and checks them. `CoinbaseBuilder.build_eq_ok` and `JobManager.refresh_eq_ok` say what a job holds,
and `parseCoinbaseBody_eq_ok` that the node reads the coinbase as the transaction it stands for. The
fold with which the pool rebuilds the header is the climb of the validator from position 0
(`foldBranch_climb`), so the proof for a block-worthy share passes `validate_auxpow` and survives
its wire format (`JobManager.assembleAuxpow_valid`).
-/

set_option autoImplicit false

namespace ScarletCoin

open Toolkit

/-! ## The coinbase -/

theorem packUint_eq_ok {width : Nat} {value : Int} {bytes : Bytes}
    (h : packUint width value = .ok bytes) : 0 ≤ value ∧ bytes = leBytes width value.toNat := by
  obtain ⟨hrange, h⟩ := raiseIf_bind_eq_ok.mp h
  exact ⟨by omega, (pure_eq_ok.mp h).symm⟩

/-- A commitment to one chain that is written is the marker and the bytes of the commitment. -/
theorem buildAuxpowCommitment_eq_ok {auxRoot bytes : Bytes} {nonce : Int}
    (h : buildAuxpowCommitment auxRoot 1 nonce = .ok bytes) :
    ∃ c : AuxPoWCommitment, c.auxRoot.val = auxRoot ∧ c.treeSize = 1 ∧ c.nonce < 2 ^ 32 ∧
      bytes = MERGED_MINING_HEADER ++ c.serialize := by
  obtain ⟨hroot, h⟩ := raiseIf_bind_eq_ok.mp h
  obtain ⟨-, h⟩ := raiseIf_bind_eq_ok.mp h
  obtain ⟨hnonce, h⟩ := raiseIf_bind_eq_ok.mp h
  have hfits : nonce.toNat < 2 ^ 32 := by omega
  exact ⟨⟨⟨auxRoot, not_not.mp hroot⟩, 1, nonce.toNat⟩, rfl, rfl, hfits, (pure_eq_ok.mp h).symm⟩

/-- What a coinbase that is built holds. -/
theorem CoinbaseBuilder.build_eq_ok {builder : CoinbaseBuilder} {value height : Int}
    {payoutHash commitment : Bytes} {coinbase : ParentCoinbase}
    (h : builder.build value height payoutHash commitment = .ok coinbase) :
    0 ≤ value ∧ payoutHash.length = 20 ∧
      coinbase.coinbaseDataSize =
        4 + coinbase.extranonce1Size + coinbase.extranonce2Size + commitment.length ∧
      coinbase.coinbaseDataSize ≤ MAX_COINBASE_DATA ∧
      coinbase.coinbase1 = hex (coinbasePrefix (leBytes 8 value.toNat) payoutHash
        coinbase.coinbaseDataSize height.toNat) ∧
      coinbase.coinbase2 = hex commitment := by
  obtain ⟨-, h⟩ := raiseIf_bind_eq_ok.mp h
  obtain ⟨hpayout, h⟩ := raiseIf_bind_eq_ok.mp h
  obtain ⟨hsize, h⟩ := raiseIf_bind_eq_ok.mp h
  obtain ⟨valueBytes, hvalue, h⟩ := bind_eq_ok.mp h
  obtain ⟨hpos, rfl⟩ := packUint_eq_ok hvalue
  obtain rfl := pure_eq_ok.mp h
  exact ⟨hpos, not_not.mp hpayout, rfl, Nat.not_lt.mp hsize, rfl, rfl⟩

theorem one_fits : 1 < 2 ^ 32 := by decide

theorem p2pkh_known : OUTPUT_P2PKH = OUTPUT_P2PKH ∨ OUTPUT_P2PKH = OUTPUT_P2SH := .inl rfl

/-- The parent coinbase that pays `value` and carries `data`. -/
def parentCoinbase (value : Nat) (hvalue : value ≤ MAX_MONEY) (payout : PubkeyHash) (data : Blob) :
    Transaction where
  version := 1
  inputs := [⟨COINBASE_OUTPOINT, SEQUENCE_FINAL, [], Sample.noItems_fit⟩]
  outputs := [⟨OUTPUT_P2PKH, value, payout, p2pkh_known, hvalue⟩]
  lockTime := 0
  coinbaseData := data
  inputs_fit := one_fits
  outputs_fit := one_fits

section Coinbase

variable {value : Nat} {hvalue : value ≤ MAX_MONEY} {payout : PubkeyHash} {data : Blob}

/-- The body of the coinbase is what the builder splits around the extranonces. -/
theorem parentCoinbase_body {height : Nat} {rest : Bytes}
    (h : data.val = leBytes 4 height ++ rest) :
    (parentCoinbase value hvalue payout data).serializeBody =
      coinbasePrefix (leBytes 8 value) payout.val data.val.length height ++ rest := by
  simp only [Transaction.serializeBody, parentCoinbase, coinbasePrefix, List.flatMap_cons,
    List.flatMap_nil, InputCore.serialize, TxInput.core, COINBASE_OUTPOINT, TxOutput.serialize,
    Writer.uint64, Writer.varbytes, List.append_assoc, List.append_nil, List.nil_append,
    List.cons_append, List.length_singleton, h]

/-- The witness count of the input is the zero byte that the pool appends. -/
theorem parentCoinbase_serialize :
    (parentCoinbase value hvalue payout data).serialize =
      (parentCoinbase value hvalue payout data).serializeBody ++ [0] := rfl

theorem parentCoinbase_withinLimits (h : data.val.length ≤ MAX_COINBASE_DATA) :
    (parentCoinbase value hvalue payout data).WithinLimits where
  inputs := List.cons_ne_nil _ _
  outputs := List.cons_ne_nil _ _
  data := h
  items := by
    intro txin htxin item hitem
    obtain rfl := List.mem_singleton.mp htxin
    cases hitem

theorem parentCoinbase_size (h : data.val.length ≤ MAX_COINBASE_DATA) :
    (parentCoinbase value hvalue payout data).size ≤ MAX_COINBASE_DATA + 2000 := by
  have hvarint := AuxPoW.varint_length_le data.val.length
  have hone := AuxPoW.varint_length_le 1
  have hnull := nullHash.property
  have hpayout := payout.property
  rw [Transaction.size, parentCoinbase_serialize, List.length_append]
  simp only [Transaction.serializeBody, parentCoinbase, Writer.uint32, Writer.uint64,
    Writer.varbytes, List.flatMap_cons, List.flatMap_nil, InputCore.serialize, TxInput.core,
    COINBASE_OUTPOINT, TxOutput.serialize, List.length_append, List.length_cons, List.length_nil,
    zero_add, leBytes_length, hnull, hpayout]
  simp only [MAX_COINBASE_DATA] at h ⊢
  omega

/-- The node reads the body as the coinbase. -/
theorem parseCoinbaseBody_eq_ok (h : data.val.length ≤ MAX_COINBASE_DATA) :
    parseCoinbaseBody (parentCoinbase value hvalue payout data).serializeBody =
      .ok (parentCoinbase value hvalue payout data) :=
  Transaction.deserialize_eq_ok.mpr ⟨parentCoinbase_withinLimits h, parentCoinbase_serialize.symm⟩

end Coinbase

/-! ## The header -/

section Header

variable [Crypto]

/-- The header of a share, from the coinbase and the branch of its job. -/
theorem reconstructHeader_eq_ok {c1 e1 e2 c2 prevHash : String} {branches : List String}
    {version nbits ntime nonce : Int} {header : Bytes}
    (h : reconstructHeader c1 e1 e2 c2 branches prevHash version nbits ntime nonce = .ok header) :
    ∃ (coinbase : Bytes) (parent : ParentBlockHeader), coinbaseBytes [c1, e1, e2, c2] =
      .ok coinbase ∧ foldBranch (hash256 coinbase) branches = .ok parent.merkleRoot ∧
      header = parent.serialize := by
  obtain ⟨coinbase, hcoinbase, h⟩ := bind_eq_ok.mp h
  obtain ⟨root, hroot, h⟩ := bind_eq_ok.mp h
  obtain ⟨version, -, h⟩ := bind_eq_ok.mp h
  obtain ⟨prevBytes, -, h⟩ := bind_eq_ok.mp h
  obtain ⟨prev, -, h⟩ := bind_eq_ok.mp h
  obtain ⟨ntime, -, h⟩ := bind_eq_ok.mp h
  obtain ⟨nbits, -, h⟩ := bind_eq_ok.mp h
  obtain ⟨nonce, -, h⟩ := bind_eq_ok.mp h
  exact ⟨coinbase, ⟨version, prev, root, ntime, nbits, nonce⟩, hcoinbase, hroot,
    (pure_eq_ok.mp h).symm⟩

omit [Crypto] in
theorem ParentBlockHeader.deserialize_serialize (h : ParentBlockHeader) :
    ParentBlockHeader.deserialize h.serialize = .ok h := by
  have hread : ParentBlockHeader.read h.serialize = .ok (h, []) :=
    (ParentBlockHeader.read_exact _ _ _).mpr ⟨trivial, (List.append_nil _).symm⟩
  refine raiseIf_bind_eq_ok.mpr ⟨not_not.mpr (headerBytes_length _ _ _ _ _ _), ?_⟩
  rw [hread]
  rfl

omit [Crypto] in
theorem mapM_fromHex_hex (branch : List Bytes) : (branch.map hex).mapM fromHex = .ok branch := by
  rw [mapM_eq_ok, List.forall₂_map_left_iff]
  exact List.forall₂_same.mpr fun x _ => fromHex_hex x

omit [Crypto] in
/-- The four parts of a coinbase, joined. -/
theorem coinbaseBytes_eq {pre e1 e2 post : Bytes} {t1 t2 : String} (h1 : fromHex t1 = .ok e1)
    (h2 : fromHex t2 = .ok e2) :
    coinbaseBytes [hex pre, t1, t2, hex post] = .ok (pre ++ (e1 ++ (e2 ++ post))) := by
  have hparts : [hex pre, t1, t2, hex post].mapM fromHex = .ok [pre, e1, e2, post] :=
    mapM_eq_ok.mpr (.cons (fromHex_hex pre) (.cons h1 (.cons h2 (.cons (fromHex_hex post) .nil))))
  rw [coinbaseBytes, hparts, ok_bind, List.flatten_cons, List.flatten_cons, List.flatten_cons,
    List.flatten_cons, List.flatten_nil, List.append_nil]
  rfl

end Header

/-! ## Jobs and their proofs -/

section Jobs

variable [Crypto]

variable {manager manager' : JobManager} {scarlet : ScarletTemplate} {parent : ParentTemplate}
  {now : Int} {job : ActiveJob} {share : Share} {header e1 e2 : Bytes}

/-- What a job holds: a coinbase with a commitment to the candidate alone, and the branch of that
coinbase. -/
theorem JobManager.refresh_eq_ok (h : manager.refresh scarlet parent now = .ok (manager', job)) :
    ∃ (c : AuxPoWCommitment) (auxHash : Bytes) (txids : List Bytes),
      fromHex scarlet.auxHash = .ok auxHash ∧ c.auxRoot.val = auxHash.reverse ∧
      c.treeSize = 1 ∧ c.nonce < 2 ^ 32 ∧ parent.transactions.mapM fromHex = .ok txids ∧
      manager.builder.build parent.coinbaseValue parent.height manager.parentPayoutHash
        (MERGED_MINING_HEADER ++ c.serialize) = .ok job.coinbase ∧
      job.merkleBranches = (coinbaseMerkleBranch (txids.map List.reverse)).map hex ∧
      job.scarlet = scarlet := by
  obtain ⟨-, h⟩ := raiseIf_bind_eq_ok.mp h
  obtain ⟨auxHash, haux, h⟩ := bind_eq_ok.mp h
  obtain ⟨bytes, hbytes, h⟩ := bind_eq_ok.mp h
  obtain ⟨coinbase, hcoinbase, h⟩ := bind_eq_ok.mp h
  obtain ⟨txids, htxids, h⟩ := bind_eq_ok.mp h
  obtain ⟨-, rfl⟩ := Prod.mk.inj (pure_eq_ok.mp h)
  obtain ⟨c, hroot, hsize, hnonce, rfl⟩ := buildAuxpowCommitment_eq_ok hbytes
  exact ⟨c, auxHash, txids, haux, hroot, hsize, hnonce, htxids, hcoinbase, rfl, rfl⟩

/-- The proof for a share of a job that meets the ScarletCoin target passes the validator for the
candidate, and its wire format reads back as the proof. -/
theorem JobManager.assembleAuxpow_valid
    (hrefresh : manager.refresh scarlet parent now = .ok (manager', job))
    (hids : ∀ id ∈ parent.transactions, ∃ hash : Hash, fromHex id = .ok hash.val)
    (hdepth : job.merkleBranches.length ≤ MAX_MERKLE_BRANCH_DEPTH)
    (hvalue : parent.coinbaseValue ≤ MAX_MONEY) (hchain : scarlet.chainId ≠ 0)
    (he1 : fromHex share.extranonce1 = .ok e1) (hsize1 : e1.length = job.coinbase.extranonce1Size)
    (he2 : fromHex share.extranonce2 = .ok e2) (hsize2 : e2.length = job.coinbase.extranonce2Size)
    (hmarker : ∀ a, job.assembleAuxpow share = .ok (some a) →
      OneMarker a.coinbaseTx.coinbaseData.val)
    (hheader : job.parentHeader share = .ok header)
    (hwork : hashToInt (hash256 header) ≤ scarlet.target) :
    ∃ (a : AuxPoW.Wire) (auxHash : Bytes), job.assembleAuxpow share = .ok (some a.val) ∧
      fromHex scarlet.auxHash = .ok auxHash ∧
      validateAuxpow a.val auxHash.reverse scarlet.target scarlet.chainId = .ok () ∧
      AuxPoW.deserialize ⟨a.val.serialize, a.property.size⟩ = .ok a := by
  obtain ⟨c, auxHash, txids, haux, hroot, htree, hnonce, htxids, hbuild, hbranches, hscarlet⟩ :=
    JobManager.refresh_eq_ok hrefresh
  obtain ⟨hpos, hpayout, hdataSize, hmax, hcoinbase1, hcoinbase2⟩ :=
    CoinbaseBuilder.build_eq_ok hbuild
  obtain ⟨coinbase, parentHeader, hcoinbase, hfold, rfl⟩ := reconstructHeader_eq_ok hheader
  -- the branch: every sibling is a digest
  generalize hbranch : coinbaseMerkleBranch (txids.map List.reverse) = branch at hbranches
  have hsiblings : ∀ x ∈ branch, x.length = 32 := by
    rw [← hbranch]
    refine coinbaseMerkleBranch_length fun id hid => ?_
    obtain ⟨raw, hraw, rfl⟩ := List.mem_map.mp hid
    obtain ⟨text, htext, hparse⟩ := exists_of_mem_mapM htxids hraw
    obtain ⟨hash, hhash⟩ := hids text htext
    rw [List.length_reverse, Except.ok.inj (hparse.symm.trans hhash), hash.property]
  have hbranchDepth : branch.length ≤ MAX_MERKLE_BRANCH_DEPTH := by
    rwa [hbranches, List.length_map] at hdepth
  -- the coinbase: its body is the one that the pool hashes
  have hlength : (leBytes 4 parent.height.toNat ++ (e1 ++ (e2 ++ (MERGED_MINING_HEADER ++
      c.serialize)))).length = job.coinbase.coinbaseDataSize := by
    simp only [List.length_append, leBytes_length, hsize1, hsize2, hdataSize]
    omega
  let data : Blob := ⟨leBytes 4 parent.height.toNat ++ (e1 ++ (e2 ++ (MERGED_MINING_HEADER ++
    c.serialize))), by rw [hlength]; exact Nat.lt_of_le_of_lt hmax (by decide)⟩
  have hvalue' : parent.coinbaseValue.toNat ≤ MAX_MONEY := by omega
  let t := parentCoinbase parent.coinbaseValue.toNat hvalue' ⟨manager.parentPayoutHash,
    hpayout⟩ data
  have hfits : data.val.length ≤ MAX_COINBASE_DATA := hlength.trans_le hmax
  have hbody : coinbaseBytes (job.coinbaseParts share) = .ok t.serializeBody := by
    have hprefix : t.serializeBody = coinbasePrefix (leBytes 8 parent.coinbaseValue.toNat)
        manager.parentPayoutHash job.coinbase.coinbaseDataSize parent.height.toNat ++
          (e1 ++ (e2 ++ (MERGED_MINING_HEADER ++ c.serialize))) := by
      rw [← hlength]
      exact parentCoinbase_body rfl
    rw [ActiveJob.coinbaseParts, hcoinbase1, hcoinbase2, coinbaseBytes_eq he1 he2, hprefix]
  obtain rfl : t.serializeBody = coinbase := Except.ok.inj (hbody.symm.trans hcoinbase)
  have hclimb : climb t.txid.val branch 0 = .ok parentHeader.merkleRoot.val :=
    foldBranch_climb hsiblings (hbranches ▸ hfold)
  -- the proof
  let a : AuxPoW := ⟨t, branch, 0, [], 0, parentHeader⟩
  have hassemble : job.assembleAuxpow share = .ok (some a) := by
    rw [ActiveJob.assembleAuxpow, hheader, ok_bind, hbody, ok_bind, parseCoinbaseBody_eq_ok hfits]
    dsimp only
    rw [hbranches, mapM_fromHex_hex, ok_bind, ParentBlockHeader.deserialize_serialize, ok_bind]
    rfl
  have hlimits : a.WithinLimits := ⟨hsiblings, hbranchDepth, Nat.two_pow_pos 32, by simp [a],
    Nat.zero_le _, Nat.two_pow_pos 32, parentCoinbase_withinLimits hfits, parentCoinbase_size hfits⟩
  have hcommitted : parseAuxpowCommitment t.coinbaseData.val = .ok (some c) := by
    have hshape : t.coinbaseData.val = leBytes 4 parent.height.toNat ++ (e1 ++ e2) ++
        (MERGED_MINING_HEADER ++ (c.serialize ++ [])) := by
      simp only [List.append_assoc, List.append_nil]
      rfl
    have hone := hmarker a hassemble
    rw [hshape] at hone ⊢
    exact parseAuxpowCommitment_eq_ok hone (by omega) hnonce
  refine ⟨⟨a, hlimits.serializable⟩, auxHash, hassemble, haux, ?_,
    AuxPoW.deserialize_eq_ok.mpr ⟨hlimits, rfl⟩⟩
  refine validateAuxpow_eq_ok.mpr ⟨c, ?_⟩
  exact {
    configured := hchain
    coinbaseDepth := hbranchDepth
    auxDepth := Nat.zero_le _
    coinbaseSiblings := hsiblings
    auxSiblings := by simp [a]
    isCoinbase := rfl
    hashSize := by rw [← hroot, c.auxRoot.property]
    auxRoot := checkMerkleBranch_eq_ok.mpr
      ⟨by rw [← hroot, c.auxRoot.property], Nat.zero_le _, by rw [hroot]; rfl⟩
    committed := hcommitted
    positive := htree.ge
    powerOfTwo := by rw [htree]; rfl
    slot := by
      have hheight : c.auxTreeHeight = 0 := by rw [AuxPoWCommitment.auxTreeHeight, htree]; rfl
      rw [hheight]
      rfl
    coinbaseRoot := checkMerkleBranch_eq_ok.mpr ⟨t.txid.property, hbranchDepth, hclimb⟩
    work := hwork }

end Jobs

section Instances

attribute [local instance] Sample.crypto

/-- It holds of the first share for the first job. -/
theorem JobManager.assembleAuxpow_valid_first :
    ∃ (manager : JobManager) (job : ActiveJob) (a : AuxPoW.Wire) (auxHash : Bytes),
      Sample.pool.refresh Sample.auxCandidate Sample.parentTemplate 1700000000 =
      .ok (manager, job) ∧ job.assembleAuxpow Sample.poolShare = .ok (some a.val) ∧
      validateAuxpow a.val auxHash.reverse Sample.auxCandidate.target Sample.auxCandidate.chainId =
        .ok () := by
  have hrun : (Sample.poolJob.any fun (_, job) => decide (
      job.merkleBranches.length ≤ MAX_MERKLE_BRANCH_DEPTH ∧
      job.coinbase.extranonce1Size = 4 ∧ job.coinbase.extranonce2Size = 4 ∧
      (job.assembleAuxpow Sample.poolShare).toOption.any (fun found =>
        found.any fun a => positions a.coinbaseTx.coinbaseData.val = [12]) ∧
      (job.parentHeader Sample.poolShare).toOption.any (fun header =>
        decide (hashToInt (hash256 header) ≤ Sample.auxCandidate.target)))) = true := by
    decide +kernel
  obtain ⟨⟨manager, job⟩, hjob, hfacts⟩ := (Option.any_eq_true _ _).mp hrun
  obtain ⟨hdepth, hsize1, hsize2, hproof, hheader⟩ := of_decide_eq_true hfacts
  obtain ⟨found, hfound, hpositions⟩ := (Option.any_eq_true _ _).mp hproof
  obtain ⟨header, hheader, hwork⟩ := (Option.any_eq_true _ _).mp hheader
  have hrefresh := toOption_eq_some.mp hjob
  have hids : ∀ id ∈ Sample.parentTemplate.transactions, ∃ hash : Hash,
      fromHex id = .ok hash.val := by
    intro id hid
    rcases List.mem_cons.mp hid with rfl | hid
    · exact ⟨_, fromHex_hex _⟩
    · rw [List.mem_singleton.mp hid]
      exact ⟨_, fromHex_hex _⟩
  -- the marker stands at the twelfth byte only
  have hmarker : ∀ a, job.assembleAuxpow Sample.poolShare = .ok (some a) →
      OneMarker a.coinbaseTx.coinbaseData.val := by
    intro a ha
    obtain rfl : some a = found := Except.ok.inj (ha.symm.trans (toOption_eq_some.mp hfound))
    have honly := positions_eq_singleton.mp (of_decide_eq_true hpositions)
    exact fun i j hi hj => ((honly i).mp hi).trans ((honly j).mp hj).symm
  have he1 : fromHex Sample.poolShare.extranonce1 = .ok [0xAA, 0xBB, 0xCC, 0xDD] := by
    decide +kernel
  have he2 : fromHex Sample.poolShare.extranonce2 = .ok [0, 0, 0, 1] := by
    decide +kernel
  obtain ⟨a, auxHash, hassemble, -, hvalid, -⟩ :=
    JobManager.assembleAuxpow_valid hrefresh hids hdepth
    (by decide) (by decide) he1 (by rw [hsize1]; rfl) he2 (by rw [hsize2]; rfl) hmarker
    (toOption_eq_some.mp hheader) (of_decide_eq_true hwork)
  exact ⟨manager, job, a, auxHash, hrefresh, hassemble, hvalid⟩

end Instances

end ScarletCoin
