import ScarletCoin.Pool.Coinbase

/-!
# Merged-mining jobs

The job manager of `scarlet_pool/jobs.py`: it turns a candidate of the ScarletCoin node and a
template of the parent chain into a job (`JobManager.refresh`), judges the shares that miners hand
in (`JobManager.processShare`) and assembles the proof for a share that is a ScarletCoin block
(`ActiveJob.assembleAuxpow`). The replies of the node and of the parent chain are arguments, already
read from their JSON; a share difficulty is given by the target it stands for.
-/

set_option autoImplicit false

namespace ScarletCoin

open Toolkit

/-- Bitcoin's difficulty-1 target. -/
def DIFF1_TARGET : Nat := 0x00000000FFFF0000000000000000000000000000000000000000000000000000

/-- How much easier than a block a share is when the share difficulty is derived. -/
def DEFAULT_SHARE_EASE : Nat := 8

/-- A parent-chain block template: the previous hash in internal order, the transaction ids in
display order. -/
structure ParentTemplate where
  version : Int
  prevHash : String
  nbits : Int
  height : Int
  coinbaseValue : Int
  transactions : List String
  target : Nat
  deriving DecidableEq

/-- A frozen ScarletCoin candidate, its hash in display order. -/
structure ScarletTemplate where
  auxHash : String
  target : Nat
  chainId : Nat
  nonce : Int
  height : Nat
  deriving DecidableEq

/-- Outcome of checking a submitted share. -/
structure ShareResult where
  accepted : Bool
  reason : String
  hashHex : String
  meetsSctTarget : Bool
  meetsBtcTarget : Bool
  deriving DecidableEq

/-- A Stratum job. -/
structure ActiveJob where
  jobId : String
  parent : ParentTemplate
  scarlet : ScarletTemplate
  coinbase : ParentCoinbase
  merkleBranches : List String
  ntime : Int
  deriving DecidableEq

/-- What a miner submits for a job, with the first extranonce that its session was given. -/
structure Share where
  extranonce1 : String
  extranonce2 : String
  ntime : Int
  nonce : Int
  deriving DecidableEq

/-- The state of the job manager. A chain id of 0 stands for none, and a missing `fixedShareTarget`
for a share difficulty that is derived from the current job. -/
structure JobManager where
  chainId : Nat
  builder : CoinbaseBuilder
  parentPayoutHash : Bytes
  fixedShareTarget : Option Nat
  current : Option ActiveJob
  jobCounter : Nat
  sharesAccepted : Nat
  sharesRejected : Nat
  sctBlocksFound : Nat
  sctBlocksAccepted : Nat
  sctBlocksRejected : Nat
  deriving DecidableEq

namespace JobManager

/-- A manager without a job. -/
def create (chainId : Nat) (builder : CoinbaseBuilder) (parentPayoutHash : Bytes) : JobManager where
  chainId := chainId
  builder := builder
  parentPayoutHash := parentPayoutHash
  fixedShareTarget := none
  current := none
  jobCounter := 0
  sharesAccepted := 0
  sharesRejected := 0
  sctBlocksFound := 0
  sctBlocksAccepted := 0
  sctBlocksRejected := 0

/-- Pin the share target, bypassing the derived value. -/
def pinShareTarget (manager : JobManager) (value : Nat) : JobManager :=
  { manager with fixedShareTarget := some (max 1 value) }

/-- The target a submitted share must beat. -/
def shareTarget (manager : JobManager) : Nat :=
  match manager.fixedShareTarget with
  | some value => value
  | none =>
      match manager.current with
      | none => DIFF1_TARGET
      | some job => max 1 (job.scarlet.target * DEFAULT_SHARE_EASE)

end JobManager

/-- The format `08x`. -/
def hexCounter (n : Nat) : String :=
  let digits := Nat.toDigits 16 n
  String.ofList (List.replicate (8 - digits.length) '0' ++ digits)

variable [Crypto]

/-- Build a job from fresh templates of both chains and make it the current one. -/
def JobManager.refresh (manager : JobManager) (scarlet : ScarletTemplate) (parent : ParentTemplate)
    (now : Int) : Except PyError (JobManager × ActiveJob) := do
  raiseIf (manager.chainId ≠ 0 ∧ scarlet.chainId ≠ manager.chainId)
    (.runtime (s!"ScarletCoin node reports chain id {scarlet.chainId}, " ++
      s!"but this pool was started for chain id {manager.chainId}"))
  let auxHash ← fromHex scarlet.auxHash
  let commitment ← buildAuxpowCommitment auxHash.reverse 1 scarlet.nonce
  let coinbase ← manager.builder.build parent.coinbaseValue parent.height manager.parentPayoutHash
    commitment
  let txids ← parent.transactions.mapM fromHex
  let branches := coinbaseMerkleBranch (txids.map List.reverse)
  let job : ActiveJob := {
    jobId := hexCounter (manager.jobCounter + 1)
    parent := parent
    scarlet := scarlet
    coinbase := coinbase
    merkleBranches := branches.map hex
    ntime := now }
  pure ({ manager with jobCounter := manager.jobCounter + 1, current := some job }, job)

namespace ActiveJob

/-- The parent header that a share stands for. -/
def parentHeader (job : ActiveJob) (share : Share) : Except PyError Bytes :=
  reconstructHeader job.coinbase.coinbase1 share.extranonce1 share.extranonce2
    job.coinbase.coinbase2 job.merkleBranches job.parent.prevHash job.parent.version
    job.parent.nbits share.ntime share.nonce

/-- The four parts of the coinbase that a share stands for. -/
def coinbaseParts (job : ActiveJob) (share : Share) : List String :=
  [job.coinbase.coinbase1, share.extranonce1, share.extranonce2, job.coinbase.coinbase2]

end ActiveJob

/-- Parse an 80-byte parent header. -/
def ParentBlockHeader.deserialize (data : Bytes) : Except PyError ParentBlockHeader := do
  raiseIf (data.length ≠ 80)
    (.serialization s!"parent block header must be 80 bytes, got {data.length}")
  let (header, _) ← ParentBlockHeader.read data
  pure header

/-- The proof for a share that met the ScarletCoin target, or none if its coinbase does not parse.
The only auxiliary chain is this one, so the auxiliary root is the block hash. -/
def ActiveJob.assembleAuxpow (job : ActiveJob) (share : Share) :
    Except PyError (Option AuxPoW) := do
  let headerBytes ← job.parentHeader share
  let body ← coinbaseBytes (job.coinbaseParts share)
  match parseCoinbaseBody body with
  | .error _ => pure none
  | .ok coinbaseTx => do
      let branch ← job.merkleBranches.mapM fromHex
      let header ← ParentBlockHeader.deserialize headerBytes
      pure (some ⟨coinbaseTx, branch, 0, [], 0, header⟩)

namespace JobManager

/-- Validate a submitted share and check whether it is a block. -/
def processShare (manager : JobManager) (job : ActiveJob) (share : Share) :
    Except PyError (JobManager × ShareResult) := do
  if share.extranonce2.length ≠ job.coinbase.extranonce2Size * 2 then
    pure ({ manager with sharesRejected := manager.sharesRejected + 1 },
      ⟨false, "bad extranonce2 size", "", false, false⟩)
  else do
    let headerBytes ← job.parentHeader share
    let parentHash := hash256 headerBytes
    if manager.shareTarget < hashToInt parentHash then
      pure ({ manager with sharesRejected := manager.sharesRejected + 1 },
        ⟨false, "share above target", displayHex parentHash, false, false⟩)
    else
      let meetsSct := decide (hashToInt parentHash ≤ job.scarlet.target)
      let meetsBtc := decide (hashToInt parentHash ≤ job.parent.target)
      pure ({ manager with
          sharesAccepted := manager.sharesAccepted + 1
          sctBlocksFound := manager.sctBlocksFound + meetsSct.toNat },
        ⟨true, "", displayHex parentHash, meetsSct, meetsBtc⟩)

end JobManager

end ScarletCoin
