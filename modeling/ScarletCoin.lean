import ScarletCoin.Invariants.Supply
import ScarletCoin.Invariants.RequiredBits
import ScarletCoin.Rules.MergedMining
import ScarletCoin.Net.Session
import ScarletCoin.Invariants.Headers
import ScarletCoin.Rules.Failures
import ScarletCoin.Invariants.Frontier
import ScarletCoin.Invariants.Pool
import ScarletCoin.Invariants.Minable
import ScarletCoin.Invariants.Locks
import ScarletCoin.Rules.Declarative
import ScarletCoin.Invariants.Locations
import ScarletCoin.Invariants.Undoing
import ScarletCoin.Invariants.Listeners
import ScarletCoin.Core.WireFormat
import ScarletCoin.Net.Framing
import ScarletCoin.Invariants.Checkpoints
import ScarletCoin.Rules.Multisig
import ScarletCoin.Rules.MerkleCommitment
import ScarletCoin.Invariants.MedianTime
import ScarletCoin.Invariants.Retargeting
import ScarletCoin.Invariants.Eviction
import ScarletCoin.Invariants.Selection
import ScarletCoin.Pool.Shares
import ScarletCoin.Pool.Proofs
import ScarletCoin.Rules.Signatures
import ScarletCoin.Wallet.Sweeps
import ScarletCoin.Miner.Agreement
import ScarletCoin.Net.Bans
import ScarletCoin.Wallet.Consistency
import ScarletCoin.Net.NoneLost
import ScarletCoin.Invariants.Locators
import ScarletCoin.Invariants.Room
import ScarletCoin.Invariants.Books
import ScarletCoin.Wallet.Mnemonic
import ScarletCoin.Wallet.Amounts
import ScarletCoin.Wallet.ExtendedKeys
import ScarletCoin.Core.Migrations
import ScarletCoin.Invariants.TransactionCounts
import ScarletCoin.Invariants.HistoryBackfill
import ScarletCoin.Invariants.MostWork
import ScarletCoin.Invariants.MinedTemplates
import ScarletCoin.Net.InFlight
