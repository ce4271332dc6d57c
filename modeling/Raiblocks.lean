import Raiblocks.Kit.Table
import Raiblocks.Kit.Fuel
import Raiblocks.Kit.Bytes
import Raiblocks.Kit.Codec
import Raiblocks.Kit.Digits
import Raiblocks.Kit.Cursor
import Raiblocks.Block
import Raiblocks.Codec
import Raiblocks.Numbers
import Raiblocks.BlockJson
import Raiblocks.Store
import Raiblocks.Visitors
import Raiblocks.Ledger
import Raiblocks.Rollback
import Raiblocks.Processor
import Raiblocks.Lattice
import Raiblocks.Attach
import Raiblocks.View
import Raiblocks.BlockTables
import Raiblocks.VisitorSpec
import Raiblocks.Agree
import Raiblocks.ProcessSpec
import Raiblocks.ProcessRefines
import Raiblocks.UndoRefines
import Raiblocks.RollbackRefines
import Raiblocks.Reachable
import Raiblocks.Replay
import Raiblocks.RollbackReplay
import Raiblocks.Termination
import Raiblocks.Supply
import Raiblocks.Weights
import Raiblocks.Chains
import Raiblocks.Unreceived
import Raiblocks.UncheckedSpec
import Raiblocks.Convergence
import Raiblocks.Digest
import Raiblocks.Copies
import Raiblocks.Signatures
import Raiblocks.History
import Raiblocks.Balances
import Raiblocks.Owners
import Raiblocks.BulkPush
import Raiblocks.Assertions
import Raiblocks.Replacement
import Raiblocks.Forced
import Raiblocks.Votes
import Raiblocks.Tally
import Raiblocks.Election
import Raiblocks.PendingRange
import Raiblocks.Notifications
import Raiblocks.Kit.Runs
import Raiblocks.Kit.Search
import Raiblocks.VoteStore
import Raiblocks.Deliveries
import Raiblocks.FlushRace
import Raiblocks.VoteRace
import Raiblocks.Announce
import Raiblocks.Messages
import Raiblocks.Wire
import Raiblocks.Bulk
import Raiblocks.PullClient
import Raiblocks.Frontiers
import Raiblocks.FrontierServer
import Raiblocks.PullServer
import Raiblocks.RangeServer
import Raiblocks.WorkPool
import Raiblocks.DistributedWork
import Raiblocks.Reopen
import Raiblocks.Upgrades
import Raiblocks.UpgradeSpec
import Raiblocks.Formats
import Raiblocks.Rebuild
import Raiblocks.Wallet
import Raiblocks.WalletSpec
import Raiblocks.WalletKeys
import Raiblocks.WalletLeak
import Raiblocks.WalletRace
import Raiblocks.WalletMove
import Raiblocks.WalletActions
import Raiblocks.Rivals
import Raiblocks.ConfirmRace
import Raiblocks.WalletImport
import Raiblocks.SeedRecovery
import Raiblocks.AccountTexts
import Raiblocks.Amounts
import Raiblocks.FormatBalance
import Raiblocks.WalletUpgrade
import Raiblocks.RpcSend
import Raiblocks.PaymentObservers
import Raiblocks.Kit.Fill
import Raiblocks.Peers
import Raiblocks.Kit.Leases
import Raiblocks.PaymentAccounts
import Raiblocks.Kit.Named
import Raiblocks.Kit.Trials
import Raiblocks.Numerals
import Raiblocks.Config
import Raiblocks.ConfigLoad
import Raiblocks.ConfigSave
import Raiblocks.ConfigUpgrade
import Raiblocks.Attempts
import Raiblocks.Catchup
import Raiblocks.Threads
