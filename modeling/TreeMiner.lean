import TreeMiner.Gpu.BatchResult
import TreeMiner.Gpu.Blake2b
import TreeMiner.Gpu.CpuBackend
import TreeMiner.Gpu.CpuWorker
import TreeMiner.Gpu.FirstBlocks
import TreeMiner.Gpu.HashBackend
import TreeMiner.Gpu.Histories
import TreeMiner.Gpu.Initialization
import TreeMiner.Gpu.Inputs
import TreeMiner.Gpu.Lane
import TreeMiner.Gpu.LaneCounts
import TreeMiner.Gpu.LaneFinds
import TreeMiner.Gpu.Launch
import TreeMiner.Gpu.MineUnit
import TreeMiner.Gpu.Oneshot
import TreeMiner.Gpu.Pairing
import TreeMiner.Gpu.ParallelFill
import TreeMiner.Gpu.PhcAssembler
import TreeMiner.Gpu.Precomputed
import TreeMiner.Gpu.RefTable
import TreeMiner.Gpu.Request
import TreeMiner.Gpu.Runner
import TreeMiner.Gpu.RunnerFrame
import TreeMiner.Gpu.Streaming
import TreeMiner.Gpu.Tuning
import TreeMiner.Gpu.Warp
import TreeMiner.Journal.Columns
import TreeMiner.Journal.FallbackSink
import TreeMiner.Journal.FindJournal
import TreeMiner.Journal.ImportRetry
import TreeMiner.Journal.Interchange
import TreeMiner.Journal.RustSink
import TreeMiner.Journal.SinkLog
import TreeMiner.Journal.SinkRoundTrip
import TreeMiner.Journal.TornWrites
import TreeMiner.Lib.Argon2
import TreeMiner.Lib.Argon2Digest
import TreeMiner.Lib.Argon2Hash
import TreeMiner.Lib.Argon2Numbers
import TreeMiner.Lib.Base64
import TreeMiner.Lib.Binary64
import TreeMiner.Lib.Blake2b
import TreeMiner.Lib.Bytes
import TreeMiner.Lib.Calendar
import TreeMiner.Lib.Checked
import TreeMiner.Lib.Choice
import TreeMiner.Lib.Faults
import TreeMiner.Lib.Footprint
import TreeMiner.Lib.Grouping
import TreeMiner.Lib.Interleave
import TreeMiner.Lib.Json
import TreeMiner.Lib.Lines
import TreeMiner.Lib.Lockstep
import TreeMiner.Lib.Mailbox
import TreeMiner.Lib.MailboxClose
import TreeMiner.Lib.Meter
import TreeMiner.Lib.Replay
import TreeMiner.Lib.Rotation
import TreeMiner.Lib.Solo
import TreeMiner.Lib.Source
import TreeMiner.Lib.Steps
import TreeMiner.Lib.Table
import TreeMiner.Lib.Topics
import TreeMiner.Lib.Utf8
import TreeMiner.Lib.WorkShare
import TreeMiner.Miner.CapturePaths
import TreeMiner.Miner.Disk
import TreeMiner.Miner.Durable
import TreeMiner.Miner.Host
import TreeMiner.Platform.Delivery
import TreeMiner.Platform.Envelope
import TreeMiner.Platform.Lease
import TreeMiner.Platform.Lifetime
import TreeMiner.Platform.Manager
import TreeMiner.Platform.Message
import TreeMiner.Platform.Signing
import TreeMiner.Platform.Unsigned
import TreeMiner.Server.Accounts
import TreeMiner.Server.Atomic
import TreeMiner.Server.Balance
import TreeMiner.Server.Broker
import TreeMiner.Server.Calls
import TreeMiner.Server.Charging
import TreeMiner.Server.LeaseEnds
import TreeMiner.Server.Ledger
import TreeMiner.Server.Owing
import TreeMiner.Server.Packets
import TreeMiner.Server.SettleOnce
import TreeMiner.Server.Store
import TreeMiner.Server.Topics
import TreeMiner.Server.Transfer
import TreeMiner.Server.Wallet
import TreeMiner.Server.Watcher
import TreeMiner.Submit.Accounting
import TreeMiner.Submit.Agreement
import TreeMiner.Submit.Automaton
import TreeMiner.Submit.Backoff
import TreeMiner.Submit.CivilDates
import TreeMiner.Submit.Classifier
import TreeMiner.Submit.ClockRange
import TreeMiner.Submit.Confirm
import TreeMiner.Submit.DifficultyHint
import TreeMiner.Submit.DrainPacing
import TreeMiner.Submit.Extraction
import TreeMiner.Submit.Fatal
import TreeMiner.Submit.HalfOpen
import TreeMiner.Submit.IsoText
import TreeMiner.Submit.MachineDates
import TreeMiner.Submit.Manager
import TreeMiner.Submit.NoLoss
import TreeMiner.Submit.Outage
import TreeMiner.Submit.Pacing
import TreeMiner.Submit.Paths
import TreeMiner.Submit.Port
import TreeMiner.Submit.ProbeCap
import TreeMiner.Submit.PublishedDifficulty
import TreeMiner.Submit.RustClassifier
import TreeMiner.Submit.RustDates
import TreeMiner.Submit.RustManager
import TreeMiner.Submit.RustTransport
import TreeMiner.Submit.Scanner
import TreeMiner.Submit.Selection
import TreeMiner.Submit.Starvation
import TreeMiner.Submit.System
import TreeMiner.Submit.Time
import TreeMiner.Submit.Types
import TreeMiner.Submit.Unpark
import TreeMiner.Submit.WakeUp
import TreeMiner.Submit.Window
import TreeMiner.Submit.WindowBudget
