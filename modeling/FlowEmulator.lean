import FlowEmulator.Flowgo
import FlowEmulator.Storage
import FlowEmulator.Emulator.Errors
import FlowEmulator.Emulator.PendingBlock
import FlowEmulator.Emulator.Blockchain
import FlowEmulator.Emulator.Lifecycle
import FlowEmulator.Emulator.Execute
import FlowEmulator.Emulator.Commit
import FlowEmulator.Emulator.Queries
import FlowEmulator.Emulator.Admission
import FlowEmulator.Emulator.Run
import FlowEmulator.Emulator.Chain
import FlowEmulator.Emulator.Transactions
import FlowEmulator.Emulator.Ledger
import FlowEmulator.Emulator.AutoMine
import FlowEmulator.Emulator.Debug
import FlowEmulator.Emulator.Concurrency
import FlowEmulator.Emulator.BlockQueries
import FlowEmulator.Emulator.Events
import FlowEmulator.Emulator.Accounts
import FlowEmulator.Emulator.ServiceTransactions
import FlowEmulator.Emulator.BlockExecution
import FlowEmulator.Emulator.Scripts
import FlowEmulator.Emulator.History
import FlowEmulator.Emulator.Recovery
import FlowEmulator.Emulator.Interleavings
