import GenesisOS.Refinement.Boot
import GenesisOS.Theorems.Queues
import GenesisOS.Theorems.Liberation
import GenesisOS.Theorems.Semaphores
import GenesisOS.Theorems.Waiting
import GenesisOS.Theorems.Preemption
import GenesisOS.Theorems.Files
import GenesisOS.Theorems.Lifecycle
import GenesisOS.Theorems.Tables
import GenesisOS.Abstract.Lives
import GenesisOS.Invariants.Deceased
import GenesisOS.Invariants.Calls
import GenesisOS.Invariants.Channels
import GenesisOS.Refinement.Calls
import GenesisOS.Theorems.Calls
import GenesisOS.Theorems.Channels
import GenesisOS.Invariants.Grants
import GenesisOS.Theorems.Grants
import GenesisOS.Theorems.Children
import GenesisOS.Lib.Ledger
import GenesisOS.Lib.Rings
import GenesisOS.Theorems.Links
import GenesisOS.Refinement.Frames
import GenesisOS.Refinement.Pointers
import GenesisOS.Invariants.Keyboard
import GenesisOS.Refinement.Returns
import GenesisOS.Theorems.Signals
import GenesisOS.Theorems.Console
import GenesisOS.Theorems.Yielding
import GenesisOS.Invariants.Queues
import GenesisOS.Theorems.Waiters
import GenesisOS.Invariants.Sleepers
import GenesisOS.Theorems.Sleepers
import GenesisOS.Refinement.Reaping
import GenesisOS.Theorems.Reaping
import GenesisOS.Theorems.Keyboard
import GenesisOS.Refinement.Ledger
import GenesisOS.Theorems.RoundRobin
import GenesisOS.Theorems.Durations
import GenesisOS.Lib.CStrings
import GenesisOS.Refinement.History
import GenesisOS.Theorems.History
import GenesisOS.Model.Shell
import GenesisOS.Lib.Words
import GenesisOS.Refinement.Shell
import GenesisOS.Theorems.Shell
import GenesisOS.Theorems.Scrollback
import GenesisOS.Refinement.Balance
import GenesisOS.Refinement.Holdings
import GenesisOS.Refinement.Accounts
import GenesisOS.Theorems.Creation
import GenesisOS.Theorems.Window
import GenesisOS.Model.Keymap
import GenesisOS.Model.Scancodes
import GenesisOS.Invariants.Scancodes
import GenesisOS.Invariants.Touches
import GenesisOS.Theorems.Scancodes
import GenesisOS.Theorems.Heap
import GenesisOS.Abstract.Formats
import GenesisOS.Model.Numbers
import GenesisOS.Refinement.Formats
import GenesisOS.Refinement.Numbers
import GenesisOS.Theorems.Formats
import GenesisOS.Theorems.Output
import GenesisOS.Theorems.Registers
