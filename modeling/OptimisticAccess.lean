import OptimisticAccess.Conc.Prog
import OptimisticAccess.Conc.System
import OptimisticAccess.Conc.Logic
import OptimisticAccess.Conc.Frame
import OptimisticAccess.Conc.Alone
import OptimisticAccess.Conc.Watched
import OptimisticAccess.Conc.Follow
import OptimisticAccess.Conc.Simulate
import OptimisticAccess.Lib.Walk
import OptimisticAccess.Lib.SortedChain
import OptimisticAccess.Lib.Stamp
import OptimisticAccess.Lib.Linked
import OptimisticAccess.Lib.Slots
import OptimisticAccess.Lib.Holdings
import OptimisticAccess.Entry
import OptimisticAccess.Store
import OptimisticAccess.KeySet
import OptimisticAccess.NoRecl.List
import OptimisticAccess.NoRecl.Chain
import OptimisticAccess.NoRecl.Linear
import OptimisticAccess.NoRecl.Accounts
import OptimisticAccess.NoRecl.Alone
import OptimisticAccess.RC.List
import OptimisticAccess.RC.Counts
import OptimisticAccess.RC.Steps
import OptimisticAccess.RC.Ledger
import OptimisticAccess.RC.Release
import OptimisticAccess.RC.Balance
import OptimisticAccess.RC.Safe
import OptimisticAccess.AOA.Heap
import OptimisticAccess.AOA.State
import OptimisticAccess.AOA.Trace
import OptimisticAccess.AOA.Sweep
import OptimisticAccess.AOA.SweepBits
import OptimisticAccess.AOA.Alloc
import OptimisticAccess.AOA.List
import OptimisticAccess.AOA.Clear
import OptimisticAccess.AOA.Footprint
import OptimisticAccess.AOA.Apart
import OptimisticAccess.AOA.ArrayRoot
import OptimisticAccess.AOA.Graph
import OptimisticAccess.AOA.MarkStack
import OptimisticAccess.AOA.Finish
import OptimisticAccess.AOA.Mutator
import OptimisticAccess.AOA.Marks
import OptimisticAccess.AOA.Stamps
import OptimisticAccess.AOA.Warning
import OptimisticAccess.AOA.Pool
import OptimisticAccess.AOA.Once
import OptimisticAccess.AOA.InitHeap
import OptimisticAccess.NR.Alloc
import OptimisticAccess.NR.Pool
import OptimisticAccess.NR.Refine
import OptimisticAccess.NR.Start
import OptimisticAccess.AOA.Solo.Mark
import OptimisticAccess.AOA.Solo.Arrays
import OptimisticAccess.AOA.Solo.Trace
import OptimisticAccess.AOA.Solo.Clear
import OptimisticAccess.AOA.Solo.Sweep
import OptimisticAccess.AOA.Solo.Collect
import OptimisticAccess.AOA.Solo.Quiescent
import OptimisticAccess.AOA.Solo.Exact
import OptimisticAccess.AOA.Solo.Roots
import OptimisticAccess.AOA.Solo.Phases
import OptimisticAccess.AOA.Solo.Lists
import OptimisticAccess.AOA.Solo.Search
import OptimisticAccess.AOA.Solo.Operations
import OptimisticAccess.AOA.Solo.Transparent
import OptimisticAccess.AOA.Solo.Exhaustion
import OptimisticAccess.MOA.SimpleSet
import OptimisticAccess.MOA.State
import OptimisticAccess.MOA.Alloc
import OptimisticAccess.MOA.List
import OptimisticAccess.MOA.Books
import OptimisticAccess.MOA.Shelve
import OptimisticAccess.MOA.Caches
import OptimisticAccess.MOA.Objects
import OptimisticAccess.MOA.Stacks
import OptimisticAccess.MOA.Nodes
import OptimisticAccess.MOA.Ledger
import OptimisticAccess.MOA.Chains
import OptimisticAccess.MOA.Footprint
import OptimisticAccess.MOA.Rules
import OptimisticAccess.MOA.Hold
import OptimisticAccess.MOA.Collect
import OptimisticAccess.MOA.Recycle
import OptimisticAccess.MOA.Serve
import OptimisticAccess.MOA.Leak
import OptimisticAccess.MOA.Lists
import OptimisticAccess.MOA.Windows
import OptimisticAccess.MOA.Search
import OptimisticAccess.MOA.Operations
import OptimisticAccess.MOA.Start
import OptimisticAccess.MOA.Conservation
import OptimisticAccess.MOA.HazardSet
import OptimisticAccess.Bench.Barrier
import OptimisticAccess.Bench.InitialFill
import OptimisticAccess.Bench.FilledRun
