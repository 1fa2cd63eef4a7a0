import ComputerSystems.Memory.Bytes
import ComputerSystems.Memory.Tiling
import ComputerSystems.Lists.DoublyLinked
import ComputerSystems.Malloc.Machine
import ComputerSystems.Malloc.ListC
import ComputerSystems.Malloc.Mm
import ComputerSystems.Malloc.Frames
import ComputerSystems.Malloc.Blocks
import ComputerSystems.Malloc.Operations
import ComputerSystems.Malloc.FreeLists
import ComputerSystems.Malloc.Representation
import ComputerSystems.Malloc.Coalesce
import ComputerSystems.Malloc.FindFit
import ComputerSystems.Malloc.Place
import ComputerSystems.Malloc.Allocator
import ComputerSystems.Malloc.Realloc
import ComputerSystems.Systems.Computations
import ComputerSystems.Systems.Runs
import ComputerSystems.Malloc.Client
import ComputerSystems.Malloc.Safety
import ComputerSystems.Malloc.Contents
import ComputerSystems.Malloc.Failure
import ComputerSystems.Malloc.Limits
import ComputerSystems.Malloc.Offsets
import ComputerSystems.Malloc.Replays
import ComputerSystems.Malloc.Searching
import ComputerSystems.Malloc.Priority
import ComputerSystems.Malloc.FreeOrder
import ComputerSystems.Systems.Tokens
import ComputerSystems.Threadpool.Programs
import ComputerSystems.Threadpool.Pool
import ComputerSystems.Threadpool.Ledger
import ComputerSystems.Threadpool.Turns
import ComputerSystems.Threadpool.Joins
import ComputerSystems.Systems.Mutexes
import ComputerSystems.Threadpool.Locks
import ComputerSystems.Threadpool.Discipline
import ComputerSystems.Threadpool.Shutdown
import ComputerSystems.Threadpool.Wakeups
import ComputerSystems.Threadpool.Progress
import ComputerSystems.Threadpool.Sections
import ComputerSystems.Paths.Lexical
import ComputerSystems.Memory.CStrings
import ComputerSystems.Pserv.Strings
import ComputerSystems.Pserv.Buffers
import ComputerSystems.Pserv.Input
import ComputerSystems.Pserv.Receiving
import ComputerSystems.Pserv.Reading
import ComputerSystems.Pserv.Requests
import ComputerSystems.Pserv.Parsing
import ComputerSystems.Pserv.Streams
import ComputerSystems.Pserv.Outcomes
import ComputerSystems.Pserv.Boundaries
import ComputerSystems.Pserv.Assets
import ComputerSystems.Pserv.Responses
import ComputerSystems.Pserv.Transactions
import ComputerSystems.Pserv.Messages
import ComputerSystems.Pserv.Building
import ComputerSystems.Pserv.KeepAlive
import ComputerSystems.Pserv.Framing
import ComputerSystems.Pserv.Lengths
import ComputerSystems.Pserv.Growth
import ComputerSystems.Pserv.Printing
import ComputerSystems.Pserv.Reads
import ComputerSystems.Pserv.Assertions
import ComputerSystems.Pserv.Logins
import ComputerSystems.Pserv.RequestLines
import ComputerSystems.Systems.Tables
import ComputerSystems.Cush.Ast
import ComputerSystems.Cush.Jobs
import ComputerSystems.Cush.Launching
import ComputerSystems.Cush.SpawnFailures
import ComputerSystems.Cush.Wiring
import ComputerSystems.Cush.Shell
import ComputerSystems.Cush.Steps
import ComputerSystems.Cush.Bookkeeping
import ComputerSystems.Cush.Views
import ComputerSystems.Cush.Deletion
import ComputerSystems.Cush.Evaluation
import ComputerSystems.Cush.Reports
import ComputerSystems.Cush.Finishing
import ComputerSystems.Cush.Waiting
import ComputerSystems.Cush.Builtins
import ComputerSystems.Cush.Terminal
import ComputerSystems.Cush.JobTable
import ComputerSystems.Cush.Storage
import ComputerSystems.Cush.Grammar
import ComputerSystems.Cush.CommandLines
import ComputerSystems.Systems.Scanners
import ComputerSystems.Cush.Quoting
import ComputerSystems.Cush.CommandPrinting
import ComputerSystems.Memory.Segments
import ComputerSystems.Systems.ForkJoin
import ComputerSystems.Mergesort.Program
import ComputerSystems.Mergesort.Passes
import ComputerSystems.Mergesort.Sorting
import ComputerSystems.Systems.Computations
import ComputerSystems.Lists.Splicing
import ComputerSystems.Lists.NaturalMerge
import ComputerSystems.Lists.WeakOrders
import ComputerSystems.Lists.Program
import ComputerSystems.Lists.Traversal
import ComputerSystems.Lists.Operations
import ComputerSystems.Lists.Sorting
import ComputerSystems.Lists.Histories
import ComputerSystems.Memory.Joining
import ComputerSystems.Implicit.Program
import ComputerSystems.Implicit.Tilings
import ComputerSystems.Implicit.Heap
import ComputerSystems.Implicit.Coalescing
import ComputerSystems.Implicit.Allocator
import ComputerSystems.Implicit.Runs
import ComputerSystems.Implicit.Safety
import ComputerSystems.Quicksort.Program
import ComputerSystems.Quicksort.Sorting
import ComputerSystems.Nqueens.Boards
import ComputerSystems.Nqueens.Program
import ComputerSystems.Nqueens.Checking
import ComputerSystems.Nqueens.Solving
import ComputerSystems.Pserv.Answers
import ComputerSystems.Pserv.Serving
import ComputerSystems.Mdriver.Program
import ComputerSystems.Mdriver.Contracts
import ComputerSystems.Mdriver.Verdicts
import ComputerSystems.Mdriver.Utilization
