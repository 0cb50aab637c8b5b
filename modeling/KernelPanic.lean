import KernelPanic.Lib.Run
import KernelPanic.Lib.HeapOrder
import KernelPanic.Utils.AtomicList
import KernelPanic.Utils.AtomicList.Interrupted
import KernelPanic.Utils.LinkedList
import KernelPanic.Utils.Heap
import KernelPanic.Utils.Heap.Tree
import KernelPanic.Utils.Heap.Queue
import KernelPanic.Kernel.Handler
import KernelPanic.Kernel.Locking
import KernelPanic.Kernel.Scheduler
import KernelPanic.Kernel.Scheduler.RunQueue
import KernelPanic.Kernel.Scheduler.Quantum
import KernelPanic.Kernel.Scheduler.Shutdown
import KernelPanic.Kernel.Timer
import KernelPanic.Kernel.Timer.Run
import KernelPanic.Kernel.Timer.WrapAround
import KernelPanic.Kernel.Resource
import KernelPanic.Kernel.Resource.Exclusion
import KernelPanic.Kernel.Join
import KernelPanic.Kernel.Pipe
import KernelPanic.Kernel.Pipe.Tokens
import KernelPanic.Kernel.Pipe.Stream
import KernelPanic.Kernel.Pipe.Shared
import KernelPanic.Kernel.Socket
import KernelPanic.Utils.RingBuffer
import KernelPanic.Utils.RingBuffer.Transfer
import KernelPanic.Kernel.Semaphore
import KernelPanic.Utils.Heap.Run
import KernelPanic.Utils.RingBuffer.Fifo
import KernelPanic.Kernel.Resource.Fairness
import KernelPanic.Kernel.Semaphore.Fifo
import KernelPanic.Kernel.Worker
import KernelPanic.Kernel.Broadcast
import KernelPanic.Kernel.Locking.Uniform
import KernelPanic.Kernel.Isr.Nesting
import KernelPanic.Kernel.Dispatch
import KernelPanic.Kernel.Dispatch.Code
import KernelPanic.Kernel.Dispatch.Requests
import KernelPanic.Kernel.Dispatch.Counts
import KernelPanic.Kernel.Dispatch.Stops
import KernelPanic.Kernel.Dispatch.Deferred
import KernelPanic.Lib.Relaxation
import KernelPanic.Utils.Bitmap
import KernelPanic.Umouse.Map
import KernelPanic.Umouse.FloodFill
import KernelPanic.Umouse.FloodFill.Distance
import KernelPanic.Lib.ArgMin
import KernelPanic.Umouse.SubMove
import KernelPanic.Umouse.SubMove.Safety
import KernelPanic.Umouse.SubMove.Best
import KernelPanic.Umouse.SubMove.Place
import KernelPanic.Kernel.Serial
import KernelPanic.Kernel.Serial.Port
import KernelPanic.Kernel.Watchdog
import KernelPanic.Kernel.Sleep
import KernelPanic.Kernel.Timer.Interrupted
import KernelPanic.Kernel.Handler.Ownership
import KernelPanic.Lib.Traversal
import KernelPanic.Lib.Tiling
import KernelPanic.Kernel.Minilisp
import KernelPanic.Kernel.Minilisp.Graph
import KernelPanic.Kernel.Minilisp.Forward
import KernelPanic.Kernel.Minilisp.Collect
import KernelPanic.Umouse.PositionLog
import KernelPanic.Umouse.Explore
import KernelPanic.Umouse.Explore.Run
import KernelPanic.Umouse.Explore.Arrival
import KernelPanic.Utils.Bham
import KernelPanic.Utils.Primes
import KernelPanic.Lib.SearchTree
import KernelPanic.Utils.Avl
import KernelPanic.Utils.Avl.Tree
import KernelPanic.Utils.Avl.Run
import KernelPanic.Kernel.Broadcast.Groups
import KernelPanic.Kernel.Minilisp.Alloc
import KernelPanic.Lib.Program
import KernelPanic.Lib.Calls
import KernelPanic.Kernel.Minilisp.Machine
import KernelPanic.Kernel.Minilisp.Simulation
import KernelPanic.Kernel.Minilisp.Reader
import KernelPanic.Kernel.Minilisp.Rules
import KernelPanic.Kernel.Minilisp.Syntax
import KernelPanic.Kernel.Minilisp.Builds
import KernelPanic.Kernel.Minilisp.Reads
import KernelPanic.Kernel.Minilisp.Independence
import KernelPanic.Kernel.Minilisp.Lexer
import KernelPanic.Kernel.Minilisp.Markers
import KernelPanic.Kernel.Minilisp.Names
import KernelPanic.Kernel.Minilisp.Printer
import KernelPanic.Kernel.Minilisp.RoundTrip
import KernelPanic.Kernel.Minilisp.Evaluator
import KernelPanic.Kernel.Minilisp.Typed
import KernelPanic.Kernel.Minilisp.Kinds
import KernelPanic.Kernel.Minilisp.Stacked
import KernelPanic.Kernel.Minilisp.Safe
import KernelPanic.Kernel.Minilisp.Evaluator.Environment
import KernelPanic.Kernel.Minilisp.Evaluator.Functions
import KernelPanic.Kernel.Minilisp.Evaluator.Primitives
import KernelPanic.Kernel.Minilisp.Evaluator.Soundness
import KernelPanic.Kernel.Minilisp.Evaluator.Data
import KernelPanic.Kernel.Minilisp.Evaluator.Session
import KernelPanic.Kernel.Minilisp.Evaluator.Repl
import KernelPanic.Utils.LinkedList.Deque
import KernelPanic.Utils.Bitmap.FlagSet
import KernelPanic.Hal.Clock
