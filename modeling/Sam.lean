import Sam.Library.Transition
import Sam.Library.PermitQueue
import Sam.Library.ReadWriteLock
import Sam.Library.Ledger
import Sam.Library.Links
import Sam.Library.Tail
import Sam.Library.Tally
import Sam.Library.LockScope
import Sam.Library.Serial
import Sam.Library.Reentrant
import Sam.Library.Turns
import Sam.Library.Fuel
import Sam.Detail.CriticalSection
import Sam.Detail.History
import Sam.Detail.MutexImpl
import Sam.Detail.SharedMutexImpl
import Sam.Detail.SemaphoreImpl
import Sam.Detail.ConditionVariableImpl
import Sam.Detail.BarrierImpl
import Sam.Detail.BilistNode
import Sam.Detail.BasicOp
import Sam.Detail.ServiceMember
import Sam.Detail.MoveAssignment
import Sam.SharedMutex.Holders
import Sam.SharedMutex.ReaderPreference
import Sam.Barrier.Interleaving
import Sam.Semaphore.Permits
import Sam.Mutex.HandOff
import Sam.Move.Mutex
import Sam.Move.Queues
import Sam.Operation.Primitive
import Sam.Operation.Kinds
import Sam.Operation.World
import Sam.Operation.Endings
import Sam.Service.Shutdown
import Sam.Service.Registry
import Sam.Service.Contexts
import Sam.ConditionVariable.Heap
import Sam.ConditionVariable.Notify
import Sam.ConditionVariable.Predicates
import Sam.ConditionVariable.Walk
import Sam.Operation.Closing
import Sam.Operation.Race
import Sam.Operation.Withdrawal
import Sam.Operation.CancelledWait
import Sam.Barrier.Cancellation
import Sam.Operation.ErrorCode
import Sam.Operation.BlockingCall
import Sam.Operation.Initiation
import Sam.Operation.FailedInitiation
import Sam.Operation.InlineHandler
import Sam.Guard.Guardable
import Sam.Guard.Guarded
import Sam.Guard.InnerOperation
import Sam.Guard.Lockable
import Sam.Guard.LockGuard
import Sam.Guard.Progress
import Sam.Guard.SharedLockGuard
import Sam.Bilist.Simulation
import Sam.Bilist.Assignment
import Sam.Bilist.Drain
import Sam.Barrier.Phases
import Sam.Linked.Placed
import Sam.Linked.Mutex
import Sam.Linked.Counting
import Sam.Linked.EntryPoints
import Sam.Move.Construction
import Sam.Move.Cancellation
import Sam.Barrier.Heap
import Sam.Barrier.Reachable
import Sam.Barrier.SecondUnlink
import Sam.Operation.Atomic
import Sam.Operation.Turns
import Sam.Operation.ReadersWriters
import Sam.Operation.SingleThreaded
import Sam.Operation.Wakeup
import Sam.Operation.Resources
