import Pot.Transition
import Pot.Tally
import Pot.Mutex
import Pot.TicketQueue
import Pot.LfqueueTickets
import Pot.LfqueueRefinement
import Pot.TaskDelivery
import Pot.TaskHandoff
import Pot.TaskLifetime
import Pot.CoroutineSimulation
import Pot.CoroMemory
import Pot.AsyncLockHandover
import Pot.AsyncConditionVariableWaiters
import Pot.AsyncBarrierRelease
import Pot.EventCount
import Pot.SandboxWakeups
import Pot.SandboxTickets
import Pot.SandboxDrain
import Pot.WhenAllCompletion
import Pot.LfdequeueReturns
import Pot.LfdequeueReclaim
import Pot.ThreadStop
import Pot.ThreadDrain
import Pot.ThreadLfStop
import Pot.ThreadLfWakeups
import Pot.ThreadLfDrain
import Pot.ExecutorsShutdown
import Pot.ExecutorsRoundRobin
import Pot.ForkJoinProgress
import Pot.BackPressureRelief
import Pot.ParforWidth
import Pot.ParforExecutor
import Pot.WhenAllOutcome
import Pot.LfdequeueHistory
import Pot.LfqueueWrapping
import Pot.LfqueueEmptiness
import Pot.AsyncLockThread
import Pot.AsyncConditionVariableSet
import Pot.SimdInteger
import Pot.SimdCompare
import Pot.DotSimd
import Pot.PooledTaskResumption
import Pot.LfdequeueChain
import Pot.LfqueueModule
import Pot.LfqueueModuleCalls
import Pot.LfqueueModuleInvariant
import Pot.LfqueueModuleNarrowing
import Pot.LfqueueModuleSize
import Pot.ParforCallable
import Pot.ParforNestedChunks
import Pot.ReduceTiling
import Pot.SandboxPriority
import Pot.ThreadPoolLfgqDrain
import Pot.Ownership
import Pot.UniqueFunctionLeak
import Pot.LfqueueModuleAnswers
import Pot.ForkJoinCompletion
import Pot.ExecutorsLqShutdown
import Pot.AsyncConditionVariableStop
import Pot.SandboxOrder
import Pot.CoroutineModuleGet
import Pot.LazyPooledTaskDelivery
import Pot.ReducePacked
import Pot.LfdequeueOverflow
