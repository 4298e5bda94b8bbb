import UserScheduler.Lib.Machine
import UserScheduler.Lib.BinaryHeap
import UserScheduler.Lib.PreemptiveSchedule
import UserScheduler.Lib.RemainingWork
import UserScheduler.Lib.PreemptiveOptimality
import UserScheduler.Lib.LineUp
import UserScheduler.Lib.CompletionTime
import UserScheduler.Lib.Tokens
import UserScheduler.Lib.Trace
import UserScheduler.Lib.SignedArithmetic
import UserScheduler.Lib.RunQueue
import UserScheduler.Lib.SingleServer
import UserScheduler.Process
import UserScheduler.Heap
import UserScheduler.HeapRefinement
import UserScheduler.HeapAccesses
import UserScheduler.RoundRobin
import UserScheduler.RoundRobinQueue
import UserScheduler.JobSchedulers
import UserScheduler.Timespec
import UserScheduler.TimespecOverflow
import UserScheduler.EventLoop
import UserScheduler.EventRuns
import UserScheduler.ShortestJobOrder
import UserScheduler.ShortestJobRuns
import UserScheduler.PreemptiveStart
import UserScheduler.PreemptiveCharging
import UserScheduler.PreemptiveRuns
import UserScheduler.PreemptiveCompletion
import UserScheduler.PreemptiveGroups
import UserScheduler.PreemptiveClock
import UserScheduler.RoundRobinRuns
import UserScheduler.RoundRobinPriority
import UserScheduler.RoundRobinTermination
import UserScheduler.RoundRobinTimer
import UserScheduler.RoundRobinClock
import UserScheduler.RoundRobinSlices
import UserScheduler.SignalHandoff
import UserScheduler.LoopTermination
import UserScheduler.ArrivalDelivery
import UserScheduler.ProcessLog
import UserScheduler.LogFormat
import UserScheduler.ScheduledProcesses
import UserScheduler.Kernel
import UserScheduler.KernelQueue
import UserScheduler.Dispatching
import UserScheduler.Timekeeping
import UserScheduler.SystemRuns
import UserScheduler.SystemArrivals
import UserScheduler.SystemService
import UserScheduler.SystemTermination
import UserScheduler.SystemLog
import UserScheduler.SystemOrder
import UserScheduler.RoundRobinTies
import UserScheduler.RoundRobinWaiting
import UserScheduler.ShortestJobGaps
import UserScheduler.Input
import UserScheduler.ProgramStart
import UserScheduler.Program
import UserScheduler.HeapCosts
