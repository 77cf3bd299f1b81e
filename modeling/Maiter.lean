import Maiter.Lib.Runs
import Maiter.Lib.LinearProbing
import Maiter.Lib.Decimal
import Maiter.Lib.DeltaIteration
import Maiter.Lib.L1Contraction
import Maiter.Lib.Solution
import Maiter.Lib.Greedy
import Maiter.Lib.WeightedWalk
import Maiter.StateTable.FiniteMap
import Maiter.StateTable.Reachable
import Maiter.StateTable.Rehash
import Maiter.StateTable.EntryCounter
import Maiter.Engine.Refinement
import Maiter.FullScan
import Maiter.PrioritySchedule
import Maiter.Engine.SumKernels
import Maiter.Engine.RunIter
import Maiter.Engine.VertexLock
import Maiter.Engine.Priority
import Maiter.Engine.Atomicity
import Maiter.Engine.ShortestPath
import Maiter.Kernels
import Maiter.Loading.ReadFile
import Maiter.Loading.OtherLines
import Maiter.Loading.AdjacencyLines
import Maiter.Loading.WeightedLinks
import Maiter.Handshake.Invariant
import Maiter.Handshake.Deadlock
import Maiter.Handshake.Shutdown
import Maiter.TermCheck.Converged
import Maiter.TermCheck.Estimate
import Maiter.TermCheck.Monotone
import Maiter.EntirePass
import Maiter.Engine.LockRange
import Maiter.SecondPhase.Basic
import Maiter.SecondPhase.Invariant
import Maiter.SecondPhase.Rounds
import Maiter.Engine.MutualExclusion
import Maiter.SecondPhase.Progress
import Maiter.Engine.Convergence
import Maiter.Engine.PriorityRounds
import Maiter.Config.LoadConfig
import Maiter.Config.Options
import Maiter.Programs
import Maiter.TermCheck.Ending
import Maiter.RunMaiter.Basic
import Maiter.RunMaiter.PageRank
import Maiter.RunMaiter.ShortestPath
