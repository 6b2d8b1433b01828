import LttngParallelAnalyses.Common.Loops
import LttngParallelAnalyses.Common.Coverage
import LttngParallelAnalyses.Common.MergeOrder
import LttngParallelAnalyses.Common.Balance
import LttngParallelAnalyses.Common.IndexCodec
import LttngParallelAnalyses.Common.ChunkingSafety
import LttngParallelAnalyses.Common.StreamLookup
import LttngParallelAnalyses.Common.Registration
import LttngParallelAnalyses.Common.CountedRuns
import LttngParallelAnalyses.Common.Folder
import LttngParallelAnalyses.Common.WorkerMoves
import LttngParallelAnalyses.Common.WorkerVector
import LttngParallelAnalyses.Cpu.Agreement
import LttngParallelAnalyses.Cpu.Reference
import LttngParallelAnalyses.Cpu.Chunked
import LttngParallelAnalyses.Cpu.Utilisation
import LttngParallelAnalyses.Cpu.Conservation
import LttngParallelAnalyses.Cpu.Parallel
import LttngParallelAnalyses.Cpu.Balanced
import LttngParallelAnalyses.Cpu.Straddles
import LttngParallelAnalyses.Cpu.TimeOrder
import LttngParallelAnalyses.Cpu.Subtractions
import LttngParallelAnalyses.Cpu.Bounds
import LttngParallelAnalyses.Cpu.Reachable
import LttngParallelAnalyses.Cpu.Names
import LttngParallelAnalyses.Cpu.UnknownTask
import LttngParallelAnalyses.Cpu.Trees
import LttngParallelAnalyses.Cpu.Lossy
import LttngParallelAnalyses.Cpu.Report
import LttngParallelAnalyses.Cpu.Folder
import LttngParallelAnalyses.Io.Chunked
import LttngParallelAnalyses.Io.Analysis
import LttngParallelAnalyses.Io.Reference
import LttngParallelAnalyses.Io.Split
import LttngParallelAnalyses.Io.Subtractions
import LttngParallelAnalyses.Io.UnknownSyscall
import LttngParallelAnalyses.Io.Trees
import LttngParallelAnalyses.Io.Reachable
import LttngParallelAnalyses.Io.Lossy
import LttngParallelAnalyses.Io.Report
import LttngParallelAnalyses.Independence
import LttngParallelAnalyses.Count.Analysis
import LttngParallelAnalyses.Count.Folder
import LttngParallelAnalyses.Main
