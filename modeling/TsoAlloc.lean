import TsoAlloc.Library.Extents
import TsoAlloc.Library.LinkedSegment
import TsoAlloc.Library.Transition
import TsoAlloc.Ledger
import TsoAlloc.Wrapping
import TsoAlloc.StrategyValues
import TsoAlloc.MixedReads
import TsoAlloc.Client
import TsoAlloc.Tampering
import TsoAlloc.Exclusion
import TsoAlloc.NullRecords
import TsoAlloc.Interference
import TsoAlloc.StrategyPlacement
import TsoAlloc.ExactFit
import TsoAlloc.Releasing
import TsoAlloc.Draining
import TsoAlloc.Undoing
import TsoAlloc.Delivery
import TsoAlloc.Session
import TsoAlloc.Monotone
import TsoAlloc.Initialization
import TsoAlloc.Measuring
import TsoAlloc.Benchmark
import TsoAlloc.BenchmarkEnds
import TsoAlloc.Fragmentation
import TsoAlloc.Reachability
import TsoAlloc.Hanging
import TsoAlloc.Lookahead
import TsoAlloc.Integrity
import TsoAlloc.BenchmarkSuite
import TsoAlloc.StackDiscipline
import TsoAlloc.Relocation
import TsoAlloc.Lifetimes
import TsoAlloc.FirstBatch
import TsoAlloc.Alignment
import TsoAlloc.FreeTest
import TsoAlloc.ArbitraryStore
import TsoAlloc.Atomicity
import TsoAlloc.Interruption
