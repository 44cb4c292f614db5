import Rtmap.Lib.Transition
import Rtmap.Lib.Window
import Rtmap.Lib.Records
import Rtmap.Lib.SortedMap
import Rtmap.Ring.Event
import Rtmap.Ring.Producer
import Rtmap.Ring.System
import Rtmap.Ring.Trace
import Rtmap.Ring.Memory
import Rtmap.Ring.Delivery
import Rtmap.Ring.Accounting
import Rtmap.Ring.Owners
import Rtmap.Ring.TrackedOnce
import Rtmap.Ring.Registration
import Rtmap.Ring.PollBounds
import Rtmap.Ring.Runs
import Rtmap.Ring.FullChecked
import Rtmap.Engine.Snapshots
import Rtmap.Ring.Progress
import Rtmap.Ring.Fork
import Rtmap.Tracer.BasicBlock
import Rtmap.Tracer.Slots
import Rtmap.Lib.BitWords
import Rtmap.Lib.TextLines
import Rtmap.Lib.Str
import Rtmap.Engine.TopologyText
import Rtmap.Check.RoundTrip
import Rtmap.Check.Assertions
import Rtmap.Engine.BlockLines
import Rtmap.Check.Blocks
import Rtmap.Check.ChainLength
import Rtmap.Check.FinalGraph
import Rtmap.Check.ExitStatus
import Rtmap.Check.UseAfterFree
import Rtmap.Tracer.ModuleTable
import Rtmap.Tracer.PriorityReads
import Rtmap.Tracer.BloomFilter
import Rtmap.Tracer.ValueCapture
import Rtmap.Tracer.CompoundWrite
import Rtmap.Tracer.HeadCache
import Rtmap.Tracer.Signals
import Rtmap.Tracer.ModuleLoad
import Rtmap.Ring.Discovery
import Rtmap.Engine.Steps
import Rtmap.Engine.CallFrames
import Rtmap.Engine.CallBalance
import Rtmap.Engine.LibFunctions
import Rtmap.Engine.Sidecar
import Rtmap.Lib.Streams
import Rtmap.Engine.Drain
import Rtmap.Engine.SeqTracking
import Rtmap.Engine.SeqGaps
import Rtmap.Lib.SimplePath
import Rtmap.Lib.SwapRemove
import Rtmap.Engine.ChildIds
import Rtmap.Engine.Retirement
import Rtmap.Engine.TypeStamps
import Rtmap.Engine.HeapEpochs
import Rtmap.Engine.BlockEpochs
import Rtmap.Engine.Freshness
import Rtmap.Engine.Lines
import Rtmap.Engine.LastStamp
import Rtmap.Engine.Bounds
import Rtmap.Engine.HeapMirror
import Rtmap.Engine.FinalSweep
import Rtmap.Engine.Untyped
import Rtmap.Engine.Uncounted
import Rtmap.Engine.Replay
import Rtmap.Engine.Recording
import Rtmap.Engine.RegisterSnapshots
import Rtmap.Engine.RegisterValues
import Rtmap.Engine.ReplayBatches
import Rtmap.Engine.Displacing
import Rtmap.Engine.EpochEnds
import Rtmap.Engine.EpochRuns
import Rtmap.Engine.SharedMaps
import Rtmap.Engine.Coherence
import Rtmap.Engine.HeapIndex
import Rtmap.Lib.BinarySearch
import Rtmap.Lib.RingLog
import Rtmap.Engine.ModuleRanges
import Rtmap.Engine.EpochLog
import Rtmap.Engine.EdgeValues
import Rtmap.Engine.TruncatedWrites
import Rtmap.Engine.FrameNodes
import Rtmap.Lib.KeyedCell
import Rtmap.Engine.Relocation
import Rtmap.Engine.Relabelling
import Rtmap.Lib.BreadthFirst
import Rtmap.Engine.WarmScan
import Rtmap.Engine.WarmPasses
import Rtmap.Engine.MainModule
import Rtmap.Engine.WriteBack
import Rtmap.Engine.IndexLookups
import Rtmap.Engine.StaticLookups
import Rtmap.Engine.LocalPlaces
import Rtmap.Engine.StampHistory
import Rtmap.Engine.Coverage
import Rtmap.Engine.ReplayFixpoint
import Rtmap.Engine.ScanSoundness
import Rtmap.Engine.FieldVerdicts
import Rtmap.Engine.ReplayElements
import Rtmap.Engine.LastStore
import Rtmap.Engine.DeepUpgrade
import Rtmap.Engine.HeapEdges
import Rtmap.Engine.CacheLines
import Rtmap.Engine.RegisterCalls
import Rtmap.Engine.StackMachine
import Rtmap.Engine.FalseStaleness
import Rtmap.Engine.Pieces
import Rtmap.Engine.NodeValues
import Rtmap.Engine.StaleObjects
import Rtmap.Lib.FlagScan
import Rtmap.Cli.PassThrough
import Rtmap.Lint.Accounted
import Rtmap.Diff.Verdict
import Rtmap.Engine.FrameTies
import Rtmap.Engine.TypeLookups
import Rtmap.Engine.RegistryGrowth
import Rtmap.Engine.SettledTypes
import Rtmap.Diff.Reflexive
import Rtmap.Check.LineOrder
import Rtmap.Lib.Scopes
import Rtmap.Lib.Grouping
import Rtmap.Lib.DepthFirst
import Rtmap.Engine.FunctionRanges
import Rtmap.Engine.LocalOwners
import Rtmap.Engine.ArrayLayout
import Rtmap.Engine.TypeGraph
import Rtmap.Engine.MemberTypes
import Rtmap.Engine.ResolverAgreement
import Rtmap.Engine.DeepResolution
import Rtmap.Engine.TypeClosure
import Rtmap.Engine.AllocSites
import Rtmap.Engine.WarmSteps
import Rtmap.Engine.SharedRegions
import Rtmap.Engine.SnapshotRing
import Rtmap.Engine.SnapshotDelta
import Rtmap.Engine.PieceParsing
import Rtmap.Check.Spelling
import Rtmap.Lint.Coverage
import Rtmap.Lint.LayoutDiff
import Rtmap.Cli.Resolution
import Rtmap.Engine.TypeHarvest
import Rtmap.Engine.ShallowFields
import Rtmap.Lib.Unfolding
import Rtmap.Engine.StreamLog
import Rtmap.Engine.RecordReplay
import Rtmap.Tracer.Backpressure
import Rtmap.Check.Hazards
import Rtmap.Engine.ThreadStacks
import Rtmap.Tracer.SentNumbers
import Rtmap.Tracer.StoreCounts
import Rtmap.Lib.Layout
import Rtmap.Ring.Segment
import Rtmap.Lib.Fnv
import Rtmap.Ring.Handshake
import Rtmap.Lib.RoundRobin
import Rtmap.Engine.DrainLoop
import Rtmap.Lib.Rows
import Rtmap.Cli.InitProfile
