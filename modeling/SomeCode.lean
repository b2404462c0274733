import SomeCode.LockAndWrite
import SomeCode.SocketPair
import SomeCode.PrimeBuffer
import SomeCode.InsertNodes
import SomeCode.Barman
import SomeCode.SharedCall
import SomeCode.ArchiveFS
import SomeCode.TimedRunner
import SomeCode.UnionLookup
import SomeCode.SnapshotTree
import SomeCode.UnionMount
import SomeCode.UnionViews
import SomeCode.MountedUnion
import SomeCode.ReadAndCount
import SomeCode.UpperServer
import SomeCode.UpperEcho
import SomeCode.Processes
import SomeCode.ShellPipelines
import SomeCode.ExecFailure
import SomeCode.Launch
import SomeCode.PipelineTables
import SomeCode.SequentialTables
import SomeCode.PipelineChain
import SomeCode.PipeDeadlock
import SomeCode.Checker
import SomeCode.Checksum
import SomeCode.Loops
import SomeCode.Spiral
import SomeCode.ParallelMap
import SomeCode.SendPing
import SomeCode.HttpServer
import SomeCode.ListFile
import SomeCode.HttpResponse
import SomeCode.ServedDirectory
import SomeCode.HttpReader
import SomeCode.Decryptor
import SomeCode.ThreadedSum
import SomeCode.ArmRoutines
import SomeCode.VectorSum
import SomeCode.PageBuffer
import SomeCode.TitleText
import SomeCode.FactorOut
import SomeCode.MatrixDot
import SomeCode.Decimal
import SomeCode.NumberText
import SomeCode.Pages
import SomeCode.ParallelLayout
import SomeCode.InputDirectories
import SomeCode.SpiralFile
import SomeCode.MaskSet
import SomeCode.PatternSearch
import SomeCode.SetCalculator
import SomeCode.Binary64
import SomeCode.Classify
import SomeCode.Sse
import SomeCode.FloatSum
import SomeCode.X64Stack
import SomeCode.SyscallWrapper
import SomeCode.ReadBuffer
import SomeCode.SplitDigits
import SomeCode.ScriptChecker
import SomeCode.SignalReader
import SomeCode.PostRequest
import SomeCode.PlaintextPrinter
import SomeCode.NumberChain
import SomeCode.CallTrace
import SomeCode.PipelineCleanUp
import SomeCode.FlagLocks
import SomeCode.ScanInt
import SomeCode.ScanLoops
import SomeCode.ByteCopier
import SomeCode.SignalCounter
import SomeCode.SignalReplies
import SomeCode.ProgramPair
import SomeCode.SignalToggle
import SomeCode.UnionRead
import SomeCode.ChatServer
import SomeCode.DiagnosticCount
import SomeCode.SharedArray
import SomeCode.DigitFilter
import SomeCode.SineSeries
import SomeCode.SineAccuracy
