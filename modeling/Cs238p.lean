import Cs238p.P1.Grammar
import Cs238p.P3.AvlMultiset
import Cs238p.P3.Scm
import Cs238p.Lib.Transition
import Cs238p.P1.Reflect
import Cs238p.P3.ScmBlocks
import Cs238p.Lib.CircularList
import Cs238p.P2.Scheduler
import Cs238p.P2.ThreadRing
import Cs238p.P2.Completion
import Cs238p.Lib.OpenAddressing
import Cs238p.Lib.RangeFold
import Cs238p.P4.Index
import Cs238p.P4.IndexRuns
import Cs238p.Lib.LinearProbing
import Cs238p.Lib.MachineInt
import Cs238p.P4.IndexRoom
import Cs238p.P4.Kvraw
import Cs238p.P4.Kvdb
import Cs238p.Lib.History
import Cs238p.P4.Chain
import Cs238p.P4.KvdbMap
import Cs238p.Lib.RingLog
import Cs238p.P4.Logfs
import Cs238p.P4.LogfsRing
import Cs238p.P4.LogfsMoves
import Cs238p.P4.LogfsRun
import Cs238p.P4.LogfsProgress
import Cs238p.Lib.Record
import Cs238p.P3.Heap
import Cs238p.Lib.Packing
import Cs238p.P3.HeapRepr
import Cs238p.P3.HeapRotate
import Cs238p.P3.HeapUpdate
import Cs238p.P3.HeapRemove
import Cs238p.P3.HeapStore
import Cs238p.P4.KvdbAccount
import Cs238p.P4.KvdbReach
import Cs238p.P4.KvdbRoom
import Cs238p.P4.KvdbAsserts
import Cs238p.P4.KvdbFail
import Cs238p.P3.AvlBlocks
import Cs238p.P3.ScmBounds
import Cs238p.P3.ScmSessions
import Cs238p.P4.LogfsDrain
import Cs238p.P4.LogfsFlush
import Cs238p.P4.LogfsWedge
import Cs238p.P4.LogfsCache
import Cs238p.P4.LogfsBounds
import Cs238p.P4.LogfsInts
import Cs238p.P2.RingRuns
import Cs238p.P2.TornRing
import Cs238p.P2.Alarm
import Cs238p.Lib.RoundRobin
import Cs238p.P2.RoundRobin
import Cs238p.P3.HeapFullInsert
import Cs238p.P3.HeapHollow
import Cs238p.P3.HeapFullRemove
import Cs238p.Lib.Numeral
import Cs238p.P1.Lexer
import Cs238p.P1.TableBounds
import Cs238p.P1.Literals
import Cs238p.Lib.Buffer
import Cs238p.Lib.WhiteSpace
import Cs238p.P3.Shell
import Cs238p.Lib.TextCursor
import Cs238p.P3.LineEditor
import Cs238p.P3.ShellHistory
import Cs238p.Lib.Pieces
import Cs238p.P3.Load
import Cs238p.P4Alt.Append
import Cs238p.P4Alt.Reads
import Cs238p.P4Alt.Logfs
import Cs238p.P5.CpuUtil
import Cs238p.Lib.CallProgram
import Cs238p.P4.LogfsCalls
import Cs238p.P4.KvdbCalls
import Cs238p.P4.LogfsRoom
import Cs238p.P3.Commands
import Cs238p.P3.ShellSession
import Cs238p.Lib.Reader
import Cs238p.P1.Compile
import Cs238p.Lib.Rounds
import Cs238p.P2.Interleaving
import Cs238p.P4.KvdbSlots
import Cs238p.P4.StressTests
import Cs238p.Lib.Stdio
import Cs238p.P5.ProcFiles
import Cs238p.P3.HeapLedger
import Cs238p.P4.KvdbCorrect
