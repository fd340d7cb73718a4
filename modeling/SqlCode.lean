import SqlCode.Exec.Prog
import SqlCode.Exec.Cells
import SqlCode.Exec.Int32
import SqlCode.Exec.Block
import SqlCode.Exec.SignedSum
import SqlCode.Dft.Cplx
import SqlCode.Dft.RootTower
import SqlCode.Dft.BitRev
import SqlCode.Dft.Stages
import SqlCode.Dft.RealSignal
import SqlCode.Dft.Circle
import SqlCode.Dft.MixedRadix
import SqlCode.Dft.Libm
import SqlCode.FftSerial.Utils
import SqlCode.FftSerial.Model
import SqlCode.FftSerial.BitReversal
import SqlCode.FftSerial.Transform
import SqlCode.FftSerial.Real
import SqlCode.FftSerial.Inverse
import SqlCode.FftSerial.Main
import SqlCode.FftSerial.Bounds
import SqlCode.FftSerial.Load
import SqlCode.FftSerial.Scale
import SqlCode.RgTest.Model
import SqlCode.RgTest.Transform
import SqlCode.RgTest.Inverse
import SqlCode.FftOpenMp.Model
import SqlCode.FftOpenMp.Transform
import SqlCode.FftOpenMp.RoundTrip
import SqlCode.FftOpenMp.Schedule
import SqlCode.Process.Network
import SqlCode.Process.Choreography
import SqlCode.Process.Termination
import SqlCode.Process.SharedMemory
import SqlCode.Process.ThreadRules
import SqlCode.Process.Sharing
import SqlCode.FftMpi.Evaluate
import SqlCode.FftMpi.Ranks
import SqlCode.FftMpi.Exchange
import SqlCode.FftMpi.Runs
import SqlCode.FftMpi.Partition
import SqlCode.FftMpi1.Model
import SqlCode.FftMpi1.Reverse
import SqlCode.FftMpi1.Passes
import SqlCode.FftMpi1.Transform
import SqlCode.FftMpi1.Distribution
import SqlCode.KissFft.Model
import SqlCode.KissFft.Factor
import SqlCode.KissFft.Butterflies
import SqlCode.KissFft.Transform
import SqlCode.KissFft.Real
import SqlCode.KissFft.OpenMp
import SqlCode.KissFft.DataProcessor
import SqlCode.Text.CString
import SqlCode.Text.Pattern
import SqlCode.Text.Longest
import SqlCode.Text.Numeral
import SqlCode.Order.Comparator
import SqlCode.Order.Lexicographic
import SqlCode.OracleDate.Model
import SqlCode.OracleDate.Collation
import SqlCode.OracleDate.Validation
import SqlCode.StrictTyping.Names
import SqlCode.StrictTyping.Model
import SqlCode.StrictTyping.Install
import SqlCode.StrictTyping.Interference
import SqlCode.StrictTyping.Undo
import SqlCode.StrictTyping.Validators
import SqlCode.Sqlite.LengthFirst
import SqlCode.Sqlite.StrAgg
import SqlCode.SqliteCore.Varint
import SqlCode.SqliteCore.Serial
import SqlCode.SqliteCore.Record
import SqlCode.SqliteCore.Compare
import SqlCode.SqliteCore.KeyOrder
import SqlCode.SqliteCore.Locks
import SqlCode.SqliteCore.LockInvariant
import SqlCode.SqliteCore.LockSafety
import SqlCode.SqliteCore.LockRuns
import SqlCode.AddFunc
import SqlCode.Agreement
