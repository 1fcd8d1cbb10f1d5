import Memtrace.Word
import Memtrace.Trace.Format
import Memtrace.Trace.Reader
import Memtrace.Trace.Records
import Memtrace.Trace.Seek
import Memtrace.Trace.Iterate
import Memtrace.Ud.AddressSpace
import Memtrace.Ud.Primes
import Memtrace.Ud.PrimeCache
import Memtrace.Ud.PartialUses
import Memtrace.Ud.UdState
import Memtrace.Ud.LastWriter
import Memtrace.Ud.Refinement
import Memtrace.Ud.Resolve
import Memtrace.Ud.Builder
import Memtrace.Ud.Built
import Memtrace.Ud.Runs
import Memtrace.Ud.Uses
import Memtrace.Ud.Indices
import Memtrace.Ud.IndexWrap
import Memtrace.Ud.CodeTable
import Memtrace.Ud.Queries
import Memtrace.Ud.Window
import Memtrace.Ud.Verbose
import Memtrace.Ud.Accept
import Memtrace.Ud.Complete
import Memtrace.MmVector
