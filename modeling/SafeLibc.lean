import SafeLibc.Catgets.RoundTrip
import SafeLibc.Nscd.Safety
import SafeLibc.Posix.Wordexp
import SafeLibc.Startup.SecureExec
import SafeLibc.Elf.Trampolines
import SafeLibc.Pthread.Barrier
import SafeLibc.Pthread.FutexMutex
import SafeLibc.Pthread.Semaphore
import SafeLibc.Stdlib.QsortSorted
import SafeLibc.Misc.TsearchDepth
import SafeLibc.Ldso.FindObjectRuns
import SafeLibc.Ldso.SortMaps
import SafeLibc.Stdlib.EnvironMap
import SafeLibc.Stdlib.Strtol
import SafeLibc.Resolv.InetNtop
import SafeLibc.Resolv.NameNtop
import SafeLibc.Resolv.NamePackRuns
import SafeLibc.Posix.GetoptScan
import SafeLibc.Catgets.Bounds
import SafeLibc.Catgets.Normalize
import SafeLibc.Catgets.Numbers
import SafeLibc.Catgets.Symbols
import SafeLibc.Iconv.Iso2022CnExt
import SafeLibc.Iconv.Utf7RoundTrip
import SafeLibc.Ldso.TlsOffset
import SafeLibc.Resolv.NamePanics
import SafeLibc.Stdlib.RealpathResolve
import SafeLibc.Nscd.NetgroupAnswers
import SafeLibc.Time.Timegm
import SafeLibc.Elf.Checked
import SafeLibc.Iconv.OmitInvalid
import SafeLibc.Ldso.TunablesBounds
import SafeLibc.Elf.VersionScript
import SafeLibc.Malloc.Pvalloc
import SafeLibc.Audit.UnsafeSites
import SafeLibc.Ldso.DynamicTokens
import SafeLibc.Ldso.HwcapsPriorities
