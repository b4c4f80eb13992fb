import BpfSysroot.AtomicCell
import BpfSysroot.BinaryHeapRuns
import BpfSysroot.MergeSortRuns
import BpfSysroot.PartitionAtIndex
import BpfSysroot.Rotate
import BpfSysroot.SortByCachedKey
import BpfSysroot.DrainFilter
import BpfSysroot.HeapsortFallback
import BpfSysroot.Udivmodti4
import BpfSysroot.VecDequeIter
import BpfSysroot.VecDequeRuns
import BpfSysroot.Utf8Lossy
import BpfSysroot.PathComponents
import BpfSysroot.BufReader
import BpfSysroot.LineWriter
import BpfSysroot.BignumRuns
import BpfSysroot.NetAddrRoundTrip
import BpfSysroot.OnceSafety
import BpfSysroot.SipHash
import BpfSysroot.VecDequeConvert
import BpfSysroot.StreamChannelSafety
import BpfSysroot.ArcSafety
import BpfSysroot.BTreeSetSpecs
import BpfSysroot.Dedup
import BpfSysroot.ZipSizeHint
import BpfSysroot.Utf16Transcoding
import BpfSysroot.Memchr
import BpfSysroot.StrJoin
import BpfSysroot.ReplaceRange
import BpfSysroot.StepBy
import BpfSysroot.AlignTo
import BpfSysroot.Duration
import BpfSysroot.Estimator
import BpfSysroot.NthBack
import BpfSysroot.BTreeMapRuns
