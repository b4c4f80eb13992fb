import BpfSysroot.Chars
import BpfSysroot.RawVec
import BpfSysroot.VecSplice

/-!
# `String::replace_range`

The bounds of the range are read twice: for the checks and, by `Vec::drain`, for the splice. Every
call of `start_bound` and `end_bound` may give another bound, or panic.
-/

namespace ReplaceRange

open Chars Utf8 VecSplice List
open RawVec (wrappingAdd usizeValues)
open Unwinding (Exec)
open VecDeque (Bound accepts assertLen_eq)

variable {s : List UInt8} {bound : Bound}

end ReplaceRange
