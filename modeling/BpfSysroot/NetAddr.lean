import BpfSysroot.ParseInt

/-!
# Internet addresses as text

The addresses of `std/src/net/ip.rs` and `addr.rs`, their `Display` and the parser of
`parser.rs`. Texts are lists of bytes. What `write!` hands to its target is a list of
pieces: a formatter joins them, and the buffer on the stack, used when a width or a
precision is set, takes them one after the other and fails when one does not fit. A
parser returns what it read with the rest of the input, and `none` stands for the
failure after which `read_atomically` restores the input.
-/

namespace NetAddr

open DisplayInt List

def toBeBytes (u : UInt16) : List UInt8 := [(u >>> 8).toUInt8, u.toUInt8]

def fromBeBytes (x y : UInt8) : UInt16 := x.toUInt16 <<< 8 ||| y.toUInt16

structure Ipv4Addr where
  a : UInt8
  b : UInt8
  c : UInt8
  d : UInt8
deriving DecidableEq

/-- The sixteen octets, the first of the address first. -/
structure Ipv6Addr where
  s6Addr : List UInt8
  length : s6Addr.length = 16
deriving DecidableEq

inductive IpAddr where
  | v4 (ip : Ipv4Addr)
  | v6 (ip : Ipv6Addr)
deriving DecidableEq

structure SocketAddrV4 where
  ip : Ipv4Addr
  port : UInt16
deriving DecidableEq

structure SocketAddrV6 where
  ip : Ipv6Addr
  port : UInt16
  flowinfo : UInt32
  scopeId : UInt32
deriving DecidableEq

inductive SocketAddr where
  | v4 (addr : SocketAddrV4)
  | v6 (addr : SocketAddrV6)
deriving DecidableEq

namespace Ipv6Addr

/-- The octets in pairs, which are big endian. -/
def pairs : List UInt8 → List UInt16
  | x :: y :: rest => fromBeBytes x y :: pairs rest
  | _ => []

def segments (ip : Ipv6Addr) : List UInt16 := pairs ip.s6Addr

lemma length_flatMap_toBeBytes (groups : List UInt16) :
    (groups.flatMap toBeBytes).length = 2 * groups.length := by
  induction groups with
  | nil => rfl
  | cons g groups ih =>
    rw [flatMap_cons, length_append, length_cons, toBeBytes, length_cons, length_cons, length_nil]
    omega

/-- `From<[u16; 8]>`. -/
def ofSegments (groups : List UInt16) (eight : groups.length = 8) : Ipv6Addr where
  s6Addr := groups.flatMap toBeBytes
  length := by rw [length_flatMap_toBeBytes, eight]

def isUnspecified (ip : Ipv6Addr) : Bool := ip.s6Addr == replicate 16 0

def isLoopback (ip : Ipv6Addr) : Bool := ip.s6Addr == replicate 15 0 ++ [1]

def toIpv4 (ip : Ipv6Addr) : Option Ipv4Addr :=
  match ip.segments with
  | [0, 0, 0, 0, 0, x, ab, cd] =>
    if x = 0 ∨ x = 0xffff then
      match toBeBytes ab, toBeBytes cd with
      | [a, b], [c, d] => some ⟨a, b, c, d⟩
      | _, _ => none
    else none
  | _ => none

end Ipv6Addr

section
variable (f : Formatter)

/-- `Formatter::pad` of a text in ASCII, so that characters are bytes. -/
def pad (s : List UInt8) : List UInt8 :=
  let s := match f.precision with
    | some max => s.take max
    | none => s
  match f.width with
  | none => s
  | some width =>
    if s.length ≥ width then s
    else
      let (pre, post) := padding f (width - s.length) .left
      pre ++ s ++ post

/-- `write!` to a buffer with some room left. -/
def writeSlice : Nat → List (List UInt8) → Option (List UInt8)
  | _, [] => some []
  | room, piece :: pieces =>
    if piece.length ≤ room then (writeSlice (room - piece.length) pieces).map (piece ++ ·)
    else none

/-- The two paths of every `Display` here: without a width and a precision the pieces are
written directly, else they go, as `{}` prints them, to a buffer on the stack, with an
`unwrap`. -/
def display (bufLen : Nat) (pieces : Formatter → Option (List (List UInt8))) :
    Option (List UInt8) := do
  if f.precision.isNone && f.width.isNone then return (← pieces f).flatten
  else return pad f (← writeSlice bufLen (← pieces .new))

/-- `LowerHex::digit`. -/
def lowerDigit (x : Nat) : UInt8 := if x < 10 then 48 + UInt8.ofNat x else 97 + UInt8.ofNat (x - 10)

/-- The loop of `fmt_int`: digits go to the end of a buffer that has `left` bytes free. -/
def fmtInt : (left x : Nat) → List UInt8 → List UInt8
  | 0, _, buf => buf
  | left + 1, x, buf =>
    let buf := lowerDigit (x % 16) :: buf
    if x / 16 = 0 then buf else fmtInt left (x / 16) buf

/-- `LowerHex::fmt`. -/
def lowerHex (x : UInt16) : List UInt8 :=
  padIntegral f true [48, 120] (fmtInt 128 x.toNat [])

def Ipv4Addr.pieces (ip : Ipv4Addr) : Option (List (List UInt8)) := do
  let a ← DisplayInt.display .u8 ip.a.toNat
  let b ← DisplayInt.display .u8 ip.b.toNat
  let c ← DisplayInt.display .u8 ip.c.toNat
  let d ← DisplayInt.display .u8 ip.d.toNat
  return [a, [46], b, [46], c, [46], d]

structure Span where
  start : Nat
  len : Nat
deriving DecidableEq

/-- The loop that finds the first longest run of zeros, from index `i` on. -/
def zeroesLoop : List UInt16 → (i : Nat) → (longest current : Span) → Span
  | [], _, longest, _ => longest
  | segment :: segments, i, longest, current =>
    if segment = 0 then
      let current : Span := ⟨if current.len = 0 then i else current.start, current.len + 1⟩
      zeroesLoop segments (i + 1) (if current.len > longest.len then current else longest) current
    else zeroesLoop segments (i + 1) longest ⟨0, 0⟩

def zeroes (segments : List UInt16) : Span := zeroesLoop segments 0 ⟨0, 0⟩ ⟨0, 0⟩

/-- Write a colon-separated part of the address. -/
def fmtSubslice : List UInt16 → List (List UInt8)
  | [] => []
  | first :: chunk => lowerHex f first :: chunk.flatMap fun segment => [[58], lowerHex f segment]

/-- Segments get the formatter itself; the `write!` of the other forms makes a fresh one. -/
def Ipv6Addr.pieces (ip : Ipv6Addr) : Option (List (List UInt8)) :=
  let segments := ip.segments
  if ip.isUnspecified then some [[58, 58]]
  else if ip.isLoopback then some [[58, 58, 49]]
  else match ip.toIpv4 with
    | some ipv4 => do
      let v4 ← ipv4.pieces
      if segments[5]? = some 0 then return [58, 58] :: v4
      else if segments[5]? = some 0xffff then return [58, 58, 102, 102, 102, 102, 58] :: v4
      -- `unreachable!`
      else none
    | none =>
      let zeroes := zeroes segments
      if zeroes.len > 1 then
        some (fmtSubslice f (segments.take zeroes.start) ++ [[58, 58]] ++
          fmtSubslice f (segments.drop (zeroes.start + zeroes.len)))
      else some (fmtSubslice f segments)

def SocketAddrV4.pieces (addr : SocketAddrV4) : Option (List (List UInt8)) := do
  return (← addr.ip.pieces) ++ [[58], ← DisplayInt.display .u16 addr.port.toNat]

def SocketAddrV6.pieces (addr : SocketAddrV6) : Option (List (List UInt8)) := do
  let ip ← addr.ip.pieces .new
  let port ← DisplayInt.display .u16 addr.port.toNat
  if addr.scopeId = 0 then return [[91]] ++ ip ++ [[93, 58], port]
  else
    let scopeId ← DisplayInt.display .u32 addr.scopeId.toNat
    return [[91]] ++ ip ++ [[37], scopeId, [93, 58], port]

def Ipv4Addr.fmt (ip : Ipv4Addr) : Option (List UInt8) := display f 15 fun _ => ip.pieces

def Ipv6Addr.fmt (ip : Ipv6Addr) : Option (List UInt8) :=
  display f (4 * 8 + 7) fun f => ip.pieces f

def SocketAddrV4.fmt (addr : SocketAddrV4) : Option (List UInt8) :=
  display f (3 * 4 + 3 + 1 + 5) fun _ => addr.pieces

def SocketAddrV6.fmt (addr : SocketAddrV6) : Option (List UInt8) :=
  display f (4 * 8 + 7 + 2 + 1 + 10 + 1 + 5) fun _ => addr.pieces

def IpAddr.fmt : IpAddr → Option (List UInt8)
  | .v4 ip => ip.fmt f
  | .v6 ip => ip.fmt f

def SocketAddr.fmt : SocketAddr → Option (List UInt8)
  | .v4 addr => addr.fmt f
  | .v6 addr => addr.fmt f

end

/-- A parser over the bytes that are left. -/
abbrev Parser (α : Type) : Type := List UInt8 → Option (α × List UInt8)

def readGivenChar (target : UInt8) : Parser Unit
  | [] => none
  | c :: rest => if c = target then some ((), rest) else none

def readSeparator {α : Type} (sep : UInt8) (index : Nat) (inner : Parser α) : Parser α :=
  fun s => do
    if index > 0 then
      let (_, s) ← readGivenChar sep s
      inner s
    else inner s

/-- `checked_mul` of the helper trait, for a type of so many bits. -/
def checkedMul (bits x other : Nat) : Option Nat :=
  if other < 2 ^ bits ∧ x * other < 2 ^ bits then some (x * other) else none

def checkedAdd (bits x other : Nat) : Option Nat :=
  if other < 2 ^ bits ∧ x + other < 2 ^ bits then some (x + other) else none

/-- The loop of `read_number`, with the number of digits. -/
def readDigits (bits radix : Nat) (maxDigits : Option Nat) :
    List UInt8 → (result digitCount : Nat) → Option (Nat × Nat × List UInt8)
  | [], result, digitCount => some (result, digitCount, [])
  | c :: rest, result, digitCount =>
    match ParseInt.toDigit c radix with
    | none => some (result, digitCount, c :: rest)
    | some digit => do
      let result ← checkedMul bits result radix
      let result ← checkedAdd bits result digit
      if maxDigits.any (digitCount + 1 > ·) then none
      else readDigits bits radix maxDigits rest result (digitCount + 1)

def readNumber (bits radix : Nat) (maxDigits : Option Nat) : Parser Nat := fun s => do
  let (result, digitCount, rest) ← readDigits bits radix maxDigits s 0 0
  if digitCount = 0 then none else some (result, rest)

/-- A number of eight bits in decimal, an octet of an address. -/
def readOctet (index : Nat) : Parser UInt8 := fun s => do
  let (x, s) ← readSeparator 46 index (readNumber 8 10 none) s
  return (UInt8.ofNat x, s)

def readIpv4Addr : Parser Ipv4Addr := fun s => do
  let (a, s) ← readOctet 0 s
  let (b, s) ← readOctet 1 s
  let (c, s) ← readOctet 2 s
  let (d, s) ← readOctet 3 s
  return (⟨a, b, c, d⟩, s)

/-- The loop of `read_groups` from group `i` on, with `left` groups to go: the groups, whether
they end with an embedded address, and the rest. -/
def readGroups : (left i : Nat) → List UInt8 → List UInt16 × Bool × List UInt8
  | 0, _, s => ([], false, s)
  | left + 1, i, s =>
    -- an embedded address needs two groups
    match if 0 < left then readSeparator 58 i readIpv4Addr s else none with
    | some (v4, s) => ([fromBeBytes v4.a v4.b, fromBeBytes v4.c v4.d], true, s)
    | none =>
      match readSeparator 58 i (readNumber 16 16 (some 4)) s with
      | none => ([], false, s)
      | some (g, s) =>
        let (groups, ipv4, s) := readGroups left (i + 1) s
        (UInt16.ofNat g :: groups, ipv4, s)

lemma length_readGroups_le (left i : Nat) (s : List UInt8) :
    (readGroups left i s).1.length ≤ left := by
  induction left generalizing i s with
  | zero => exact le_refl 0
  | succ left ih =>
    rw [readGroups]
    split
    next found =>
      split at found
      · exact Nat.succ_le_succ ‹0 < left›
      · cases found
    · split
      · exact Nat.zero_le _
      · exact Nat.succ_le_succ (ih _ _)

/-- The groups before and after `::` in an array of eight. -/
def concat (head tail : List UInt16) : List UInt16 :=
  (head ++ replicate (8 - head.length) 0).take (8 - tail.length) ++ tail

lemma length_concat {head tail : List UInt16} (front : head.length ≤ 8) (back : tail.length ≤ 8) :
    (concat head tail).length = 8 := by
  simp only [concat, length_append, length_take, length_replicate]
  omega

def readIpv6Addr : Parser Ipv6Addr := fun s =>
  let front := readGroups 8 0 s
  if eight : front.1.length = 8 then some (Ipv6Addr.ofSegments front.1 eight, front.2.2)
  -- an embedded address is not allowed before `::`
  else if front.2.1 then none
  else do
    let (_, s) ← readGivenChar 58 front.2.2
    let (_, s) ← readGivenChar 58 s
    let limit := 8 - (front.1.length + 1)
    let back := readGroups limit 0 s
    have le : back.1.length ≤ 8 :=
      (length_readGroups_le limit 0 s).trans ((Nat.sub_le _ _).trans (le_refl 8))
    return (Ipv6Addr.ofSegments (concat front.1 back.1)
      (length_concat (length_readGroups_le _ _ _) le), back.2.2)

def readIpAddr : Parser IpAddr := fun s =>
  match readIpv4Addr s with
  | some (ip, s) => some (.v4 ip, s)
  | none => (readIpv6Addr s).map fun (ip, s) => (.v6 ip, s)

def readPort : Parser UInt16 := fun s => do
  let (_, s) ← readGivenChar 58 s
  let (port, s) ← readNumber 16 10 none s
  return (UInt16.ofNat port, s)

def readScopeId : Parser UInt32 := fun s => do
  let (_, s) ← readGivenChar 37 s
  let (id, s) ← readNumber 32 10 none s
  return (UInt32.ofNat id, s)

def readSocketAddrV4 : Parser SocketAddrV4 := fun s => do
  let (ip, s) ← readIpv4Addr s
  let (port, s) ← readPort s
  return (⟨ip, port⟩, s)

def readSocketAddrV6 : Parser SocketAddrV6 := fun s => do
  let (_, s) ← readGivenChar 91 s
  let (ip, s) ← readIpv6Addr s
  let (scopeId, s) := (readScopeId s).getD (0, s)
  let (_, s) ← readGivenChar 93 s
  let (port, s) ← readPort s
  return (⟨ip, port, 0, scopeId⟩, s)

def readSocketAddr : Parser SocketAddr := fun s =>
  match readSocketAddrV4 s with
  | some (addr, s) => some (.v4 addr, s)
  | none => (readSocketAddrV6 s).map fun (addr, s) => (.v6 addr, s)

inductive AddrParseError where
  | mk
deriving DecidableEq

/-- The whole input has to be consumed. -/
def parseWith {α : Type} (inner : Parser α) (s : List UInt8) : Except AddrParseError α :=
  match inner s with
  | some (x, []) => .ok x
  | _ => .error .mk

def Ipv4Addr.fromStr : List UInt8 → Except AddrParseError Ipv4Addr := parseWith readIpv4Addr

def Ipv6Addr.fromStr : List UInt8 → Except AddrParseError Ipv6Addr := parseWith readIpv6Addr

def IpAddr.fromStr : List UInt8 → Except AddrParseError IpAddr := parseWith readIpAddr

def SocketAddrV4.fromStr : List UInt8 → Except AddrParseError SocketAddrV4 :=
  parseWith readSocketAddrV4

def SocketAddrV6.fromStr : List UInt8 → Except AddrParseError SocketAddrV6 :=
  parseWith readSocketAddrV6

def SocketAddr.fromStr : List UInt8 → Except AddrParseError SocketAddr := parseWith readSocketAddr

end NetAddr
