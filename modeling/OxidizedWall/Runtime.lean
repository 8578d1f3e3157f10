import Mathlib.Algebra.Order.Ring.Rat
import Mathlib.Data.List.Infix
import Mathlib.Tactic.FieldSimp
import Mathlib.Tactic.NormNum
import Mathlib.Tactic.Ring

/-!
# What the code takes from the standard library

Text and bytes, numbers, the monotone clock, and IP addresses with their textual form.

1. A `str` is the list of its characters, a byte string the list of its bytes.
2. `f64` and `f32` are `Float` and `Float32`, the binary formats of IEEE 754. What computes in them
   is written for any type of numbers with their operations, so that it can also be read in exact
   arithmetic, as a statement about `ℚ`.
3. An `Instant` is the number of nanoseconds since the clock's start, and a `Duration` a number
   of nanoseconds. The real `Instant` keeps signed 64-bit seconds, and adding a duration past
   them panics: `instantAdd` is `none` there.
4. `IpAddr.parse` is `<IpAddr as FromStr>::from_str`: dotted quads without leading zeros, and
   the RFC 4291 forms with one `::` and an embedded quad at the end.
-/

namespace OxidizedWall

abbrev Str := List Char

abbrev Bytes := List UInt8

/-- `str::len`: the length of the UTF-8 form. -/
def utf8Len (s : Str) : ℕ := (s.map Char.utf8Size).sum

/-- `str::contains` for a string pattern. -/
def contains (s pat : Str) : Bool := s.tails.any pat.isPrefixOf

/-! ## Numbers -/

/-- `as f64`: the nearest, and the even one of two. -/
instance natCastFloat : NatCast Float := ⟨Float.ofNat⟩

/-- `as f32`. -/
instance natCastFloat32 : NatCast Float32 := ⟨Float32.ofNat⟩

/-! ## The clock -/

/-- `Duration::from_secs`. -/
def fromSecs (s : ℕ) : ℕ := s * 1000000000

/-- `Duration::as_secs_f64`: the whole seconds, and the nanoseconds over a billion. -/
def asSecsF64 {F : Type} [NatCast F] [Add F] [Div F] (d : ℕ) : F :=
  ((d / 1000000000 : ℕ) : F) + ((d % 1000000000 : ℕ) : F) / ((1000000000 : ℕ) : F)

/-- A duration in seconds. -/
def asSecs (d : ℕ) : ℚ := d / 1000000000

/-- In exact arithmetic nothing is lost. -/
theorem asSecsF64_rat (d : ℕ) : (asSecsF64 d : ℚ) = asSecs d := by
  have hsplit : ((1000000000 * (d / 1000000000) + d % 1000000000 : ℕ) : ℚ) = d := by
    rw [Nat.div_add_mod]
  unfold asSecsF64 asSecs
  rw [← hsplit]
  push_cast
  ring

theorem asSecs_sub {s t : ℕ} (h : s ≤ t) : asSecs (t - s) = asSecs t - asSecs s := by
  unfold asSecs
  rw [Nat.cast_sub h, sub_div]

theorem asSecs_le {s t : ℕ} : asSecs s ≤ asSecs t ↔ s ≤ t := by
  unfold asSecs
  rw [div_le_div_iff_of_pos_right (by norm_num), Nat.cast_le]

/-- `Instant + Duration`; `none` where the sum passes the signed 64-bit seconds and panics. -/
def instantAdd (t d : ℕ) : Option ℕ := if t + d < fromSecs (2 ^ 63) then some (t + d) else none

theorem instantAdd_eq_some {t d u : ℕ} (h : instantAdd t d = some u) : u = t + d := by
  unfold instantAdd at h
  split at h
  · exact (Option.some.inj h).symm
  · cases h

/-! ## Addresses -/

inductive IpAddr
  | v4 (bits : BitVec 32)
  | v6 (bits : BitVec 128)
  deriving DecidableEq, Repr

structure SocketAddr where
  ip : IpAddr
  port : UInt16
  deriving DecidableEq, Repr

namespace IpAddr

/-- `char::to_digit`. -/
def toDigit (radix : ℕ) (c : Char) : Option ℕ :=
  let d := if '0' ≤ c ∧ c ≤ '9' then c.toNat - 48
    else if 'a' ≤ c ∧ c ≤ 'z' then c.toNat - 87
    else if 'A' ≤ c ∧ c ≤ 'Z' then c.toNat - 55
    else radix
  if d < radix then some d else none

/-- The value of a digit string. -/
def ofDigits (radix : ℕ) (ds : Str) : ℕ :=
  ds.foldl (fun n c => n * radix + (toDigit radix c).getD 0) 0

/-- Reads a number of at most `maxDigits` digits and value below `bound`. -/
def readNumber (radix maxDigits bound : ℕ) (allowZeroPrefix : Bool) (s : Str) :
    Option (ℕ × Str) :=
  let ds := s.takeWhile fun c => (toDigit radix c).isSome
  if ds = [] ∨ maxDigits < ds.length then none
  else if !allowZeroPrefix ∧ s.head? = some '0' ∧ 1 < ds.length then none
  else if ofDigits radix ds < bound then some (ofDigits radix ds, s.drop ds.length)
  else none

/-- The separator, before every element but the first. -/
def readSeparator {α : Type} (sep : Char) (index : ℕ) (read : Str → Option (α × Str)) (s : Str) :
    Option (α × Str) :=
  if index = 0 then read s
  else match s with
    | c :: rest => if c = sep then read rest else none
    | [] => none

def readIpv4Addr (s : Str) : Option (BitVec 32 × Str) := do
  let octet (i : ℕ) (s : Str) := readSeparator '.' i (readNumber 10 3 256 false) s
  let (a, s) ← octet 0 s
  let (b, s) ← octet 1 s
  let (c, s) ← octet 2 s
  let (d, s) ← octet 3 s
  return (BitVec.ofNat 32 (((a * 256 + b) * 256 + c) * 256 + d), s)

/-- Up to `left` colon-separated groups after the first `i`; the flag says that the last two
came from an embedded IPv4 address. -/
def readGroups : (left i : ℕ) → (groups : List ℕ) → Str → List ℕ × Bool × Str
  | 0, _, groups, s => (groups, false, s)
  | left + 1, i, groups, s =>
    let quad := if 1 ≤ left then readSeparator ':' i readIpv4Addr s else none
    match quad with
    | some (q, rest) => (groups ++ [q.toNat / 65536, q.toNat % 65536], true, rest)
    | none =>
      match readSeparator ':' i (readNumber 16 4 65536 true) s with
      | some (g, rest) => readGroups left (i + 1) (groups ++ [g]) rest
      | none => (groups, false, s)

def ofGroups (groups : List ℕ) : BitVec 128 :=
  BitVec.ofNat 128 (groups.foldl (fun n g => n * 65536 + g) 0)

def readIpv6Addr (s : Str) : Option (BitVec 128 × Str) :=
  let (head, quad, rest) := readGroups 8 0 [] s
  if head.length = 8 then some (ofGroups head, rest)
  else if quad then none
  else match rest with
    | ':' :: ':' :: rest =>
      let (tail, _, rest) := readGroups (8 - (head.length + 1)) 0 [] rest
      some (ofGroups (head ++ List.replicate (8 - head.length - tail.length) 0 ++ tail), rest)
    | _ => none

/-- `str::parse::<IpAddr>`. -/
def parse (s : Str) : Option IpAddr :=
  let read := match readIpv4Addr s with
    | some (bits, rest) => some (v4 bits, rest)
    | none => (readIpv6Addr s).map fun (bits, rest) => (v6 bits, rest)
  match read with
  | some (ip, []) => some ip
  | _ => none

example : parse "203.0.113.7".toList = some (v4 0xCB007107#32) := by decide

example : parse "2001:db8::7".toList = some (v6 0x20010db8000000000000000000000007#128) := by
  decide

example : parse "203.0.113.07".toList = none := by decide

end IpAddr

end OxidizedWall
