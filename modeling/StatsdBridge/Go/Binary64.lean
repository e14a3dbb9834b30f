import Mathlib.Algebra.Field.Rat
import StatsdBridge.Go.Magnitude
import StatsdBridge.Go.Strconv

/-! A concrete `float64`: Go 1.13's `strconv.ParseFloat(s, 64)`, IEEE 754 division rounded to
    nearest with ties to even, and `int(x)` as amd64 computes it.

    A finite value carries the proof that a `float64` holds its magnitude (`Fits`, below
    `2^2098`), so no other can be built: `roundMag` rounds a quotient of magnitudes and returns
    the proof with it (`Go.Magnitude`), and the literals prove theirs by `decide`.

    The parser reads the sign, the texts `inf`, `infinity` and `nan` in any case, and what Go
    1.13's `readFloat` reads: decimal mantissas with an `e` exponent, `0x` mantissas with a `p`
    exponent of two, and `_` between digits, which `underscoreOK` checks. Go rounds the value
    through fast paths and `decimal`; the model rounds the value itself. -/

namespace StatsdBridge.Go

open Binary64 in
/-- A `float64`. -/
inductive Binary64 where
  /-- `(-1)^neg * mag * 2^-1074` -/
  | finite (neg : Bool) (mag : Nat) (valid : Fits mag ∧ mag < 1 <<< 2098 := by decide)
  | inf (neg : Bool)
  | nan
  deriving DecidableEq, Repr

namespace Binary64

/-- The magnitude nearest `n / d` with 53 significant bits, or `none` when it reaches `2^1024`. -/
def roundMag (n d : Nat) : Option {m // Fits m ∧ m < 1 <<< 2098} :=
  let k := ulpShift n d
  let mag := roundDiv n (d <<< k) <<< k
  if h : mag < 1 <<< 2098 then some ⟨mag, fits_roundDiv n d, h⟩ else none

/-- The literal `0`. -/
def zero : Binary64 := finite false 0

/-- The literal `1`. -/
def one : Binary64 := finite false unit

/-- `x == y`: zeros of either sign are equal, NaN equals nothing. -/
def beq : Binary64 → Binary64 → Bool
  | finite s m _, finite t n _ => (m = 0 ∧ n = 0) ∨ (s = t ∧ m = n)
  | inf s, inf t => s = t
  | _, _ => false

/-- `x / y` -/
def div : Binary64 → Binary64 → Binary64
  | finite s m _, finite t n _ =>
    if n = 0 then (if m = 0 then nan else inf (s != t))
    else (roundMag (m * unit) n).elim (inf (s != t)) fun r => finite (s != t) r.1 r.2
  | finite s _ _, inf t => finite (s != t) 0
  | inf s, finite t _ _ => inf (s != t)
  | _, _ => nan

/-- `int(x)` on amd64 (`CVTTSD2SQ`): truncation toward zero, and `-2^63` for NaN, the
    infinities and values out of range. -/
def toInt : Binary64 → Int
  | finite s m _ =>
    let q := m / unit
    if q < 2 ^ 63 then (if s then -(q : Int) else q) else -2 ^ 63
  | _ => -2 ^ 63

/-! ### `strconv.ParseFloat` -/

/-- The case folding of `equalIgnoreCase`: `A`–`Z` lowered. -/
def foldCase (c : UInt8) : UInt8 := if 65 ≤ c ∧ c ≤ 90 then c + 32 else c

/-- The value of a decimal digit. -/
def digit? (c : UInt8) : Option Nat := if 48 ≤ c ∧ c ≤ 57 then some (c.toNat - 48) else none

/-- The value of a digit of base `16` when `hex`, and of base `10` otherwise. -/
def digitIn (hex : Bool) (c : UInt8) : Option Nat :=
  match digit? c with
  | some d => some d
  | none =>
    if hex ∧ 97 ≤ Strconv.lower c ∧ Strconv.lower c ≤ 102 then some ((Strconv.lower c).toNat - 87)
    else none

/-- `special`: `inf` and `infinity` with an optional sign, and `nan`, in any case. -/
def special (s : Bytes) : Option Binary64 :=
  match s.map foldCase with
  | [] => none
  | c :: t =>
    if (c = plus ∨ c = minus) ∧ (t = ascii "inf" ∨ t = ascii "infinity") then some (inf (c = minus))
    else if c :: t = ascii "inf" ∨ c :: t = ascii "infinity" then some (inf false)
    else if c :: t = ascii "nan" then some nan
    else none

/-- The loop of `underscoreOK` over the number proper. `saw` is the class of the last byte, as
    Go writes it: `^` the beginning, `0` a digit or base prefix, `_` an underscore, `!` anything
    else; `none` is a misplaced `_`. -/
def underscoreLoop (hex : Bool) : Bytes → Char → Option Char
  | [], saw => some saw
  | c :: s, saw =>
    if (digitIn hex c).isSome then underscoreLoop hex s '0'
    else if c = '_'.toUInt8 then (if saw = '0' then underscoreLoop hex s '_' else none)
    else if saw = '_' then none
    else underscoreLoop hex s '!'

/-- `underscoreOK`: an underscore stands only between digits, or between a base prefix and a
    digit. -/
def underscoreOK (s : Bytes) : Bool :=
  let s := match s with
    | c :: t => if c = minus ∨ c = plus then t else c :: t
    | [] => []
  let (hex, saw, s) := match s with
    | z :: b :: t =>
      if z = '0'.toUInt8 ∧ (Strconv.lower b = 'b'.toUInt8 ∨ Strconv.lower b = 'o'.toUInt8 ∨
          Strconv.lower b = 'x'.toUInt8)
      then (decide (Strconv.lower b = 'x'.toUInt8), '0', t) else (false, '^', z :: b :: t)
    | s => (false, '^', s)
  match underscoreLoop hex s saw with
  | some saw => saw != '_'
  | none => false

/-- The mantissa loop of `readFloat`: digits of base `16` when `hex` and `10` otherwise, `_`,
    and at most one `.`; gives the digits as a number, how many follow the point, whether there
    was a digit, whether there was a `_`, and the text after. -/
def readMantissa (hex : Bool) :
    Bytes → Nat → Nat → Bool → Bool → Bool → Nat × Nat × Bool × Bool × Bytes
  | [], acc, frac, _, saw, us => (acc, frac, saw, us, [])
  | c :: s, acc, frac, dot, saw, us =>
    if c = '_'.toUInt8 then readMantissa hex s acc frac dot saw true
    else if c = '.'.toUInt8 ∧ dot = false then readMantissa hex s acc frac true saw us
    else match digitIn hex c with
      | some d =>
        readMantissa hex s (acc * (if hex then 16 else 10) + d) (if dot then frac + 1 else frac)
          dot true us
      | none => (acc, frac, saw, us, c :: s)

/-- The exponent digits of `readFloat`, with `_` among them, which stop growing at `10000`;
    gives the exponent, whether there was a `_`, and the text after. -/
def readExponent : Bytes → Nat → Bool → Nat × Bool × Bytes
  | [], e, us => (e, us, [])
  | c :: s, e, us =>
    if c = '_'.toUInt8 then readExponent s e true
    else match digit? c with
      | some d => readExponent s (if e < 10000 then e * 10 + d else e) us
      | none => (e, us, c :: s)

/-- An optional sign. -/
def readSign : Bytes → Bool × Bytes
  | [] => (false, [])
  | c :: s => if c = plus then (false, s) else if c = minus then (true, s) else (false, c :: s)

/-- The exponent after its letter: a sign, a digit, then digits and `_`. -/
def readExp (t : Bytes) : Option (Int × Bool × Bytes) :=
  match readSign t with
  | (eneg, c :: t) =>
    if (digit? c).isSome then
      let (e, us, rest) := readExponent (c :: t) 0 false
      some (if eneg then -(e : Int) else e, us, rest)
    else none
  | (_, []) => none

/-- The exponent after the mantissa: `e` and optional in decimal text, `p` and required in
    hexadecimal text. -/
def readExponentPart (hex : Bool) : Bytes → Option (Int × Bool × Bytes)
  | c :: t =>
    if Strconv.lower c = (if hex then 'p' else 'e').toUInt8 then readExp t
    else if hex then none else some (0, false, c :: t)
  | [] => if hex then none else some (0, false, [])

/-- `0x` or `0X` with more text after it. -/
def hexPrefix : Bytes → Bool
  | z :: x :: _ :: _ => z = '0'.toUInt8 ∧ Strconv.lower x = 'x'.toUInt8
  | _ => false

/-- What `readFloat` reads: the sign, the mantissa's digits as one number, and the exponent of
    the power that scales them, of two for hexadecimal text and of ten otherwise. -/
structure Literal where
  neg : Bool
  mant : Nat
  exp : Int
  hex : Bool
  deriving DecidableEq, Repr

/-- The base of the power that scales a literal's mantissa. -/
def Literal.base (l : Literal) : Nat := if l.hex then 2 else 10

/-- `readFloat`, with the check of `ParseFloat` that it reads the whole text. -/
def readFloat (s : Bytes) : Option Literal :=
  let (neg, t) := readSign s
  let hex := hexPrefix t
  let (mant, frac, saw, us, rest) :=
    readMantissa hex (if hex then t.drop 2 else t) 0 0 false false false
  match saw, readExponentPart hex rest with
  | true, some (e, us', []) =>
    if (us || us') && !underscoreOK s then none
    else some ⟨neg, mant, e - (if hex then 4 else 1) * frac, hex⟩
  | _, _ => none

/-- The `float64` nearest a literal's value `±mant * base^exp`, and `±Inf` with `ErrRange` past
    the largest finite value: `atofHex` for hexadecimal text, the decimal conversions of `atof64`
    otherwise. -/
def atof (l : Literal) : Binary64 × Option NumError :=
  (roundMag (l.mant * l.base ^ l.exp.toNat * unit) (l.base ^ (-l.exp).toNat)).elim
    (inf l.neg, some .errRange) fun m => (finite l.neg m.1 m.2, none)

/-- `strconv.ParseFloat(s, 64)`: the value nearest the text, and `0` with `ErrSyntax` for what is
    not a number. -/
def parseFloat (s : Bytes) : Binary64 × Option NumError :=
  match special s with
  | some x => (x, none)
  | none =>
    match readFloat s with
    | none => (zero, some .errSyntax)
    | some l => atof l

example : parseFloat (ascii "0x1p-2") = (finite false (unit >>> 2), none) := by decide
example : parseFloat (ascii "1_0") = (finite false (10 * unit), none) := by decide
example : parseFloat (ascii "1__0") = (zero, some .errSyntax) := by decide

theorem atof_snd (l : Literal) : (atof l).2 ≠ some .errSyntax := by
  unfold atof
  cases roundMag _ _ <;> simp

theorem parseFloat_errSyntax (s : Bytes) (v : Binary64) (h : parseFloat s = (v, some .errSyntax)) :
    v = zero := by
  unfold parseFloat at h
  split at h
  · exact absurd (Prod.mk.inj h).2 nofun
  · split at h
    · exact (Prod.mk.inj h).1.symm
    · exact absurd (congrArg Prod.snd h) (atof_snd _)

end Binary64

/-- Go's `float64`. -/
def binary64 : GoFloat Binary64 where
  parseFloat := Binary64.parseFloat
  zero := Binary64.zero
  one := Binary64.one
  beq := Binary64.beq
  div := Binary64.div
  toInt := Binary64.toInt
  parseFloat_errSyntax := Binary64.parseFloat_errSyntax
  beq_zero := rfl

end StatsdBridge.Go
