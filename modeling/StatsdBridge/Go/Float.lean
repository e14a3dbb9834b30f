import StatsdBridge.Go.Strings

/-! What the line parser asks of Go's `float64`: `strconv.ParseFloat(s, 64)` with the error it
    reports, the literals `0` and `1`, `==`, `/` and the conversion `int(x)`.

    The parser's theorems hold for every `GoFloat`, so they hold for Go's own arithmetic whatever
    it does on each input. The two facts some of them need are the ones `strconv` documents: a
    syntax error comes with the value `0`, and `0 == 0`. `Binary64` gives a concrete carrier for
    the counterexamples. -/

namespace StatsdBridge.Go

/-- The `Err` of a `*strconv.NumError`. -/
inductive NumError where
  /-- `strconv.ErrSyntax` -/
  | errSyntax
  /-- `strconv.ErrRange`: the text is a number, out of range; the value is then `±Inf`. -/
  | errRange
  deriving DecidableEq, Repr

/-- The operations on `float64` the parser uses, over a carrier `F`. -/
structure GoFloat (F : Type) where
  /-- `strconv.ParseFloat(s, 64)`: the value and the error. -/
  parseFloat : Bytes → F × Option NumError
  /-- The literal `0`. -/
  zero : F
  /-- The literal `1`. -/
  one : F
  /-- `x == y` -/
  beq : F → F → Bool
  /-- `x / y` -/
  div : F → F → F
  /-- `int(x)`; out of range the value is the implementation's. -/
  toInt : F → Int
  /-- "If s is not syntactically well-formed, ParseFloat returns err.Err = ErrSyntax" with the
      value `0`. -/
  parseFloat_errSyntax : ∀ s v, parseFloat s = (v, some .errSyntax) → v = zero
  /-- `0 == 0` -/
  beq_zero : beq zero zero = true

end StatsdBridge.Go
