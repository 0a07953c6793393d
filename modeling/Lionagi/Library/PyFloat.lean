import Mathlib.Algebra.Order.Field.Rat

/-!
# Floating-point values

The values of a float are the rationals it can hold, the two infinities, and one that is not a number and
compares with nothing. Signed zeros are one value here.
-/

inductive PyFloat where
  | finite (q : ℚ)
  | posInf
  | negInf
  | nan
  deriving DecidableEq

namespace PyFloat

/-- `==`, which no other value and not the value itself fulfils with a value that is not a number. -/
def eq : PyFloat → PyFloat → Bool
  | finite p, finite q => decide (p = q)
  | posInf, posInf => true
  | negInf, negInf => true
  | _, _ => false

def lt : PyFloat → PyFloat → Bool
  | finite p, finite q => decide (p < q)
  | finite _, posInf => true
  | negInf, finite _ => true
  | negInf, posInf => true
  | _, _ => false

def le (x y : PyFloat) : Bool := lt x y || eq x y

end PyFloat
