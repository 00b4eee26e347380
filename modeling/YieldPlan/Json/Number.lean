/-! Number literals, and the doubles they are read as. A literal is read as a 64-bit significand and
a power of ten; digits that no longer fit only shift the power. Its value is the product of the
doubles nearest to the two, so a literal just below the greatest double may still be infinite. -/

namespace YieldPlan

/-- A number literal, taken apart: sign, whole digits, fraction digits, exponent. -/
structure NumberLiteral where
  negative : Bool := false
  whole : List Char
  fraction : List Char := []
  exponent : Int := 0
  deriving DecidableEq, Repr, Inhabited

def addDigit (n : Nat) (d : Char) : Nat := 10 * n + (d.toNat - '0'.toNat)

def digitsValue (ds : List Char) : Nat := ds.foldl addDigit 0

/-- A significand times a power of ten. -/
structure Decimal where
  significand : Nat
  power : Int
  deriving DecidableEq, Repr, Inhabited

def maxSignificand : Nat := Nat.pow 2 64 - 1

/-- Put whole digits into a significand. The first that does not fit and all after it raise the
power instead. -/
def takeWhole (m : Nat) : List Char → Decimal
  | [] => ⟨m, 0⟩
  | d :: ds =>
    if addDigit m d ≤ maxSignificand then takeWhole (addDigit m d) ds
    else ⟨m, (d :: ds).length⟩

/-- Put fraction digits into a significand, each lowering the power. The first that does not fit and
all after it are dropped. -/
def takeFraction (x : Decimal) : List Char → Decimal
  | [] => x
  | d :: ds =>
    if addDigit x.significand d ≤ maxSignificand then
      takeFraction ⟨addDigit x.significand d, x.power - 1⟩ ds
    else x

def NumberLiteral.decimal (n : NumberLiteral) : Decimal :=
  let x := takeFraction (takeWhole 0 n.whole) n.fraction
  ⟨x.significand, x.power + n.exponent⟩

/-- Divide by a power of two, to the nearest number; a tie goes to the even one. -/
def roundShift (n shift : Nat) : Nat :=
  let q := n / Nat.pow 2 shift
  let twice := 2 * (n % Nat.pow 2 shift)
  if twice < Nat.pow 2 shift then q
  else if Nat.pow 2 shift < twice then q + 1
  else q + q % 2

/-- The double nearest to a number, if exponents were not limited: 53 bits are kept. -/
def nearestDouble (n : Nat) : Nat :=
  let shift := n.log2 + 1 - 53
  if shift = 0 then n else roundShift n shift * Nat.pow 2 shift

def overflowBound : Nat := Nat.pow 2 1024 - Nat.pow 2 970

def maxPower : Nat := 308

def Decimal.isFinite (x : Decimal) : Bool :=
  x.significand == 0 || x.power < 0 ||
    (x.power ≤ maxPower &&
      nearestDouble x.significand * nearestDouble (Nat.pow 10 x.power.toNat) < overflowBound)

def NumberLiteral.isFinite (n : NumberLiteral) : Bool := n.decimal.isFinite

end YieldPlan
