import Comprehension.Decimal.Shortest

/-! Double-precision numbers by their bits, without NaN, and their text. -/

namespace Comprehension

namespace Bits

def negative (b : UInt64) : Bool := b >>> 63 == 1

def exponentField (b : UInt64) : Nat := ((b >>> 52) &&& 0x7ff).toNat

def fractionField (b : UInt64) : Nat := (b &&& 0xfffffffffffff).toNat

def isNaN (b : UInt64) : Bool := exponentField b == 0x7ff && fractionField b != 0

end Bits

/-- A double-precision number. NaN has no literal form. -/
structure Double where
  bits : UInt64
  not_nan : Bits.isNaN bits = false
  deriving DecidableEq

namespace Double

def ofBits? (b : UInt64) : Option Double :=
  if h : Bits.isNaN b = false then some ⟨b, h⟩ else none

def isNegative (d : Double) : Bool := Bits.negative d.bits

/-- Both zeros. -/
def isZero (d : Double) : Bool :=
  Bits.exponentField d.bits == 0 && Bits.fractionField d.bits == 0

def isInfinite (d : Double) : Bool := Bits.exponentField d.bits == 0x7ff

/-- The absolute value of a finite number; below a power of two the numbers lie twice as dense. -/
def magnitude (d : Double) : Decimal.Binary :=
  let e := Bits.exponentField d.bits
  let f := Bits.fractionField d.bits
  if e == 0 then ⟨f, -1074, false⟩ else ⟨Nat.pow 2 52 + f, (e : Int) - 1075, f == 0 && e != 1⟩

/-- The fewest digits that read back to the number, in positional form. -/
def text (d : Double) : String :=
  (if d.isNegative then "-" else "") ++
    (if d.isInfinite then "inf"
     else if d.isZero then "0"
     else (Decimal.shortest d.magnitude).positional)

end Double
end Comprehension
