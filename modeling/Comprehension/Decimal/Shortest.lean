/-!
Shortest decimals. A binary number `m * 2 ^ e` stands for every real that rounds to it; the shortest
decimal is the point of the coarsest decimal grid that falls among those reals, and of two such
points the nearer one. All arithmetic is on natural numbers.
-/

namespace Comprehension

/-- The number `digits * 10 ^ exponent`. -/
structure Decimal where
  digits : Nat
  exponent : Int
  deriving DecidableEq, Repr

namespace Decimal

/-- A positive binary number `mantissa * 2 ^ exponent`. Below a power of two the next smaller number
is half as far away as the next larger one; `lowerGapHalved` says so. -/
structure Binary where
  mantissa : Nat
  exponent : Int
  lowerGapHalved : Bool
  deriving DecidableEq, Repr

/-! ## The reals that round to a number -/

/-- An interval around `value`, on a scale where `step` is one unit of a decimal grid. The ends
belong to the interval when `closed` holds. -/
structure Window where
  low : Nat
  value : Nat
  high : Nat
  step : Nat
  closed : Bool
  deriving DecidableEq, Repr

/-- The window of `b` seen from the grid `10 ^ s`: everything is measured in quarters of the
distance to the next larger number, and cleared of denominators. -/
def window (b : Binary) (s : Int) : Window :=
  let e := b.exponent - 2
  let scale := Nat.pow 2 e.toNat * Nat.pow 10 (-s).toNat
  ⟨(4 * b.mantissa - if b.lowerGapHalved then 1 else 2) * scale,
   4 * b.mantissa * scale,
   (4 * b.mantissa + 2) * scale,
   Nat.pow 10 s.toNat * Nat.pow 2 (-e).toNat,
   b.mantissa % 2 == 0⟩

def Window.holds (w : Window) (x : Nat) : Bool :=
  if w.closed then w.low ≤ x && x ≤ w.high else w.low < x && x < w.high

/-- The grid point of the window that is nearest to its value, an exact tie going up. -/
def Window.nearest? (w : Window) : Option Nat :=
  let below := w.value / w.step
  let above := below + 1
  match w.holds (below * w.step), w.holds (above * w.step) with
  | true, true =>
    some (if 2 * (w.value - below * w.step) < w.step then below else above)
  | true, false => some below
  | false, true => some above
  | false, false => none

/-! ## The search -/

def digitCount (n : Nat) : Nat := (Nat.toDigits 10 n).length

/-- The exponent `k` with `10 ^ (k - 1) ≤ m * 2 ^ e < 10 ^ k`. -/
def magnitude (b : Binary) : Int :=
  let num := b.mantissa * Nat.pow 2 b.exponent.toNat
  let den := Nat.pow 2 (-b.exponent).toNat
  let k : Int := (digitCount num : Int) - digitCount den
  if den * Nat.pow 10 k.toNat ≤ num * Nat.pow 10 (-k).toNat then k + 1 else k

/-- Tries the grids `10 ^ s`, `10 ^ (s - 1)` and so on, `n` of them. -/
def search (b : Binary) (s : Int) : Nat → Option Decimal
  | 0 => none
  | n + 1 =>
    match (window b s).nearest? with
    | some d => some ⟨d, s⟩
    | none => search b (s - 1) n

/-- Seventeen digits tell all doubles apart, so the search ends; the exact value stands in for the
case that never comes. -/
def shortest (b : Binary) : Decimal :=
  (search b (magnitude b - 1) 17).getD
    ⟨b.mantissa * Nat.pow 2 b.exponent.toNat * Nat.pow 5 (-b.exponent).toNat, min b.exponent 0⟩

/-! ## Layout -/

def dropTrailingZeros (cs : List Char) : List Char :=
  (cs.reverse.dropWhile (· == '0')).reverse

/-- Writes a decimal with its point in place and no exponent; a whole number has no point. -/
def positional (d : Decimal) : String :=
  let ds := Nat.toDigits 10 d.digits
  match d.exponent with
  | .ofNat z => String.ofList (ds ++ List.replicate z '0')
  | .negSucc k =>
    let places := k + 1
    let padded := List.replicate (places + 1 - ds.length) '0' ++ ds
    let whole := padded.take (padded.length - places)
    let part := dropTrailingZeros (padded.drop (padded.length - places))
    String.ofList (if part.isEmpty then whole else whole ++ '.' :: part)

end Decimal
end Comprehension
