/-!
    The fewest decimal digits that identify a binary fraction.

    A finite double is `mantissa * 2^exponent`. The reals that round to it form an interval around
    it, closed exactly when the mantissa is even. For one digit, two digits, and so on, the two
    neighbours of the value on the grid of that precision are tried, in exact natural arithmetic;
    the first grid with a neighbour inside the interval gives the answer, and of two such neighbours
    the nearer one, or the even one when both are equally near. -/

namespace VariantScheme.Decimal

/-- The power of two. -/
def twoTo (k : Nat) : Nat := Nat.pow 2 k

/-- The power of ten. -/
def tenTo (k : Nat) : Nat := Nat.pow 10 k

/-- The positive number `mantissa * 2^exponent`. Below a power of two the doubles lie twice as
    dense: `denserBelow` says that the number is such a power. -/
structure Binary where
  mantissa : Nat
  exponent : Int
  denserBelow : Bool

namespace Binary

/-- The magnitude of a finite nonzero double, read off its bits. -/
def ofBits (bits : Nat) : Binary :=
  let biased : Nat := bits / twoTo 52 % 2048
  let fraction : Nat := bits % twoTo 52
  if biased = 0 then ⟨fraction, -1074, false⟩
  else ⟨twoTo 52 + fraction, (biased : Int) - 1075, fraction == 0 && decide (1 < biased)⟩

/-- Numerator and denominator of the number. -/
def ratio (x : Binary) : Nat × Nat :=
  (x.mantissa * twoTo x.exponent.toNat, twoTo (-x.exponent).toNat)

/-- Does `d * 10^e` round to the number? -/
def readsBack (x : Binary) (d : Nat) (e : Int) : Bool :=
  let quarter := x.exponent - 2
  let candidate := d * tenTo e.toNat * twoTo (-quarter).toNat
  let unit := twoTo quarter.toNat * tenTo (-e).toNat
  let low := (4 * x.mantissa - if x.denserBelow then 1 else 2) * unit
  let high := (4 * x.mantissa + 2) * unit
  if x.mantissa % 2 = 0 then decide (low ≤ candidate ∧ candidate ≤ high)
  else decide (low < candidate ∧ candidate < high)

/-- How many decimal digits a positive natural number has. -/
def digitCount (n : Nat) : Nat := (Nat.toDigits 10 n).length

/-- The least `k` with the number below `10^k`. -/
def magnitude (x : Binary) : Int :=
  let (num, den) := x.ratio
  if den ≤ num then digitCount (num / den) else 1 - (digitCount ((den - 1) / num) : Int)

/-- The grid point of `n` digits that reads back and is nearest, as digits and exponent. -/
def atPrecision (x : Binary) (n : Nat) : Option (Nat × Int) :=
  let e := x.magnitude - n
  let top := x.ratio.1 * tenTo (-e).toNat
  let bottom := x.ratio.2 * tenTo e.toNat
  let d := top / bottom
  match x.readsBack d e, x.readsBack (d + 1) e with
  | true, true =>
      match compare (2 * top) ((2 * d + 1) * bottom) with
      | .lt => some (d, e)
      | .gt => some (d + 1, e)
      | .eq => some (if d % 2 = 0 then d else d + 1, e)
  | true, false => some (d, e)
  | false, true => some (d + 1, e)
  | false, false => none

/-- The shortest digits and their exponent. Seventeen digits identify every double. -/
def shortest (x : Binary) : Nat × Int :=
  ((List.range 17).findSome? fun n => x.atPrecision (n + 1)).getD (0, 0)

end Binary

end VariantScheme.Decimal
