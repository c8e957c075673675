import VariantScheme.Decimal.Shortest

/-!
    Decimal numerals: how a double is written, and how a numeral is read. -/

namespace VariantScheme.Decimal

/-- A number whose leading digit counts `10^e` is written positionally when `e` is at least
    `lowestPositional` and below `firstScientific`. An exponent has at least `exponentDigits`. -/
structure Layout where
  lowestPositional : Int
  firstScientific : Int
  exponentDigits : Nat

/-- Digits with the point after the first `point` of them; a whole number ends in `.0`. -/
def positional (digits : List Char) (point : Int) : String :=
  if point ≤ 0 then
    "0." ++ String.ofList (List.replicate (-point).toNat '0' ++ digits)
  else
    let whole := digits.take point.toNat
    let fraction := digits.drop point.toNat
    String.ofList (whole ++ List.replicate (point.toNat - whole.length) '0') ++ "."
      ++ String.ofList (if fraction.isEmpty then ['0'] else fraction)

/-- One digit before the point, the others after it, and a signed exponent. -/
def scientific (width : Nat) (digits : List Char) (exponent : Int) : String :=
  let mantissa := match digits with
    | [] => []
    | [d] => [d]
    | d :: rest => d :: '.' :: rest
  let power := Nat.toDigits 10 exponent.natAbs
  String.ofList mantissa ++ (if exponent < 0 then "e-" else "e+")
    ++ String.ofList (List.replicate (width - power.length) '0' ++ power)

/-- A finite positive number in the given layout. -/
def Layout.write (layout : Layout) (x : Binary) : String :=
  let (d, e) := x.shortest
  let padded := Nat.toDigits 10 d
  let point : Int := padded.length + e
  let digits := (padded.reverse.dropWhile (· == '0')).reverse
  let exponent := point - 1
  if layout.lowestPositional ≤ exponent ∧ exponent < layout.firstScientific then
    positional digits point
  else
    scientific layout.exponentDigits digits exponent

/-- A double as text; the sign of zero is kept. -/
def Layout.text (layout : Layout) (x : Float) : String :=
  let bits := x.toBits.toNat
  let magnitude := bits % twoTo 63
  let sign := if bits / twoTo 63 = 1 then "-" else ""
  if x.isNaN then "nan"
  else if x.isInf then sign ++ "inf"
  else if magnitude = 0 then sign ++ "0.0"
  else sign ++ layout.write (.ofBits magnitude)

/-! ### Reading -/

/-- The value of a row of digits. -/
def valueOf (digits : List Char) : Nat :=
  digits.foldl (fun n c => 10 * n + (c.toNat - '0'.toNat)) 0

/-- The number `m * 10^e`. Beyond the range of doubles the exponent need not be worked out. -/
def scaled (m : Nat) (e : Int) : Float :=
  let point : Int := (Nat.toDigits 10 m).length + e
  if m = 0 ∨ point < -400 then 0.0
  else if 400 < point then 1.0 / 0.0
  else if e < 0 then Float.ofScientific m true (-e).toNat
  else Float.ofScientific m false e.toNat

/-- An exponent: an optional sign and at least one digit, and nothing else. -/
def readExponent? (cs : List Char) : Option Int :=
  let (negative, digits) := match cs with
    | '-' :: rest => (true, rest)
    | '+' :: rest => (false, rest)
    | rest => (false, rest)
  if digits.isEmpty || !digits.all Char.isDigit then none
  else some (if negative then -(valueOf digits : Int) else valueOf digits)

/-- An unsigned numeral: digits, perhaps a point and more digits, perhaps an exponent. -/
def readUnsigned? (cs : List Char) : Option Float :=
  let whole := cs.takeWhile Char.isDigit
  let afterWhole := cs.dropWhile Char.isDigit
  let (fraction, tail) := match afterWhole with
    | '.' :: rest => (rest.takeWhile Char.isDigit, rest.dropWhile Char.isDigit)
    | rest => ([], rest)
  let m := valueOf (whole ++ fraction)
  if whole.isEmpty && fraction.isEmpty then none
  else match tail with
    | [] => some (scaled m (-fraction.length))
    | 'e' :: rest | 'E' :: rest => (readExponent? rest).map fun e => scaled m (e - fraction.length)
    | _ => none

/-- The double that a numeral names, correctly rounded. -/
def read? (text : String) : Option Float :=
  let (negative, digits) := match text.toList with
    | '-' :: rest => (true, rest)
    | '+' :: rest => (false, rest)
    | rest => (false, rest)
  let magnitude? :=
    if digits = "inf".toList then some (1.0 / 0.0)
    else if digits = "nan".toList then some (0.0 / 0.0)
    else readUnsigned? digits
  magnitude?.map fun x => if negative then -x else x

end VariantScheme.Decimal
