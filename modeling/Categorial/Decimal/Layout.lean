import Categorial.Decimal.Shortest

/-!
# Layouts of numbers

* `Decimal.plain`: positional, without a point where none is needed; scores are shown this way.
* `Decimal.scientific`: positional near one and with an exponent far from it; stored numbers are
  written this way.
* `Decimal.fixed`: a given number of places, a half goes to the even neighbour.
-/

namespace Categorial

namespace Decimal

/-- A text of zeros. -/
def zeros (n : Nat) : String := String.ofList (List.replicate n '0')

/-- The text of digits with a point before the last `places` of them. -/
def withPoint (digits : String) (places : Nat) : String :=
  let n := digits.length
  if places < n then
    String.ofList (digits.toList.take (n - places)) ++ "." ++
      String.ofList (digits.toList.drop (n - places))
  else "0." ++ zeros (places - n) ++ digits

/-- The positional form of a decimal. -/
def positional (d : Decimal) : String :=
  let digits := toString d.digits
  if 0 ≤ d.exponent then digits ++ zeros d.exponent.toNat
  else withPoint digits (-d.exponent).toNat

/-- The sign of a floating-point number. -/
def sign (x : Float) : String := if x.toBits < 0x8000000000000000 then "" else "-"

/-- The positional form with the fewest digits, as scores are shown. -/
def plain (x : Float) : String :=
  if x.isNaN then "NaN"
  else if x.isInf then sign x ++ "inf"
  else sign x ++ (shortest x.toBits.toNat).positional

/-- The form of a stored decimal: positional with a point if its first digit stands between the
fifth place behind the point and the sixteenth before it, and with an exponent otherwise. -/
def stored (d : Decimal) : String :=
  let digits := toString d.digits
  let first : Int := digits.length + d.exponent
  if 0 ≤ d.exponent && first ≤ 16 then digits ++ zeros d.exponent.toNat ++ ".0"
  else if -5 < first && first ≤ 16 then withPoint digits (-d.exponent).toNat
  else
    (if digits.length == 1 then digits else withPoint digits (digits.length - 1)) ++ "e" ++
      toString (first - 1)

/-- The form of a finite number in stored data. -/
def scientific (x : Float) : String := sign x ++ (shortest x.toBits.toNat).stored

/-- The quotient rounded to the nearest integer, a half to the even one. -/
def roundDiv (num den : Nat) : Nat :=
  let q := num / den
  let r := num % den
  if 2 * r < den || (2 * r == den && q % 2 == 0) then q else q + 1

/-- The form of a finite number with `places` places. -/
def fixed (places : Nat) (x : Float) : String :=
  if x.isNaN then "NaN"
  else if x.isInf then sign x ++ "inf"
  else
    let n := match Binary.ofBits x.toBits.toNat with
      | some b => roundDiv (b.value * Nat.pow 10 places) b.denominator
      | none => 0
    sign x ++ withPoint (toString n) places

end Decimal

end Categorial
