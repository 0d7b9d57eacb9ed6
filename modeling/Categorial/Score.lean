/-!
# Scores

The search procedures only add and compare scores, so they are stated over any type of scores. They
run on floating-point numbers.

* `Score`: addition and comparison.
* `Scalar`: what a linear model needs on top of it.
* `FloatScore`: a floating-point number, or a result that is not one and has a sign all the same.
* `FloatScore.rank`: its place in the total order, with -0 before 0.
-/

namespace Categorial

/-- Scores that can be added and compared. -/
class Score (σ : Type) where
  /-- The score of doing nothing. -/
  zero : σ
  /-- The sum of two scores. -/
  add : σ → σ → σ
  /-- A total order that ranks scores. -/
  cmp : σ → σ → Ordering
  /-- The first score exceeds the second. -/
  exceeds : σ → σ → Bool
  /-- The greater score. -/
  max : σ → σ → σ

/-- Scores that can also be multiplied and divided. -/
class Scalar (σ : Type) extends Score σ where
  /-- The number one. -/
  one : σ
  /-- The empty sum. -/
  emptySum : σ
  /-- The product of two numbers. -/
  mul : σ → σ → σ
  /-- The quotient of two numbers. -/
  div : σ → σ → σ
  /-- The number with the opposite sign. -/
  neg : σ → σ
  /-- The square root. -/
  sqrt : σ → σ
  /-- The number is zero. -/
  isZero : σ → Bool

/-- The higher score comes first. -/
def Score.byDesc {σ : Type} [Score σ] (a b : σ) : Ordering := Score.cmp b a

/-- A floating-point number as a score. A value that is not a number has a sign: it is positive when
it was given and negative when it came out of a computation on numbers. -/
structure FloatScore where
  value : Float
  /-- The value is not a number and has a negative sign. -/
  isBelow : Bool := false

namespace FloatScore

/-- A given number. -/
def ofFloat (x : Float) : FloatScore := ⟨x, false⟩

instance : Coe Float FloatScore := ⟨ofFloat⟩

instance : Inhabited FloatScore := ⟨ofFloat 0.0⟩

/-- The result of an operation on two scores; one that is not a number is passed on. -/
def combine (op : Float → Float → Float) (x y : FloatScore) : FloatScore :=
  if x.value.isNaN then x
  else if y.value.isNaN then y
  else
    let z := op x.value y.value
    ⟨z, z.isNaN⟩

/-- The score with the opposite sign. -/
def neg (x : FloatScore) : FloatScore := ⟨-x.value, x.value.isNaN && !x.isBelow⟩

/-- The square root. -/
def sqrt (x : FloatScore) : FloatScore :=
  if x.value.isNaN then x
  else
    let z := x.value.sqrt
    ⟨z, z.isNaN⟩

/-- The place in the total order: negative values by decreasing magnitude, then the others by
increasing magnitude. A value that is not a number has the greatest magnitude. -/
def rank (x : FloatScore) : UInt64 :=
  let bits := x.value.toBits
  if x.isBelow then 0
  else if bits < 0x8000000000000000 then bits + 0x8000000000000000
  else 0xFFFFFFFFFFFFFFFF - bits

/-- The total order. -/
def cmp (x y : FloatScore) : Ordering := compare x.rank y.rank

/-- The greater number; a value that is not a number gives way. -/
def max (x y : FloatScore) : FloatScore :=
  if x.value.isNaN then y
  else if y.value.isNaN then x
  else if x.value < y.value then y
  else x

instance : Scalar FloatScore where
  zero := ofFloat 0.0
  add := combine (· + ·)
  cmp := cmp
  exceeds x y := y.value < x.value
  max := max
  one := ofFloat 1.0
  emptySum := ofFloat (-0.0)
  mul := combine (· * ·)
  div := combine (· / ·)
  neg := neg
  sqrt := sqrt
  isZero x := x.value == 0.0

end FloatScore

end Categorial
