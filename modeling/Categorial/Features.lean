import Categorial.NameMap
import Categorial.Score

/-!
# Feature vectors

A feature vector gives names a number. It is sparse and read in order of names, so sums have one
order of addition.

* `Features.add`, `Features.addAll`, `Features.prune`, `Features.norm`.
-/

namespace Categorial

/-- Numbers keyed by feature name. -/
abbrev Features (σ : Type) := NameMap σ

namespace Features

variable {σ : Type} [Scalar σ]

/-- Add to the number of a feature. -/
def add (f : Features σ) (name : String) (v : σ) : Features σ :=
  f.alter name fun old => Score.add (old.getD Score.zero) v

/-- Add a multiple of another vector. -/
def addAll (f other : Features σ) (scale : σ) : Features σ :=
  other.entries.foldl (fun f e => add f e.1 (Scalar.mul scale e.2)) f

/-- The vector of a list of additions. -/
def ofList (l : List (String × σ)) : Features σ := l.foldl (fun f e => add f e.1 e.2) {}

/-- Drop the features whose numbers cancelled out. -/
def prune (f : Features σ) : Features σ := ⟨f.entries.filter fun e => !Scalar.isZero e.2⟩

/-- The number of a feature; an absent one counts as zero. -/
def get (f : Features σ) (name : String) : σ := (f.find? name).getD Score.zero

/-- The sum of a list of numbers, first to last. -/
def sum (l : List σ) : σ := l.foldl Score.add Scalar.emptySum

/-- The Euclidean norm. -/
def norm (f : Features σ) : σ := Scalar.sqrt (sum (f.entries.map fun e => Scalar.mul e.2 e.2))

end Features

end Categorial
