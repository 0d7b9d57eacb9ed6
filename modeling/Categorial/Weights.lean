import Categorial.Features
import Std.Data.TreeMap

/-!
# Weights

The weights of a linear model, keyed by feature name. Two update disciplines are offered: one pass
over the update, or a pass over the known names followed by one that inserts the new ones.

* `Weights.get`, `Weights.dot`: reading.
* `Weights.addScaled`: adding a multiple of a feature vector.
-/

namespace Categorial

/-- How an update is written to the weights. -/
inductive Discipline where
  /-- Each name in turn is looked up or inserted. -/
  | serialized
  /-- Known names are increased in place first; new ones are inserted afterwards. -/
  | lockFree
deriving DecidableEq, Repr, Inhabited

/-- Weights keyed by feature name. Where they are shared without locks, a cell holds the bits of its
number; here it holds the number that these bits encode. -/
structure Weights (σ : Type) where
  discipline : Discipline := .serialized
  table : Std.TreeMap String σ := {}

namespace Weights

variable {σ : Type} [Scalar σ]

/-- Weights with given values; of two values for one name the later one stays. -/
def ofList (d : Discipline) (l : List (String × σ)) : Weights σ :=
  ⟨d, l.foldl (fun t e => t.insert e.1 e.2) {}⟩

/-- The names and their weights in order of names. -/
def toList (w : Weights σ) : List (String × σ) := w.table.toList

/-- The number of names. -/
def size (w : Weights σ) : Nat := w.table.size

/-- The weight of a name; an absent one counts as zero. -/
def get (w : Weights σ) (name : String) : σ := (w.table.get? name).getD Score.zero

/-- The sum of the products of numbers and weights, in order of names. -/
def dot (w : Weights σ) (f : Features σ) : σ :=
  Features.sum (f.entries.map fun e => Scalar.mul e.2 (w.get e.1))

/-- Increase the weight of a name. -/
def bump (t : Std.TreeMap String σ) (name : String) (v : σ) : Std.TreeMap String σ :=
  t.insert name (Score.add ((t.get? name).getD Score.zero) v)

/-- Add `step` times a vector, name by name. -/
def addInOnePass (t : Std.TreeMap String σ) (delta : Features σ) (step : σ) :
    Std.TreeMap String σ :=
  delta.entries.foldl (fun t e => bump t e.1 (Scalar.mul step e.2)) t

/-- Add `step` times a vector, first to the names that have a weight, then to the others. -/
def addKnownThenNew (t : Std.TreeMap String σ) (delta : Features σ) (step : σ) :
    Std.TreeMap String σ :=
  let (known, new) := delta.entries.partition fun e => t.contains e.1
  let t := known.foldl (fun t e => bump t e.1 (Scalar.mul step e.2)) t
  new.foldl (fun t e => bump t e.1 (Scalar.mul step e.2)) t

/-- Add `step` times a vector. -/
def addScaled (w : Weights σ) (delta : Features σ) (step : σ) : Weights σ :=
  match w.discipline with
  | .serialized => { w with table := addInOnePass w.table delta step }
  | .lockFree => { w with table := addKnownThenNew w.table delta step }

end Weights

end Categorial
