import Categorial.Syn
import Categorial.Term.Normal
import Categorial.Term.Printer

/-!
# Categories

A category pairs a syntactic category with an optional meaning in normal form, so that categories
with the same reading are equal. It is written `S\NP : λ$0:e.sleep($0)`.

* `Category`: the categories, with their total order `Category.cmp` (no meaning comes first).
* `Category.make`: a category whose meaning is brought to normal form.
* `Category.text`: the written form.
-/

namespace Categorial

/-- A syntactic category with its meaning. -/
structure Category where
  syn : Syn
  sem : Option Term := none
deriving DecidableEq, Repr, Inhabited

namespace Category

/-- The category with the normal form of a meaning. -/
def make (syn : Syn) (sem : Option Term) : Category := ⟨syn, sem.map Term.normalize⟩

/-- The category of a skipped word. -/
def empty : Category := ⟨.empty, none⟩

/-- The same syntax with another meaning. -/
def withSem (c : Category) (sem : Option Term) : Category := make c.syn sem

/-- No meaning comes before any. -/
def cmpSem : Option Term → Option Term → Ordering
  | none, none => .eq
  | none, some _ => .lt
  | some _, none => .gt
  | some a, some b => a.cmp b

/-- By syntax, then by meaning. -/
def cmp (a b : Category) : Ordering := (a.syn.cmp b.syn).then (cmpSem a.sem b.sem)

/-- The written form, character by character. -/
def chars (c : Category) : List Char :=
  c.syn.chars ++ (match c.sem with
    | none => []
    | some t => ' ' :: ':' :: ' ' :: t.chars)

/-- The written form. -/
def text (c : Category) : String := String.ofList c.chars

end Category

end Categorial
