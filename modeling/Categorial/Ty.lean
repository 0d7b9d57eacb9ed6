/-!
# Semantic types

A type is atomic or a function type. Types are written `e`, `<e,t>`, `<<e,t>,e>`.

* `Ty`: the types, with their total order `Ty.cmp` (atoms first, then by components).
* `Ty.atoms`: the atomic names in the order they are written.
* `Ty.chars`, `Ty.text`: the written form.
-/

namespace Categorial

/-- A semantic type. -/
inductive Ty where
  | atom (name : String)
  | arrow (arg ret : Ty)
deriving DecidableEq, Repr, Inhabited

namespace Ty

/-- The type of entities. -/
def entity : Ty := atom "e"

/-- The type of truth values. -/
def truth : Ty := atom "t"

/-- Argument and result of a function type. -/
def arrow? : Ty → Option (Ty × Ty)
  | atom _ => none
  | arrow a r => some (a, r)

/-- The type is a function type. -/
def isArrow (ty : Ty) : Bool := ty.arrow?.isSome

/-- The atomic names, left to right. -/
def atoms : Ty → List String
  | atom name => [name]
  | arrow a r => a.atoms ++ r.atoms

/-- Atoms come before function types; equals are compared part by part. -/
def cmp : Ty → Ty → Ordering
  | atom a, atom b => compare a b
  | atom _, arrow _ _ => .lt
  | arrow _ _, atom _ => .gt
  | arrow a r, arrow a' r' => (cmp a a').then (cmp r r')

/-- The written form, character by character. -/
def chars : Ty → List Char
  | atom name => name.toList
  | arrow a r => '<' :: (a.chars ++ ',' :: (r.chars ++ ['>']))

/-- The written form. -/
def text (ty : Ty) : String := String.ofList ty.chars

end Ty

end Categorial
