import Categorial.Term.Basic

/-!
# Written terms

A bound variable is written `$level`, where levels count binders from the outside, and a free one
`#index`. Arguments follow their function in one pair of brackets: `f(a, b)`.

* `Term.chars`, `Term.text`: the written form.
* `Term.annotated`: a form that shows the type of every constant and every raw index.
-/

namespace Categorial.Term

/-- A variable under `depth` binders. The last of the words comes right before index zero, so as an
index it stands for the next binder. -/
def varChars (depth k : Nat) : List Char :=
  if k < depth then '$' :: (toString (depth - (k + 1))).toList
  else if k + 1 = Bits.words then '$' :: (toString depth).toList
  else '#' :: (toString k).toList

/-- A binder under `depth` others. -/
def binderChars (depth : Nat) (ty : Ty) : List Char :=
  'λ' :: '$' :: ((toString depth).toList ++ ':' :: (ty.chars ++ ['.']))

mutual

/-- The written form of a term under `depth` binders. -/
def charsAt : (depth : Nat) → Term → List Char
  | _, const n _ => n.toList
  | depth, var k => varChars depth k
  | depth, lam ty b => binderChars depth ty ++ charsAt (depth + 1) b
  | depth, app f a => headChars depth f ++ (charsAt depth a ++ [')'])

/-- The written form of a function up to where its next argument goes. -/
def headChars : (depth : Nat) → Term → List Char
  | _, const n _ => n.toList ++ ['(']
  | depth, var k => varChars depth k ++ ['(']
  | depth, lam ty b => '(' :: (binderChars depth ty ++ (charsAt (depth + 1) b ++ [')', '(']))
  | depth, app f a => headChars depth f ++ (charsAt depth a ++ [',', ' '])

end

/-- The written form, character by character. -/
def chars (t : Term) : List Char := t.charsAt 0

/-- The written form. -/
def text (t : Term) : String := String.ofList t.chars

/-- Types of constants and raw indices shown, one argument to an application. -/
def annotated : Term → String
  | const n ty => n ++ ":" ++ ty.text
  | var k => "#" ++ toString k
  | app f a => "(" ++ f.annotated ++ " " ++ a.annotated ++ ")"
  | lam ty b => "[" ++ ty.text ++ " " ++ b.annotated ++ "]"

end Categorial.Term
