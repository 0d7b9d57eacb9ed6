/-!
# Syntactic categories

A syntactic category is atomic (`S`, `NP`) or asks for an argument on one side: `X/Y` to the right,
`X\Y` to the left. Slashes associate to the left.

* `Syn`: the categories, with their total order `Syn.cmp`.
* `Syn.peel`, `Syn.wrap`: take the outermost arguments off, put them back on.
* `Syn.chars`, `Syn.text`: the written form; only a complex argument has brackets.
-/

namespace Categorial

/-- The side on which an argument is expected. -/
inductive Slash where
  | forward
  | backward
deriving DecidableEq, Repr, Inhabited

namespace Slash

/-- Forward before backward. -/
def cmp : Slash → Slash → Ordering
  | forward, backward => .lt
  | backward, forward => .gt
  | _, _ => .eq

/-- The written form. -/
def char : Slash → Char
  | forward => '/'
  | backward => '\\'

end Slash

/-- A syntactic category. -/
inductive Syn where
  | atom (name : String)
  | complex (result : Syn) (slash : Slash) (arg : Syn)
deriving DecidableEq, Repr, Inhabited

namespace Syn

/-- The category of a skipped word. -/
def empty : Syn := atom "EMPTY"

/-- The category is that of a skipped word. -/
def isEmpty (s : Syn) : Bool := s == empty

/-- The category asks for no argument. -/
def isAtomic : Syn → Bool
  | atom _ => true
  | complex _ _ _ => false

/-- Result, slash and argument of a category that asks for one. -/
def complex? : Syn → Option (Syn × Slash × Syn)
  | atom _ => none
  | complex r s a => some (r, s, a)

/-- The number of arguments asked for. -/
def arity : Syn → Nat
  | atom _ => 0
  | complex r _ _ => 1 + r.arity

/-- Take `n` arguments off, the outermost first; `args` collects them innermost first. -/
def peelOnto : Nat → Syn → List (Slash × Syn) → Option (Syn × List (Slash × Syn))
  | 0, s, args => some (s, args)
  | n + 1, complex r sl a, args => peelOnto n r ((sl, a) :: args)
  | _ + 1, atom _, _ => none

/-- The core left when the `n` outermost arguments are taken off, and these arguments, innermost
first. -/
def peel (s : Syn) (n : Nat) : Option (Syn × List (Slash × Syn)) := peelOnto n s []

/-- Put arguments on a core, innermost first. -/
def wrap (core : Syn) (args : List (Slash × Syn)) : Syn :=
  args.foldl (fun r a => complex r a.1 a.2) core

/-- Atoms come before complex categories; equals are compared part by part. -/
def cmp : Syn → Syn → Ordering
  | atom a, atom b => compare a b
  | atom _, complex _ _ _ => .lt
  | complex _ _ _, atom _ => .gt
  | complex r s a, complex r' s' a' => ((cmp r r').then (s.cmp s')).then (cmp a a')

/-- The written form, character by character. -/
def chars : Syn → List Char
  | atom name => name.toList
  | complex r s a =>
    r.chars ++ s.char :: (if a.isAtomic then a.chars else '(' :: (a.chars ++ [')']))

/-- The written form. -/
def text (s : Syn) : String := String.ofList s.chars

end Syn

end Categorial
