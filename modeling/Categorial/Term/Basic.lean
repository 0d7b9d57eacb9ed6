import Categorial.Bits
import Categorial.Ty

/-!
# Lambda terms

Typed lambda terms with de Bruijn indices: terms that differ in the names of bound variables are
equal. A constant carries its type and a binder the type of its variable. Indices are machine words,
so arithmetic on them takes a modulus; modulo zero it is that of the natural numbers, which is all
that closed terms need.

* `Term`: the terms, with their total order `Term.cmp`.
* `Term.shiftMod`, `Term.substMod`, `Term.betaMod`: index arithmetic and substitution; `Term.shift`
  has unbounded indices.
* `Term.modulus`: the modulus that a term asks for.
* `Term.hasFreeMod`, `Term.isClosed`, `Term.contains`, `Term.constants`, `Term.spine`: views of a term.
-/

namespace Categorial

/-- A lambda term. -/
inductive Term where
  | const (name : String) (ty : Ty)
  | var (index : Nat)
  | app (fn arg : Term)
  | lam (ty : Ty) (body : Term)
deriving DecidableEq, Repr, Inhabited

namespace Term

/-- Apply a term to arguments one after another. -/
def applyAll (f : Term) (args : List Term) : Term := args.foldl app f

/-- Constants, variables, applications, abstractions, in this order; equals are compared part by
part. -/
def cmp : Term → Term → Ordering
  | const n ty, const n' ty' => (compare n n').then (ty.cmp ty')
  | const _ _, _ => .lt
  | _, const _ _ => .gt
  | var k, var k' => compare k k'
  | var _, _ => .lt
  | _, var _ => .gt
  | app f a, app f' a' => (cmp f f').then (cmp a a')
  | app _ _, _ => .lt
  | _, app _ _ => .gt
  | lam ty b, lam ty' b' => (ty.cmp ty').then (cmp b b')

/-- Move an index by `d`, modulo `w`. Modulo zero, indices are unbounded; a move below zero does not
happen then, since `d` only closes the gap of a removed binder. -/
def moveIndex (w k : Nat) (d : Int) : Nat := (Int.emod ((k : Int) + d) (w : Int)).toNat

/-- The index of a variable as seen from under one more binder, modulo `w`. -/
def under (w k : Nat) : Nat := (k + 1) % w

/-- Move the variables from `cutoff` on by `d`, with indices modulo `w`. -/
def shiftMod (w : Nat) (d : Int) : (cutoff : Nat) → Term → Term
  | _, const n ty => const n ty
  | cutoff, var k => var (if cutoff ≤ k then moveIndex w k d else k)
  | cutoff, app f a => app (shiftMod w d cutoff f) (shiftMod w d cutoff a)
  | cutoff, lam ty b => lam ty (shiftMod w d (under w cutoff) b)

/-- Put `s` in place of variable `j`, with indices modulo `w`. -/
def substMod (w : Nat) : Term → (j : Nat) → (s : Term) → Term
  | const n ty, _, _ => const n ty
  | var k, j, s => if k = j then s else var k
  | app f a, j, s => app (f.substMod w j s) (a.substMod w j s)
  | lam ty b, j, s => lam ty (b.substMod w (under w j) (s.shiftMod w 1 0))

/-- The body of an abstraction with its variable replaced by the argument, with indices modulo
`w`. -/
def betaMod (w : Nat) (body arg : Term) : Term :=
  (body.substMod w 0 (arg.shiftMod w 1 0)).shiftMod w (-1) 0

/-- Variable `k` occurs free, with indices modulo `w`. -/
def hasFreeMod (w : Nat) : (k : Nat) → Term → Bool
  | _, const _ _ => false
  | k, var i => i == k
  | k, app f a => hasFreeMod w k f || hasFreeMod w k a
  | k, lam _ b => hasFreeMod w (under w k) b

/-- Move the variables from `cutoff` on by `d`. -/
abbrev shift (d : Int) (cutoff : Nat) (t : Term) : Term := t.shiftMod 0 d cutoff

/-- Every variable refers to one of `depth` enclosing binders or to a binder of the term. -/
def closedAt : (depth : Nat) → Term → Bool
  | _, const _ _ => true
  | depth, var k => k < depth
  | depth, app f a => closedAt depth f && closedAt depth a
  | depth, lam _ b => closedAt (depth + 1) b

/-- No variable is free. -/
def isClosed (t : Term) : Bool := t.closedAt 0

/-- The modulus of the indices of a term. Free variables in the lower half of the words never come
near the end of the words, and then indices are unbounded; otherwise they wrap around. -/
def modulus (t : Term) : Nat := if t.closedAt Bits.positives then 0 else Bits.words

/-- `s` occurs in the term, as it stands. -/
def contains : Term → (s : Term) → Bool
  | t@(app f a), s => t == s || f.contains s || a.contains s
  | t@(lam _ b), s => t == s || b.contains s
  | t, s => t == s

/-- The names of the constants, left to right, with repetitions. -/
def constantNames : Term → List String
  | const n _ => [n]
  | var _ => []
  | app f a => f.constantNames ++ a.constantNames
  | lam _ b => b.constantNames

/-- The names of the constants, in increasing order without repetitions. -/
def constants (t : Term) : List String :=
  (t.constantNames.mergeSort fun a b => (compare a b).isLE).eraseReps

/-- Take applications off a term, collecting arguments in front of `args`. -/
def spineOnto : Term → List Term → Term × List Term
  | app f a, args => f.spineOnto (a :: args)
  | t, args => (t, args)

/-- The head of a chain of applications and its arguments in order. -/
def spine (t : Term) : Term × List Term := t.spineOnto []

/-- Rename the constants; types stay. -/
def renameConstants (f : String → String) : Term → Term
  | const n ty => const (f n) ty
  | var k => var k
  | app g a => app (g.renameConstants f) (a.renameConstants f)
  | lam ty b => lam ty (b.renameConstants f)

end Term

end Categorial
