import Categorial.Rule.Basic
import Categorial.Term.Typing

/-!
# Applying rules

The meaning of a result is built from the meanings of the parts and checked for its type; if a part
has no meaning, neither has the result.

* `BinaryRule.applies`: the syntactic condition of a binary rule.
* `BinaryRule.combine`: the result of joining two categories.
* `UnaryRule.apply`: the result of turning one category into another.
* `RuleSet.binaryResults`, `RuleSet.unaryResults`: the results of all registered rules.
-/

namespace Categorial

/-- A built meaning: absent, or present and well-typed. The outer `none` means the meanings do not
fit together. -/
abbrev BuiltSem := Option (Option Term)

/-- Keep a built meaning if it is well-typed. -/
def checkedSem (sig : Signature) (t : Term) : BuiltSem :=
  if (t.infer sig).isSome then some (some t) else none

/-- `f(a)`. -/
def applySem (sig : Signature) : (f a : Option Term) → BuiltSem
  | some f, some a => checkedSem sig (.app f a)
  | _, _ => some none

/-- The first `n` argument types of a function type. -/
def Ty.argTypes : (n : Nat) → Ty → Option (List Ty)
  | 0, _ => some []
  | n + 1, .arrow a r => (Ty.argTypes n r).map (a :: ·)
  | _ + 1, .atom _ => none

/-- Bind variables of the given types, the first outermost. -/
def Term.lams (tys : List Ty) (body : Term) : Term := tys.foldr Term.lam body

/-- `λz₁..zₙ.f(g(z₁..zₙ))`, where the types of the variables are read off the type of `g`. -/
def composeSem (sig : Signature) (degree : Nat) : (f g : Option Term) → BuiltSem
  | some f, some g => do
    let gTy ← g.infer sig
    let tys ← gTy.argTypes degree
    let vars := (List.range degree).reverse.map Term.var
    let inner := Term.applyAll (g.shift degree 0) vars
    checkedSem sig (Term.lams tys (.app (f.shift degree 0) inner))
  | _, _ => some none

/-- `λz.g(z)(a)`, where the type of the variable is read off the type of `g`. -/
def raiseComposeSem (sig : Signature) : (a g : Option Term) → BuiltSem
  | some a, some g => do
    let gTy ← g.infer sig
    let (zTy, _) ← gTy.arrow?
    checkedSem sig (.lam zTy (Term.applyAll (g.shift 1 0) [.var 0, a.shift 1 0]))
  | _, _ => some none

/-- `λf.f(a)`, where results have type `targetTy`. -/
def raiseSem (sig : Signature) (targetTy : Ty) : (a : Option Term) → BuiltSem
  | some a => do
    let aTy ← a.infer sig
    some (some (.lam (.arrow aTy targetTy) (.app (.var 0) (a.shift 1 0))))
  | none => some none

/-- The core and the arguments of `other` when exactly `degree` arguments, all on the side of
`slash`, are taken off to leave `y`. -/
def matchesDegree? (slash : Slash) (y other : Syn) (degree : Nat) : Option (List (Slash × Syn)) :=
  match other.peel degree with
  | some (core, args) => if core == y && args.all (·.1 == slash) then some args else none
  | none => none

/-- Compose `functor`, an `X|Y`, with `other`, a `Y|Z..`, at the least degree from 1 to `maxDegree`
that fits. -/
def compose (sig : Signature) (slash : Slash) (maxDegree : Nat) (functor other : Category) :
    Option Category := do
  let (x, fSlash, y) ← functor.syn.complex?
  if fSlash ≠ slash then none
  let degrees := (List.range (min maxDegree other.syn.arity)).map (· + 1)
  let (degree, args) ← degrees.findSome? fun d =>
    (matchesDegree? slash y other.syn d).map fun args => (d, args)
  let sem ← composeSem sig degree functor.sem other.sem
  some (.make (x.wrap args) sem)

namespace BinaryRule

/-- The syntactic condition of a rule, tested before any meaning is built. -/
def applies (rule : BinaryRule) (left right : Syn) : Bool :=
  match rule with
  | forwardApplication =>
    match left with
    | .complex _ .forward arg => arg == right
    | _ => false
  | backwardApplication =>
    match right with
    | .complex _ .backward arg => arg == left
    | _ => false
  | forwardComposition _ =>
    match left with
    | .complex _ .forward _ => !right.isAtomic
    | _ => false
  | backwardComposition _ =>
    match right with
    | .complex _ .backward _ => !left.isAtomic
    | _ => false
  | forwardTypeRaisedComposition =>
    match right with
    | .complex (.complex _ .backward x) .forward _ => x == left
    | _ => false
  | forwardSkipping => left.isEmpty && !right.isEmpty
  | backwardSkipping => right.isEmpty && !left.isEmpty

/-- The category of two adjacent categories joined by a rule. -/
def combine (sig : Signature) (rule : BinaryRule) (left right : Category) : Option Category :=
  if !rule.applies left.syn right.syn then none
  else match rule with
    | forwardApplication => do
      let (x, _, _) ← left.syn.complex?
      let sem ← applySem sig left.sem right.sem
      some (.make x sem)
    | backwardApplication => do
      let (x, _, _) ← right.syn.complex?
      let sem ← applySem sig right.sem left.sem
      some (.make x sem)
    | forwardComposition maxDegree => compose sig .forward maxDegree left right
    | backwardComposition maxDegree => compose sig .backward maxDegree right left
    | forwardTypeRaisedComposition => do
      let (inner, _, z) ← right.syn.complex?
      let (r, _, _) ← inner.complex?
      let sem ← raiseComposeSem sig left.sem right.sem
      some (.make (.complex r .forward z) sem)
    | forwardSkipping => some right
    | backwardSkipping => some left

end BinaryRule

namespace UnaryRule

/-- What a rule makes of a category; a result equal to the category does not count. -/
def apply (sig : Signature) (rule : UnaryRule) (cat : Category) : Option Category := do
  let result ← match rule with
    | typeRaising _ arg target targetTy =>
      if cat.syn = arg then do
        let sem ← raiseSem sig targetTy cat.sem
        some (Category.make (.complex target .forward (.complex target .backward arg)) sem)
      else none
    | typeShifting _ source target template =>
      if cat.syn = source then do
        let sem ← applySem sig (some template) cat.sem
        some (Category.make target sem)
      else none
  if result = cat then none else some result

end UnaryRule

namespace Rule

/-- The syntactic condition of a rule as a binary rule. -/
def applies : Rule → Syn → Syn → Bool
  | binary r, left, right => r.applies left right
  | unary _, _, _ => false

/-- The category of two adjacent categories joined by a rule. -/
def combine (sig : Signature) : Rule → Category → Category → Option Category
  | binary r, left, right => r.combine sig left right
  | unary _, _, _ => none

/-- What a rule makes of a single category. -/
def applyUnary (sig : Signature) : Rule → Category → Option Category
  | binary _, _ => none
  | unary r, cat => r.apply sig cat

end Rule

namespace RuleSet

/-- The results of all binary rules on two adjacent categories, in order of registration. -/
def binaryResults (sig : Signature) (rs : RuleSet) (left right : Category) :
    List (RuleId × Category) :=
  rs.toList.filterMap fun (id, r) => (r.combine sig left right).map fun c => (id, c)

/-- The results of all unary rules on a category, in order of registration. -/
def unaryResults (sig : Signature) (rs : RuleSet) (cat : Category) : List (RuleId × Category) :=
  rs.toList.filterMap fun (id, r) => (r.applyUnary sig cat).map fun c => (id, c)

end RuleSet

end Categorial
