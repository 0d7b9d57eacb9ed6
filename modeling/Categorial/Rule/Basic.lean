import Categorial.Category

/-!
# Combinatory rules

A binary rule joins two adjacent categories and a unary rule turns one category into another.
Rules are known by their place in the list of registered rules.

* `BinaryRule`, `UnaryRule`, `Rule`: the rules, their names and written forms.
* `RuleId`: what produced a step of a derivation: the lexicon or a registered rule.
* `RuleSet`: the registered rules in order.
-/

namespace Categorial

/-- A rule that joins two adjacent categories. -/
inductive BinaryRule where
  /-- `X/Y  Y  ⇒  X` -/
  | forwardApplication
  /-- `Y  X\Y  ⇒  X` -/
  | backwardApplication
  /-- `X/Y  Y/Z..  ⇒  X/Z..`, with at most `maxDegree` arguments `Z..` -/
  | forwardComposition (maxDegree : Nat)
  /-- `Y\Z..  X\Y  ⇒  X\Z..`, with at most `maxDegree` arguments `Z..` -/
  | backwardComposition (maxDegree : Nat)
  /-- `X  (R\X)/Z  ⇒  R/Z` -/
  | forwardTypeRaisedComposition
  /-- `EMPTY  X  ⇒  X` -/
  | forwardSkipping
  /-- `X  EMPTY  ⇒  X` -/
  | backwardSkipping
deriving DecidableEq, Repr

/-- A rule that turns one category into another. -/
inductive UnaryRule where
  /-- `X : a  ⇒  T/(T\X) : λf.f(a)`, where `T` has meanings of type `targetTy` -/
  | typeRaising (name : String) (arg target : Syn) (targetTy : Ty)
  /-- `source : a  ⇒  target : template(a)` -/
  | typeShifting (name : String) (source target : Syn) (template : Term)
deriving DecidableEq, Repr

/-- A combinatory rule. -/
inductive Rule where
  | binary (rule : BinaryRule)
  | unary (rule : UnaryRule)
deriving DecidableEq, Repr

namespace BinaryRule

/-- The name of a rule. -/
def name : BinaryRule → String
  | forwardApplication => "forward-application"
  | backwardApplication => "backward-application"
  | forwardComposition _ => "forward-composition"
  | backwardComposition _ => "backward-composition"
  | forwardTypeRaisedComposition => "forward-type-raised-composition"
  | forwardSkipping => "forward-skipping"
  | backwardSkipping => "backward-skipping"

/-- The rule with a given name; `maxDegree` bounds composition. -/
def ofName? (maxDegree : Nat) : String → Option BinaryRule
  | "forward-application" => some forwardApplication
  | "backward-application" => some backwardApplication
  | "forward-composition" => some (forwardComposition maxDegree)
  | "backward-composition" => some (backwardComposition maxDegree)
  | "forward-type-raised-composition" => some forwardTypeRaisedComposition
  | "forward-skipping" => some forwardSkipping
  | "backward-skipping" => some backwardSkipping
  | _ => none

/-- The rule joins a word with a skipped neighbour. -/
def isSkipping : BinaryRule → Bool
  | forwardSkipping | backwardSkipping => true
  | _ => false

/-- The written form: the name, for composition with its bound. -/
def text (r : BinaryRule) : String :=
  match r with
  | forwardComposition d | backwardComposition d => r.name ++ "[" ++ toString d ++ "]"
  | r => r.name

end BinaryRule

namespace UnaryRule

/-- The name of a rule. -/
def name : UnaryRule → String
  | typeRaising name _ _ _ => name
  | typeShifting name _ _ _ => name

/-- The written form: the name and the categories related. -/
def text : UnaryRule → String
  | typeRaising name arg target _ =>
    name ++ ": " ++ arg.text ++ " => " ++ target.text ++ "/(" ++ target.text ++ "\\" ++ arg.text ++ ")"
  | typeShifting name source target template =>
    name ++ ": " ++ source.text ++ " => " ++ target.text ++ " : " ++ template.text

end UnaryRule

namespace Rule

/-- The name of a rule. -/
def name : Rule → String
  | binary r => r.name
  | unary r => r.name

/-- The number of categories a rule takes. -/
def arity : Rule → Nat
  | binary _ => 2
  | unary _ => 1

/-- The rule takes one category. -/
def isUnary (r : Rule) : Bool := r.arity == 1

/-- The rule joins a word with a skipped neighbour. -/
def isSkipping : Rule → Bool
  | binary r => r.isSkipping
  | unary _ => false

/-- The written form. -/
def text : Rule → String
  | binary r => r.text
  | unary r => r.text

end Rule

/-- What produced a step: the lexicon, or a rule by its place among the registered ones. -/
inductive RuleId where
  | lexical
  | rule (index : Nat)
deriving DecidableEq, Repr, Inhabited

namespace RuleId

/-- The lexicon comes first, then the rules in order of registration. -/
def cmp : RuleId → RuleId → Ordering
  | lexical, lexical => .eq
  | lexical, rule _ => .lt
  | rule _, lexical => .gt
  | rule i, rule j => compare i j

/-- The written form. -/
def text : RuleId → String
  | lexical => "Lexical"
  | rule i => "Rule(" ++ toString i ++ ")"

end RuleId

/-- The registered rules in order. -/
structure RuleSet where
  rules : List Rule := []
deriving DecidableEq, Repr, Inhabited

namespace RuleSet

/-- Application, composition up to a degree, type-raised composition and skipping. -/
def standard (maxDegree : Nat) : RuleSet where
  rules := [.binary .forwardApplication, .binary .backwardApplication,
    .binary (.forwardComposition maxDegree), .binary (.backwardComposition maxDegree),
    .binary .forwardTypeRaisedComposition, .binary .forwardSkipping, .binary .backwardSkipping]

/-- The rule behind an id. -/
def get? (rs : RuleSet) : RuleId → Option Rule
  | .lexical => none
  | .rule i => rs.rules[i]?

/-- The name behind an id; the lexicon and unknown rules are called `lexical`. -/
def nameOf (rs : RuleSet) (id : RuleId) : String := ((rs.get? id).map Rule.name).getD "lexical"

/-- The rules with their ids. -/
def toList (rs : RuleSet) : List (RuleId × Rule) := rs.rules.zipIdx.map fun (r, i) => (.rule i, r)

/-- Some rule is unary. -/
def hasUnary (rs : RuleSet) : Bool := rs.rules.any Rule.isUnary

/-- The rule behind an id joins a word with a skipped neighbour. -/
def skips (rs : RuleSet) (id : RuleId) : Bool := (rs.get? id).any Rule.isSkipping

/-- The written form, one rule to a line. -/
def text (rs : RuleSet) : String :=
  String.join (rs.rules.zipIdx.map fun (r, i) => toString i ++ ": " ++ r.text ++ "\n")

end RuleSet

end Categorial
