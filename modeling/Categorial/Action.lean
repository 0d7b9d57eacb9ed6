import Categorial.Lexicon
import Categorial.Rule.Basic
import Categorial.Span

/-!
# Parsing actions

An action is one step of a derivation: a lexical look-up or a rule that gave a category over a span.
Two actions are the same if span, rule and category are; the lexical entry is carried along for
scoring only.

* `Action`, with its identity (`==`) and its order `Action.cmp`.
* `ActionSet`: sets of actions as increasing lists; of equal actions the first one stays.
-/

namespace Categorial

/-- One step of a derivation. -/
structure Action where
  span : Span
  rule : RuleId
  category : Category
  entry : Option Entry := none
deriving DecidableEq, Repr, Inhabited

namespace Action

/-- The look-up of an entry over a span. -/
def lookup (span : Span) (e : Entry) : Action := ⟨span, .lexical, e.category, some e⟩

/-- The step was made by the lexicon. -/
def isLexical (a : Action) : Bool := a.rule == .lexical

/-- By span, rule and category. -/
def cmp (a b : Action) : Ordering :=
  ((a.span.cmp b.span).then (a.rule.cmp b.rule)).then (a.category.cmp b.category)

/-- Same span, rule and category. -/
def same (a b : Action) : Bool :=
  a.span == b.span && a.rule == b.rule && a.category == b.category

/-- The written form, without the entry. -/
def text (a : Action) : String := a.span.text ++ " " ++ a.rule.text ++ ": " ++ a.category.text

end Action

/-- The same actions in the same order. -/
def sameActions : List Action → List Action → Bool
  | [], [] => true
  | a :: as, b :: bs => a.same b && sameActions as bs
  | _, _ => false

/-- A set of actions, in increasing order. -/
abbrev ActionSet := List Action

namespace ActionSet

/-- Drop an action that is the same as the one before it. -/
def dropRepeats : List Action → List Action
  | a :: b :: rest => if a.same b then dropRepeats (a :: rest) else a :: dropRepeats (b :: rest)
  | rest => rest
termination_by l => l.length

/-- The set of a list of actions; of several that are the same the first one stays. -/
def ofList (l : List Action) : ActionSet :=
  dropRepeats (l.mergeSort fun a b => (a.cmp b).isLE)

/-- An action that is the same as `a` is in the set. -/
def has (s : ActionSet) (a : Action) : Bool := s.any a.same

end ActionSet

end Categorial
