import Categorial.Action
import Categorial.Text.Blank

/-!
# Derivations

A derivation is a tree of actions: look-ups at the leaves, unary and binary rules above them. It is
determined by its actions in bottom-up order, from which it can be rebuilt with a stack.

* `Derivation.actions`: the actions, children before parents.
* `Derivation.replay`: the derivation with given actions.
* `Derivation.text`: the written form, an indented tree.
-/

namespace Categorial

/-- A tree of actions over the words of a sentence. -/
inductive Derivation where
  | leaf (action : Action) (words : List String)
  | unary (action : Action) (child : Derivation)
  | binary (action : Action) (left right : Derivation)
deriving DecidableEq, Repr, Inhabited

namespace Derivation

/-- The action at the root. -/
def action : Derivation → Action
  | leaf a _ => a
  | unary a _ => a
  | binary a _ _ => a

/-- The category derived. -/
def category (d : Derivation) : Category := d.action.category

/-- The span covered. -/
def span (d : Derivation) : Span := d.action.span

/-- The words, left to right. -/
def words : Derivation → List String
  | leaf _ ws => ws
  | unary _ d => d.words
  | binary _ l r => l.words ++ r.words

/-- The actions, children before parents. -/
def actions : Derivation → List Action
  | leaf a _ => [a]
  | unary a d => d.actions ++ [a]
  | binary a l r => l.actions ++ r.actions ++ [a]

/-- The words of a span, if the sentence has them all. -/
def wordsOf? (sentence : List String) (span : Span) : Option (List String) :=
  if span.isEmpty || span.stop ≤ sentence.length then some (span.tokens sentence) else none

/-- One action on a stack of derivations, top first. -/
def replayStep (sentence : List String) (rules : RuleSet) (stack : List Derivation) (a : Action) :
    Option (List Derivation) :=
  match a.rule with
  | .lexical => (wordsOf? sentence a.span).map fun ws => leaf a ws :: stack
  | id =>
    match rules.get? id, stack with
    | some (.unary _), d :: stack => some (unary a d :: stack)
    | some (.binary _), r :: l :: stack => some (binary a l r :: stack)
    | _, _ => none

/-- The stack left by a sequence of actions. -/
def replayAll (sentence : List String) (rules : RuleSet) (actions : List Action) :
    Option (List Derivation) :=
  actions.foldlM (replayStep sentence rules) []

/-- The derivation with the given actions in bottom-up order, if they form exactly one. -/
def replay (sentence : List String) (rules : RuleSet) (actions : List Action) : Option Derivation :=
  match replayAll sentence rules actions with
  | some [d] => some d
  | _ => none

/-- A node and its rendered children: one child follows on the line, several are indented below. -/
def renderNode (head : String) : (children : List String) → String
  | [child] => "(" ++ head ++ " (" ++ child ++ "))"
  | children =>
    "(" ++ head ++
      String.join (children.map fun c => String.join ((Text.lines c).map ("\n  " ++ ·))) ++ ")"

/-- The rendered words of a look-up. -/
def renderWords (word : String → String) (start : Nat) (ws : List String) : List String :=
  ws.zipIdx.map fun (w, i) => (Span.mk (start + i) (start + i + 1)).text ++ ": " ++ word w

/-- Render a tree with given texts for categories and words. -/
def render (label : Category → String) (word : String → String) : Derivation → String
  | leaf a ws =>
    renderNode (a.span.text ++ ": " ++ label a.category) (renderWords word a.span.start ws)
  | unary a d => renderNode (a.span.text ++ ": " ++ label a.category) [d.render label word]
  | binary a l r =>
    renderNode (a.span.text ++ ": " ++ label a.category) [l.render label word, r.render label word]

/-- The written form. -/
def text (d : Derivation) : String := d.render Category.text id

/-- The outline: syntactic categories over the lengths of words. -/
def outline (d : Derivation) : String := d.render (fun c => c.syn.text) fun w => toString w.length

end Derivation

end Categorial
