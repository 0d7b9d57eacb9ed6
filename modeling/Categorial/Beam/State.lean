import Categorial.Count
import Categorial.Derivation
import Categorial.Score

/-!
# States of the beam search

A state of the left-to-right search has a stack of categories over adjacent spans and a cursor, the
position of the next unread token. It remembers every way it was reached; states with equal stacks
and cursors can be merged into one that has the histories of both.

* `State`: the states, with `State.initial`.
* `State.actions`: the actions of the best way to reach a state.
* `State.merge`: two states with the same stack and cursor as one.
-/

namespace Categorial

/-- A category over a span, on the stack of a state. -/
structure Item where
  category : Category
  span : Span
  /-- A unary rule made this category; no other is applied to it directly. -/
  unaryApplied : Bool := false
deriving DecidableEq, Repr, Inhabited

/-- One way to reach a state: a state of type `γ` before it and the action taken there. -/
structure History (σ γ : Type) where
  prev : γ
  action : Action
  ownScore : σ
  /-- The score of the state before and of the action together. -/
  score : σ

/-- A state of the search. -/
structure State (σ : Type) where
  /-- The stack, top first. -/
  stack : List Item
  /-- The number of items on the stack, counted as they come and go. -/
  depth : Nat
  /-- The position of the next unread token. -/
  cursor : Nat
  /-- The best score over all histories. -/
  score : σ
  /-- The ways to reach the state, best first; none for the initial state. -/
  histories : List (History σ (State σ))
  /-- The number of sequences of actions that lead to the state, up to the cap. -/
  parses : Nat
  /-- The number of actions taken. -/
  step : Nat
  depth_eq : depth = stack.length

namespace State

variable {σ : Type}

/-- The state before any action. -/
def initial [Score σ] (cursor : Nat) : State σ :=
  { stack := [], depth := 0, cursor, score := Score.zero, histories := [], parses := 1, step := 0
    depth_eq := rfl }

/-- One more item makes the stack one higher. -/
theorem depth_add_one (s : State σ) : s.depth + 1 = s.stack.length + 1 := congrArg (· + 1) s.depth_eq

/-- The item on top of the stack. -/
def top? (s : State σ) : Option Item := s.stack.head?

/-- The actions of the best history, last one first. -/
def actionsRev : State σ → List Action
  | ⟨_, _, _, _, ⟨prev, a, _, _⟩ :: _, _, _, _⟩ => a :: actionsRev prev
  | ⟨_, _, _, _, [], _, _, _⟩ => []

/-- The actions of the best history, in order. -/
def actions (s : State σ) : List Action := s.actionsRev.reverse

/-- The action that led to the state in its best history. -/
def lastAction? (s : State σ) : Option Action := s.histories.head?.map (·.action)

/-- The same items, tested by spans first. -/
def sameStack : List Item → List Item → Bool
  | [], [] => true
  | a :: as, b :: bs =>
    a.span == b.span && a.unaryApplied == b.unaryApplied && a.category == b.category &&
      sameStack as bs
  | _, _ => false

/-- The same stack and cursor. -/
def sameSituation (s t : State σ) : Bool := s.cursor == t.cursor && sameStack s.stack t.stack

section Order

variable [Score σ]

/-- Best score first, then the rule in order of registration. -/
def historyOrder (h k : History σ (State σ)) : Ordering :=
  (Score.byDesc h.score k.score).then (h.action.rule.cmp k.action.rule)

/-- Insert a history behind those it does not precede. -/
def insertHistory (h : History σ (State σ)) :
    List (History σ (State σ)) → List (History σ (State σ))
  | [] => [h]
  | k :: rest =>
    if (historyOrder h k).isLT then h :: k :: rest else k :: insertHistory h rest

/-- The rule and the category of the last action of the best history. -/
def lastOrder : (h k : List (History σ (State σ))) → Ordering
  | h :: _, k :: _ =>
    (h.action.rule.cmp k.action.rule).then (h.action.category.cmp k.action.category)
  | [], [] => .eq
  | [], _ :: _ => .lt
  | _ :: _, [] => .gt

/-- Best score first, then rule and category of the last action. -/
def rank (s t : State σ) : Ordering :=
  (Score.byDesc s.score t.score).then (lastOrder s.histories t.histories)

/-- A state together with the ways to reach another one with the same stack and cursor. -/
def merge (s t : State σ) : State σ :=
  { s with
    parses := Count.add s.parses t.parses
    score := Score.max s.score t.score
    histories := t.histories.foldl (fun hs h => insertHistory h hs) s.histories }

end Order

end State

end Categorial
