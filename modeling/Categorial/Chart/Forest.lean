import Categorial.Count
import Categorial.Derivation
import Categorial.Score
import Std.Data.HashSet

/-!
# Packed forests

A group stands for all derivations of one category over one span. Each of its steps says how the
category was built: looked up, joined from two groups, or turned from another category of the same
span by a unary rule. A unary step builds on a group as it stood before any unary step was added, so
no derivation has one unary rule directly above another, and every chain of children ends.

* `Step`, `Group`: the forest.
* `Group.trees`: all derivations of a group; `Group.parses` is their number, up to the cap.
* `Group.bestTree?`: the derivation that gave the group its score; `Group.bestActions`: its actions.
* `Group.actions`: the actions of all derivations of a group.
-/

namespace Categorial

/-- Whether equivalent partial derivations are merged. -/
inductive Packing where
  | packed
  | unpacked
deriving DecidableEq, Repr, Inhabited

/-- One way of building the category of a group from groups of type `γ`. -/
inductive Step (σ γ : Type) where
  | lexical (action : Action) (score : σ)
  | binary (action : Action) (ownScore score : σ) (left right : γ)
  | unary (action : Action) (ownScore score : σ) (child : γ)

namespace Step

variable {σ γ : Type}

/-- The action of a step. -/
def action : Step σ γ → Action
  | lexical a _ => a
  | binary a _ _ _ _ => a
  | unary a _ _ _ => a

/-- The score of the action alone. -/
def ownScore : Step σ γ → σ
  | lexical _ s => s
  | binary _ s _ _ _ => s
  | unary _ s _ _ => s

/-- The score of the action together with the best scores of the children. -/
def score : Step σ γ → σ
  | lexical _ s => s
  | binary _ _ s _ _ => s
  | unary _ _ s _ => s

/-- The step applies a unary rule. -/
def isUnary : Step σ γ → Bool
  | unary _ _ _ _ => true
  | _ => false

/-- The groups a step builds on. -/
def children : Step σ γ → List γ
  | lexical _ _ => []
  | binary _ _ _ l r => [l, r]
  | unary _ _ _ c => [c]

end Step

/-- A step singled out in its group: its place, its score and its rule. -/
structure Pick (σ : Type) where
  index : Nat
  score : σ
  rule : RuleId

/-- All the ways a category was built over a span. -/
structure Group (σ : Type) where
  /-- The number of groups made before this one. -/
  id : Nat
  span : Span
  category : Category
  /-- The steps, oldest first. -/
  steps : List (Step σ (Group σ))
  /-- The step with the highest score; of equal ones that of the earliest registered rule. -/
  best : Pick σ
  /-- The first step with the highest score among those that are not unary. -/
  base : Option (Pick σ)
  /-- The number of derivations, up to the cap. -/
  parses : Nat

namespace Step

variable {σ : Type}

/-- The number of derivations that end with a step. -/
def parses : Step σ (Group σ) → Nat
  | lexical _ _ => 1
  | binary _ _ _ l r => Count.mul (Count.mul 1 l.parses) r.parses
  | unary _ _ _ c => Count.mul 1 c.parses

/-- The two steps apply the same rule to the same groups. -/
def sameBuild (s t : Step σ (Group σ)) : Bool :=
  s.children.map Group.id == t.children.map Group.id && s.action.same t.action

end Step

namespace Group

variable {σ : Type}

/-! ## Adding steps -/

/-- The group of a single step. -/
def single (id : Nat) (span : Span) (s : Step σ (Group σ)) : Group σ :=
  let pick : Pick σ := ⟨0, s.score, s.action.rule⟩
  { id, span, category := s.action.category, steps := [s], best := pick
    base := if s.isUnary then none else some pick
    parses := s.parses }

/-- The better of a group's pick and a new step; a tie goes to the earlier registered rule, then to
the older step. -/
def betterPick [Score σ] (old : Pick σ) (new : Pick σ) : Pick σ :=
  if ((Score.byDesc new.score old.score).then (new.rule.cmp old.rule)).isLT then new else old

/-- The better of a group's pick among the steps that are not unary and a new step. -/
def betterBase [Score σ] (old : Option (Pick σ)) (s : Step σ (Group σ)) (new : Pick σ) :
    Option (Pick σ) :=
  if s.isUnary then old
  else match old with
    | none => some new
    | some p => if Score.exceeds new.score p.score then some new else old

/-- Add a step unless the group has one that applies the same rule to the same groups. -/
def push [Score σ] (g : Group σ) (s : Step σ (Group σ)) : Group σ :=
  if g.steps.any s.sameBuild then g
  else
    let new : Pick σ := ⟨g.steps.length, s.score, s.action.rule⟩
    { g with
      steps := g.steps ++ [s]
      best := betterPick g.best new
      base := betterBase g.base s new
      parses := Count.add g.parses s.parses }

/-! ## Derivations -/

mutual

/-- All derivations of a group. -/
def trees (sentence : List String) : Group σ → List Derivation
  | ⟨_, _, _, steps, _, _, _⟩ => treesOfSteps sentence steps

/-- All derivations that end with one of the steps. -/
def treesOfSteps (sentence : List String) : List (Step σ (Group σ)) → List Derivation
  | [] => []
  | s :: rest => treesOfStep sentence s ++ treesOfSteps sentence rest

/-- All derivations that end with a step; the left part varies fastest. -/
def treesOfStep (sentence : List String) : Step σ (Group σ) → List Derivation
  | .lexical a _ => [.leaf a (a.span.tokens sentence)]
  | .binary a _ _ l r =>
    let lefts := trees sentence l
    (trees sentence r).flatMap fun right => lefts.map fun left => .binary a left right
  | .unary a _ _ c => (trees sentence c).map fun d => .unary a d

end

mutual

/-- The best derivation of a group, or of its steps that are not unary. -/
def bestTreeOf? (sentence : List String) (baseOnly : Bool) : Group σ → Option Derivation
  | ⟨_, _, _, steps, best, base, _⟩ =>
    if baseOnly then
      match base with
      | some p => bestTreeAt? sentence p.index steps
      | none => none
    else bestTreeAt? sentence best.index steps

/-- The best derivation that ends with the step at a place. -/
def bestTreeAt? (sentence : List String) : Nat → List (Step σ (Group σ)) → Option Derivation
  | _, [] => none
  | 0, s :: _ => bestTreeOfStep? sentence s
  | n + 1, _ :: rest => bestTreeAt? sentence n rest

/-- The best derivation that ends with a step. -/
def bestTreeOfStep? (sentence : List String) : Step σ (Group σ) → Option Derivation
  | .lexical a _ => some (.leaf a (a.span.tokens sentence))
  | .binary a _ _ l r => do
    let left ← bestTreeOf? sentence false l
    let right ← bestTreeOf? sentence false r
    some (.binary a left right)
  | .unary a _ _ c => do
    let d ← bestTreeOf? sentence true c
    some (.unary a d)

end

/-- The derivation that gave a group its score. -/
def bestTree? (sentence : List String) (g : Group σ) : Option Derivation :=
  g.bestTreeOf? sentence false

mutual

/-- The actions of the best derivation of a group, or of its steps that are not unary, children
before parents. -/
def bestActionsOf (baseOnly : Bool) : Group σ → List Action
  | ⟨_, _, _, steps, best, base, _⟩ =>
    if baseOnly then
      match base with
      | some p => bestActionsAt p.index steps
      | none => []
    else bestActionsAt best.index steps

/-- The actions of the best derivation that ends with the step at a place. -/
def bestActionsAt : Nat → List (Step σ (Group σ)) → List Action
  | _, [] => []
  | 0, s :: _ => bestActionsOfStep s
  | n + 1, _ :: rest => bestActionsAt n rest

/-- The actions of the best derivation that ends with a step. -/
def bestActionsOfStep : Step σ (Group σ) → List Action
  | .lexical a _ => [a]
  | .binary a _ _ l r => bestActionsOf false l ++ bestActionsOf false r ++ [a]
  | .unary a _ _ c => bestActionsOf true c ++ [a]

end

/-- The actions of the best derivation, children before parents. -/
def bestActions (g : Group σ) : List Action := g.bestActionsOf false

/-! ## Actions below a group -/

/-- Actions met so far, newest first, and the groups already gone through; the flag tells a group
from what it was before its unary steps. -/
structure Harvest where
  actions : List Action := []
  visited : Std.HashSet (Nat × Bool) := {}

mutual

/-- Gather the actions of a group that was not gone through before. -/
def harvest (baseOnly : Bool) : Group σ → Harvest → Harvest
  | ⟨id, _, _, steps, _, _, _⟩, h =>
    if h.visited.contains (id, baseOnly) then h
    else harvestSteps steps { h with visited := h.visited.insert (id, baseOnly) }

/-- Gather the actions of steps and of the groups they build on. -/
def harvestSteps : List (Step σ (Group σ)) → Harvest → Harvest
  | [], h => h
  | s :: rest, h => harvestSteps rest (harvestStep s h)

/-- Gather the action of a step and those of the groups it builds on. -/
def harvestStep : Step σ (Group σ) → Harvest → Harvest
  | .lexical a _, h => { h with actions := a :: h.actions }
  | .binary a _ _ l r, h => harvest false r (harvest false l { h with actions := a :: h.actions })
  | .unary a _ _ c, h => harvest true c { h with actions := a :: h.actions }

end

/-- The actions of all derivations of a group. -/
def actions (g : Group σ) : ActionSet := ActionSet.ofList (g.harvest false {}).actions.reverse

end Group

end Categorial
