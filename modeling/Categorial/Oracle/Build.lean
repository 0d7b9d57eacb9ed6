import Categorial.Oracle.Basic

/-!
# Building oracles

A chart of the sentence is built over the actions that mention no constant outside the target. If a
root group means the target, its actions are gold. Otherwise the longest disjoint windows that mean
parts of the target may serve, or all actions that contribute to it.

* `Oracle.build`: the oracle of a sentence and a target.
-/

namespace Categorial

namespace Oracle

/-- How an oracle is built. -/
structure Options where
  /-- The number of groups kept in a cell of the chart. -/
  limit : Option Nat := none
  earlyUpdate : Bool := true
  discontiguous : Bool := false
deriving DecidableEq, Repr

/-- The meaning of a category without details. -/
def meaning? (g : Grammar) (c : Category) : Option Term := c.sem.map g.underspecify

/-- The action mentions no constant outside the list. -/
def mentionsOnly (g : Grammar) (names : List String) (a : Action) : Bool :=
  match meaning? g a.category with
  | some sem => sem.constantNames.all names.contains
  | none => true

/-- The meaning is absent or part of the target. -/
def related (g : Grammar) (target : Term) (c : Category) : Bool :=
  match meaning? g c with
  | some sem => target.contains sem
  | none => true

variable {σ : Type}

/-- The filter of the derivations of a group. -/
def exactFilter (target : Term) (group : Group σ) : GoldFilter where
  kind := .exact
  target := target
  category := some group.category
  window := group.span
  gold := group.actions
  parseTrees := group.parses

/-- The filter of the best root group that means the target. -/
def rootFilter? (g : Grammar) (c : Chart σ) (target : Term) : Option GoldFilter :=
  ((c.derivations g).find? fun d => meaning? g d.category == some target).map (exactFilter target)

/-- The best group of a cell whose meaning is part of the target, with that meaning. -/
def partOf? (g : Grammar) (target : Term) (groups : List (Group σ)) : Option (Group σ × Term) :=
  groups.findSome? fun d =>
    match meaning? g d.category with
    | some sem => if target.contains sem then some (d, sem) else none
    | none => none

/-- Longer spans first, then from left to right. -/
def windowOrder (s t : Span) : Ordering :=
  (compare t.length s.length).then (compare s.start t.start)

/-- Take candidates in turn, leaving out those that overlap one taken before. -/
def takeDisjoint : (taken : List Span) → List (Span × GoldFilter) → List GoldFilter
  | _, [] => []
  | taken, (span, f) :: rest =>
    if taken.any fun t => t.overlaps span then takeDisjoint taken rest
    else f :: takeDisjoint (taken ++ [span]) rest

/-- Filters of disjoint smaller windows that mean parts of the target, from left to right. -/
def windows (g : Grammar) (c : Chart σ) (target : Term) : List GoldFilter :=
  let candidates := c.cells.filterMap fun (span, groups) =>
    if span = c.full then none
    else (partOf? g target groups).map fun (d, sem) => (span, exactFilter sem d)
  let sorted := candidates.mergeSort fun a b => (windowOrder a.1 b.1).isLE
  (takeDisjoint [] sorted).mergeSort fun f f' => f.window.start ≤ f'.window.start

/-- The filter of all actions that contribute to the target. -/
def contributing (g : Grammar) (c : Chart σ) (target : Term) : GoldFilter where
  kind := .earlyUpdate
  target := target
  category := none
  window := c.full
  gold := c.allActions.filter fun a => related g target a.category
  parseTrees := 0

/-- The chart of the actions that mention no constant outside a target. -/
def targetChart [Score σ] (t : Task σ) (limit : Option Nat) (target : Term) : Chart σ :=
  let names := target.constants
  Chart.parse { t with accept := mentionsOnly t.grammar names } .packed limit

/-- The oracle of a sentence and a target. -/
def build [Score σ] (t : Task σ) (o : Options) (target : Term) : Oracle :=
  let g := t.grammar
  let target := g.underspecify target.normalize
  let c := targetChart t o.limit target
  match rootFilter? g c target with
  | some f => .exact f
  | none =>
    let parts := if o.discontiguous then windows g c target else []
    if !parts.isEmpty then .discontiguous parts
    else
      let f := contributing g c target
      if o.earlyUpdate && !f.gold.isEmpty then .earlyUpdate f else .unreachable

end Oracle

end Categorial
