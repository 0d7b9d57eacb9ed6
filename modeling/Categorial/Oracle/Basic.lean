import Categorial.Beam.Search

/-!
# Gold filters and oracles

A gold filter allows the actions of one set within a window of the sentence. An oracle says what could
be found for a target meaning: a filter for its exact derivations, a filter for actions that contribute
to it, filters for parts of the sentence that mean parts of it, or nothing.

* `GoldFilter.accept`, `GoldFilter.observe`: the filter, and what it keeps of the beams it is shown.
* `Oracle`: the findings.
-/

namespace Categorial

/-- What the actions of a gold filter are. -/
inductive FilterKind where
  /-- The actions of derivations that mean exactly the target. -/
  | exact
  /-- Actions whose meaning is absent or part of the target. -/
  | earlyUpdate
deriving DecidableEq, Repr, Inhabited

/-- The name of a kind. -/
def FilterKind.text : FilterKind → String
  | exact => "exact"
  | earlyUpdate => "early-update"

/-- A set of gold actions in a window, and what the last search under it showed. -/
structure GoldFilter where
  kind : FilterKind
  target : Term
  /-- The category that means the target, for exact filters. -/
  category : Option Category
  window : Span
  gold : ActionSet
  /-- The number of derivations of the target. -/
  parseTrees : Nat
  /-- The last step at which the beam was not empty. -/
  cursor : Nat := 0
  /-- The action sequences of the last beam that was not empty, best first. -/
  earlyStates : List (List Action) := []
deriving DecidableEq, Repr, Inhabited

namespace GoldFilter

/-- The action lies in the window and is gold. -/
def accept (f : GoldFilter) (a : Action) : Bool := f.window.contains a.span && f.gold.has a

/-- Forget what the last search showed. -/
def reset (f : GoldFilter) : GoldFilter := { f with cursor := 0, earlyStates := [] }

/-- Look at a beam after a step; an empty one changes nothing. -/
def observeBeam {σ : Type} (f : GoldFilter) (step : Nat) (beam : List (State σ)) : GoldFilter :=
  if beam.isEmpty then f else { f with cursor := step, earlyStates := beam.map State.actions }

/-- Look at the beams of a search in order. -/
def observe {σ : Type} (f : GoldFilter) (beams : List (List (State σ))) : GoldFilter :=
  beams.zipIdx.foldl (fun f (beam, step) => f.observeBeam step beam) f

/-- The category means the target. -/
def isMet (f : GoldFilter) (g : Grammar) (c : Category) : Bool :=
  match c.sem with
  | some sem => g.underspecify sem == f.target
  | none => false

/-- Search the window under the filter; the filter keeps what it was shown. -/
def search {σ : Type} [Score σ] (f : GoldFilter) (t : Task σ) (mode : Packing) (width : Nat) :
    Beam.Parse σ × GoldFilter :=
  let p := Beam.parse { t with accept := f.accept } f.window mode width
  (p, f.observe p.beams)

end GoldFilter

/-- What was found for a sentence and a target. -/
inductive Oracle where
  | exact (filter : GoldFilter)
  | earlyUpdate (filter : GoldFilter)
  | discontiguous (filters : List GoldFilter)
  | unreachable
deriving DecidableEq, Repr, Inhabited

namespace Oracle

/-- Something was found. -/
def isReachable : Oracle → Bool
  | unreachable => false
  | _ => true

/-- The filters, in order. -/
def filters : Oracle → List GoldFilter
  | exact f => [f]
  | earlyUpdate f => [f]
  | discontiguous fs => fs
  | unreachable => []

/-- Replace every filter by `h` of it. -/
def mapFilters (h : GoldFilter → GoldFilter) : Oracle → Oracle
  | exact f => exact (h f)
  | earlyUpdate f => earlyUpdate (h f)
  | discontiguous fs => discontiguous (fs.map h)
  | unreachable => unreachable

/-- Forget what the last searches showed. -/
def reset (o : Oracle) : Oracle := o.mapFilters GoldFilter.reset

/-- The name of the finding. -/
def kind : Oracle → String
  | exact _ => "exact"
  | earlyUpdate _ => "early-update"
  | discontiguous _ => "discontiguous"
  | unreachable => "unreachable"

end Oracle

end Categorial
