import Categorial.Beam.Search

/-!
# Violations

An unpacked search runs beside a gold sequence of actions. The gold is violated where it falls out of
the beam, or where it survives and another derivation ranks higher.

* `Beam.findViolation`: the first violation of a gold sequence.
* `TrainError`: why training stops.
-/

namespace Categorial

/-- Why training stops. -/
inductive TrainError where
  | goldOutsideWindow (action : Action) (window : Span)
  | goldIllegal (action : Action) (step : Nat)
  | goldNeverCompleted (length : Nat)
  | unequalLengths (index gold predicted : Nat)
  | filtersMismatch (stored examples : Nat)
  | goldMismatch (stored examples : Nat)
  /-- The search asks for tokens behind the end of the sentence. -/
  | pastEnd (stop length : Nat)
deriving DecidableEq, Repr

namespace TrainError

/-- The cause in words. -/
def reason : TrainError → String
  | goldOutsideWindow a w => "gold op " ++ a.text ++ " lies outside window " ++ w.text
  | goldIllegal a step =>
    "gold op " ++ a.text ++ " at step " ++ toString step ++ " is not a legal action"
  | goldNeverCompleted n =>
    "gold derivation of " ++ toString n ++ " ops survived but never completed"
  | unequalLengths i g p =>
    "example " ++ toString i ++ ": gold prefix of " ++ toString g ++ " ops compared against " ++
      toString p ++ " predicted ops"
  | filtersMismatch s n => toString s ++ " stored filters for " ++ toString n ++ " examples"
  | goldMismatch s n => toString s ++ " stored gold derivations for " ++ toString n ++ " examples"
  | pastEnd stop n => "tokens up to " ++ toString stop ++ " asked for, of " ++ toString n

/-- The wording of a failure. -/
def message (e : TrainError) : String := "internal invariant violated: " ++ e.reason

end TrainError

/-- Where a gold sequence loses. -/
structure Violation where
  /-- The number of actions of the compared part of the gold sequence. -/
  failAt : Nat
  /-- The gold fell out of the beam or was only a beginning; both sequences are then equally long. -/
  pruned : Bool
  gold : List Action
  predicted : List Action
deriving DecidableEq, Repr

namespace Beam

variable {σ : Type} [Score σ]

/-- A state of the beam; the mark tells the one that follows the gold sequence. -/
structure Marked (σ : Type) where
  state : State σ
  isGold : Bool

/-- The order of `State.rank` on marked states. -/
def Marked.rank (s t : Marked σ) : Ordering := s.state.rank t.state

/-- The end of the longest span of tokens that a state asks for, if that is behind the end of the
sentence. -/
def overrun? (w : Window σ) (s : State σ) : Option Nat :=
  let n := w.maxShift s.cursor
  if 0 < n && w.sentence.length < s.cursor + n then some (s.cursor + n) else none

/-- The successors of a marked state. The one that takes the gold action is marked. -/
def markedMoves (w : Window σ) (gold : Option Action) (m : Marked σ) : List (Marked σ) :=
  (w.moves m.state).map fun mv =>
    ⟨w.apply m.state mv, m.isGold && gold.any fun a => a.same mv.action⟩

/-- The first violation of a gold sequence that survived to the end. -/
def finalViolation (gold : List Action) (completed : List (State σ)) :
    Except TrainError (Option Violation) :=
  match byRank completed with
  | [] => .error (.goldNeverCompleted gold.length)
  | best :: _ =>
    let predicted := best.actions
    if sameActions predicted gold then .ok none
    else .ok (some ⟨gold.length, false, gold, predicted⟩)

/-- Search on with a marked beam. `rest` is what is left of the gold sequence; `step` counts the
steps taken. -/
def followGold (w : Window σ) (width : Nat) (gold : List Action) (complete : Bool) :
    (fuel step : Nat) → (rest : List Action) → (beam : List (Marked σ)) →
    (completed : List (State σ)) → Except TrainError (Option Violation)
  | 0, _, _, _, completed => finalViolation gold completed
  | fuel + 1, step, rest, beam, completed =>
    if beam.isEmpty then finalViolation gold completed
    else match beam.findSome? fun m => overrun? w m.state with
    | some stop => .error (.pastEnd stop w.sentence.length)
    | none =>
      let candidates := beam.flatMap (markedMoves w rest.head?)
      let next := (candidates.mergeSort fun s t => (s.rank t).isLE).take width
      let completed := completed ++ (next.map Marked.state).filter w.isComplete
      match rest with
      | [] => followGold w width gold complete fuel (step + 1) [] next completed
      | a :: rest =>
        if !candidates.any Marked.isGold then .error (.goldIllegal a (step + 1))
        else match next with
        | [] => finalViolation gold completed
        | first :: _ =>
          if !next.any Marked.isGold then
            .ok (some ⟨step + 1, true, gold.take (step + 1), first.state.actions⟩)
          else if rest.isEmpty && !complete then
            if first.isGold then .ok none
            else .ok (some ⟨step + 1, true, gold, first.state.actions⟩)
          else followGold w width gold complete fuel (step + 1) rest next completed

/-- The first violation of a gold sequence in an unpacked search of a window. `complete` tells
whether the gold is a whole derivation or only the beginning of one. -/
def findViolation (t : Task σ) (window : Span) (width : Nat) (gold : List Action)
    (complete : Bool) : Except TrainError (Option Violation) :=
  if gold.isEmpty then .ok none
  else match gold.find? fun a => !window.contains a.span with
  | some a => .error (.goldOutsideWindow a window)
  | none =>
    let w := Window.ofTask { t with accept := fun _ => true } window
    followGold w (widthOf width) gold complete (maxSteps window) 0 gold
      [⟨State.initial window.start, true⟩] []

end Beam

end Categorial
