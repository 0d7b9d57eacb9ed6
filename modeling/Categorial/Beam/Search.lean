import Categorial.Beam.State
import Categorial.Chart.Basic

/-!
# Beam search

The sentence is read from left to right. From a state the search can shift an entry that starts at
the cursor, apply a unary rule to the top of the stack, or join the two topmost items by a binary
rule. After every step the new states are merged if they are packed, ordered best first, and cut to
the width of the beam. Every action sequence is finite, so the beam runs empty.

* `Window.moves`: the legal actions of a state.
* `Beam.select`: merging, ordering and cutting.
* `Beam.parse`: the search in a window of the sentence.
-/

namespace Categorial

/-- A part of the sentence to be searched, and the entries available. -/
structure Window (σ : Type) extends Task σ where
  span : Span
  provider : Provider

/-- An action, what it leaves of the stack, and the new depth and cursor. -/
structure Move where
  action : Action
  below : List Item
  depth : Nat
  cursor : Nat
  depth_eq : depth = below.length + 1

namespace Window

variable {σ : Type}

/-- A window of a sentence. -/
def ofTask (t : Task σ) (span : Span) : Window σ :=
  { t with span, provider := t.grammar.provider t.lexicon }

/-- The greatest length of an entry that can be shifted at a position. -/
def maxShift (w : Window σ) (cursor : Nat) : Nat :=
  min w.provider.maxLength (w.span.stop - cursor)

/-- Shift the entries of a span that starts at the cursor. -/
def shiftsOver (w : Window σ) (s : State σ) (span : Span) : List Move :=
  (w.provider.lookup (span.tokens w.sentence)).map fun e =>
    ⟨Action.lookup span e, s.stack, s.depth + 1, span.stop, s.depth_add_one⟩

/-- Shift the entries that start at the cursor, shorter ones first. -/
def shifts (w : Window σ) (s : State σ) : List Move :=
  (List.range (w.maxShift s.cursor)).flatMap fun i =>
    w.shiftsOver s ⟨s.cursor, s.cursor + (i + 1)⟩

/-- Apply a unary rule to the top of the stack, unless one made it. -/
def unaryMoves (w : Window σ) (s : State σ) : List Move :=
  match s.stack, s.depth_eq with
  | top :: below, h =>
    if top.unaryApplied then []
    else (w.grammar.rules.unaryResults w.grammar.sig top.category).map fun (id, c) =>
      ⟨{ span := top.span, rule := id, category := c }, below, s.depth, s.cursor, h⟩
  | [], _ => []

/-- Join the two topmost items by a binary rule. -/
def binaryMoves (w : Window σ) (s : State σ) : List Move :=
  match s.stack, s.depth_eq with
  | top :: second :: below, h =>
    (w.grammar.rules.binaryResults w.grammar.sig second.category top.category).map fun (id, c) =>
      ⟨{ span := ⟨second.span.start, top.span.stop⟩, rule := id, category := c }, below,
        s.depth - 1, s.cursor, congrArg (· - 1) h⟩
  | _, _ => []

/-- Drop the moves whose action an earlier one has. -/
def dropSame : List Move → List Move
  | [] => []
  | m :: rest => m :: (dropSame rest).filter fun n => !m.action.same n.action

/-- The legal moves of a state: shifts, unary moves, binary moves. -/
def moves (w : Window σ) (s : State σ) : List Move :=
  dropSame (w.shifts s ++ w.unaryMoves s ++ w.binaryMoves s)

/-- A unary rule made the category of an action. -/
def madeByUnary (w : Window σ) (a : Action) : Bool :=
  !a.isLexical && (w.grammar.rules.get? a.rule).any Rule.isUnary

/-- The state a move leads to. -/
def apply [Score σ] (w : Window σ) (s : State σ) (m : Move) : State σ :=
  let own := w.score m.action
  let score := Score.add s.score own
  { stack := ⟨m.action.category, m.action.span, w.madeByUnary m.action⟩ :: m.below
    depth := m.depth
    cursor := m.cursor
    score
    histories := [⟨s, m.action, own, score⟩]
    parses := s.parses
    step := s.step + 1
    depth_eq := m.depth_eq }

/-- The state finishes a derivation of the window. Over the whole sentence a root category is asked
for, in a smaller window any category will do. -/
def isComplete (w : Window σ) (s : State σ) : Bool :=
  s.cursor == w.span.stop && s.depth == 1 &&
    match s.top? with
    | some top =>
      !(w.span.start == 0 && w.span.stop == w.sentence.length) ||
        w.grammar.isRoot top.category.syn
    | none => false

end Window

namespace Beam

variable {σ : Type}

/-- Merge a state into the first one with the same stack and cursor, or put it last. -/
def mergeInto [Score σ] (s : State σ) : List (State σ) → List (State σ)
  | [] => [s]
  | t :: rest => if t.sameSituation s then t.merge s :: rest else t :: mergeInto s rest

/-- Merge the states with the same stack and cursor, in order of arrival. -/
def mergeAll [Score σ] (l : List (State σ)) : List (State σ) :=
  l.foldl (fun acc s => mergeInto s acc) []

/-- The best states, best first: at most `width` of them. -/
def select [Score σ] (mode : Packing) (width : Nat) (candidates : List (State σ)) :
    List (State σ) :=
  let merged := match mode with
    | .packed => mergeAll candidates
    | .unpacked => candidates
  (merged.mergeSort fun s t => (s.rank t).isLE).take width

/-- The course of a search. -/
structure Run (σ : Type) where
  /-- The present beam, best first. -/
  beam : List (State σ)
  /-- All earlier beams, newest first. -/
  earlier : List (List (State σ)) := []
  /-- The completed states in the order they were met. -/
  completed : List (State σ) := []
  accepted : Nat := 0
  rejected : Nat := 0

/-- One step: expand every state of the beam and select among the new states. -/
def advance [Score σ] (w : Window σ) (mode : Packing) (width : Nat) (r : Run σ) : Run σ :=
  let proposed := r.beam.map fun s => (s, w.moves s)
  let candidates := proposed.flatMap fun (s, ms) =>
    (ms.filter fun (m : Move) => w.accept m.action).map (w.apply s)
  let next := select mode width candidates
  let proposals := (proposed.flatMap fun p => p.2).length
  { beam := next
    earlier := r.beam :: r.earlier
    completed := r.completed ++ next.filter w.isComplete
    accepted := r.accepted + candidates.length
    rejected := r.rejected + (proposals - candidates.length) }

/-- Take steps until the beam is empty, at most `fuel`. -/
def runFor [Score σ] (w : Window σ) (mode : Packing) (width : Nat) : (fuel : Nat) → Run σ → Run σ
  | 0, r => r
  | fuel + 1, r => if r.beam.isEmpty then r else runFor w mode width fuel (advance w mode width r)

/-- More steps than any sequence of actions in a window has: an unread token can be shifted, raised
and joined, and the result of joining can be raised again. -/
def maxSteps (span : Span) : Nat := 4 * span.length + 1

/-- The result of a search. -/
structure Parse (σ : Type) where
  sentence : List String
  window : Span
  /-- The completed states, best first. -/
  completed : List (State σ)
  /-- The beams in order, from the initial state to the last one, which is empty. -/
  beams : List (List (State σ))
  accepted : Nat
  rejected : Nat

/-- The part of a span that lies in the sentence. -/
def clip (n : Nat) (span : Span) : Span := ⟨min span.start n, min span.stop n⟩

/-- The width of a beam is at least one. -/
def widthOf (width : Nat) : Nat := max width 1

/-- Order completed states best first; of equal ones the first met stays first. -/
def byRank [Score σ] (l : List (State σ)) : List (State σ) :=
  l.mergeSort fun s t => (s.rank t).isLE

/-- Search a window of the sentence. -/
def parse [Score σ] (t : Task σ) (window : Span) (mode : Packing) (width : Nat) : Parse σ :=
  let span := clip t.sentence.length window
  let w := Window.ofTask t span
  let r := runFor w mode (widthOf width) (maxSteps span) { beam := [State.initial span.start] }
  { sentence := t.sentence
    window := span
    completed := byRank r.completed
    beams := (r.beam :: r.earlier).reverse
    accepted := r.accepted
    rejected := r.rejected }

/-- Search the whole sentence. -/
def parseAll [Score σ] (t : Task σ) (mode : Packing) (width : Nat) : Parse σ :=
  parse t ⟨0, t.sentence.length⟩ mode width

/-- Completed states with one category. -/
structure Reading (σ : Type) where
  category : Category
  /-- The places of the states among the completed ones, best first. -/
  places : List Nat
  /-- The best state. -/
  best : State σ
  parses : Nat

/-- Add a completed state to the reading of its category, or as a new reading. -/
def addReading (place : Nat) (s : State σ) (c : Category) : List (Reading σ) → List (Reading σ)
  | [] => [⟨c, [place], s, s.parses⟩]
  | r :: rest =>
    if r.category = c then
      { r with places := r.places ++ [place], parses := Count.add r.parses s.parses } :: rest
    else r :: addReading place s c rest

namespace Parse

/-- The number of steps taken. -/
def steps (p : Parse σ) : Nat := p.beams.length - 1

/-- The last beam that was not empty. -/
def lastBeam (p : Parse σ) : List (State σ) :=
  match p.beams.reverse.find? fun b => !b.isEmpty with
  | some b => b
  | none => []

/-- The best completed state. -/
def best? (p : Parse σ) : Option (State σ) := p.completed.head?

/-- The completed states by category, best first. -/
def readings (p : Parse σ) : List (Reading σ) :=
  p.completed.zipIdx.foldl
    (fun rs (s, i) =>
      match s.top? with
      | some top => addReading i s top.category rs
      | none => rs) []

/-- The number of derivations over all completed states. -/
def parses (p : Parse σ) : Nat := p.completed.foldl (fun n s => Count.add n s.parses) 0

/-- The derivation of the best history of a state. -/
def tree? (p : Parse σ) (rules : RuleSet) (s : State σ) : Option Derivation :=
  Derivation.replay p.sentence rules s.actions

end Parse

end Beam

end Categorial
