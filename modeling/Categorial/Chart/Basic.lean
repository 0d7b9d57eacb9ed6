import Categorial.Chart.Forest
import Categorial.Grammar

/-!
# Charts

A chart gives every span of a sentence the groups that were built over it, shorter spans first. A
cell gathers the steps of its lexical entries, then those of the binary rules on all splits, and
last those of the unary rules on the groups built so far. The groups of a finished cell are ordered
best first, and a limit keeps the best ones.

* `Chart.parse`: the chart of a sentence under a score and a filter.
* `Chart.derivations`: the groups over the whole sentence with a root category.
-/

namespace Categorial

/-- What a parser is given: the grammar, the lexicon, the sentence, the score of an action and the
actions that are allowed. -/
structure Task (σ : Type) where
  grammar : Grammar
  lexicon : Lexicon
  sentence : List String
  score : Action → σ
  /-- The actions that a filter lets through. A filter decides by the action alone, as all filters
  here do: what it was asked or shown before makes no difference. -/
  accept : Action → Bool := fun _ => true

/-- A cell being filled, and how many actions were accepted and rejected so far. -/
structure Draft (σ : Type) where
  span : Span
  /-- The number of groups made for earlier cells. -/
  firstId : Nat
  /-- The groups, oldest first. -/
  groups : List (Group σ) := []
  accepted : Nat := 0
  rejected : Nat := 0

namespace Draft

variable {σ : Type} [Score σ]

/-- Add a step to the group of its category, or as a new group. -/
def insertPacked (id : Nat) (span : Span) (s : Step σ (Group σ)) : List (Group σ) → List (Group σ)
  | [] => [.single id span s]
  | g :: rest =>
    if g.category = s.action.category then g.push s :: rest
    else g :: insertPacked id span s rest

/-- Add a step; without packing every step is a group of its own. -/
def insert (mode : Packing) (d : Draft σ) (s : Step σ (Group σ)) : Draft σ :=
  let id := d.firstId + d.groups.length
  match mode with
  | .packed => { d with groups := insertPacked id d.span s d.groups }
  | .unpacked => { d with groups := d.groups ++ [.single id d.span s] }

/-- Add the step of an action if the action is allowed. -/
def propose (t : Task σ) (mode : Packing) (d : Draft σ) (a : Action)
    (step : (own : σ) → Step σ (Group σ)) : Draft σ :=
  if t.accept a then
    { d.insert mode (step (t.score a)) with accepted := d.accepted + 1 }
  else { d with rejected := d.rejected + 1 }

/-- Propose the lexical entries of the span. -/
def lexicalPass (t : Task σ) (p : Provider) (mode : Packing) (d : Draft σ) : Draft σ :=
  if d.span.length ≤ p.maxLength then
    (p.lookup (d.span.tokens t.sentence)).foldl
      (fun d e =>
        let a := Action.lookup d.span e
        d.propose t mode a fun own => .lexical a own) d
  else d

/-- Propose what the binary rules make of two groups. -/
def joinPair (t : Task σ) (mode : Packing) (d : Draft σ) (l r : Group σ) : Draft σ :=
  let both := Score.add l.best.score r.best.score
  (t.grammar.rules.binaryResults t.grammar.sig l.category r.category).foldl
    (fun d (id, c) =>
      let a : Action := { span := d.span, rule := id, category := c }
      d.propose t mode a fun own => .binary a own (Score.add own both) l r) d

/-- Propose what the binary rules make of the groups of two cells. -/
def joinCells (t : Task σ) (mode : Packing) (d : Draft σ) (ls rs : List (Group σ)) : Draft σ :=
  ls.foldl (fun d l => rs.foldl (fun d r => d.joinPair t mode l r) d) d

/-- Propose what the binary rules make of every split of the span. -/
def binaryPass (t : Task σ) (mode : Packing) (cell : Span → List (Group σ)) (d : Draft σ) :
    Draft σ :=
  (List.range (d.span.length - 1)).foldl
    (fun d i =>
      let split := d.span.start + 1 + i
      d.joinCells t mode (cell ⟨d.span.start, split⟩) (cell ⟨split, d.span.stop⟩)) d

/-- Propose what the unary rules make of the groups built so far. -/
def unaryPass (t : Task σ) (mode : Packing) (d : Draft σ) : Draft σ :=
  d.groups.foldl
    (fun d g =>
      match g.base with
      | some base =>
        (t.grammar.rules.unaryResults t.grammar.sig g.category).foldl
          (fun d (id, c) =>
            let a : Action := { span := d.span, rule := id, category := c }
            d.propose t mode a fun own => .unary a own (Score.add own base.score) g) d
      | none => d) d

/-- Best score first, then the rule of the best step, then the category. -/
def rank (g h : Group σ) : Ordering :=
  ((Score.byDesc g.best.score h.best.score).then (g.best.rule.cmp h.best.rule)).then
    (g.category.cmp h.category)

/-- The groups of a finished cell: best first, at most `limit`. -/
def finish (limit : Option Nat) (d : Draft σ) : List (Group σ) :=
  let sorted := d.groups.mergeSort fun g h => (rank g h).isLE
  match limit with
  | some k => sorted.take k
  | none => sorted

end Draft

/-- The cells of a sentence and what was built for them. -/
structure Chart (σ : Type) where
  sentence : List String
  mode : Packing
  /-- The cells that are not empty, in the order in which they were filled, newest first. -/
  filled : List (Span × List (Group σ)) := []
  /-- The number of groups built, dropped ones included. -/
  groups : Nat := 0
  /-- The number of steps built, dropped ones included. -/
  steps : Nat := 0
  accepted : Nat := 0
  rejected : Nat := 0

namespace Chart

variable {σ : Type}

/-- The groups over a span, best first. -/
def cell (c : Chart σ) (span : Span) : List (Group σ) :=
  match c.filled.find? fun e => e.1 == span with
  | some e => e.2
  | none => []

/-- The spans of a sentence of `n` tokens, shorter ones first, then from left to right. -/
def spans (n : Nat) : List Span :=
  (List.range n).flatMap fun l => (List.range (n - l)).map fun start => ⟨start, start + l + 1⟩

/-- Fill the cell of a span. -/
def fill [Score σ] (t : Task σ) (p : Provider) (limit : Option Nat) (c : Chart σ) (span : Span) :
    Chart σ :=
  let d : Draft σ := { span, firstId := c.groups }
  let d := ((d.lexicalPass t p c.mode).binaryPass t c.mode c.cell).unaryPass t c.mode
  let kept := d.finish limit
  { c with
    filled := if kept.isEmpty then c.filled else (span, kept) :: c.filled
    groups := c.groups + d.groups.length
    steps := c.steps + (d.groups.flatMap fun g => g.steps).length
    accepted := c.accepted + d.accepted
    rejected := c.rejected + d.rejected }

/-- The chart of a sentence. With a limit, every cell keeps that many groups. -/
def parse [Score σ] (t : Task σ) (mode : Packing) (limit : Option Nat) : Chart σ :=
  (spans t.sentence.length).foldl (fill t (t.grammar.provider t.lexicon) limit)
    { sentence := t.sentence, mode }

/-- The cells that are not empty, in order of their spans. -/
def cells (c : Chart σ) : List (Span × List (Group σ)) :=
  c.filled.mergeSort fun a b => (a.1.cmp b.1).isLE

/-- The whole sentence. -/
def full (c : Chart σ) : Span := ⟨0, c.sentence.length⟩

/-- The groups over the whole sentence whose category is accepted at the root, best first. -/
def derivations (c : Chart σ) (g : Grammar) : List (Group σ) :=
  (c.cell c.full).filter fun d => g.isRoot d.category.syn

/-- The best group over the whole sentence with a root category. -/
def best? (c : Chart σ) (g : Grammar) : Option (Group σ) := (c.derivations g).head?

/-- The derivations of the root groups, best group first, at most `limit`. -/
def trees (c : Chart σ) (g : Grammar) (limit : Nat) : List Derivation :=
  ((c.derivations g).flatMap fun d => d.trees c.sentence).take limit

/-- The actions in all cells. -/
def allActions (c : Chart σ) : ActionSet :=
  ActionSet.ofList <| c.cells.flatMap fun e =>
    e.2.flatMap fun g => g.steps.map fun (s : Step σ (Group σ)) => s.action

end Chart

end Categorial
