import Categorial.Decimal.Layout
import Categorial.Training.Trainer

/-!
# Reports

The texts in which results are shown. Scores have the fewest digits that read back, ratios two places.

* `Report.chart`, `Report.parse`: whole results.
* `Report.chartReadings`, `Report.parseReadings`: the readings of a sentence with their trees.
* `Report.features`, `Report.stats`.
-/

namespace Categorial.Report

/-- A score. -/
def score (x : FloatScore) : String := Decimal.plain x.value

/-- A feature vector. -/
def features (f : Features FloatScore) : String :=
  "\x7b" ++ ", ".intercalate (f.entries.map fun (n, x) => n ++ "=" ++ score x) ++ "\x7d"

/-- A group of a cell on a line. -/
def group (g : Group FloatScore) : String :=
  "  " ++ g.category.text ++ " (" ++ score g.best.score ++ ", " ++ toString g.steps.length ++
    " steps)\n"

/-- The cells of a chart with their groups. -/
def chart (c : Chart FloatScore) : String :=
  String.join (c.cells.map fun (span, groups) =>
    "Cell " ++ span.text ++ ":\n" ++ String.join (groups.map group))

/-- A category with its score and the number of its derivations. -/
def reading (c : Category) (s : FloatScore) (parses : Nat) : String :=
  c.text ++ " (" ++ score s ++ ", " ++ toString parses ++ " parses)"

/-- The completed states of a search. -/
def parse (p : Beam.Parse FloatScore) : String :=
  "//** window " ++ p.window.text ++ " after " ++ toString p.steps ++ " steps, " ++
    toString p.completed.length ++ " completed\n" ++
    String.join (p.completed.map fun s =>
      match s.top? with
      | some top => top.span.text ++ ": " ++ reading top.category s.score s.parses ++ "\n"
      | none => "")

/-- The number of categories found. -/
def found (n : Nat) : String :=
  "Parsed " ++ toString n ++ " categor" ++ (if n == 1 then "y" else "ies") ++ "\n"

/-- A reading with its tree, followed by an empty line. -/
def readingWithTree (line : String) (tree : Option Derivation) : String :=
  line ++ "\n" ++ (match tree with
    | some d => d.text ++ "\n"
    | none => "") ++ "\n"

/-- The readings of a chart with their best trees. -/
def chartReadings (g : Grammar) (c : Chart FloatScore) : String :=
  let groups := c.derivations g
  found groups.length ++ String.join (groups.map fun d =>
    readingWithTree (reading d.category d.best.score d.parses) (d.bestTree? c.sentence))

/-- The readings of a search with their best trees. -/
def parseReadings (g : Grammar) (p : Beam.Parse FloatScore) : String :=
  let readings := p.readings
  found readings.length ++ String.join (readings.map fun r =>
    readingWithTree (reading r.category r.best.score r.parses) (p.tree? g.rules r.best))

/-- The statistics of an epoch. -/
def stats (st : Training.Stats) : String :=
  "epoch " ++ toString st.epoch ++ ": " ++ toString st.correct ++ "/" ++ toString st.examples ++
    " correct, " ++ toString st.updates ++ " updates (" ++ toString st.earlyUpdates ++
    " early), " ++ toString st.unreachable ++ " unreachable, " ++ toString st.skipped ++
    " skipped" ++
    (match st.averageFailRatio? with
      | some r => ", avg fail at " ++ Decimal.fixed 2 r
      | none => "")

end Categorial.Report
