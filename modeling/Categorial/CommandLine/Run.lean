import Categorial.Archive
import Categorial.CommandLine.Arguments
import Categorial.CommandLine.Directory
import Categorial.Report
import Categorial.Settings

/-!
# Running commands

A command is run on the contents of files and standard input. It prints a text and names files to be
written, or stops with a failure.

* `Session`: the state in which sentences are parsed; `Session.answer` is what is printed for a line.
* `TrainCommand.run`: the course of the `train` command.
* `run`: a whole run; `runIn` is a run in a working directory.
-/

namespace Categorial.CommandLine

/-- Why a run stops. -/
inductive Failure where
  | usage
  | settings (cause : SettingsError)
  | missing (file : String)
  | unreadable (cause : ReadError)
  | corrupt (file : String)
  | training (cause : TrainError)
deriving DecidableEq, Repr

namespace Failure

/-- The exit code of a failure. A run that reads behind the end of a sentence is broken off. -/
def code : Failure → Nat
  | usage => 2
  | training (.pastEnd _ _) => 101
  | _ => 1

/-- The wording of a failure. -/
def message : Failure → String
  | usage => "usage: categorial parse|train --lexicon FILE [--config FILE] ..."
  | settings e => e.message
  | missing file => "cannot read " ++ file
  | unreadable e => e.message
  | corrupt file => "corrupted data in " ++ file
  | training e => e.message

end Failure

/-- The contents of a file. -/
def contents (files : Files) (name : String) : Except Failure String :=
  match files name with
  | .contents s => .ok s
  | _ => .error (.missing name)

/-- Name a text that cannot be read as the cause. -/
def readable {α : Type} : Except ReadError α → Except Failure α
  | .ok a => .ok a
  | .error e => .error (.unreadable e)

/-- Name settings as the cause. -/
def configured {α : Type} : Except SettingsError α → Except Failure α
  | .ok a => .ok a
  | .error e => .error (.settings e)

/-- The settings of a file, or the defaults. -/
def loadSettings (files : Files) : Option String → Except Failure Settings
  | none => .ok {}
  | some name =>
    match files name with
    | .contents src => configured (Settings.parse src)
    | _ => .error (.settings .unreadable)

/-- Settings, grammar and lexicon. -/
def loadCommon (files : Files) (config : Option String) (lexicon : String) :
    Except Failure (Settings × Grammar × Lexicon) := do
  let s ← loadSettings files config
  let g ← configured s.toGrammar
  let src ← contents files lexicon
  let l ← readable (Lexicon.parse g.sig src)
  return (s, g, l)

/-- Stored data of a file. -/
def loadStored {α : Type} (files : Files) (decode : Data → Option α) (name : String) :
    Except Failure α := do
  let src ← contents files name
  match (Json.parse? src).bind decode with
  | some a => .ok a
  | none => .error (.corrupt name)

/-! ## Parsing -/

/-- All that is needed to parse sentences. -/
structure Session where
  settings : Settings
  grammar : Grammar
  lexicon : Lexicon
  model : LinearModel FloatScore
  chart : Bool
  printChart : Bool

/-- Start a session. -/
def ParseCommand.start (files : Files) (c : ParseCommand) : Except Failure Session := do
  let (s, g, l) ← loadCommon files c.config c.lexicon
  let s := match c.beam with
    | some n => { s with parser := { s.parser with beamWidth := max n 1 } }
    | none => s
  let weights ← match c.weights with
    | some name => loadStored files Archive.weights? name
    | none => .ok []
  return ⟨s, g, l, s.linearModel weights, c.chart, c.printChart⟩

namespace Session

/-- The task of parsing a sentence. -/
def task (s : Session) (sentence : List String) : Task FloatScore where
  grammar := s.grammar
  lexicon := s.lexicon
  sentence := sentence
  score := s.model.score s.grammar.rules

/-- What is printed for a line of input; letters of the Latin alphabet are taken in lower case. -/
def answer (s : Session) (line : String) : String :=
  let sentence := Text.words (String.ofList (line.toList.map Char.toLower))
  let t := s.task sentence
  if s.chart then
    let c := Chart.parse t s.settings.parser.packing s.settings.parser.limit
    (if s.printChart then "chart:\n" ++ Report.chart c ++ "\n\n" else "") ++
      Report.chartReadings s.grammar c
  else
    Report.parseReadings s.grammar
      (Beam.parseAll t s.settings.parser.packing s.settings.parser.beamWidth)

/-- What is printed before a line is read. -/
def prompt : String := "> "

/-- The lines of an input, each with its line feed. -/
def inputLines : List Char → (acc : List Char) → List String
  | [], acc => if acc.isEmpty then [] else [String.ofList acc.reverse]
  | c :: s, acc =>
    if c = '\n' then String.ofList (c :: acc).reverse :: inputLines s []
    else inputLines s (c :: acc)

/-- All that is printed for an input. -/
def transcript (s : Session) (stdin : String) : String :=
  String.join ((inputLines stdin.toList []).map fun l => prompt ++ s.answer l) ++ prompt

end Session

/-! ## Training -/

/-- A file to be written. -/
structure Output where
  file : String
  contents : String

/-- The data of a stored file, if anything is there. -/
def loadIfPresent {α : Type} (files : Files) (decode : Data → Option α) (default : α) :
    Option String → Except Failure α
  | none => .ok default
  | some name =>
    match files name with
    | .missing => .ok default
    | _ => loadStored files decode name

/-- Train, and give what is printed and the files to be written in order. -/
def TrainCommand.run (files : Files) (c : TrainCommand) : Except Failure (String × List Output) := do
  let (s, g, l) ← loadCommon files c.config c.lexicon
  let src ← contents files c.data
  let data ← readable (Dataset.parse g.sig src)
  let filters ← loadIfPresent files Archive.filters? [] c.filters
  let gold ← loadIfPresent files Archive.gold? [] c.gold
  let setup : Training.Setup (LinearModel FloatScore) FloatScore :=
    { grammar := g, lexicon := l, model := LinearModel.model, options := s.trainingOptions }
  let trainer : Training.Trainer (LinearModel FloatScore) := ⟨s.linearModel [], filters, gold⟩
  let (trainer, result) := trainer.train setup data
  let write (name : Option String) (d : Data) : List Output :=
    name.toList.map fun file => ⟨file, Json.render d⟩
  match result with
  | .error e => .error (.training e)
  | .ok stats =>
    return (String.join (stats.map fun st => Report.stats st ++ "\n"),
      write c.filters (Archive.filters trainer.filters) ++ write c.gold (Archive.gold trainer.gold) ++
        write c.weights (Archive.weights trainer.model.weights.toList))

/-! ## Whole runs -/

/-- The result of a run: exit code, printed text and files to be written. -/
structure Outcome where
  code : Nat := 0
  stdout : String := ""
  outputs : List Output := []

/-- The outcome of a failure. -/
def Failure.outcome (f : Failure) : Outcome := { code := f.code }

/-- Run a command on the contents of files and standard input. -/
def run (args : List String) (files : Files) (stdin : String) : Outcome :=
  match Command.ofArgs? args with
  | none => Failure.usage.outcome
  | some (.parse c) =>
    match c.start files with
    | .error f => f.outcome
    | .ok s => { stdout := s.transcript stdin }
  | some (.train c) =>
    match c.run files with
    | .error f => f.outcome
    | .ok (stdout, outputs) => { stdout, outputs }

/-- Write files in turn, up to the first failure; tells whether all were written. -/
def writeAll : List Output → Directory → Bool × Directory
  | [], d => (true, d)
  | o :: rest, d =>
    match d.write? o.file o.contents with
    | some d => writeAll rest d
    | none => (false, d)

/-- The result of a run in a working directory: exit code, printed text and the files afterwards. -/
def runIn (d : Directory) (args : List String) (stdin : String) : Nat × String × Directory :=
  let r := run args d.find stdin
  let (written, d) := writeAll r.outputs d
  (if written then r.code else 1, r.stdout, d)

end Categorial.CommandLine
