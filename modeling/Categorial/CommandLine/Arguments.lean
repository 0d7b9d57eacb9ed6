import Categorial.Bits

/-!
# Command line arguments

A command is `parse` or `train` with its options. An option is given at most once, as `--name value`,
`--name=value`, `-n value`, `-nvalue` or `-n=value`; switches stand alone, and short ones may be joined.

* `Command`: the commands.
* `Command.ofArgs?`: the command that arguments stand for.
-/

namespace Categorial.CommandLine

/-- Parse sentences from standard input. -/
structure ParseCommand where
  config : Option String
  lexicon : String
  chart : Bool
  printChart : Bool
  beam : Option Nat
  weights : Option String
deriving DecidableEq, Repr

/-- Train weights on a dataset. -/
structure TrainCommand where
  config : Option String
  lexicon : String
  data : String
  weights : Option String
  filters : Option String
  gold : Option String
deriving DecidableEq, Repr

/-- A command. -/
inductive Command where
  | parse (c : ParseCommand)
  | train (c : TrainCommand)
deriving DecidableEq, Repr

/-- An option: its long name, its short name, and whether a value follows. -/
structure Spec where
  long : String
  short : Option Char := none
  takesValue : Bool := true

/-- The options of `parse`. -/
def parseSpecs : List Spec :=
  [⟨"config", none, true⟩, ⟨"lexicon", some 'l', true⟩, ⟨"chart", some 'c', false⟩,
    ⟨"print-chart", none, false⟩, ⟨"beam", some 'b', true⟩, ⟨"weights", some 'w', true⟩]

/-- The options of `train`. -/
def trainSpecs : List Spec :=
  [⟨"config", none, true⟩, ⟨"lexicon", some 'l', true⟩, ⟨"data", some 'd', true⟩,
    ⟨"weights", some 'w', true⟩, ⟨"filters", none, true⟩, ⟨"gold", none, true⟩]

/-- Options given, with their values. -/
abbrev Given := List (String × String)

/-- A separate argument can be the value of an option: it does not look like an option itself. -/
def isValue (arg : List Char) : Bool :=
  match arg with
  | '-' :: _ :: _ => false
  | _ => true

/-- Note an option unless it was given before. -/
def give (name value : String) (g : Given) : Option Given :=
  if (g.lookup name).isSome then none else some (g ++ [(name, value)])

/-- A value attached to a short option; an equals sign before it is dropped. -/
def attached : List Char → String
  | '=' :: s => String.ofList s
  | s => String.ofList s

/-- What an argument with short options leaves open. -/
inductive Pending where
  | nothing
  | valueOf (name : String)

/-- Read joined short options. -/
def readShorts (specs : List Spec) : List Char → Given → Option (Given × Pending)
  | [], g => some (g, .nothing)
  | c :: rest, g =>
    match specs.find? fun s => s.short == some c with
    | none => none
    | some s =>
      if s.takesValue then
        if rest.isEmpty then some (g, .valueOf s.long)
        else (give s.long (attached rest) g).map fun g => (g, .nothing)
      else
        match give s.long "" g with
        | some g => readShorts specs rest g
        | none => none

/-- Read a long option: its name and, after an equals sign, its value. -/
def readLong (specs : List Spec) (arg : List Char) (g : Given) : Option (Given × Pending) :=
  let (name, value) := arg.span (· != '=')
  match specs.find? fun s => s.long == String.ofList name, value with
  | none, _ => none
  | some s, '=' :: value =>
    if s.takesValue then (give s.long (String.ofList value) g).map fun g => (g, .nothing) else none
  | some s, _ =>
    if s.takesValue then some (g, .valueOf s.long)
    else (give s.long "" g).map fun g => (g, .nothing)

/-- Read an argument that is an option. -/
def readOption (specs : List Spec) (arg : String) (g : Given) : Option (Given × Pending) :=
  match arg.toList with
  | ['-', '-'] => some (g, .nothing)
  | '-' :: '-' :: name => readLong specs name g
  | '-' :: c :: rest => readShorts specs (c :: rest) g
  | _ => none

/-- Read all options. -/
def readOptions (specs : List Spec) : List String → Given → Option Given
  | [], g => some g
  | arg :: rest, g =>
    match readOption specs arg g with
    | none => none
    | some (g, .nothing) =>
      if arg = "--" && !rest.isEmpty then none else readOptions specs rest g
    | some (g, .valueOf name) =>
      match rest with
      | value :: rest =>
        if isValue value.toList then
          match give name value g with
          | some g => readOptions specs rest g
          | none => none
        else none
      | [] => none

/-- A natural number that fits a 64-bit word; a plus sign may stand before it. -/
def number? (s : String) : Option Nat :=
  let digits := match s.toList with
    | '+' :: ds => ds
    | ds => ds
  if digits.isEmpty || !digits.all Char.isDigit then none
  else
    let n := digits.foldl (fun n c => n * 10 + (c.toNat - 48)) 0
    if n < Bits.words then some n else none

/-- A file name given for an option must not be empty. -/
def path? (g : Given) (name : String) : Option (Option String) :=
  match g.lookup name with
  | none => some none
  | some "" => none
  | some p => some (some p)

/-- A file name that must be given. -/
def requiredPath? (g : Given) (name : String) : Option String := (path? g name).join

/-- The width of the beam, if given. -/
def beam? (g : Given) : Option (Option Nat) :=
  match g.lookup "beam" with
  | none => some none
  | some s => (number? s).map some

namespace Command

/-- The command that arguments stand for. -/
def ofArgs? : List String → Option Command
  | "parse" :: args => do
    let g ← readOptions parseSpecs args []
    some (.parse ⟨← path? g "config", ← requiredPath? g "lexicon", (g.lookup "chart").isSome,
      (g.lookup "print-chart").isSome, ← beam? g, ← path? g "weights"⟩)
  | "train" :: args => do
    let g ← readOptions trainSpecs args []
    some (.train ⟨← path? g "config", ← requiredPath? g "lexicon", ← requiredPath? g "data",
      ← path? g "weights", ← path? g "filters", ← path? g "gold"⟩)
  | _ => none

/-- The files a command may read. -/
def inputs : Command → List String
  | parse c => c.config.toList ++ [c.lexicon] ++ c.weights.toList
  | train c => c.config.toList ++ [c.lexicon, c.data] ++ c.filters.toList ++ c.gold.toList

end Command

end Categorial.CommandLine
