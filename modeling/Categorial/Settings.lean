import Categorial.Data.Toml
import Categorial.Grammar
import Categorial.Chart.Forest
import Categorial.LinearModel
import Categorial.Text.Quoted
import Categorial.Training.Trainer

/-!
# Settings

Settings describe a grammar, the bounds of the parsers and the course of training. Every part has a
default. Settings are read from plain data, checked, and turned into a grammar.

* `Settings`: the settings and their defaults.
* `Settings.ofData?`: reading; other fields than the known ones are refused.
* `Settings.check`: the bounds on single values.
* `Settings.parse`: reading and checking a TOML document.
* `Settings.grammar`: the grammar described.
-/

namespace Categorial

/-- A type-raising rule in settings. -/
structure RaisingSettings where
  name : String
  arg : String
  target : String
  targetTy : String
deriving DecidableEq, Repr

/-- A type-shifting rule in settings. -/
structure ShiftingSettings where
  name : String
  source : String
  target : String
  /-- A closed term that is applied to the meaning. -/
  template : String
deriving DecidableEq, Repr

/-- The rules and roots in settings. -/
structure GrammarSettings where
  /-- The names of the binary rules in order of registration. -/
  rules : List String := ["forward-application", "backward-application", "forward-composition",
    "backward-composition", "forward-type-raised-composition", "forward-skipping",
    "backward-skipping"]
  roots : List String := ["S", "N", "NP", "PP"]
  wordSkipping : Bool := false
  maxDegree : Nat := 1
  raising : List RaisingSettings := []
  shifting : List ShiftingSettings := []
deriving DecidableEq, Repr

/-- The bounds of the parsers. -/
structure ParserSettings where
  beamWidth : Nat := 10
  /-- The number of groups kept in a cell; all of them if unset. -/
  limit : Option Nat := none
  maxSentenceLength : Nat := 35
  packing : Packing := .packed
  skipPenalty : Float := -1.0
deriving BEq

/-- The course of training. -/
structure TrainerSettings where
  epochs : Nat := 5
  learningRate : Float := 1.0
  maxUpdateNorm : Float := 10.0
  discipline : Discipline := .serialized
  earlyUpdate : Bool := true
  discontiguous : Bool := false
  useStoredGold : Bool := true
deriving BEq

/-- All settings. -/
structure Settings where
  /-- Atomic types with their parents, in order of declaration. -/
  atomics : List (String × String) := []
  /-- The types of the constants. -/
  constants : NameMap String := {}
  grammar : GrammarSettings := {}
  parser : ParserSettings := {}
  trainer : TrainerSettings := {}
deriving BEq

/-- A value that must keep within a bound. -/
inductive Bound where
  | beamWidth
  | limit
  | maxSentenceLength
  | skipPenalty
  | roots
  | maxDegree
  | learningRate
  | maxUpdateNorm
deriving DecidableEq, Repr

/-- The field of a bounded value. -/
def Bound.field : Bound → String
  | beamWidth => "parser.beam_width"
  | limit => "parser.cells_per_span"
  | maxSentenceLength => "parser.max_sentence_length"
  | skipPenalty => "parser.skip_penalty"
  | roots => "grammar.roots"
  | maxDegree => "grammar.max_composition_degree"
  | learningRate => "trainer.learning_rate"
  | maxUpdateNorm => "trainer.max_update_norm"

/-- What is asked of a bounded value. -/
def Bound.requirement : Bound → String
  | beamWidth | maxSentenceLength | maxDegree | maxUpdateNorm => "must be > 0"
  | limit => "must be > 0 when set"
  | skipPenalty => "must be finite"
  | roots => "must not be empty"
  | learningRate => "must be a positive number"

/-- Why settings are refused. -/
inductive SettingsError where
  /-- The data have another form. -/
  | malformed
  /-- The file cannot be read. -/
  | unreadable
  | declaration (cause : DeclError)
  | unknownRule (name : String)
  | outOfBounds (bound : Bound)
  /-- The text of a field cannot be read. -/
  | badText (field : String) (cause : ReadError)
deriving DecidableEq, Repr

/-- The wording of a refused declaration. -/
def DeclError.message : DeclError → String
  | unknownType name => "unknown atomic type '" ++ name ++ "'"
  | conflictingType name parent =>
    "atomic type '" ++ name ++ "' redeclared with parent " ++
      (match parent with
        | some p => "Some(" ++ Text.quote p ++ ")"
        | none => "None")

/-- The wording of refused settings. -/
def SettingsError.message : SettingsError → String
  | malformed => "failed to parse config TOML"
  | unreadable => "failed to read config file"
  | declaration cause => cause.message
  | unknownRule name => "unknown rule '" ++ name ++ "'"
  | outOfBounds b => "invalid config value for " ++ b.field ++ ": " ++ b.requirement
  | badText field cause => "invalid config value for " ++ field ++ ": " ++ cause.message

/-- The names of the packing modes. -/
def Packing.names : List (String × Packing) := [("packed", .packed), ("unpacked", .unpacked)]

/-- The names of the update disciplines. -/
def Discipline.names : List (String × Discipline) :=
  [("serialized", .serialized), ("lock-free", .lockFree)]

namespace Settings

open Data

/-! ## Reading -/

/-- Read a type-raising rule. -/
def readRaising? (len : Leniency) (d : Data) : Option RaisingSettings := do
  match ← d.record? len ["name", "arg", "target", "target_type"] with
  | [name, arg, target, ty] =>
    some ⟨← required? asText? name, ← required? asText? arg, ← required? asText? target,
      ← required? asText? ty⟩
  | _ => none

/-- Read a type-shifting rule. -/
def readShifting? (len : Leniency) (d : Data) : Option ShiftingSettings := do
  match ← d.record? len ["name", "from", "to", "template"] with
  | [name, source, target, template] =>
    some ⟨← required? asText? name, ← required? asText? source, ← required? asText? target,
      ← required? asText? template⟩
  | _ => none

/-- Read the rules and roots. -/
def readGrammar? (len : Leniency) (d : Data) : Option GrammarSettings := do
  let std : GrammarSettings := {}
  match ← d.record? len
      ["rules", "roots", "word_skipping", "max_composition_degree", "type_raising",
        "type_shifting"] with
  | [rules, roots, skipping, degree, raising, shifting] =>
    some ⟨← withDefault? (asList? asText?) std.rules rules,
      ← withDefault? (asList? asText?) std.roots roots,
      ← withDefault? asBool? std.wordSkipping skipping,
      ← withDefault? asNat? std.maxDegree degree,
      ← withDefault? (asList? (readRaising? len)) std.raising raising,
      ← withDefault? (asList? (readShifting? len)) std.shifting shifting⟩
  | _ => none

/-- Read the bounds of the parsers. -/
def readParser? (len : Leniency) (d : Data) : Option ParserSettings := do
  let std : ParserSettings := {}
  match ← d.record? len
      ["beam_width", "cells_per_span", "max_sentence_length", "packing", "skip_penalty"] with
  | [width, limit, maxLength, packing, penalty] =>
    some ⟨← withDefault? asNat? std.beamWidth width,
      ← withDefault? (asOption? asNat?) std.limit limit,
      ← withDefault? asNat? std.maxSentenceLength maxLength,
      ← withDefault? (choice? len Packing.names) std.packing packing,
      ← withDefault? asFloat? std.skipPenalty penalty⟩
  | _ => none

/-- Read the course of training. -/
def readTrainer? (len : Leniency) (d : Data) : Option TrainerSettings := do
  let std : TrainerSettings := {}
  match ← d.record? len
      ["epochs", "learning_rate", "max_update_norm", "discipline", "early_update",
        "discontiguous", "use_stored_gold"] with
  | [epochs, rate, norm, discipline, early, discontiguous, stored] =>
    some ⟨← withDefault? asNat? std.epochs epochs,
      ← withDefault? asFloat? std.learningRate rate,
      ← withDefault? asFloat? std.maxUpdateNorm norm,
      ← withDefault? (choice? len Discipline.names) std.discipline discipline,
      ← withDefault? asBool? std.earlyUpdate early,
      ← withDefault? asBool? std.discontiguous discontiguous,
      ← withDefault? asBool? std.useStoredGold stored⟩
  | _ => none

/-- Read the atomic types with their parents. -/
def readAtomics? (len : Leniency) (d : Data) : Option (List (String × String)) := do
  match ← d.record? len ["atomic"] with
  | [atomic] => withDefault? (asList? (asPair? len asText? asText?)) [] atomic
  | _ => none

/-- The form of settings in a format that has a way to write nothing. -/
def strict : Leniency := ⟨false, true, false, false⟩

/-- The form of settings in TOML, which has no way to write nothing: a list that stands for a record or
a pair may have further items, and a name in a table an empty list or table. -/
def lenient : Leniency := ⟨false, true, true, true⟩

/-- Read settings from data. -/
def ofData? (len : Leniency) (d : Data) : Option Settings := do
  match ← d.record? len ["types", "constants", "grammar", "parser", "trainer"] with
  | [types, constants, grammar, parser, trainer] =>
    some ⟨← withDefault? (readAtomics? len) [] types,
      ← withDefault? (fun d => (d.asTable? asText?).map NameMap.ofList) {} constants,
      ← withDefault? (readGrammar? len) {} grammar,
      ← withDefault? (readParser? len) {} parser,
      ← withDefault? (readTrainer? len) {} trainer⟩
  | _ => none

/-! ## Checking -/

/-- The first bounded value that is out of bounds. -/
def violated? (s : Settings) : Option Bound :=
  if s.parser.beamWidth == 0 then some .beamWidth
  else if s.parser.limit == some 0 then some .limit
  else if s.parser.maxSentenceLength == 0 then some .maxSentenceLength
  else if !s.parser.skipPenalty.isFinite then some .skipPenalty
  else if s.grammar.roots.isEmpty then some .roots
  else if s.grammar.maxDegree == 0 then some .maxDegree
  else if !(0.0 < s.trainer.learningRate && s.trainer.learningRate.isFinite) then
    some .learningRate
  else if !(0.0 < s.trainer.maxUpdateNorm) then some .maxUpdateNorm
  else none

/-- The settings, if all values are within bounds. -/
def check (s : Settings) : Except SettingsError Settings :=
  match s.violated? with
  | some b => .error (.outOfBounds b)
  | none => .ok s

/-- Read and check settings given as data. -/
def ofData (len : Leniency) (d : Option Data) : Except SettingsError Settings :=
  match d.bind (ofData? len) with
  | some s => s.check
  | none => .error .malformed

/-- Read and check a TOML document. -/
def parse (src : String) : Except SettingsError Settings := ofData lenient (Toml.parse? src)

/-! ## The grammar described -/

/-- Name the field of a text that cannot be read. -/
def inField {α : Type} (field : String) : Except ReadError α → Except SettingsError α
  | .ok a => .ok a
  | .error e => .error (.badText field e)

/-- Name a declaration as the cause. -/
def declared {α : Type} : Except DeclError α → Except SettingsError α
  | .ok a => .ok a
  | .error e => .error (.declaration e)

/-- The signature described. -/
def signature (s : Settings) : Except SettingsError Signature := do
  let sig ← s.atomics.foldlM
    (fun (sig : Signature) (name, parent) => declared (sig.addAtomic name (some parent))) {}
  s.constants.entries.foldlM
    (fun (sig : Signature) (name, ty) => do
      let ty ← inField ("constants." ++ name) (Ty.parse ty)
      declared (sig.declare name ty)) sig

/-- A binary rule by its name. -/
def binaryRule (s : Settings) (name : String) : Except SettingsError Rule :=
  match BinaryRule.ofName? s.grammar.maxDegree name with
  | some r => .ok (.binary r)
  | none => .error (.unknownRule name)

/-- A type-raising rule. -/
def raisingRule (sig : Signature) (r : RaisingSettings) : Except SettingsError Rule := do
  let field := "grammar.type_raising." ++ r.name
  let arg ← inField field (Syn.parse r.arg)
  let target ← inField field (Syn.parse r.target)
  let ty ← inField field (Ty.parse r.targetTy)
  declared (sig.validate ty)
  return .unary (.typeRaising r.name arg target ty)

/-- A type-shifting rule. -/
def shiftingRule (sig : Signature) (r : ShiftingSettings) : Except SettingsError Rule := do
  let field := "grammar.type_shifting." ++ r.name
  let source ← inField field (Syn.parse r.source)
  let target ← inField field (Syn.parse r.target)
  let template ← inField field (Term.parse sig r.template)
  return .unary (.typeShifting r.name source target template)

/-- The grammar described: signature, binary rules, type raising, type shifting, roots, in this
order. -/
def toGrammar (s : Settings) : Except SettingsError Grammar := do
  let sig ← s.signature
  let binary ← s.grammar.rules.mapM s.binaryRule
  let raising ← s.grammar.raising.mapM (raisingRule sig)
  let shifting ← s.grammar.shifting.mapM (shiftingRule sig)
  let roots ← s.grammar.roots.mapM fun r => inField "grammar.roots" (Syn.parse r)
  return {
    sig
    rules := ⟨binary ++ raising ++ shifting⟩
    roots := Grammar.rootSet roots
    wordSkipping := s.grammar.wordSkipping }

/-! ## Parsers and training -/

/-- The options of training. -/
def trainingOptions (s : Settings) : Training.Options FloatScore where
  discipline := s.trainer.discipline
  beamWidth := s.parser.beamWidth
  limit := s.parser.limit
  maxSentenceLength := s.parser.maxSentenceLength
  packing := s.parser.packing
  epochs := s.trainer.epochs
  learningRate := s.trainer.learningRate
  maxUpdateNorm := s.trainer.maxUpdateNorm
  earlyUpdate := s.trainer.earlyUpdate
  discontiguous := s.trainer.discontiguous
  useStoredGold := s.trainer.useStoredGold

/-- A linear model with given weights. -/
def linearModel (s : Settings) (weights : List (String × FloatScore)) :
    LinearModel FloatScore :=
  ⟨Weights.ofList s.trainer.discipline weights, s.parser.skipPenalty⟩

/-! ## Writing -/

/-- The name of a value in a list of names. -/
def nameIn {α : Type} [BEq α] (names : List (String × α)) (a : α) : Data :=
  match names.find? fun n => n.2 == a with
  | some n => .text n.1
  | none => .null

/-- The settings as data; `number` says how a number that need not be an integer is written. -/
def toData (number : Float → Data) (s : Settings) : Data :=
  let texts (l : List String) : Data := .list (l.map .text)
  .table [
    ("types", .table [("atomic", .list (s.atomics.map fun (n, p) => texts [n, p]))]),
    ("constants", .table (s.constants.entries.map fun (n, ty) => (n, .text ty))),
    ("grammar", .table [
      ("rules", texts s.grammar.rules),
      ("roots", texts s.grammar.roots),
      ("word_skipping", .bool s.grammar.wordSkipping),
      ("max_composition_degree", .nat s.grammar.maxDegree),
      ("type_raising", .list (s.grammar.raising.map fun r => .table [
        ("name", .text r.name), ("arg", .text r.arg), ("target", .text r.target),
        ("target_type", .text r.targetTy)])),
      ("type_shifting", .list (s.grammar.shifting.map fun r => .table [
        ("name", .text r.name), ("from", .text r.source), ("to", .text r.target),
        ("template", .text r.template)]))]),
    ("parser", .table [
      ("beam_width", .nat s.parser.beamWidth),
      ("cells_per_span", match s.parser.limit with
        | some k => .nat k
        | none => .null),
      ("max_sentence_length", .nat s.parser.maxSentenceLength),
      ("packing", nameIn Packing.names s.parser.packing),
      ("skip_penalty", number s.parser.skipPenalty)]),
    ("trainer", .table [
      ("epochs", .nat s.trainer.epochs),
      ("learning_rate", number s.trainer.learningRate),
      ("max_update_norm", number s.trainer.maxUpdateNorm),
      ("discipline", nameIn Discipline.names s.trainer.discipline),
      ("early_update", .bool s.trainer.earlyUpdate),
      ("discontiguous", .bool s.trainer.discontiguous),
      ("use_stored_gold", .bool s.trainer.useStoredGold)])]

end Settings

end Categorial
