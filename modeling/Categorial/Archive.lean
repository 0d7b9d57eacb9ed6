import Categorial.Data.Basic
import Categorial.Training.Trainer

/-!
# Stored results

Oracles, gold sequences and weights as plain data, so that training can go on later. What a filter
keeps of its last search is not stored. Reading accepts what writing gives; records may also be given
as lists of their fields in order, and further fields are passed over.

* `Term.toData`, `Term.ofData?` and their kin: the parts.
* `Archive.filters`, `Archive.filters?`: the oracles of a dataset.
* `Archive.gold`, `Archive.gold?`: its gold sequences.
* `Archive.weights`, `Archive.weights?`: the weights of a model.
-/

namespace Categorial

open Data

/-- A value with a tag. -/
def Data.tag (name : String) (d : Data) : Data := .table [(name, d)]

/-! ## Types, terms and categories -/

/-- A type as data. -/
def Ty.toData : Ty → Data
  | atom name => .tag "Atomic" (.text name)
  | arrow a r => .tag "Arrow" (.list [a.toData, r.toData])

/-- The type that data stand for. -/
def Ty.ofData? : Data → Option Ty
  | .table [(tag, .text name)] => if tag = "Atomic" then some (.atom name) else none
  | .table [(tag, .list [a, r])] =>
    if tag = "Arrow" then
      match Ty.ofData? a, Ty.ofData? r with
      | some a, some r => some (.arrow a r)
      | _, _ => none
    else none
  | _ => none

/-- A term as data. -/
def Term.toData : Term → Data
  | const name ty => .tag "Constant" (.list [.text name, ty.toData])
  | var k => .tag "Var" (.nat k)
  | app f a => .tag "App" (.list [f.toData, a.toData])
  | lam ty b => .tag "Lambda" (.list [ty.toData, b.toData])

/-- The term that data stand for. -/
def Term.ofData? : Data → Option Term
  | .table [(tag, .int n)] => if tag = "Var" then (Data.int n).asNat?.map Term.var else none
  | .table [(tag, .list [a, b])] =>
    if tag = "Constant" then
      match a.asText?, Ty.ofData? b with
      | some name, some ty => some (.const name ty)
      | _, _ => none
    else if tag = "App" then
      match Term.ofData? a, Term.ofData? b with
      | some f, some x => some (.app f x)
      | _, _ => none
    else if tag = "Lambda" then
      match Ty.ofData? a, Term.ofData? b with
      | some ty, some body => some (.lam ty body)
      | _, _ => none
    else none
  | _ => none

/-- The names of the slashes. -/
def Slash.names : List (String × Slash) := [("Forward", .forward), ("Backward", .backward)]

/-- The name of a slash as data. -/
def Slash.toData : Slash → Data
  | forward => .text "Forward"
  | backward => .text "Backward"

/-- A syntactic category as data. -/
def Syn.toData : Syn → Data
  | atom name => .tag "Atomic" (.text name)
  | complex r s a =>
    .tag "Complex" (.table [("result", r.toData), ("slash", s.toData), ("arg", a.toData)])

/-- A complex syntactic category with parts read by `syn`. -/
def Syn.complexOf? (syn : Data → Option Syn) (d : Data) : Option Syn := do
  match ← d.record? {} ["result", "slash", "arg"] with
  | [r, s, a] =>
    some (.complex (← required? syn r) (← required? (choice? {} Slash.names) s) (← required? syn a))
  | _ => none

/-- The syntactic category that data with at most `depth` nested categories stand for. -/
def Syn.ofDataWithin? : (depth : Nat) → Data → Option Syn
  | 0, _ => none
  | depth + 1, d =>
    match d.tagged? with
    | some (tag, d) =>
      if tag = "Atomic" then d.asText?.map Syn.atom
      else if tag = "Complex" then Syn.complexOf? (Syn.ofDataWithin? depth) d
      else none
    | none => none

mutual

/-- The number of nested lists and tables. -/
def Data.height : Data → Nat
  | .list l => Data.heightOfItems l + 1
  | .table l => Data.heightOfMembers l + 1
  | _ => 1

/-- The greatest height of an item. -/
def Data.heightOfItems : List Data → Nat
  | [] => 0
  | d :: rest => max d.height (Data.heightOfItems rest)

/-- The greatest height of a member. -/
def Data.heightOfMembers : List (String × Data) → Nat
  | [] => 0
  | (_, d) :: rest => max d.height (Data.heightOfMembers rest)

end

/-- The syntactic category that data stand for. -/
def Syn.ofData? (d : Data) : Option Syn := Syn.ofDataWithin? d.height d

/-- A value or nothing as data. -/
def Data.ofOption {α : Type} (f : α → Data) : Option α → Data
  | some a => f a
  | none => .null

/-- A category as data. -/
def Category.toData (c : Category) : Data :=
  .table [("syntax", c.syn.toData), ("semantics", .ofOption Term.toData c.sem)]

/-- The category that data stand for; its meaning is taken as it is. -/
def Category.ofData? (d : Data) : Option Category := do
  match ← d.record? {} ["syntax", "semantics"] with
  | [syn, sem] =>
    some ⟨← required? Syn.ofData? syn, ← withDefault? (asOption? Term.ofData?) none sem⟩
  | _ => none

/-! ## Actions -/

/-- A span as data. -/
def Span.toData (s : Span) : Data := .table [("start", .nat s.start), ("end", .nat s.stop)]

/-- The span that data stand for. -/
def Span.ofData? (d : Data) : Option Span := do
  match ← d.record? {} ["start", "end"] with
  | [start, stop] => some ⟨← required? asNat? start, ← required? asNat? stop⟩
  | _ => none

/-- The id of a rule as data. -/
def RuleId.toData : RuleId → Data
  | lexical => .text "Lexical"
  | rule i => .tag "Rule" (.nat i)

/-- The id of a rule that data stand for. -/
def RuleId.ofData? (d : Data) : Option RuleId :=
  match d.tagged? with
  | some ("Rule", i) => i.asNat?.map RuleId.rule
  | _ => d.choice? {} [("Lexical", RuleId.lexical)]

/-- The names of the origins. -/
def Origin.names : List (String × Origin) :=
  [("FixedDomain", .fixed), ("Learned", .learned), ("Generated", .generated)]

/-- The name of an origin as data. -/
def Origin.toData : Origin → Data
  | fixed => .text "FixedDomain"
  | learned => .text "Learned"
  | generated => .text "Generated"

/-- An entry as data. -/
def Entry.toData (e : Entry) : Data :=
  .table [("tokens", .list (e.tokens.map .text)), ("category", e.category.toData),
    ("origin", e.origin.toData)]

/-- The entry that data stand for. -/
def Entry.ofData? (d : Data) : Option Entry := do
  match ← d.record? {} ["tokens", "category", "origin"] with
  | [tokens, category, origin] =>
    some ⟨← required? (asList? asText?) tokens, ← required? Category.ofData? category,
      ← required? (choice? {} Origin.names) origin⟩
  | _ => none

/-- An action as data. -/
def Action.toData (a : Action) : Data :=
  .table [("span", a.span.toData), ("rule", a.rule.toData), ("category", a.category.toData),
    ("entry", .ofOption Entry.toData a.entry)]

/-- The action that data stand for. -/
def Action.ofData? (d : Data) : Option Action := do
  match ← d.record? {} ["span", "rule", "category", "entry"] with
  | [span, rule, category, entry] =>
    some ⟨← required? Span.ofData? span, ← required? RuleId.ofData? rule,
      ← required? Category.ofData? category, ← withDefault? (asOption? Entry.ofData?) none entry⟩
  | _ => none

/-! ## Oracles -/

/-- The names of the kinds of filters. -/
def FilterKind.names : List (String × FilterKind) :=
  [("exact", .exact), ("early-update", .earlyUpdate)]

/-- A filter as data, without what it keeps of its last search. -/
def GoldFilter.toData (f : GoldFilter) : Data :=
  .table [("kind", .text f.kind.text), ("target", f.target.toData),
    ("category", .ofOption Category.toData f.category), ("window", f.window.toData),
    ("gold", .list (f.gold.map Action.toData)), ("parse_trees", .nat f.parseTrees)]

/-- The filter that data stand for. -/
def GoldFilter.ofData? (d : Data) : Option GoldFilter := do
  match ← d.record? {} ["kind", "target", "category", "window", "gold", "parse_trees"] with
  | [kind, target, category, window, gold, parseTrees] =>
    let kind ← required? (choice? {} FilterKind.names) kind
    let target ← required? Term.ofData? target
    let category ← withDefault? (asOption? Category.ofData?) none category
    let window ← required? Span.ofData? window
    let gold ← required? (asList? Action.ofData?) gold
    let parseTrees ← required? asNat? parseTrees
    some { kind, target, category, window, gold := ActionSet.ofList gold, parseTrees }
  | _ => none

/-- An oracle as data. -/
def Oracle.toData : Oracle → Data
  | exact f => .tag "exact" f.toData
  | earlyUpdate f => .tag "early-update" f.toData
  | discontiguous fs => .tag "discontiguous" (.table [("filters", .list (fs.map GoldFilter.toData))])
  | unreachable => .text "unreachable"

/-- The filters of a discontiguous oracle. -/
def Oracle.filtersOf? (d : Data) : Option (List GoldFilter) := do
  match ← d.record? {} ["filters"] with
  | [filters] => required? (asList? GoldFilter.ofData?) filters
  | _ => none

/-- The oracle that data stand for. -/
def Oracle.ofData? (d : Data) : Option Oracle :=
  match d.tagged? with
  | some ("exact", f) => (GoldFilter.ofData? f).map Oracle.exact
  | some ("early-update", f) => (GoldFilter.ofData? f).map Oracle.earlyUpdate
  | some ("discontiguous", fs) => (Oracle.filtersOf? fs).map Oracle.discontiguous
  | _ => d.choice? {} [("unreachable", Oracle.unreachable)]

namespace Archive

/-- The oracles of a dataset as data. -/
def filters (l : List (Option Oracle)) : Data := .list (l.map (.ofOption Oracle.toData))

/-- The oracles that data stand for. -/
def filters? (d : Data) : Option (List (Option Oracle)) := d.asList? (asOption? Oracle.ofData?)

/-- The gold sequences of a dataset as data. -/
def gold (l : List (Option (List Action))) : Data :=
  .list (l.map (.ofOption fun as => .list (as.map Action.toData)))

/-- The gold sequences that data stand for. -/
def gold? (d : Data) : Option (List (Option (List Action))) :=
  d.asList? (asOption? (asList? Action.ofData?))

/-- Weights as data. -/
def weights (l : List (String × FloatScore)) : Data :=
  .table (l.map fun (n, x) => (n, .float x.value))

/-- A number that is within range. -/
def finite? (d : Data) : Option FloatScore :=
  (d.asFloat?.filter Float.isFinite).map FloatScore.ofFloat

/-- The weights that data stand for. -/
def weights? (d : Data) : Option (List (String × FloatScore)) := d.asTable? finite?

end Archive

end Categorial
