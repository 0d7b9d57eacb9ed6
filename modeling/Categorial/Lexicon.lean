import Categorial.Reader.Category

/-!
# Lexicons

An entry gives a sequence of tokens a category. A lexicon holds entries that differ in tokens or
category, in the order in which they were added.

* `Entry`, `Entry.parse`: entries, written `tokens :- category @origin`.
* `Lexicon.add`, `Lexicon.parse`: building a lexicon.
* `Provider`: what a parser asks for; `Provider.skipping` lets unknown words be skipped.
-/

namespace Categorial

open Text

/-- Where an entry comes from. -/
inductive Origin where
  | fixed
  | learned
  | generated
deriving DecidableEq, Repr, Inhabited

namespace Origin

/-- The written form. -/
def text : Origin → String
  | fixed => "fixed"
  | learned => "learned"
  | generated => "generated"

/-- Fixed entries first, then learned ones, then generated ones. -/
def rank : Origin → Nat
  | fixed => 0
  | learned => 1
  | generated => 2

/-- The origin with a given written form. -/
def ofText? : String → Option Origin
  | "fixed" => some fixed
  | "learned" => some learned
  | "generated" => some generated
  | _ => none

end Origin

/-- A sequence of tokens with a category. -/
structure Entry where
  tokens : List String
  category : Category
  origin : Origin
deriving DecidableEq, Repr, Inhabited

namespace Entry

/-- By tokens, category and origin. -/
def cmp (a b : Entry) : Ordering :=
  ((List.compareLex compare a.tokens b.tokens).then (a.category.cmp b.category)).then
    (compare a.origin.rank b.origin.rank)

/-- The written form, without the origin. -/
def text (e : Entry) : String := " ".intercalate e.tokens ++ " :- " ++ e.category.text

/-- Read an origin; without a mark an entry is fixed. -/
def readOrigin : Reader Origin := fun s =>
  match trimStart s with
  | '@' :: s => do
    let (name, s) ← Reader.readName none s
    match Origin.ofText? name with
    | some o => return (o, s)
    | none => .error (.unknownOrigin name)
  | s => return (.fixed, s)

/-- Read one entry from a line. -/
def parse (sig : Signature) (line : String) : Except ReadError Entry :=
  match splitOnce [':', '-'] line.toList with
  | none => .error (.noSeparator line)
  | some (left, right) => do
    let tokens := (wordsFrom left []).map String.ofList
    if tokens.isEmpty then .error (.entryNoTokens line)
    let (category, rest) ← Reader.readCategory sig right
    let (origin, rest) ← readOrigin rest
    Reader.expectEnd rest
    return ⟨tokens, category, origin⟩

end Entry

/-- Read the lines of a text that are neither blank nor comments (`//`). The first failure is
reported with the number of its line. -/
def readLines {α : Type} (read : String → Except ReadError α) (src : String) :
    Except ReadError (List α) :=
  let numbered := (lines src).zipIdx 1
  let kept := numbered.filterMap fun (line, number) =>
    let line := trim line.toList
    if line.isEmpty || (after? ['/', '/'] line).isSome then none
    else some (String.ofList line, number)
  kept.mapM fun (line, number) =>
    match read line with
    | .ok a => .ok a
    | .error e => .error (.atLine number e)

/-- Read entries, one to a line. -/
def Entry.parseLines (sig : Signature) (src : String) : Except ReadError (List Entry) :=
  readLines (Entry.parse sig) src

/-- Entries that differ in tokens or category, oldest first. -/
structure Lexicon where
  entries : List Entry := []
deriving DecidableEq, Repr, Inhabited

namespace Lexicon

/-- An entry with these tokens and this category is present. -/
def contains (l : Lexicon) (e : Entry) : Bool :=
  l.entries.any fun e' => e'.tokens == e.tokens && e'.category == e.category

/-- Add an entry unless one with its tokens and category is present. -/
def add (l : Lexicon) (e : Entry) : Lexicon :=
  if l.contains e then l else ⟨l.entries ++ [e]⟩

/-- The lexicon of a list of entries. -/
def ofList (es : List Entry) : Lexicon := es.foldl add {}

/-- Read a lexicon, one entry to a line. -/
def parse (sig : Signature) (src : String) : Except ReadError Lexicon :=
  (Entry.parseLines sig src).map ofList

/-- The entries of exactly these tokens. -/
def lookup (l : Lexicon) (tokens : List String) : List Entry :=
  l.entries.filter fun e => e.tokens == tokens

/-- The length of the longest entry. -/
def maxLength (l : Lexicon) : Nat := l.entries.foldl (fun m e => max m e.tokens.length) 0

end Lexicon

/-- A source of entries for the tokens of a span. -/
structure Provider where
  /-- The entries of exactly these tokens. -/
  lookup : List String → List Entry
  /-- No entry is longer; longer spans are not asked about. -/
  maxLength : Nat

namespace Provider

/-- The entries of a lexicon. -/
def ofLexicon (l : Lexicon) : Provider := ⟨l.lookup, l.maxLength⟩

/-- The entry with which an unknown word is skipped. -/
def skipEntry (tokens : List String) : Entry := ⟨tokens, .empty, .generated⟩

/-- The same entries, and an entry that skips it for every single word without one. -/
def skipping (p : Provider) : Provider where
  lookup tokens :=
    let found := p.lookup tokens
    if found.isEmpty && tokens.length == 1 then [skipEntry tokens] else found
  maxLength := max p.maxLength 1

end Provider

end Categorial
