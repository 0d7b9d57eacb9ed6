import Categorial.Category
import Categorial.Text.Blank

/-!
# Reading texts

A reader takes a text from its front and gives what it read and the rest, or the cause of failure.

* `ReadError`, `ReadError.message`: the causes and their wording.
* `Reader`: the readers.
* `readName`, `expect`, `expectEnd`: the smallest readers.
-/

namespace Categorial

/-- The place of a missing name. -/
inductive NameRole where
  | ty
  | syn
  | term
  | binder
deriving DecidableEq, Repr

/-- The word that announces the place of a missing name. -/
def NameRole.label : NameRole → String
  | ty => "type"
  | syn => "syntax"
  | term => "term"
  | binder => "binder"

/-- Why a text cannot be read. -/
inductive ReadError where
  | noName (role : Option NameRole) (rest : String)
  | noChar (c : Char) (rest : String)
  | trailing (rest : String)
  | unknownType (name : String)
  | unknownConstant (name : String)
  | illTyped (t : Term)
  | illTypedSem (syn : Syn) (t : Term)
  | unknownOrigin (name : String)
  | noSeparator (line : String)
  | entryNoTokens (line : String)
  | exampleNoTab
  | exampleNoTokens
  | atLine (number : Nat) (cause : ReadError)
deriving DecidableEq, Repr

namespace ReadError

/-- The wording of a failure. -/
def message : ReadError → String
  | noName role rest =>
    (match role with
      | some r => r.label ++ ": "
      | none => "") ++ "name: couldn't match ^\\$?[a-zA-Z0-9_]+ at " ++ rest
  | noChar c rest => "couldn't match " ++ c.toString ++ " at " ++ rest
  | trailing rest => "trailing input: " ++ rest
  | unknownType name => "unknown atomic type '" ++ name ++ "'"
  | unknownConstant name => "unknown constant '" ++ name ++ "'"
  | illTyped t => "ill-typed term: " ++ t.text
  | illTypedSem syn t => "ill-typed semantics for " ++ syn.text ++ ": " ++ t.text
  | unknownOrigin name => "unknown entry origin @" ++ name
  | noSeparator line => "missing ':-' in entry: " ++ line
  | entryNoTokens line => "entry has no tokens: " ++ line
  | exampleNoTab => "expected tokens<TAB>term"
  | exampleNoTokens => "no tokens"
  | atLine number cause => "line " ++ toString number ++ ": " ++ cause.message

end ReadError

/-- A reader of `α` from the front of a text. -/
abbrev Reader (α : Type) := List Char → Except ReadError (α × List Char)

namespace Reader

open Text

/-- A character of a name. -/
def isNameChar (c : Char) : Bool := c.isAlphanum || c == '_'

/-- Letters, digits and underscores, at least one, at the front of a text. -/
def plainName? (s : List Char) : Option (List Char × List Char) :=
  match s.span isNameChar with
  | ([], _) => none
  | (name, rest) => some (name, rest)

/-- A name at the front of a text: a plain name, or one after a dollar sign. -/
def name? : List Char → Option (List Char × List Char)
  | '$' :: s => (plainName? s).map fun p => ('$' :: p.1, p.2)
  | s => plainName? s

/-- Read a name. -/
def readName (role : Option NameRole) : Reader String := fun s =>
  match name? s with
  | some (name, rest) => .ok (String.ofList name, rest)
  | none => .error (.noName role (String.ofList s))

/-- The text after the character `c`. -/
def expect (c : Char) (s : List Char) : Except ReadError (List Char) :=
  match s with
  | d :: rest => if d = c then .ok rest else .error (.noChar c (String.ofList s))
  | [] => .error (.noChar c "")

/-- Only blanks are left. -/
def expectEnd (s : List Char) : Except ReadError Unit :=
  match trimStart s with
  | [] => .ok ()
  | rest => .error (.trailing (String.ofList rest))

/-- Read a whole text. -/
def readAll {α : Type} (r : Reader α) (s : String) : Except ReadError α := do
  let (a, rest) ← r s.toList
  expectEnd rest
  return a

end Reader

end Categorial
