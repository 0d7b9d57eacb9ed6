import Categorial.Lexicon

/-!
# Datasets

An example pairs a tokenized sentence with a target meaning. A dataset has one example to a line, the
tokens and the term separated by a tab.

* `Example.parse`, `Dataset.parse`.
-/

namespace Categorial

open Text

/-- A sentence with its target meaning. -/
structure Example where
  tokens : List String
  target : Term
deriving DecidableEq, Repr, Inhabited

/-- Read one example from a line. -/
def Example.parse (sig : Signature) (line : String) : Except ReadError Example :=
  match splitOnce ['\t'] line.toList with
  | none => .error .exampleNoTab
  | some (left, right) => do
    let tokens := (wordsFrom left []).map String.ofList
    if tokens.isEmpty then .error .exampleNoTokens
    let target ← Term.parse sig (String.ofList (trim right))
    return ⟨tokens, target⟩

/-- A list of examples. -/
abbrev Dataset := List Example

/-- Read a dataset, one example to a line. -/
def Dataset.parse (sig : Signature) (src : String) : Except ReadError Dataset :=
  readLines (Example.parse sig) src

end Categorial
