import Categorial.Lexicon
import Categorial.Rule.Combine

/-!
# Grammars

A grammar holds all that a parse needs besides the lexicon and the scores: the signature, the
registered rules, the categories accepted at the root, whether unknown words may be skipped, and a
map that drops details of a meaning before it is compared with a target.

* `Grammar.isRoot`, `Grammar.provider`, `Grammar.text`.
-/

namespace Categorial

/-- Signature, rules and root categories. -/
structure Grammar where
  sig : Signature := {}
  rules : RuleSet := {}
  /-- The categories accepted at the root, in increasing order. -/
  roots : List Syn := [.atom "N", .atom "NP", .atom "PP", .atom "S"]
  wordSkipping : Bool := false
  /-- Drops details of a meaning before it is compared with a target. -/
  underspecify : Term → Term := id

namespace Grammar

/-- A set of root categories: increasing, without repetitions. -/
def rootSet (l : List Syn) : List Syn := (l.mergeSort fun a b => (a.cmp b).isLE).eraseReps

/-- The category is accepted at the root. -/
def isRoot (g : Grammar) (s : Syn) : Bool := g.roots.contains s

/-- The entries a parser sees: those of the lexicon and, if words may be skipped, an entry for every
unknown word. -/
def provider (g : Grammar) (l : Lexicon) : Provider :=
  if g.wordSkipping then (Provider.ofLexicon l).skipping else .ofLexicon l

/-- The written form: roots, skipping, constants and rules. -/
def text (g : Grammar) : String :=
  "//** roots:" ++ String.join (g.roots.map fun r => " " ++ r.text) ++ "\n" ++
    "//** word skipping: " ++ (if g.wordSkipping then "true" else "false") ++ "\n" ++
    String.join (g.sig.constants.entries.map fun (n, ty) => "//** " ++ n ++ ": " ++ ty.text ++ "\n") ++
    g.rules.text

end Grammar

end Categorial
