import Categorial.Reader.Basic

/-!
# Reading syntactic categories

A syntactic category is a chain of primaries joined by slashes; a primary is a name or a category
in brackets.

* `Reader.readSyn`: a syntactic category at the front of a text.
* `Syn.parse`: a syntactic category that is the whole text.
-/

namespace Categorial

namespace Reader

open Text

/-- Read a name, or what `inner` reads in brackets. -/
def readPrimary (inner : Reader Syn) : Reader Syn := fun s =>
  match trimStart s with
  | '(' :: s => do
    let (syn, s) ← inner s
    let s ← expect ')' (trimStart s)
    return (syn, s)
  | s => do
    let (name, s) ← readName (some .syn) s
    return (.atom name, s)

/-- The slash at the front of a text, and the rest. -/
def slash? : List Char → Option (Slash × List Char)
  | '/' :: s => some (.forward, s)
  | '\\' :: s => some (.backward, s)
  | _ => none

/-- Read at most `n` further arguments of `result`. -/
def readArguments (primary : Reader Syn) : (n : Nat) → (result : Syn) → Reader Syn
  | 0, result, s => .ok (result, s)
  | n + 1, result, s =>
    match slash? (trimStart s) with
    | some (slash, s) => do
      let (arg, s) ← primary s
      readArguments primary n (.complex result slash arg) s
    | none => .ok (result, s)

/-- Read a syntactic category from a text of at most `n` characters. -/
def readSynWithin : (n : Nat) → Reader Syn
  | 0, s => .error (.noName (some .syn) (String.ofList s))
  | n + 1, s => do
    let primary := readPrimary (readSynWithin n)
    let (first, s) ← primary s
    readArguments primary s.length first s

/-- Read a syntactic category. -/
def readSyn : Reader Syn := fun s => readSynWithin s.length s

end Reader

/-- The syntactic category a text is the written form of. -/
def Syn.parse (s : String) : Except ReadError Syn := Reader.readAll Reader.readSyn s

end Categorial
