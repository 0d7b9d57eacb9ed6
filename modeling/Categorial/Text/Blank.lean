/-!
# Blanks, words and lines

White space is the Unicode property `White_Space`. Texts are handled as lists of characters, and
split by structural recursion.

* `isBlank`: the property.
* `trimStart`, `trim`: a text without its outer blanks.
* `words`: the maximal runs without blanks.
* `lines`: the lines of a text; a line feed ends a line, and a carriage return before it goes too.
-/

namespace Categorial.Text

/-- The property `White_Space`. -/
def isBlank (c : Char) : Bool :=
  let n := c.toNat
  (9 ≤ n && n ≤ 13) || n == 0x20 || n == 0x85 || n == 0xA0 || n == 0x1680 ||
    (0x2000 ≤ n && n ≤ 0x200A) || n == 0x2028 || n == 0x2029 || n == 0x202F || n == 0x205F ||
    n == 0x3000

/-- The text from its first non-blank character on. -/
def trimStart (s : List Char) : List Char := s.dropWhile isBlank

/-- The text up to its last non-blank character. -/
def trimEnd (s : List Char) : List Char := (s.reverse.dropWhile isBlank).reverse

/-- The text without its outer blanks. -/
def trim (s : List Char) : List Char := trimEnd (trimStart s)

/-- Split at blanks; `acc` holds the current word backwards. -/
def wordsFrom : List Char → List Char → List (List Char)
  | [], acc => if acc.isEmpty then [] else [acc.reverse]
  | c :: s, acc =>
    if isBlank c then
      if acc.isEmpty then wordsFrom s [] else acc.reverse :: wordsFrom s []
    else wordsFrom s (c :: acc)

/-- The maximal runs of non-blank characters. -/
def words (s : String) : List String := (wordsFrom s.toList []).map String.ofList

/-- A line read backwards, without the carriage return that stood before its line feed. -/
def closeLine : List Char → List Char
  | '\r' :: acc => acc.reverse
  | acc => acc.reverse

/-- Split after line feeds; `acc` holds the current line backwards. A last line without a line
feed keeps its carriage return. -/
def linesFrom : List Char → List Char → List (List Char)
  | [], acc => if acc.isEmpty then [] else [acc.reverse]
  | c :: s, acc =>
    if c = '\n' then closeLine acc :: linesFrom s [] else linesFrom s (c :: acc)

/-- The lines of a text. -/
def lines (s : String) : List String := (linesFrom s.toList []).map String.ofList

/-- The rest of a text that starts with `lead`. -/
def after? : (lead s : List Char) → Option (List Char)
  | [], s => some s
  | _ :: _, [] => none
  | p :: lead, c :: s => if p = c then after? lead s else none

/-- Cut a text in two at the first occurrence of `sep`, which belongs to neither part. -/
def splitOnce (sep : List Char) : List Char → Option (List Char × List Char)
  | [] => if sep.isEmpty then some ([], []) else none
  | c :: s =>
    match after? sep (c :: s) with
    | some rest => some ([], rest)
    | none => (splitOnce sep s).map fun p => (c :: p.1, p.2)

end Categorial.Text
