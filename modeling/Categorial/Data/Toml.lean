import Categorial.Data.Json

/-!
# TOML

Plain data in TOML: key-value lines, tables and arrays of tables under headers, dotted and quoted keys,
inline tables, arrays over several lines, all forms of strings, integers in four bases, and numbers
with point or exponent. Dates and times are not plain data.

* `Toml.Node`: a document being built; it remembers how each table came about, since a table must not
  be defined twice.
* `Toml.parse?`: the data a document stands for.
-/

namespace Categorial.Toml

/-! ## Documents being built -/

/-- How a table came about. -/
inductive Origin where
  /-- By a header of its own. -/
  | header
  /-- By the header of a table inside it. -/
  | implied
  /-- By a dotted key. -/
  | dotted
deriving DecidableEq

/-- A part of a document. -/
inductive Node where
  | leaf (d : Data)
  | table (origin : Origin) (members : List (String × Node))
  | tables (items : List (List (String × Node)))

/-- The members of a table. -/
abbrev Members := List (String × Node)

/-- Replace the value under a key. -/
def Members.set (key : String) (n : Node) (ms : Members) : Members :=
  ms.map fun m => if m.1 == key then (key, n) else m

/-- Change the last item of a list. -/
def updateLast {α : Type} (f : α → Option α) : List α → Option (List α)
  | [] => none
  | [a] => (f a).map fun b => [b]
  | a :: rest => (updateLast f rest).map (a :: ·)

/-- Put a value under a dotted key. The tables on the way come about by dotted keys. -/
def putKey (d : Data) : (path : List String) → Members → Option Members
  | [], _ => none
  | [key], ms => if (ms.lookup key).isSome then none else some (ms ++ [(key, .leaf d)])
  | key :: next :: rest, ms =>
    match ms.lookup key with
    | none => (putKey d (next :: rest) []).map fun sub => ms ++ [(key, .table .dotted sub)]
    | some (.table .dotted sub) =>
      (putKey d (next :: rest) sub).map fun sub => ms.set key (.table .dotted sub)
    | some (.table .implied sub) =>
      if rest.isEmpty then none
      else (putKey d (next :: rest) sub).map fun sub => ms.set key (.table .implied sub)
    | some (.tables items) =>
      if rest.isEmpty then none
      else (updateLast (putKey d (next :: rest)) items).map fun items => ms.set key (.tables items)
    | some _ => none

/-- Go down a path, making tables where there are none, and change the members found there. -/
def descend (f : Members → Option Members) : (path : List String) → Members → Option Members
  | [], ms => f ms
  | key :: rest, ms =>
    match ms.lookup key with
    | none => (descend f rest []).map fun sub => ms ++ [(key, .table .implied sub)]
    | some (.table origin sub) =>
      (descend f rest sub).map fun sub => ms.set key (.table origin sub)
    | some (.tables items) => (updateLast (descend f rest) items).map fun items =>
        ms.set key (.tables items)
    | some (.leaf _) => none

/-- Define a table by its header. -/
def defineTable (key : String) (ms : Members) : Option Members :=
  match ms.lookup key with
  | none => some (ms ++ [(key, .table .header [])])
  | some (.table .implied sub) => some (ms.set key (.table .header sub))
  | some _ => none

/-- Add a table to an array of tables. -/
def addTable (key : String) (ms : Members) : Option Members :=
  match ms.lookup key with
  | none => some (ms ++ [(key, .tables [[]])])
  | some (.tables items) => some (ms.set key (.tables (items ++ [[]])))
  | some _ => none

mutual

/-- The data of a part of a document. -/
def Node.data : Node → Data
  | .leaf d => d
  | .table _ ms => .table (membersData ms)
  | .tables items => .list (itemsData items)

/-- The data of members. -/
def membersData : List (String × Node) → List (String × Data)
  | [] => []
  | (key, n) :: rest => (key, n.data) :: membersData rest

/-- The data of the tables of an array. -/
def itemsData : List (List (String × Node)) → List Data
  | [] => []
  | ms :: rest => .table (membersData ms) :: itemsData rest

end

/-! ## Reading -/

open Json (Parser hexDigit? ofDigits)

/-- The text after blanks. -/
def skipSpace (s : List Char) : List Char := s.dropWhile fun c => c == ' ' || c == '\t'

/-- The text after a line end. -/
def newline? : List Char → Option (List Char)
  | '\n' :: s => some s
  | '\r' :: '\n' :: s => some s
  | _ => none

/-- A control character that no text may hold. -/
def isControl (c : Char) : Bool := (c.toNat < 32 && c != '\t') || c.toNat == 127

/-- The text after a comment, if one starts here. -/
def skipComment? : List Char → Option (List Char)
  | '#' :: s =>
    let rest := s.dropWhile fun c => !isControl c
    match rest with
    | [] => some []
    | '\n' :: _ => some rest
    | '\r' :: '\n' :: _ => some rest
    | _ => none
  | s => some s

/-- The text after blanks, comments and line ends, at most `n` of them. -/
def skipFiller : (n : Nat) → List Char → Option (List Char)
  | 0, s => some s
  | n + 1, s =>
    match skipComment? (skipSpace s) with
    | none => none
    | some s =>
      match newline? s with
      | some s => skipFiller n s
      | none => some s

/-- The value of hexadecimal digits. -/
def hexValue? (ds : List Char) : Option Nat :=
  ds.foldlM (fun n c => (hexDigit? c).map fun d => n * 16 + d) 0

/-- A character by its code point. -/
def codePoint? (ds : List Char) : Option Char := do
  let n ← hexValue? ds
  if n < 0xD800 || (0xE000 ≤ n && n < 0x110000) then some (Char.ofNat n) else none

/-- The character behind a backslash. -/
def escape? : Char → Option Char
  | 'b' => some '\x08'
  | 't' => some '\t'
  | 'n' => some '\n'
  | 'f' => some '\x0c'
  | 'r' => some '\r'
  | '"' => some '"'
  | '\\' => some '\\'
  | _ => none

/-- An escape after its backslash: its character and the rest. -/
def readEscape? : Parser Char
  | 'u' :: a :: b :: c :: d :: s => (codePoint? [a, b, c, d]).map fun ch => (ch, s)
  | 'U' :: a :: b :: c :: d :: e :: f :: g :: h :: s =>
    (codePoint? [a, b, c, d, e, f, g, h]).map fun ch => (ch, s)
  | c :: s => (escape? c).map fun ch => (ch, s)
  | [] => none

/-- Read at most `n` characters of a string in double quotes, up to its closing quote. -/
def readBasic : (n : Nat) → (acc : List Char) → Parser String
  | 0, _, _ => none
  | n + 1, acc, s =>
    match s with
    | '"' :: s => some (String.ofList acc.reverse, s)
    | '\\' :: s =>
      match readEscape? s with
      | some (c, s) => readBasic n (c :: acc) s
      | none => none
    | c :: s => if isControl c then none else readBasic n (c :: acc) s
    | [] => none

/-- Read a string in single quotes, up to its closing quote. -/
def readLiteral : List Char → (acc : List Char) → Option (String × List Char)
  | '\'' :: s, acc => some (String.ofList acc.reverse, s)
  | c :: s, acc => if isControl c then none else readLiteral s (c :: acc)
  | [], _ => none

/-- The text after blanks and line ends. -/
def skipSpaceAndNewlines : List Char → List Char
  | ' ' :: s => skipSpaceAndNewlines s
  | '\t' :: s => skipSpaceAndNewlines s
  | '\n' :: s => skipSpaceAndNewlines s
  | '\r' :: '\n' :: s => skipSpaceAndNewlines s
  | s => s

/-- The text after a backslash at the end of a line: blanks and line ends go, at least one line
end. -/
def lineBreak? (s : List Char) : Option (List Char) :=
  (newline? (skipSpace s)).map skipSpaceAndNewlines

/-- Read at most `n` characters of a string in triple quotes `q`, up to its closing quotes. With
double quotes a backslash starts an escape. -/
def readTriple (q : Char) : (n : Nat) → (acc : List Char) → Parser String
  | 0, _, _ => none
  | n + 1, acc, s =>
    match s with
    | a :: b :: c :: rest =>
      if a == q && b == q && c == q then
        match rest with
        | d :: e :: rest' =>
          if d == q && e == q then some (String.ofList (q :: q :: acc).reverse, rest')
          else if d == q then some (String.ofList (q :: acc).reverse, e :: rest')
          else some (String.ofList acc.reverse, rest)
        | [d] =>
          if d == q then some (String.ofList (q :: acc).reverse, [])
          else some (String.ofList acc.reverse, rest)
        | [] => some (String.ofList acc.reverse, [])
      else if a == '\\' && q == '"' then
        match lineBreak? (b :: c :: rest) with
        | some s => readTriple q n acc s
        | none =>
          match readEscape? (b :: c :: rest) with
          | some (ch, s) => readTriple q n (ch :: acc) s
          | none => none
      else
        match newline? s with
        | some s => readTriple q n ('\n' :: acc) s
        | none => if isControl a then none else readTriple q n (a :: acc) (b :: c :: rest)
    | _ => none

/-- The text after a line end that directly follows opening triple quotes. -/
def dropFirstNewline (s : List Char) : List Char := (newline? s).getD s

/-- Read a string. -/
def readString : Parser String
  | '"' :: '"' :: '"' :: s => readTriple '"' s.length [] (dropFirstNewline s)
  | '\'' :: '\'' :: '\'' :: s => readTriple '\'' s.length [] (dropFirstNewline s)
  | '"' :: s => readBasic s.length [] s
  | '\'' :: s => readLiteral s []
  | _ => none

/-- A character of a bare key. -/
def isBareChar (c : Char) : Bool := c.isAlphanum || c == '_' || c == '-'

/-- Read a key without dots. -/
def readSimpleKey : Parser String
  | '"' :: s => readBasic s.length [] s
  | '\'' :: s => readLiteral s []
  | s =>
    match s.span isBareChar with
    | ([], _) => none
    | (key, rest) => some (String.ofList key, rest)

/-- Read at most `n` keys with dots between them. -/
def readKeyWithin : (n : Nat) → Parser (List String)
  | 0, _ => none
  | n + 1, s => do
    let (key, s) ← readSimpleKey (skipSpace s)
    match skipSpace s with
    | '.' :: s => do
      let (keys, s) ← readKeyWithin n s
      some (key :: keys, s)
    | _ => some ([key], s)

/-- Read a dotted key. -/
def readKey : Parser (List String) := fun s => readKeyWithin s.length s

/-! ### Numbers -/

/-- Digits with single underscores between them, without the underscores. -/
def grouped? (isDigit : Char → Bool) : List Char → Option (List Char)
  | [] => none
  | [c] => if isDigit c then some [c] else none
  | c :: '_' :: rest => if isDigit c then (grouped? isDigit rest).map (c :: ·) else none
  | c :: rest => if isDigit c then (grouped? isDigit rest).map (c :: ·) else none

/-- Digits of a decimal number that does not start with a zero, unless it is one. -/
def decimalDigits? (s : List Char) : Option (List Char) :=
  match s with
  | ['0'] => some ['0']
  | '0' :: _ => none
  | s => grouped? Char.isDigit s

/-- The digit counts in base `b`. -/
def isBaseDigit (b : Nat) (c : Char) : Bool := (hexDigit? c).any (· < b)

/-- An integer in base `b`. -/
def inBase? (b : Nat) (s : List Char) : Option Nat := do
  let ds ← grouped? (isBaseDigit b) s
  ds.foldlM (fun n c => (hexDigit? c).map fun d => n * b + d) 0

/-- An integer that fits 64 bits with a sign. -/
def signed? (negative : Bool) (n : Nat) : Option Data :=
  if negative then (if n ≤ Bits.positives then some (.int (-(n : Int))) else none)
  else if n < Bits.positives then some (.int n) else none

/-- The parts of a number before and after a character. -/
def splitAt? (p : Char → Bool) (s : List Char) : Option (List Char × List Char) :=
  match s.span fun c => !p c with
  | (_, []) => none
  | (before, _ :: rest) => some (before, rest)

/-- An exponent of ten. -/
def exponent? : List Char → Option Int
  | '-' :: s => (grouped? Char.isDigit s).map fun ds => -(ofDigits ds : Int)
  | '+' :: s => (grouped? Char.isDigit s).map fun ds => (ofDigits ds : Int)
  | s => (grouped? Char.isDigit s).map fun ds => (ofDigits ds : Int)

/-- The number nearest to `digits · 10^e`. -/
def nearest (digits : Nat) (e : Int) : Float :=
  if digits = 0 then 0.0
  else if 400 < e then 1.0 / 0.0
  else if e < -2000 - ((Nat.toDigits 10 digits).length : Int) then 0.0
  else Float.ofScientific digits (e < 0) e.natAbs

/-- A number with a point or an exponent. -/
def float? (negative : Bool) (s : List Char) : Option Data := do
  let (mantissa, e) ← match splitAt? (fun c => c == 'e' || c == 'E') s with
    | some (m, x) => (exponent? x).map fun e => (m, e)
    | none => some (s, 0)
  let (whole, fraction) ← match splitAt? (· == '.') mantissa with
    | some (w, f) => do
      let w ← decimalDigits? w
      let f ← grouped? Char.isDigit f
      some (w, f)
    | none => (decimalDigits? mantissa).map fun w => (w, [])
  let x := nearest (ofDigits (whole ++ fraction)) (e - (fraction.length : Int))
  if negative then some (.float (-x))
  else if x.isInf then none
  else some (.float x)

/-- A number without its sign. -/
def unsigned? (negative : Bool) (s : List Char) : Option Data :=
  match s with
  | ['i', 'n', 'f'] => some (.float (if negative then -(1.0 / 0.0) else 1.0 / 0.0))
  | ['n', 'a', 'n'] => some (.float (0.0 / 0.0))
  | s =>
    match decimalDigits? s with
    | some ds => signed? negative (ofDigits ds)
    | none => float? negative s

/-- The value of a word: a truth value or a number. -/
def word? (s : List Char) : Option Data :=
  match s with
  | ['t', 'r', 'u', 'e'] => some (.bool true)
  | ['f', 'a', 'l', 's', 'e'] => some (.bool false)
  | '0' :: 'x' :: ds => (inBase? 16 ds).bind (signed? false)
  | '0' :: 'o' :: ds => (inBase? 8 ds).bind (signed? false)
  | '0' :: 'b' :: ds => (inBase? 2 ds).bind (signed? false)
  | '+' :: s => unsigned? false s
  | '-' :: s => unsigned? true s
  | s => unsigned? false s

/-- A character of a truth value or a number. -/
def isWordChar (c : Char) : Bool := c.isAlphanum || c == '_' || c == '+' || c == '-' || c == '.' || c == ':'

/-! ### Values and documents -/

/-- Read at most `n` items of an array, up to its closing bracket. -/
def readItems (value : Parser Data) : (n : Nat) → (acc : List Data) → Parser (List Data)
  | 0, _, _ => none
  | n + 1, acc, s =>
    match skipFiller s.length s with
    | some (']' :: s) => some (acc.reverse, s)
    | some s =>
      match value s with
      | none => none
      | some (d, s) =>
        match skipFiller s.length s with
        | some (',' :: s) => readItems value n (d :: acc) s
        | some (']' :: s) => some ((d :: acc).reverse, s)
        | _ => none
    | none => none

/-- Read a key and its value. -/
def readPair (value : Parser Data) : Parser (List String × Data) := fun s => do
  let (key, s) ← readKey s
  match skipSpace s with
  | '=' :: s => do
    let (d, s) ← value (skipSpace s)
    some ((key, d), s)
  | _ => none

/-- Read at most `n` pairs of an inline table, up to its closing bracket. -/
def readPairs (value : Parser Data) : (n : Nat) → (ms : Members) → Parser Members
  | 0, _, _ => none
  | n + 1, ms, s =>
    match readPair value s with
    | none => none
    | some ((key, d), s) =>
      match putKey d key ms with
      | none => none
      | some ms =>
        match skipSpace s with
        | ',' :: s => readPairs value n ms s
        | '\x7d' :: s => some (ms, s)
        | _ => none

/-- Read a value with at most `depth` nested arrays and inline tables. -/
def readValue : (depth : Nat) → Parser Data
  | depth, s =>
    match s with
    | '"' :: _ => (readString s).map fun p => (.text p.1, p.2)
    | '\'' :: _ => (readString s).map fun p => (.text p.1, p.2)
    | '[' :: s =>
      match depth with
      | 0 => none
      | depth + 1 => (readItems (readValue depth) (s.length + 1) [] s).map fun p => (.list p.1, p.2)
    | '\x7b' :: s =>
      match depth with
      | 0 => none
      | depth + 1 =>
        match skipSpace s with
        | '\x7d' :: s => some (.table [], s)
        | s => (readPairs (readValue depth) s.length [] s).map fun p => (.table (membersData p.1), p.2)
    | s =>
      let (word, rest) := s.span isWordChar
      (word? word).map fun d => (d, rest)

/-- The greatest number of nested arrays and inline tables. -/
def maxDepth : Nat := 80

/-- A document being read: the root and the path of the present table. -/
structure Document where
  root : Members := []
  path : List String := []

/-- Apply a change to the last key of a path below the tables before it. -/
def atLast (f : String → Members → Option Members) (path : List String) (root : Members) :
    Option Members :=
  match path.getLast? with
  | some key => descend (f key) path.dropLast root
  | none => none

/-- Read a header or a key-value pair. -/
def readStatement (doc : Document) : Parser Document := fun s =>
  match s with
  | '[' :: '[' :: s => do
    let (path, s) ← readKey s
    match skipSpace s with
    | ']' :: ']' :: s => (atLast addTable path doc.root).map fun root => (⟨root, path⟩, s)
    | _ => none
  | '[' :: s => do
    let (path, s) ← readKey s
    match skipSpace s with
    | ']' :: s => (atLast defineTable path doc.root).map fun root => (⟨root, path⟩, s)
    | _ => none
  | s => do
    let ((key, d), s) ← readPair (readValue maxDepth) s
    (descend (putKey d key) doc.path doc.root).map fun root => ({ doc with root }, s)

/-- Read at most `n` lines. -/
def readLines : (n : Nat) → Document → List Char → Option Document
  | 0, doc, s => if s.isEmpty then some doc else none
  | n + 1, doc, s =>
    match skipFiller s.length s with
    | none => none
    | some [] => some doc
    | some s =>
      match readStatement doc s with
      | none => none
      | some (doc, s) =>
        match skipComment? (skipSpace s) with
        | none => none
        | some [] => some doc
        | some s =>
          match newline? s with
          | some s => readLines n doc s
          | none => none

/-- The text after a byte order mark. -/
def dropMark : List Char → List Char
  | '\uFEFF' :: s => s
  | s => s

/-- The data a document stands for. -/
def parse? (s : String) : Option Data :=
  let s := dropMark s.toList
  (readLines (s.length + 1) {} s).map fun doc => .table (membersData doc.root)

end Categorial.Toml
