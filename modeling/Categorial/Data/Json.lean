import Categorial.Data.Basic
import Categorial.Decimal.Layout

/-!
# JSON

Plain data in JSON. Numbers without point and exponent that fit 64 bits are integers. Other numbers
are read from the digits that fit a 64-bit word, scaled by one multiplication or division at a time.
A text with half of a surrogate pair stands for no value, nor does a list or table with more than 126
others around it.

* `Json.parse?`: the data a text stands for.
* `Json.render`: the text of data, without blanks.
-/

namespace Categorial.Json

/-! ## Reading -/

/-- A reader of `α` from the front of a text. -/
abbrev Parser (α : Type) := List Char → Option (α × List Char)

/-- The text from its first character that is no JSON blank. -/
def skipBlanks (s : List Char) : List Char :=
  s.dropWhile fun c => c == ' ' || c == '\n' || c == '\t' || c == '\r'

/-- The value of a hexadecimal digit. -/
def hexDigit? (c : Char) : Option Nat :=
  if '0' ≤ c && c ≤ '9' then some (c.toNat - 48)
  else if 'a' ≤ c && c ≤ 'f' then some (c.toNat - 87)
  else if 'A' ≤ c && c ≤ 'F' then some (c.toNat - 55)
  else none

/-- The value of four hexadecimal digits. -/
def hex4? (a b c d : Char) : Option Nat := do
  let a ← hexDigit? a
  let b ← hexDigit? b
  let c ← hexDigit? c
  let d ← hexDigit? d
  some (((a * 16 + b) * 16 + c) * 16 + d)

/-- The character behind a backslash. -/
def escape? : Char → Option Char
  | '"' => some '"'
  | '\\' => some '\\'
  | '/' => some '/'
  | 'b' => some '\x08'
  | 'f' => some '\x0c'
  | 'n' => some '\n'
  | 'r' => some '\r'
  | 't' => some '\t'
  | _ => none

/-- The character of two surrogate code units. -/
def ofSurrogates? (high low : Nat) : Option Char :=
  if 0xDC00 ≤ low && low < 0xE000 then
    some (Char.ofNat (0x10000 + (high - 0xD800) * 0x400 + (low - 0xDC00)))
  else none

/-- A piece of a written text: a character, or a code unit given by its number. -/
inductive Piece where
  | char (c : Char)
  | unit (n : Nat)

/-- Read the pieces of a text up to its closing quote; `acc` holds them backwards. -/
def readPieces : List Char → (acc : List Piece) → Option (List Piece × List Char)
  | '"' :: s, acc => some (acc.reverse, s)
  | '\\' :: 'u' :: a :: b :: c :: d :: s, acc =>
    match hex4? a b c d with
    | some n => readPieces s (.unit n :: acc)
    | none => none
  | '\\' :: c :: s, acc =>
    match escape? c with
    | some ch => readPieces s (.char ch :: acc)
    | none => none
  | c :: s, acc => if c.toNat < 32 then none else readPieces s (.char c :: acc)
  | [], _ => none

/-- The text of pieces, if every surrogate has its other half behind or before it; `acc` holds the
characters before them backwards. -/
def joinPieces : List Piece → (acc : List Char) → Option String
  | [], acc => some (String.ofList acc.reverse)
  | .char c :: rest, acc => joinPieces rest (c :: acc)
  | .unit n :: .unit m :: rest, acc =>
    if 0xD800 ≤ n && n < 0xDC00 then
      match ofSurrogates? n m with
      | some c => joinPieces rest (c :: acc)
      | none => none
    else if 0xDC00 ≤ n && n < 0xE000 then none
    else joinPieces (.unit m :: rest) (Char.ofNat n :: acc)
  | .unit n :: rest, acc =>
    if 0xD800 ≤ n && n < 0xE000 then none else joinPieces rest (Char.ofNat n :: acc)

/-- Read a text after its opening quote; nothing if it stands for no text. -/
def readText : Parser (Option String) := fun s =>
  (readPieces s []).map fun p => (joinPieces p.1 [], p.2)

/-- The digits at the front of a text, at least one. -/
def digits? (s : List Char) : Option (List Char × List Char) :=
  match s.span Char.isDigit with
  | ([], _) => none
  | (ds, rest) => some (ds, rest)

/-- The number that digits stand for. -/
def ofDigits (ds : List Char) : Nat := ds.foldl (fun n c => n * 10 + (c.toNat - 48)) 0

/-- The digits before the point: a single zero, or digits that do not start with one. -/
def integerPart? (s : List Char) : Option (List Char × List Char) :=
  match s with
  | '0' :: c :: rest => if c.isDigit then none else some (['0'], c :: rest)
  | s => digits? s

/-- The digits behind the point; none without a point. -/
def fractionPart? : List Char → Option (List Char × List Char)
  | '.' :: s => digits? s
  | s => some ([], s)

/-- The exponent of ten; none if it is not written. -/
def exponentPart? (s : List Char) : Option (Option Int × List Char) :=
  match s with
  | c :: s' =>
    if c == 'e' || c == 'E' then
      match s' with
      | '-' :: s'' => (digits? s'').map fun p => (some (-(ofDigits p.1 : Int)), p.2)
      | '+' :: s'' => (digits? s'').map fun p => (some (ofDigits p.1 : Int), p.2)
      | s'' => (digits? s'').map fun p => (some (ofDigits p.1 : Int), p.2)
    else some (none, s)
  | [] => some (none, s)

/-- Take digits into a 64-bit word up to the first that does not fit: the word, and how many digits
are left over. -/
def takeDigits : List Char → (word : Nat) → Nat × Nat
  | [], n => (n, 0)
  | c :: rest, n =>
    let m := n * 10 + (c.toNat - 48)
    if m < Bits.words then takeDigits rest m else (n, rest.length + 1)

/-- A power of ten. -/
def pow10 (n : Nat) : Float := Float.ofScientific 1 false n

/-- Divide by `10^n`, in steps of `10^308`. -/
def divPow (x : Float) (n : Nat) : Float :=
  if n ≤ 308 then x / pow10 n
  else if x == 0.0 then x
  else divPow (x / pow10 308) (n - 308)
termination_by n

/-- The number `n · 10^exponent`, infinite if it is out of range. -/
def scale (n : Nat) (exponent : Int) : Float :=
  let x := n.toUInt64.toFloat
  if 0 ≤ exponent then
    if exponent ≤ 308 then x * pow10 exponent.toNat
    else if x == 0.0 then x
    else 1.0 / 0.0
  else divPow x (-exponent).toNat

/-- The number of an integer part, a fraction and an exponent. Each digit before the point that is
left over counts as a power of ten; behind the point the word takes digits again, up to the first that
does not fit. -/
def number (negative : Bool) (whole fraction : List Char) (exponent : Option Int) : Data :=
  let (n, left) := takeDigits whole 0
  if fraction.isEmpty && exponent.isNone && left == 0 &&
      (!negative || (0 < n && n ≤ Bits.positives)) then
    .int (if negative then -(n : Int) else n)
  else
    let (n, dropped) := takeDigits fraction n
    let x := scale n (exponent.getD 0 + (left : Int) - ((fraction.length - dropped : Nat) : Int))
    .float (if negative then -x else x)

/-- Read a number. -/
def readNumber : Parser Data := fun s => do
  let (negative, s) := match s with
    | '-' :: s => (true, s)
    | s => (false, s)
  let (whole, s) ← integerPart? s
  let (fraction, s) ← fractionPart? s
  let (exponent, s) ← exponentPart? s
  some (number negative whole fraction exponent, s)

/-- The rest of a text that starts with `word`. -/
def afterWord? : (word : List Char) → List Char → Option (List Char)
  | [], s => some s
  | c :: word, d :: s => if c = d then afterWord? word s else none
  | _ :: _, [] => none

/-- Read at most `n` items of a list, up to its closing bracket; `acc` holds earlier items. -/
def readItems (value : Parser Data) : (n : Nat) → (acc : List Data) → Parser (List Data)
  | 0, _, _ => none
  | n + 1, acc, s =>
    match value s with
    | none => none
    | some (d, s) =>
      match skipBlanks s with
      | ',' :: s => readItems value n (d :: acc) s
      | ']' :: s => some ((d :: acc).reverse, s)
      | _ => none

/-- A member as it is read; its name may be no text. -/
abbrev RawMember := Option String × Data

/-- Read a member of a table. -/
def readMember (value : Parser Data) : Parser RawMember := fun s =>
  match skipBlanks s with
  | '"' :: s => do
    let (name, s) ← readText s
    match skipBlanks s with
    | ':' :: s => do
      let (d, s) ← value s
      some ((name, d), s)
    | _ => none
  | _ => none

/-- Read at most `n` members of a table, up to its closing bracket; `acc` holds earlier ones. -/
def readMembers (value : Parser Data) : (n : Nat) → (acc : List RawMember) → Parser (List RawMember)
  | 0, _, _ => none
  | n + 1, acc, s =>
    match readMember value s with
    | none => none
    | some (m, s) =>
      match skipBlanks s with
      | ',' :: s => readMembers value n (m :: acc) s
      | '\x7d' :: s => some ((m :: acc).reverse, s)
      | _ => none

/-- The table of members, if all their names are texts. -/
def tableOf (ms : List RawMember) : Data :=
  match ms.mapM fun (name, d) => name.map fun name => (name, d) with
  | some ms => .table ms
  | none => .unusable

/-- Read a list after its opening bracket. -/
def readList (value : Parser Data) : Parser Data := fun s =>
  match skipBlanks s with
  | ']' :: s => some (.list [], s)
  | s => (readItems value s.length [] s).map fun p => (.list p.1, p.2)

/-- Read a table after its opening bracket. -/
def readTable (value : Parser Data) : Parser Data := fun s =>
  match skipBlanks s with
  | '\x7d' :: s => some (.table [], s)
  | s => (readMembers value s.length [] s).map fun p => (tableOf p.1, p.2)

/-- Read a value that is no list and no table. -/
def readLeaf : Parser Data
  | '"' :: s => (readText s).map fun p => ((p.1.map Data.text).getD .unusable, p.2)
  | 't' :: s => (afterWord? "rue".toList s).map fun s => (.bool true, s)
  | 'f' :: s => (afterWord? "alse".toList s).map fun s => (.bool false, s)
  | 'n' :: s => (afterWord? "ull".toList s).map fun s => (.null, s)
  | s => readNumber s

/-- What can follow in lists and tables that are passed over. -/
inductive Expect where
  | value
  | firstItem
  | member
  | firstMember
  | separator

/-- Pass over the rest of lists and tables, in at most `n` steps. `outer` tells the lists from the
tables among those that are open, innermost first. -/
def skipOpen : (n : Nat) → Expect → (outer : List Bool) → List Char → Option (List Char)
  | 0, _, _, _ => none
  | n + 1, .value, outer, s =>
    match skipBlanks s with
    | '[' :: s => skipOpen n .firstItem (true :: outer) s
    | '\x7b' :: s => skipOpen n .firstMember (false :: outer) s
    | s =>
      match readLeaf s with
      | some (_, s) => skipOpen n .separator outer s
      | none => none
  | n + 1, .firstItem, outer, s =>
    match skipBlanks s with
    | ']' :: s => skipOpen n .separator outer.tail s
    | s => skipOpen n .value outer s
  | n + 1, .firstMember, outer, s =>
    match skipBlanks s with
    | '\x7d' :: s => skipOpen n .separator outer.tail s
    | s => skipOpen n .member outer s
  | n + 1, .member, outer, s =>
    match readMember (fun s => some (.null, s)) s with
    | some (_, s) => skipOpen n .value outer s
    | none => none
  | _ + 1, .separator, [], s => some s
  | n + 1, .separator, isList :: outer, s =>
    match isList, skipBlanks s with
    | true, ',' :: s => skipOpen n .value (true :: outer) s
    | true, ']' :: s => skipOpen n .separator outer s
    | false, ',' :: s => skipOpen n .member (false :: outer) s
    | false, '\x7d' :: s => skipOpen n .separator outer s
    | _, _ => none

/-- Pass over a list or table that is nested too deeply. Every second step takes a character. -/
def skipDeep : Parser Data := fun s =>
  (skipOpen (2 * s.length + 2) .value [] s).map fun s => (.unusable, s)

/-- Read a value with at most `depth` nested lists and tables that count. -/
def readValue : (depth : Nat) → Parser Data
  | depth, s =>
    match skipBlanks s with
    | '[' :: s =>
      match depth with
      | 0 => skipDeep ('[' :: s)
      | depth + 1 => readList (readValue depth) s
    | '\x7b' :: s =>
      match depth with
      | 0 => skipDeep ('\x7b' :: s)
      | depth + 1 => readTable (readValue depth) s
    | s => readLeaf s

/-- The greatest number of nested lists and tables that count. -/
def maxDepth : Nat := 127

/-- The data a whole text stands for. -/
def parse? (s : String) : Option Data :=
  match readValue maxDepth s.toList with
  | some (d, rest) => if (skipBlanks rest).isEmpty then some d else none
  | none => none

/-! ## Writing -/

/-- A hexadecimal digit. -/
def hexChar (n : Nat) : Char := if n < 10 then Char.ofNat (48 + n) else Char.ofNat (87 + n)

/-- A character inside a written text. -/
def escaped (c : Char) : List Char :=
  match c with
  | '"' => ['\\', '"']
  | '\\' => ['\\', '\\']
  | '\n' => ['\\', 'n']
  | '\r' => ['\\', 'r']
  | '\t' => ['\\', 't']
  | '\x08' => ['\\', 'b']
  | '\x0c' => ['\\', 'f']
  | c =>
    if c.toNat < 32 then ['\\', 'u', '0', '0', hexChar (c.toNat / 16), hexChar (c.toNat % 16)]
    else [c]

/-- A text in quotes. -/
def quoted (s : String) : String :=
  "\"" ++ String.ofList (s.toList.flatMap escaped) ++ "\""

/-- A number; one that is not finite is written as nothing. -/
def floatText (x : Float) : String := if x.isFinite then Decimal.scientific x else "null"

mutual

/-- The text of a value. -/
def render : Data → String
  | .null => "null"
  | .bool true => "true"
  | .bool false => "false"
  | .int n => toString n
  | .float x => floatText x
  | .text s => quoted s
  | .list l => "[" ++ ",".intercalate (renderItems l) ++ "]"
  | .table l => "\x7b" ++ ",".intercalate (renderMembers l) ++ "\x7d"
  | .unusable => "null"

/-- The texts of the items of a list. -/
def renderItems : List Data → List String
  | [] => []
  | d :: rest => render d :: renderItems rest

/-- The texts of the members of a table. -/
def renderMembers : List (String × Data) → List String
  | [] => []
  | (name, d) :: rest => (quoted name ++ ":" ++ render d) :: renderMembers rest

end

end Categorial.Json
