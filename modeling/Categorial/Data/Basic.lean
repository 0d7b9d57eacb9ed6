import Categorial.Bits

/-!
# Plain data

Settings and stored results are plain data: nothing, truth values, numbers, texts, lists and tables. A
table keeps its members in the order in which they were read, with repetitions. A part that is well
written but stands for no value can still be passed over.

* `Data`: the values.
* `Data.asText?` and its kin: a value of one kind.
* `Data.record?`: the members of a record, given as a table or as a list in order.
-/

namespace Categorial

/-- A plain value. -/
inductive Data where
  | null
  | bool (b : Bool)
  | int (n : Int)
  | float (x : Float)
  | text (s : String)
  | list (items : List Data)
  | table (members : List (String × Data))
  /-- What stands for no value: a text with half a character, or lists nested too deeply. -/
  | unusable
deriving Inhabited

namespace Data

mutual

/-- Every part stands for a value, and every number is within range. -/
def isSound : Data → Bool
  | unusable => false
  | float x => x.isFinite
  | list l => areSound l
  | table l => areSoundMembers l
  | _ => true

/-- All items are sound. -/
def areSound : List Data → Bool
  | [] => true
  | d :: rest => d.isSound && areSound rest

/-- All members are sound. -/
def areSoundMembers : List (String × Data) → Bool
  | [] => true
  | (_, d) :: rest => d.isSound && areSoundMembers rest

end

/-- A natural number as data. -/
def nat (n : Nat) : Data := .int n

/-- A text. -/
def asText? : Data → Option String
  | text s => some s
  | _ => none

/-- A truth value. -/
def asBool? : Data → Option Bool
  | bool b => some b
  | _ => none

/-- A natural number that fits a 64-bit word. -/
def asNat? : Data → Option Nat
  | int n => if 0 ≤ n ∧ n < Bits.words then some n.toNat else none
  | _ => none

/-- A number; integers count. -/
def asFloat? : Data → Option Float
  | int n => some (if 0 ≤ n then n.toNat.toUInt64.toFloat else -(n.natAbs.toUInt64.toFloat))
  | float x => some x
  | _ => none

/-- A list of values of one kind. -/
def asList? {α : Type} (item : Data → Option α) : Data → Option (List α)
  | list l => l.mapM item
  | _ => none

/-- A value, or nothing. -/
def asOption? {α : Type} (value : Data → Option α) : Data → Option (Option α)
  | null => some none
  | d => (value d).map some

/-- A table with values of one kind; the last value under a name counts. -/
def asTable? {α : Type} (value : Data → Option α) : Data → Option (List (String × α))
  | table l => l.mapM fun (name, d) => (value d).map fun v => (name, v)
  | _ => none

/-- The only value in a list. -/
def single? {α : Type} : List α → Option α
  | [a] => some a
  | _ => none

/-- How records are read: whether members with other names are allowed, and whether a list that
stands for a record may have fewer or further items. A name given as the only member of a table has
nothing under it, or, where there is no way to write nothing, an empty list or table. -/
structure Leniency where
  otherMembers : Bool := true
  fewerItems : Bool := false
  furtherItems : Bool := false
  emptyForNothing : Bool := false
deriving DecidableEq, Repr

/-- The value of each field of a record, in order, where present. A table must not repeat a field; a
list gives the fields in order. -/
def record? (len : Leniency) (fields : List String) : Data → Option (List (Option Data))
  | table members =>
    if !len.otherMembers && members.any fun m => !fields.contains m.1 then none
    else fields.mapM fun name =>
      match members.filter fun m => m.1 == name with
      | [] => some none
      | [m] => some (some m.2)
      | _ => none
  | list items =>
    if (fields.length ≤ items.length || len.fewerItems) &&
        (items.length ≤ fields.length || len.furtherItems) then
      some ((items.take fields.length).map some ++
        List.replicate (fields.length - items.length) none)
    else none
  | _ => none

/-- A list of exactly two values; further items may be allowed. -/
def asPair? {α β : Type} (len : Leniency) (first : Data → Option α) (second : Data → Option β) :
    Data → Option (α × β)
  | list (a :: b :: rest) =>
    if rest.isEmpty || len.furtherItems then do
      let a ← first a
      let b ← second b
      some (a, b)
    else none
  | _ => none

/-- A field that must be present. -/
def required? {α : Type} (value : Data → Option α) : Option Data → Option α
  | some d => value d
  | none => none

/-- A field with a default. -/
def withDefault? {α : Type} (value : Data → Option α) (default : α) : Option Data → Option α
  | some d => value d
  | none => some default

/-- Nothing is given. -/
def isNothing (len : Leniency) : Data → Bool
  | null => !len.emptyForNothing
  | list l => len.emptyForNothing && l.isEmpty
  | table l => len.emptyForNothing && l.isEmpty
  | _ => false

/-- One of several names: a text, or a table whose only member has nothing under the name. -/
def choice? {α : Type} (len : Leniency) (names : List (String × α)) : Data → Option α
  | text s => names.lookup s
  | table [(s, d)] => if d.isNothing len then names.lookup s else none
  | _ => none

/-- A value tagged with one of several names: a table with one member. -/
def tagged? : Data → Option (String × Data)
  | table [m] => some m
  | _ => none

end Data

end Categorial
