/-!
# Tables keyed by name

A `NameMap` is a list of pairs in increasing order of names (by code point), so a table with given
contents has one representation and is read in name order.

* `NameMap.find?`, `NameMap.insert`, `NameMap.erase`, `NameMap.ofList`.
-/

namespace Categorial

/-- A table keyed by name, in increasing order of names. -/
structure NameMap (α : Type) where
  entries : List (String × α) := []
deriving Repr

namespace NameMap

variable {α : Type}

instance [DecidableEq α] : DecidableEq (NameMap α) := fun a b =>
  decidable_of_iff (a.entries = b.entries) ⟨fun h => by cases a; cases b; simp_all, fun h => h ▸ rfl⟩

/-- The table without entries. -/
def empty : NameMap α := {}

instance : Inhabited (NameMap α) := ⟨empty⟩

/-- The value under a name. -/
def find? (m : NameMap α) (name : String) : Option α :=
  (m.entries.find? fun e => e.1 == name).map (·.2)

/-- The name has a value. -/
def contains (m : NameMap α) (name : String) : Bool := (m.find? name).isSome

/-- Put `f` of the present value at the place of `name` in an increasing list. -/
def alterList (name : String) (f : Option α → α) : List (String × α) → List (String × α)
  | [] => [(name, f none)]
  | (n, v) :: rest =>
    match compare name n with
    | .lt => (name, f none) :: (n, v) :: rest
    | .eq => (n, f (some v)) :: rest
    | .gt => (n, v) :: alterList name f rest

/-- Replace the value under a name by `f` of it. -/
def alter (m : NameMap α) (name : String) (f : Option α → α) : NameMap α :=
  ⟨alterList name f m.entries⟩

/-- Set the value under a name. -/
def insert (m : NameMap α) (name : String) (v : α) : NameMap α := m.alter name fun _ => v

/-- Remove a name. -/
def erase (m : NameMap α) (name : String) : NameMap α :=
  ⟨m.entries.filter fun e => e.1 != name⟩

/-- The table of a list of pairs; of two values under one name the later one stays. -/
def ofList (l : List (String × α)) : NameMap α :=
  l.foldl (fun m e => m.insert e.1 e.2) empty

/-- The number of names. -/
def size (m : NameMap α) : Nat := m.entries.length

/-- The table has no names. -/
def isEmpty (m : NameMap α) : Bool := m.entries.isEmpty

end NameMap

end Categorial
