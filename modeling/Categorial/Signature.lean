import Categorial.Ty
import Categorial.NameMap

/-!
# Signatures

A signature declares the atomic types, each with at most one parent, and the types of the
constants. A parent is declared before its children, so the declarations form a forest and the
search for ancestors goes from newer to older declarations.

* `Signature.addAtomic`, `Signature.declare`: the two kinds of declaration.
* `Signature.isSubtype`: one atomic name lies below another.
* `Signature.compatible`: a value of one type can stand where the other is expected.
-/

namespace Categorial

/-- Why a declaration is refused. -/
inductive DeclError where
  | unknownType (name : String)
  | conflictingType (name : String) (parent : Option String)
deriving DecidableEq, Repr

/-- Declared atomic types and constants. -/
structure Signature where
  /-- Atomic types with their parents, newest first. -/
  atomics : List (String × Option String) := [("t", none), ("e", none)]
  /-- The types of the constants. -/
  constants : NameMap Ty := {}
deriving Repr, Inhabited

namespace Signature

/-- The parent a declared atomic type was given. -/
def parentOf? (sig : Signature) (name : String) : Option (Option String) :=
  (sig.atomics.find? fun d => d.1 == name).map (·.2)

/-- The atomic type is declared. -/
def hasAtomic (sig : Signature) (name : String) : Bool := (sig.parentOf? name).isSome

/-- Declare an atomic type. To declare it again with the same parent changes nothing. -/
def addAtomic (sig : Signature) (name : String) (parent : Option String) :
    Except DeclError Signature :=
  match parent.filter fun p => !sig.hasAtomic p with
  | some p => .error (.unknownType p)
  | none =>
    match sig.parentOf? name with
    | some known =>
      if known = parent then .ok sig else .error (.conflictingType name parent)
    | none => .ok { sig with atomics := (name, parent) :: sig.atomics }

/-- Every atomic name of the type is declared; the first that is not is reported. -/
def validate (sig : Signature) (ty : Ty) : Except DeclError Unit :=
  match ty.atoms.find? fun a => !sig.hasAtomic a with
  | some a => .error (.unknownType a)
  | none => .ok ()

/-- Declare a constant; a later declaration replaces an earlier one. -/
def declare (sig : Signature) (name : String) (ty : Ty) : Except DeclError Signature :=
  (sig.validate ty).map fun _ => { sig with constants := sig.constants.insert name ty }

/-- The declared type of a constant. -/
def constant? (sig : Signature) (name : String) : Option Ty := sig.constants.find? name

/-- Climb from `sub` to `sup` through declarations listed newest first. -/
def climbs : List (String × Option String) → String → String → Bool
  | [], sub, sup => sub == sup
  | (name, parent) :: older, sub, sup =>
    sub == sup ||
      if name == sub then
        match parent with
        | some p => climbs older p sup
        | none => false
      else climbs older sub sup

/-- `sup` is `sub` or one of its ancestors. -/
def isSubtype (sig : Signature) (sub sup : String) : Bool := climbs sig.atomics sub sup

/-- Compare along the structure of two types. With `flipped` the first one is the actual type. -/
def compatibleWith (sig : Signature) : Bool → Ty → Ty → Bool
  | flipped, .atom a, .atom b => if flipped then sig.isSubtype a b else sig.isSubtype b a
  | flipped, .arrow a r, .arrow a' r' =>
    sig.compatibleWith (!flipped) a a' && sig.compatibleWith flipped r r'
  | _, _, _ => false

/-- A value of type `actual` can stand where `expected` is asked for: results may be more special
and arguments more general. -/
def compatible (sig : Signature) (expected actual : Ty) : Bool :=
  sig.compatibleWith false expected actual

end Signature

end Categorial
