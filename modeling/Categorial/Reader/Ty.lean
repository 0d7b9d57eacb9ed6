import Categorial.Reader.Basic
import Categorial.Signature

/-!
# Reading types

A type is a name or `<type,type>`; blanks may stand before every part.

* `Reader.readTy`: a type at the front of a text.
* `Ty.parse`: a type that is the whole text.
-/

namespace Categorial

namespace Reader

open Text

/-- Read a type from a text of at most `n` characters. -/
def readTyWithin : (n : Nat) → Reader Ty
  | 0, s => .error (.noName (some .ty) (String.ofList s))
  | n + 1, s =>
    match trimStart s with
    | '<' :: s => do
      let (arg, s) ← readTyWithin n s
      let s ← expect ',' (trimStart s)
      let (ret, s) ← readTyWithin n s
      let s ← expect '>' (trimStart s)
      return (.arrow arg ret, s)
    | s => do
      let (name, s) ← readName (some .ty) s
      return (.atom name, s)

/-- Read a type. -/
def readTy : Reader Ty := fun s => readTyWithin s.length s

/-- Every atomic name of a type that was read is declared. -/
def checkTy (sig : Signature) (ty : Ty) : Except ReadError Unit :=
  match ty.atoms.find? fun a => !sig.hasAtomic a with
  | some a => .error (.unknownType a)
  | none => .ok ()

end Reader

/-- The type a text is the written form of. -/
def Ty.parse (s : String) : Except ReadError Ty := Reader.readAll Reader.readTy s

end Categorial
