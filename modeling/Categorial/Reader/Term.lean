import Categorial.Reader.Ty
import Categorial.Term.Normal
import Categorial.Term.Typing
import Categorial.Text.Word

/-!
# Reading terms

A term is an abstraction `λname:type.term`, or an atom followed by bracketed lists of arguments. An
atom is a term in brackets, a bound name, a constant with its type (`name:type`), or a declared
constant. A name refers to its innermost binder.

* `Reader.readTerm`: a term at the front of a text, as it is written.
* `Term.parse`: a closed, well-typed term that is the whole text, in normal form.
-/

namespace Categorial

namespace Reader

open Text

/-- The text after a lambda, which is written `λ`, a backslash or the word `lambda`. -/
def lambda? (s : List Char) : Option (List Char) :=
  match s with
  | 'λ' :: rest => some rest
  | '\\' :: rest => some rest
  | s =>
    match after? "lambda".toList s with
    | some rest => if endsWord rest then some rest else none
    | none => none

/-- Read a binder up to the point that ends it: the name and the type of the variable. -/
def readBinder (sig : Signature) : Reader (String × Ty) := fun s => do
  let (name, s) ← readName (some .binder) (trimStart s)
  let s ← expect ':' (trimStart s)
  let (ty, s) ← readTy s
  checkTy sig ty
  let s ← expect '.' (trimStart s)
  return ((name, ty), s)

/-- Read what a name stands for: a bound variable, innermost first, or a constant. -/
def readNamed (sig : Signature) (scope : List String) : Reader Term := fun s => do
  let (name, s) ← readName (some .term) s
  match scope.idxOf? name with
  | some k => return (.var k, s)
  | none =>
    match s with
    | ':' :: s => do
      let (ty, s) ← readTy s
      checkTy sig ty
      return (.const name ty, s)
    | s =>
      match sig.constant? name with
      | some ty => return (.const name ty, s)
      | none => .error (.unknownConstant name)

/-- Read a name, or what `inner` reads in brackets. -/
def readAtom (sig : Signature) (scope : List String) (inner : Reader Term) : Reader Term := fun s =>
  match trimStart s with
  | '(' :: s => do
    let (t, s) ← inner s
    let s ← expect ')' (trimStart s)
    return (t, s)
  | s => readNamed sig scope s

/-- Read at most `n` arguments of `f`, up to the bracket that closes their list. -/
def readArgumentList (inner : Reader Term) : (n : Nat) → (f : Term) → Reader Term
  | 0, _, s => .error (.noName (some .term) (String.ofList s))
  | n + 1, f, s => do
    let (a, s) ← inner s
    match trimStart s with
    | ',' :: s => readArgumentList inner n (.app f a) s
    | s => do
      let s ← expect ')' s
      return (.app f a, s)

/-- Read at most `n` lists of arguments of `f`. -/
def readApplications (inner : Reader Term) : (n : Nat) → (f : Term) → Reader Term
  | 0, f, s => .ok (f, s)
  | n + 1, f, s =>
    match trimStart s with
    | '(' :: s => do
      let (f, s) ← readArgumentList inner s.length f s
      readApplications inner n f s
    | _ => .ok (f, s)

/-- Read a term from a text of at most `n` characters; `scope` lists the bound names, innermost
first. -/
def readTermWithin (sig : Signature) : (n : Nat) → (scope : List String) → Reader Term
  | 0, _, s => .error (.noName (some .term) (String.ofList s))
  | n + 1, scope, s =>
    match lambda? (trimStart s) with
    | some s => do
      let ((name, ty), s) ← readBinder sig s
      let (body, s) ← readTermWithin sig n (name :: scope) s
      return (.lam ty body, s)
    | none => do
      let inner := readTermWithin sig n scope
      let (f, s) ← readAtom sig scope inner s
      readApplications inner s.length f s

/-- Read a term. -/
def readTerm (sig : Signature) : Reader Term := fun s => readTermWithin sig s.length [] s

end Reader

/-- The normal form of the closed, well-typed term a text is the written form of. -/
def Term.parse (sig : Signature) (s : String) : Except ReadError Term := do
  let t ← Reader.readAll (Reader.readTerm sig) s
  if (t.infer sig).isNone then .error (.illTyped t)
  return t.normalize

end Categorial
