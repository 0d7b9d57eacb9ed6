import Categorial.Reader.Syn
import Categorial.Reader.Term

/-!
# Reading categories

A category is a syntactic category, alone or followed by a colon and a well-typed term.

* `Reader.readCategory`: a category at the front of a text.
* `Category.parse`: a category that is the whole text.
-/

namespace Categorial

namespace Reader

open Text

/-- Read a category. -/
def readCategory (sig : Signature) : Reader Category := fun s => do
  let (syn, s) ← readSyn s
  match trimStart s with
  | ':' :: s => do
    let (t, s) ← readTerm sig s
    if (t.infer sig).isNone then .error (.illTypedSem syn t)
    return (.make syn (some t), s)
  | _ => return (⟨syn, none⟩, s)

end Reader

/-- The category a text is the written form of. -/
def Category.parse (sig : Signature) (s : String) : Except ReadError Category :=
  Reader.readAll (Reader.readCategory sig) s

end Categorial
