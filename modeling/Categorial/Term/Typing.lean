import Categorial.Term.Basic
import Categorial.Signature

/-!
# Types of terms

* `Term.inferIn`: the type of a term whose free variables have the types of a context.
* `Term.infer`: the type of a term without free variables.
-/

namespace Categorial.Term

/-- The type of a term in a context that lists the types of the free variables, innermost first.
An argument must be compatible with what the function expects. -/
def inferIn (sig : Signature) : (ctx : List Ty) → Term → Option Ty
  | _, const _ ty => some ty
  | ctx, var k => ctx[k]?
  | ctx, app f a => do
    let fTy ← inferIn sig ctx f
    let aTy ← inferIn sig ctx a
    let (arg, ret) ← fTy.arrow?
    if sig.compatible arg aTy then some ret else none
  | ctx, lam ty b => do
    let bTy ← inferIn sig (ty :: ctx) b
    some (.arrow ty bTy)

/-- The type of a closed term. -/
def infer (sig : Signature) (t : Term) : Option Ty := t.inferIn sig []

end Categorial.Term
