import Categorial.Term.Basic

/-!
# Normal forms

Beta and eta reduction to normal form, leftmost part first: functions and arguments are brought to
normal form before a redex is contracted, and a body before its binder is dropped. On an ill-typed
term this may go on for ever, so the search for a normal form is a least fixed point.

* `Term.normalizeWith`: one level of the search, given how parts are brought to normal form.
* `Term.normalizeMod?`: the normal form with indices modulo a number, if the search ends;
  `Term.normalizeMod?.eq_1` unfolds one level.
* `Term.normalize?`: the normal form with the modulus that the term asks for.
* `Term.normalize`: the normal form; a term without one stays as it is.
-/

namespace Categorial.Term

/-- Drop a binder that only passes its variable on. -/
def contractEta (w : Nat) (ty : Ty) : Term → Term
  | t@(app f (var 0)) => if f.hasFreeMod w 0 then lam ty t else f.shiftMod w (-1) 0
  | t => lam ty t

/-- Bring the parts to normal form with `norm`; contract a redex and go on with `norm`. -/
def normalizeWith (w : Nat) (norm : Term → Option Term) : Term → Option Term
  | const n ty => some (const n ty)
  | var k => some (var k)
  | app f a => do
    let f ← norm f
    let a ← norm a
    match f with
    | lam _ body => norm (betaMod w body a)
    | f => some (app f a)
  | lam ty b => do
    let b ← norm b
    some (contractEta w ty b)

/-- A search that finds more normal forms for the parts finds no other ones for the whole. -/
theorem normalizeWith_mono {w : Nat} {f g : Term → Option Term}
    (h : ∀ t u, f t = some u → g t = some u) :
    ∀ {t u : Term}, normalizeWith w f t = some u → normalizeWith w g t = some u
  | const _ _, _, e => e
  | var _, _, e => e
  | app m n, u, e => by
    simp only [normalizeWith, Option.bind_eq_bind, Option.bind_eq_some_iff] at e ⊢
    obtain ⟨m', hm, n', hn, e⟩ := e
    refine ⟨m', h _ _ hm, n', h _ _ hn, ?_⟩
    split at e <;> simp_all
  | lam ty b, u, e => by
    simp only [normalizeWith, Option.bind_eq_bind, Option.bind_eq_some_iff] at e ⊢
    obtain ⟨b', hb, e⟩ := e
    exact ⟨b', h _ _ hb, e⟩

/-- The normal form of a term with indices modulo `w`, if the search for it ends. -/
def normalizeMod? (w : Nat) (t : Term) : Option Term :=
  normalizeWith w (by apply normalizeMod?; exact w) t
partial_fixpoint monotonicity by
  intro f g h t
  dsimp only
  have hfg : ∀ t u, f t = some u → g t = some u := fun t u e => by
    have ht := h t
    rw [e] at ht
    generalize g t = v at ht
    cases ht
    rfl
  cases e : normalizeWith w f t with
  | none => exact .bot
  | some u => rw [normalizeWith_mono hfg e]; exact .refl

/-- The normal form of a term, if the search for it ends. -/
def normalize? (t : Term) : Option Term := normalizeMod? t.modulus t

/-- The normal form of a term. -/
def normalize (t : Term) : Term := t.normalize?.getD t

end Categorial.Term
