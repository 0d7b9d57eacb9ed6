import Categorial.Proofs.Substitution

/-!
# Normal forms of typed terms

The search for a normal form is described by a relation, one rule to a case. Its results have no
redex, it keeps types up to compatibility, and on a term that has a type it always ends: a
substitution creates new redexes only at types with fewer arrows than that of the variable.

* `Term.isNormal`: no redex anywhere.
* `Term.Normalizes`, `Term.normalizeMod?_zero_eq_some`: the search as a relation.
* `Term.normalizeMod?_redex`, `Term.normalizeMod?_app`, `Term.normalizeMod?_lam`: one level of it.
* `Term.Normalizes.isNormal`, `Term.Normalizes.self`: results are normal, and normal terms stay.
* **`Term.Normalizes.inferIn`**: types are kept up to compatibility.
* **`Term.exists_normalizes`**: typed terms have a normal form.
-/

namespace Categorial.Term

/-! ## Normal terms -/

/-- The term is an abstraction. -/
def isLam : Term → Bool
  | lam _ _ => true
  | _ => false

/-- The body of a binder that only passes its variable on. -/
def isEtaBody : Term → Bool
  | app f (var 0) => !f.hasFreeMod 0 0
  | _ => false

/-- No redex occurs in the term. -/
def isNormal : Term → Bool
  | const _ _ => true
  | var _ => true
  | app f a => !f.isLam && f.isNormal && a.isNormal
  | lam _ b => !b.isEtaBody && b.isNormal

theorem isNormal_app {f a : Term} : (app f a).isNormal = true ↔
    f.isLam = false ∧ f.isNormal = true ∧ a.isNormal = true := by
  simp [isNormal, and_assoc]

theorem isNormal_lam {ty : Ty} {b : Term} : (lam ty b).isNormal = true ↔
    b.isEtaBody = false ∧ b.isNormal = true := by
  simp [isNormal]

theorem contractEta_of_isEtaBody {t : Term} (h : t.isEtaBody = true) (ty : Ty) :
    ∃ f, t = app f (var 0) ∧ f.hasFreeMod 0 0 = false ∧ contractEta 0 ty t = f.shift (-1) 0 := by
  unfold isEtaBody at h
  split at h
  · rename_i f
    have hf : f.hasFreeMod 0 0 = false := by simpa using h
    exact ⟨f, rfl, hf, by simp [contractEta, hf]⟩
  · cases h

theorem contractEta_of_not_isEtaBody {t : Term} (h : t.isEtaBody = false) (ty : Ty) :
    contractEta 0 ty t = lam ty t := by
  unfold isEtaBody at h
  split at h
  · simp only [Bool.not_eq_false'] at h
    simp [contractEta, h]
  · rename_i h'
    unfold contractEta
    split
    · exact absurd rfl (h' _)
    · rfl

/-! ## Normal terms under shifts -/

theorem hasFreeMod_shift (t : Term) (n : Nat) {k c : Nat} (h : k < c) :
    (t.shift n c).hasFreeMod 0 k = t.hasFreeMod 0 k := by
  induction t generalizing k c with
  | const x ty => rfl
  | var i =>
    rw [shift_var, moveIndex_natCast]
    split_ifs with hi
    · simp only [hasFreeMod]
      rw [beq_eq_false_iff_ne.mpr (by omega : i + n ≠ k), beq_eq_false_iff_ne.mpr (by omega : i ≠ k)]
    · rfl
  | app f a ihf iha => rw [shift_app, hasFreeMod, hasFreeMod, ihf h, iha h]
  | lam ty b ih =>
    rw [shift_lam, hasFreeMod, hasFreeMod, under_zero]
    exact ih (by omega)

theorem isEtaBody_shift (t : Term) (n c : Nat) :
    (t.shift n (c + 1)).isEtaBody = t.isEtaBody := by
  cases t with
  | const x ty => rfl
  | var i => rfl
  | lam ty b => rfl
  | app f a =>
    cases a with
    | const x ty => rfl
    | app g b => rfl
    | lam ty b => rfl
    | var i =>
      cases i with
      | zero =>
        rw [shift_app, shift_var, if_neg (by omega)]
        simp only [isEtaBody]
        rw [hasFreeMod_shift f n (by omega)]
      | succ i =>
        rw [shift_app, shift_var, moveIndex_natCast]
        split_ifs
        · rw [show i + 1 + n = (i + n) + 1 by omega]
          rfl
        · rfl

theorem isLam_shift (t : Term) (d : Int) (c : Nat) : (t.shift d c).isLam = t.isLam := by
  cases t <;> rfl

theorem isNormal_shift (t : Term) (n c : Nat) : (t.shift n c).isNormal = t.isNormal := by
  induction t generalizing c with
  | const x ty => rfl
  | var i => rfl
  | app f a ihf iha => rw [shift_app, isNormal, isNormal, isLam_shift, ihf, iha]
  | lam ty b ih => rw [shift_lam, isNormal, isNormal, isEtaBody_shift, ih]

/-- Closing the gap of a variable that does not occur can be undone. -/
theorem shift_one_lower (t : Term) (c : Nat) (h : t.hasFreeMod 0 c = false) :
    (t.shift (-1) c).shift (1 : Nat) c = t := by
  induction t generalizing c with
  | const x ty => rfl
  | var i =>
    have hi : i ≠ c := by simpa [hasFreeMod] using h
    simp only [shift_var, moveIndex_neg_one, moveIndex_natCast]
    congr 1
    split_ifs <;> omega
  | app f a ihf iha =>
    rw [hasFreeMod, Bool.or_eq_false_iff] at h
    rw [shift_app, shift_app, ihf c h.1, iha c h.2]
  | lam ty b ih =>
    rw [hasFreeMod, under_zero] at h
    rw [shift_lam, shift_lam, ih (c + 1) h]

theorem isNormal_lower {t : Term} {c : Nat} (h : t.hasFreeMod 0 c = false) :
    (t.shift (-1) c).isNormal = t.isNormal := by
  rw [← isNormal_shift _ 1 c, shift_one_lower t c h]

/-! ## The search as a relation -/

/-- The search for a normal form of the first term ends with the second. -/
inductive Normalizes : Term → Term → Prop
  | const (n : String) (ty : Ty) : Normalizes (const n ty) (const n ty)
  | var (k : Nat) : Normalizes (var k) (var k)
  | redex {f a a' b u : Term} {ty : Ty} : Normalizes f (lam ty b) → Normalizes a a' →
      Normalizes (b.instantiate a' 0) u → Normalizes (app f a) u
  | app {f f' a a' : Term} : Normalizes f f' → Normalizes a a' → f'.isLam = false →
      Normalizes (app f a) (app f' a')
  | lam {ty : Ty} {b b' : Term} : Normalizes b b' →
      Normalizes (lam ty b) (contractEta 0 ty b')

theorem normalizes_of_eq_some {t u : Term} (h : normalizeMod? 0 t = some u) : Normalizes t u := by
  refine normalizeMod?.partial_correctness 0 Normalizes (fun norm ih t u h => ?_) t u h
  cases t with
  | const n ty => cases h; exact .const n ty
  | var k => cases h; exact .var k
  | app f a =>
    simp only [normalizeWith, Option.bind_eq_bind, Option.bind_eq_some_iff] at h
    obtain ⟨f', hf, a', ha, h⟩ := h
    split at h
    · rw [betaMod_zero] at h
      exact .redex (ih _ _ hf) (ih _ _ ha) (ih _ _ h)
    · rename_i hlam
      cases h
      refine .app (ih _ _ hf) (ih _ _ ha) ?_
      cases f' with
      | lam ty b => exact absurd rfl (hlam ty b)
      | _ => rfl
  | lam ty b =>
    simp only [normalizeWith, Option.bind_eq_bind, Option.bind_eq_some_iff] at h
    obtain ⟨b', hb, h⟩ := h
    cases h
    exact .lam (ih _ _ hb)

theorem normalizeMod?_const (w : Nat) (n : String) (ty : Ty) :
    normalizeMod? w (const n ty) = some (const n ty) := by
  rw [normalizeMod?.eq_1]
  rfl

theorem normalizeMod?_var (w k : Nat) : normalizeMod? w (var k) = some (var k) := by
  rw [normalizeMod?.eq_1]
  rfl

theorem normalizeMod?_redex {w : Nat} {f a a' b : Term} {ty : Ty}
    (hf : normalizeMod? w f = some (lam ty b)) (ha : normalizeMod? w a = some a') :
    normalizeMod? w (app f a) = normalizeMod? w (betaMod w b a') := by
  rw [normalizeMod?.eq_1, normalizeWith, hf, ha]
  rfl

theorem normalizeMod?_app {w : Nat} {f f' a a' : Term} (hf : normalizeMod? w f = some f')
    (ha : normalizeMod? w a = some a') (hlam : f'.isLam = false) :
    normalizeMod? w (app f a) = some (app f' a') := by
  rw [normalizeMod?.eq_1, normalizeWith, hf, ha]
  cases f' with
  | lam ty b => cases hlam
  | _ => rfl

theorem normalizeMod?_lam {w : Nat} {b b' : Term} (ty : Ty) (hb : normalizeMod? w b = some b') :
    normalizeMod? w (lam ty b) = some (contractEta w ty b') := by
  rw [normalizeMod?.eq_1, normalizeWith, hb]
  rfl

theorem eq_some_of_normalizes {t u : Term} (h : Normalizes t u) : normalizeMod? 0 t = some u := by
  induction h with
  | const n ty => exact normalizeMod?_const 0 n ty
  | var k => exact normalizeMod?_var 0 k
  | redex _ _ _ ihf iha ihu => rw [normalizeMod?_redex ihf iha, betaMod_zero, ihu]
  | app _ _ hlam ihf iha => exact normalizeMod?_app ihf iha hlam
  | lam _ ih => exact normalizeMod?_lam _ ih

/-- The search finds what the relation describes. -/
theorem normalizeMod?_zero_eq_some {t u : Term} : normalizeMod? 0 t = some u ↔ Normalizes t u :=
  ⟨normalizes_of_eq_some, eq_some_of_normalizes⟩

/-- Dropping a binder brings up no redex. -/
theorem isNormal_contractEta {b : Term} (h : b.isNormal = true) (ty : Ty) :
    (contractEta 0 ty b).isNormal = true := by
  cases hb : b.isEtaBody with
  | true =>
    obtain ⟨f, rfl, hf, he⟩ := contractEta_of_isEtaBody hb ty
    rw [he, isNormal_lower hf]
    exact (isNormal_app.mp h).2.1
  | false =>
    rw [contractEta_of_not_isEtaBody hb]
    exact isNormal_lam.mpr ⟨hb, h⟩

namespace Normalizes

theorem isNormal {t u : Term} (h : Normalizes t u) : u.isNormal = true := by
  induction h with
  | const n ty => rfl
  | var k => rfl
  | redex _ _ _ _ _ ihu => exact ihu
  | app _ _ hlam ihf iha => exact isNormal_app.mpr ⟨hlam, ihf, iha⟩
  | lam _ ih => exact isNormal_contractEta ih _

theorem self {t : Term} (h : t.isNormal = true) : Normalizes t t := by
  induction t with
  | const n ty => exact .const n ty
  | var k => exact .var k
  | app f a ihf iha =>
    obtain ⟨hlam, hf, ha⟩ := isNormal_app.mp h
    exact .app (ihf hf) (iha ha) hlam
  | lam ty b ih =>
    obtain ⟨heta, hb⟩ := isNormal_lam.mp h
    have hlam : Normalizes (Term.lam ty b) (contractEta 0 ty b) := .lam (ih hb)
    rwa [contractEta_of_not_isEtaBody heta] at hlam

variable {sig : Signature}

/-- **Types are kept up to compatibility.** -/
theorem inferIn (hs : sig.Reachable) {t u : Term} (h : Normalizes t u) {ctx : List Ty} {ty : Ty}
    (ht : t.inferIn sig ctx = some ty) :
    ∃ ty', u.inferIn sig ctx = some ty' ∧ sig.compatible ty ty' = true := by
  induction h generalizing ctx ty with
  | const n cTy => exact ⟨ty, ht, sig.compatible_refl ty⟩
  | var k => exact ⟨ty, ht, sig.compatible_refl ty⟩
  | redex _ _ _ ihf iha ihu =>
    obtain ⟨arg, aTy, hf, ha, hc⟩ := inferIn_app_eq_some.mp ht
    obtain ⟨fTy', hf', hff⟩ := ihf hf
    obtain ⟨aTy', ha', haa⟩ := iha ha
    obtain ⟨bTy, hb, rfl⟩ := inferIn_lam_eq_some.mp hf'
    rw [Signature.compatible_arrow, Bool.and_eq_true] at hff
    -- the binder asks for no more than the function did
    have harg := Signature.compatible_trans hs hff.1 (Signature.compatible_trans hs hc haa)
    obtain ⟨rTy, hr, hbr⟩ := inferIn_instantiate hs _ _ _ ctx ha' harg _ [] bTy hb
    obtain ⟨uTy, hu, hru⟩ := ihu hr
    exact ⟨uTy, hu,
      Signature.compatible_trans hs hff.2 (Signature.compatible_trans hs hbr hru)⟩
  | app _ _ _ ihf iha =>
    obtain ⟨arg, aTy, hf, ha, hc⟩ := inferIn_app_eq_some.mp ht
    obtain ⟨fTy', hf', hff⟩ := ihf hf
    obtain ⟨aTy', ha', haa⟩ := iha ha
    obtain ⟨arg', ret', rfl, harg, hret⟩ := Signature.exists_arrow_of_compatible hff
    refine ⟨ret', inferIn_app_eq_some.mpr ⟨arg', aTy', hf', ha', ?_⟩, hret⟩
    exact Signature.compatible_trans hs harg (Signature.compatible_trans hs hc haa)
  | @lam x b b' _ ih =>
    obtain ⟨bTy, hb, rfl⟩ := inferIn_lam_eq_some.mp ht
    obtain ⟨bTy', hb', hbb⟩ := ih hb
    cases heta : b'.isEtaBody with
    | true =>
      -- the function that is left may take more than the binder did
      obtain ⟨f, rfl, hfree, he⟩ := contractEta_of_isEtaBody heta x
      obtain ⟨arg, aTy, hf, ha, hc⟩ := inferIn_app_eq_some.mp hb'
      cases ha
      refine ⟨.arrow arg bTy', ?_, ?_⟩
      · rw [he]
        exact (inferIn_lower f [] x ctx hfree).trans hf
      · rw [Signature.compatible_arrow, hc, hbb]
        rfl
    | false =>
      refine ⟨.arrow x bTy', ?_, ?_⟩
      · rw [contractEta_of_not_isEtaBody heta]
        exact inferIn_lam_eq_some.mpr ⟨bTy', hb', rfl⟩
      · rw [Signature.compatible_arrow, sig.compatible_refl, hbb]
        rfl

/-- The parts of a redex that comes up: the binder accepts the argument, and its type has the shape
of what the function asked for. -/
theorem redex_types (hs : sig.Reachable) {f a a' b : Term} {y arg ty aTy : Ty} {ctx : List Ty}
    (hf : Normalizes f (Term.lam y b)) (ha : Normalizes a a')
    (hfT : f.inferIn sig ctx = some (.arrow arg ty)) (haT : a.inferIn sig ctx = some aTy)
    (hc : sig.compatible arg aTy = true) :
    ∃ bTy aTy', b.inferIn sig (y :: ctx) = some bTy ∧ a'.inferIn sig ctx = some aTy' ∧
      sig.compatible y aTy' = true ∧ y.arrows = arg.arrows := by
  obtain ⟨fTy', hfT', hff⟩ := hf.inferIn hs hfT
  obtain ⟨aTy', haT', haa⟩ := ha.inferIn hs haT
  obtain ⟨bTy, hb, rfl⟩ := inferIn_lam_eq_some.mp hfT'
  rw [Signature.compatible_arrow, Bool.and_eq_true] at hff
  refine ⟨bTy, aTy', hb, haT', ?_, (Signature.arrows_eq_of_compatible hff.1).symm⟩
  exact Signature.compatible_trans hs hff.1 (Signature.compatible_trans hs hc haa)

end Normalizes

theorem exists_lam_of_isLam {t : Term} (h : t.isLam = true) : ∃ y b, t = lam y b := by
  cases t with
  | lam y b => exact ⟨y, b, rfl⟩
  | _ => cases h

/-! ## Typed terms have a normal form -/

variable {sig : Signature}

/-- A normal term is put in place of a variable of type `x`. If the result of the search is an
abstraction where there was none, the type has no more arrows than `x`. -/
theorem exists_normalizes_instantiate (hs : sig.Reachable) (n : Nat) {x x' : Ty} (hn : x.arrows = n)
    {s : Term} {outer : List Ty} (hsn : s.isNormal = true) (hx : s.inferIn sig outer = some x')
    (hxx : sig.compatible x x' = true) (t : Term) (htn : t.isNormal = true) (inner : List Ty)
    (ty : Ty) (ht : t.inferIn sig (inner ++ x :: outer) = some ty) :
    ∃ u, Normalizes (t.instantiate s inner.length) u ∧
      (t.isLam = false → u.isLam = true → ty.arrows ≤ x.arrows) := by
  induction n using Nat.strong_induction_on generalizing x x' s outer t inner ty with
  | _ n ihn =>
  induction t generalizing inner ty with
  | const y yTy => exact ⟨_, .const y yTy, fun _ h => by cases h⟩
  | var k =>
    rw [instantiate]
    split_ifs with h₁ h₂
    · subst h₁
      refine ⟨s.shift inner.length 0, .self (by rw [isNormal_shift, hsn]), fun _ _ => ?_⟩
      rw [Term.inferIn, List.getElem?_append_right le_rfl, Nat.sub_self] at ht
      cases ht
      exact le_rfl
    · exact ⟨_, .var _, fun _ h => by cases h⟩
    · exact ⟨_, .var _, fun _ h => by cases h⟩
  | lam y b ih =>
    obtain ⟨bTy, hb, rfl⟩ := inferIn_lam_eq_some.mp ht
    obtain ⟨b', hb', -⟩ := ih (isNormal_lam.mp htn).2 (y :: inner) bTy hb
    exact ⟨_, .lam hb', fun h => by cases h⟩
  | app f a ihf iha =>
    obtain ⟨hflam, hfn, han⟩ := isNormal_app.mp htn
    obtain ⟨arg, aTy, hf, ha, hc⟩ := inferIn_app_eq_some.mp ht
    obtain ⟨f', hf', hfarrows⟩ := ihf hfn inner _ hf
    obtain ⟨a', ha', -⟩ := iha han inner _ ha
    cases hlam : f'.isLam with
    | false => exact ⟨_, .app hf' ha' hlam, fun _ h => by cases h⟩
    | true =>
      -- the function was headed by the variable: its argument has a smaller type
      have hle := hfarrows hflam hlam
      rw [Ty.arrows] at hle
      obtain ⟨y, b, rfl⟩ := exists_lam_of_isLam hlam
      obtain ⟨fTy, hfT, hff⟩ := inferIn_instantiate hs s x x' outer hx hxx f inner _ hf
      obtain ⟨aTy', haT, haa⟩ := inferIn_instantiate hs s x x' outer hx hxx a inner _ ha
      obtain ⟨arg', ret', rfl, harg, -⟩ := Signature.exists_arrow_of_compatible hff
      have hc' := Signature.compatible_trans hs harg (Signature.compatible_trans hs hc haa)
      obtain ⟨bTy, aTy'', hb, haT', hya, hy⟩ := hf'.redex_types hs ha' hfT haT hc'
      have harg' := Signature.arrows_eq_of_compatible harg
      obtain ⟨u, hu, -⟩ := ihn y.arrows (by omega) rfl ha'.isNormal haT' hya b
        (isNormal_lam.mp hf'.isNormal).2 [] bTy hb
      exact ⟨u, .redex hf' ha' hu, fun _ _ => by omega⟩

/-- **Typed terms have a normal form.** -/
theorem exists_normalizes (hs : sig.Reachable) {t : Term} {ctx : List Ty} {ty : Ty}
    (ht : t.inferIn sig ctx = some ty) : ∃ u, Normalizes t u := by
  induction t generalizing ctx ty with
  | const n nTy => exact ⟨_, .const n nTy⟩
  | var k => exact ⟨_, .var k⟩
  | lam y b ih =>
    obtain ⟨bTy, hb, -⟩ := inferIn_lam_eq_some.mp ht
    obtain ⟨b', hb'⟩ := ih hb
    exact ⟨_, .lam hb'⟩
  | app f a ihf iha =>
    obtain ⟨arg, aTy, hf, ha, hc⟩ := inferIn_app_eq_some.mp ht
    obtain ⟨f', hf'⟩ := ihf hf
    obtain ⟨a', ha'⟩ := iha ha
    cases hlam : f'.isLam with
    | false => exact ⟨_, .app hf' ha' hlam⟩
    | true =>
      obtain ⟨y, b, rfl⟩ := exists_lam_of_isLam hlam
      obtain ⟨bTy, aTy', hb, haT, hya, -⟩ := hf'.redex_types hs ha' hf ha hc
      obtain ⟨u, hu, -⟩ := exists_normalizes_instantiate hs _ rfl ha'.isNormal haT hya b
        (isNormal_lam.mp hf'.isNormal).2 [] bTy hb
      exact ⟨u, .redex hf' ha' hu⟩

end Categorial.Term
