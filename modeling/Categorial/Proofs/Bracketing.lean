import Categorial.Proofs.Conversion

/-!
# The two bracketings of `X/Y Y/Z Z`

Composing the first two categories and applying the result to the third contracts the same redexes as
applying twice, at other moments. The two results have the same syntax, and meanings that are equal up
to types at binders. These types can differ: a binder of the composed meaning that only passes its
variable on is dropped, and a more general type from the third meaning takes its place; applying twice
brings that meaning in before the binder can be dropped. They agree if every argument has exactly the
type that its function expects.

* `BinaryRule.combine_forwardApplication`, `BinaryRule.combine_forwardComposition`: the two rules.
* `Term.reductions_composed`: a composed meaning applied to an argument.
* `Fits`: arguments have exactly the types that are expected.
* **`bracketings_agree`**: what the two results have in common.
* **`bracketings_differ`**: results that differ in the type at a binder.
-/

namespace Categorial

variable {sig : Signature}

/-! ## The two rules -/

section Rules

variable {x y z : Syn} {f g a : Option Term}

theorem BinaryRule.combine_forwardApplication :
    forwardApplication.combine sig ⟨.complex x .forward y, f⟩ ⟨y, a⟩ =
      (applySem sig f a).map (Category.make x) := by
  simp [combine, applies, Syn.complex?, Option.map_eq_bind]

theorem BinaryRule.combine_forwardComposition {maxDegree : Nat} (hdegree : 1 ≤ maxDegree) :
    (forwardComposition maxDegree).combine sig ⟨.complex x .forward y, f⟩
        ⟨.complex y .forward z, g⟩ =
      (composeSem sig 1 f g).map (Category.make (.complex x .forward z)) := by
  have hfirst : matchesDegree? .forward y (.complex y .forward z) 1 = some [(.forward, z)] := by
    simp [matchesDegree?, Syn.peel, Syn.peelOnto]
  obtain ⟨n, hn⟩ : ∃ n, min maxDegree (1 + y.arity) = n + 1 :=
    Nat.exists_eq_add_one.mpr (by omega)
  simp [combine, applies, compose, Syn.complex?, Syn.isAtomic, Syn.arity, hn, List.range_succ_eq_map,
    hfirst, Syn.wrap, Option.map_eq_bind, Function.comp_def]

end Rules

/-! ## Built meanings -/

/-- `λz.f(g(z))`. -/
def Term.composed (ty : Ty) (f g : Term) : Term :=
  .lam ty (.app (f.shift (1 : Nat) 0) (.app (g.shift (1 : Nat) 0) (.var 0)))

theorem applySem_eq_some {f a : Term} {sem : Option Term} :
    applySem sig (some f) (some a) = some sem ↔
      sem = some (.app f a) ∧ ∃ ty, (Term.app f a).infer sig = some ty :=
  checkedSem_eq_some

theorem composeSem_one_eq_some {f g : Term} {sem : Option Term} :
    composeSem sig 1 (some f) (some g) = some sem ↔
      ∃ ty ret, g.infer sig = some (.arrow ty ret) ∧ sem = some (Term.composed ty f g) ∧
        ∃ ty', (Term.composed ty f g).infer sig = some ty' := by
  simp only [composeSem, Option.bind_eq_bind, Option.bind_eq_some_iff, checkedSem_eq_some]
  constructor
  · rintro ⟨gTy, hg, tys, htys, h⟩
    cases gTy with
    | atom n => cases htys
    | arrow ty ret =>
      cases htys
      exact ⟨ty, ret, hg, h⟩
  · rintro ⟨ty, ret, hg, h⟩
    exact ⟨_, hg, [ty], rfl, h⟩

namespace Term

/-- A composed meaning applied to an argument. -/
theorem reductions_composed (ty : Ty) (f g a : Term) :
    Reductions (.app (composed ty f g) a) (.app f (.app g a)) := by
  have h := Reductions.beta ty (.app (f.shift (1 : Nat) 0) (.app (g.shift (1 : Nat) 0) (.var 0))) a
  rwa [instantiate, instantiate, instantiate_shift_one, instantiate_shift_one, instantiate,
    if_pos rfl, shift_zero] at h

/-- The search for a normal form ends on a typed closed term, with a normal form of it. -/
theorem reductions_normalize (hs : sig.Reachable) {t : Term} {ty : Ty} (h : t.infer sig = some ty) :
    Reductions t t.normalize ∧ t.normalize.isNormal = true := by
  obtain ⟨u, hu⟩ := exists_normalizes hs h
  rw [normalize_of_normalizes (isClosed_of_infer h) hu]
  exact ⟨hu.reductions, hu.isNormal⟩

/-- What has a type without subtypes has it in every hierarchy. -/
theorem inferIn_of_start {t : Term} {ctx : List Ty} {ty : Ty} (h : t.inferIn {} ctx = some ty)
    (sig : Signature) : t.inferIn sig ctx = some ty := by
  induction t generalizing ctx ty with
  | const n cTy => exact h
  | var k => exact h
  | app f a ihf iha =>
    obtain ⟨arg, aTy, hf, ha, hc⟩ := inferIn_app_eq_some.mp h
    obtain rfl := (Signature.compatible_iff_eq Signature.flat_start).mp hc
    exact inferIn_app_eq_some.mpr ⟨arg, arg, ihf hf, iha ha, sig.compatible_refl arg⟩
  | lam x b ih =>
    obtain ⟨bTy, hb, rfl⟩ := inferIn_lam_eq_some.mp h
    exact inferIn_lam_eq_some.mpr ⟨bTy, ih hb, rfl⟩

/-- If `f(g(a))` has a type without subtypes, so has the composed meaning applied to `a`. -/
theorem infer_composed {f g a : Term} {ty ret fgaTy : Ty} (hg : g.infer sig = some (.arrow ty ret))
    (h : (app f (app g a)).infer {} = some fgaTy) :
    ∃ ty', (app (composed ty f g) a).infer {} = some ty' := by
  obtain ⟨y, gaTy, hf, hga, hc⟩ := inferIn_app_eq_some.mp h
  obtain ⟨z, aTy, hg', ha, hc'⟩ := inferIn_app_eq_some.mp hga
  cases hg.symm.trans (inferIn_of_start hg' sig)
  have hbody : (app (f.shift (1 : Nat) 0) (app (g.shift (1 : Nat) 0) (var 0))).inferIn {} [ty] =
      some fgaTy := by
    refine inferIn_app_eq_some.mpr ⟨y, ret, (inferIn_shift_zero f [ty] []).trans hf, ?_, hc⟩
    exact inferIn_app_eq_some.mpr ⟨ty, ty, (inferIn_shift_zero g [ty] []).trans hg', rfl,
      Signature.compatible_refl _ ty⟩
  exact ⟨fgaTy, inferIn_app_eq_some.mpr ⟨ty, aTy, inferIn_lam_eq_some.mpr ⟨fgaTy, hbody, rfl⟩, ha,
    hc'⟩⟩

end Term

/-! ## The two bracketings -/

/-- `f(g(a))` has a type even if every argument must have exactly the type that its function
expects. -/
def FitExactly (f g a : Option Term) : Prop :=
  ∀ f' ∈ f, ∀ g' ∈ g, ∀ a' ∈ a, ∃ ty, (Term.app f' (.app g' a')).infer {} = some ty

/-- In a flat hierarchy all that fits, fits exactly. -/
theorem infer_of_flat (hs : sig.Reachable) (hflat : sig.Flat) {f g a : Term} {gaTy fTy : Ty}
    (hga : (Term.app g a).infer sig = some gaTy)
    (hf : (Term.app f (Term.app g a).normalize).infer sig = some fTy) :
    ∃ ty, (Term.app f (.app g a)).infer {} = some ty := by
  obtain ⟨arg, nTy, hfun, hn, hc⟩ := Term.inferIn_app_eq_some.mp hf
  obtain ⟨nTy', hn', hc'⟩ := (Term.reductions_normalize hs hga).1.inferIn hs hga
  cases hn.symm.trans hn'
  obtain rfl := (Signature.compatible_iff_eq hflat).mp hc'
  exact ⟨fTy, (Term.inferIn_of_flat hflat [] _).symm.trans
    (Term.inferIn_app_eq_some.mpr ⟨arg, gaTy, hfun, hga, hc⟩)⟩

theorem applySem_none_right (f : Option Term) : applySem sig f none = some none := by
  cases f <;> rfl

/-- The two meanings, if there are three to start with: both are normal forms of the composed meaning
applied to the third. -/
theorem meanings_agree (hs : sig.Reachable) {f g a : Term} {fgSem gaSem sem₁ sem₂ : Option Term}
    (hfg : composeSem sig 1 (some f) (some g) = some fgSem)
    (h₁ : applySem sig (fgSem.map Term.normalize) (some a) = some sem₁)
    (hga : applySem sig (some g) (some a) = some gaSem)
    (h₂ : applySem sig (some f) (gaSem.map Term.normalize) = some sem₂) :
    ∃ u v, sem₁.map Term.normalize = some u ∧ sem₂.map Term.normalize = some v ∧
      u.skeleton = v.skeleton ∧ (sig.Flat ∨ FitExactly (some f) (some g) (some a) → u = v) := by
  obtain ⟨ty, ret, hg, rfl, _, hcomposed⟩ := composeSem_one_eq_some.mp hfg
  obtain ⟨rfl, _, hu⟩ := applySem_eq_some.mp h₁
  obtain ⟨rfl, gaTy, hgaTy⟩ := applySem_eq_some.mp hga
  obtain ⟨rfl, fTy, hv⟩ := applySem_eq_some.mp h₂
  obtain ⟨hred₁, -⟩ := Term.reductions_normalize hs hcomposed
  obtain ⟨hred₂, -⟩ := Term.reductions_normalize hs hgaTy
  obtain ⟨huRed, hun⟩ := Term.reductions_normalize hs hu
  obtain ⟨hvRed, hvn⟩ := Term.reductions_normalize hs hv
  have hredU := (Term.Reductions.app hred₁ (.refl (a := a))).trans huRed
  have hredV := (Term.reductions_composed ty f g a).trans
    ((Term.Reductions.app (.refl (a := f)) hred₂).trans hvRed)
  refine ⟨_, _, rfl, rfl, Term.skeleton_eq_of_reductions hredU hredV hun hvn, fun h => ?_⟩
  have hexact : ∃ ty, (Term.app f (.app g a)).infer {} = some ty := by
    rcases h with hflat | hfit
    · exact infer_of_flat hs hflat hgaTy hv
    · exact hfit f rfl g rfl a rfl
  obtain ⟨_, hexact⟩ := hexact
  obtain ⟨_, htyped⟩ := Term.infer_composed hg hexact
  exact Term.eq_of_reductions .start Signature.flat_start htyped hredU hredV hun hvn

/-- **The two bracketings of `X/Y Y/Z Z` have one syntax, and one meaning up to types at binders.**
Both are without a meaning if one of the three categories is. They are the same category in a flat
hierarchy, and in any hierarchy if the meanings fit exactly. -/
theorem bracketings_agree (sig : Signature) (hs : sig.Reachable) (x y z : Syn)
    (f g a : Option Term) (maxDegree : Nat) (hdegree : 1 ≤ maxDegree) (fg ga c₁ c₂ : Category)
    (hfg : (BinaryRule.forwardComposition maxDegree).combine sig ⟨.complex x .forward y, f⟩
      ⟨.complex y .forward z, g⟩ = some fg)
    (h₁ : BinaryRule.forwardApplication.combine sig fg ⟨z, a⟩ = some c₁)
    (hga : BinaryRule.forwardApplication.combine sig ⟨.complex y .forward z, g⟩ ⟨z, a⟩ = some ga)
    (h₂ : BinaryRule.forwardApplication.combine sig ⟨.complex x .forward y, f⟩ ga = some c₂) :
    c₁.syn = c₂.syn ∧ c₁.sem.map Term.skeleton = c₂.sem.map Term.skeleton ∧
      (f = none ∨ g = none ∨ a = none → c₁.sem = none ∧ c₂.sem = none) ∧
      (sig.Flat ∨ FitExactly f g a → c₁ = c₂) := by
  rw [BinaryRule.combine_forwardComposition hdegree] at hfg
  obtain ⟨fgSem, hfgSem, rfl⟩ := Option.map_eq_some_iff.mp hfg
  rw [Category.make, BinaryRule.combine_forwardApplication] at h₁
  obtain ⟨sem₁, hsem₁, rfl⟩ := Option.map_eq_some_iff.mp h₁
  rw [BinaryRule.combine_forwardApplication] at hga
  obtain ⟨gaSem, hgaSem, rfl⟩ := Option.map_eq_some_iff.mp hga
  rw [Category.make, BinaryRule.combine_forwardApplication] at h₂
  obtain ⟨sem₂, hsem₂, rfl⟩ := Option.map_eq_some_iff.mp h₂
  refine ⟨rfl, ?_⟩
  simp only [Category.make, Category.mk.injEq, true_and]
  -- without one of the meanings both results are without one
  cases f with
  | none =>
    cases hfgSem
    cases hsem₁
    cases hsem₂
    exact ⟨rfl, fun _ => ⟨rfl, rfl⟩, fun _ => rfl⟩
  | some f =>
    cases g with
    | none =>
      cases hfgSem
      cases hsem₁
      cases hgaSem
      cases hsem₂
      exact ⟨rfl, fun _ => ⟨rfl, rfl⟩, fun _ => rfl⟩
    | some g =>
      cases a with
      | none =>
        rw [applySem_none_right] at hsem₁ hgaSem
        cases hsem₁
        cases hgaSem
        cases hsem₂
        exact ⟨rfl, fun _ => ⟨rfl, rfl⟩, fun _ => rfl⟩
      | some a =>
        obtain ⟨u, v, hu, hv, hskeleton, heq⟩ := meanings_agree hs hfgSem hsem₁ hgaSem hsem₂
        rw [hu, hv, Option.map_some, Option.map_some, hskeleton]
        exact ⟨rfl, by simp, fun h => congrArg some (heq h)⟩

/-- A hierarchy in which dogs are entities. -/
def dogsAndEntities : Signature := { atomics := [("dog", some "e"), ("t", none), ("e", none)] }

theorem reachable_dogsAndEntities : dogsAndEntities.Reachable := by
  have hdog : Signature.addAtomic {} "dog" (some "e") = .ok dogsAndEntities := rfl
  exact .addAtomic .start hdog

/-- The words `the red book` are one noun phrase, whichever way they are put together. -/
theorem bracketings_agree_theRedBook :
    let the : Category := ⟨.complex (.atom "NP") .forward (.atom "N"),
      some (.const "the" (.arrow (.arrow .entity .truth) .entity))⟩
    let red : Category := ⟨.complex (.atom "N") .forward (.atom "N"),
      some (.const "red" (.arrow (.arrow .entity .truth) (.arrow .entity .truth)))⟩
    let book : Category := ⟨.atom "N", some (.const "book" (.arrow .entity .truth))⟩
    ∃ theRed redBook c₁ c₂,
      (BinaryRule.forwardComposition 1).combine dogsAndEntities the red = some theRed ∧
      BinaryRule.forwardApplication.combine dogsAndEntities theRed book = some c₁ ∧
      BinaryRule.forwardApplication.combine dogsAndEntities red book = some redBook ∧
      BinaryRule.forwardApplication.combine dogsAndEntities the redBook = some c₂ ∧ c₁ = c₂ := by
  intro the red book
  have hfit : FitExactly the.sem red.sem book.sem := by
    rintro _ ⟨⟩ _ ⟨⟩ _ ⟨⟩
    exact ⟨.entity, rfl⟩
  have htheRed : (BinaryRule.forwardComposition 1).combine dogsAndEntities the red =
      some ⟨.complex (.atom "NP") .forward (.atom "N"), some (.lam (.arrow .entity .truth)
        (.app (.const "the" (.arrow (.arrow .entity .truth) .entity)) (.app (.const "red"
          (.arrow (.arrow .entity .truth) (.arrow .entity .truth))) (.var 0))))⟩ := by
    cbv
  have hredBook : BinaryRule.forwardApplication.combine dogsAndEntities red book =
      some ⟨.atom "N", some (.app (.const "red" (.arrow (.arrow .entity .truth)
        (.arrow .entity .truth))) (.const "book" (.arrow .entity .truth)))⟩ := by
    cbv
  refine ⟨_, _, _, _, htheRed, rfl, hredBook, rfl, ?_⟩
  exact (bracketings_agree dogsAndEntities reachable_dogsAndEntities _ _ _ _ _ _ 1 le_rfl _ _ _ _
    htheRed rfl hredBook rfl).2.2.2 (Or.inr hfit)

/-- **The two bracketings can differ in the type at a binder.** All three meanings are closed, typed
and normal: `λP.λx:dog.P(x, x)` asks for a relation between dogs, `λQ:<e,t>.λx:dog.Q` makes one that
ignores its first argument, and `λx:e.like(x, x)` is a property of all entities. Composition leaves
`λQ:<e,t>.Q` of the first two, and so keeps the third as it is; applying twice gives a property of
dogs. -/
theorem bracketings_differ :
    let dog : Ty := .atom "dog"
    let like : Term := .const "like" (.arrow .entity (.arrow .entity .truth))
    let self : Category := ⟨.complex (.atom "S") .forward (.atom "N"),
      some (.lam (.arrow dog (.arrow dog .truth)) (.lam dog (.app (.app (.var 1) (.var 0)) (.var 0))))⟩
    let idle : Category := ⟨.complex (.atom "N") .forward (.atom "NP"),
      some (.lam (.arrow .entity .truth) (.lam dog (.var 1)))⟩
    let liked : Category := ⟨.atom "NP", some (.lam .entity (.app (.app like (.var 0)) (.var 0)))⟩
    dogsAndEntities.Reachable ∧ self.Sound dogsAndEntities ∧ idle.Sound dogsAndEntities ∧
    liked.Sound dogsAndEntities ∧
    ∃ selfIdle idleLiked c₁ c₂,
      (BinaryRule.forwardComposition 1).combine dogsAndEntities self idle = some selfIdle ∧
      BinaryRule.forwardApplication.combine dogsAndEntities selfIdle liked = some c₁ ∧
      BinaryRule.forwardApplication.combine dogsAndEntities idle liked = some idleLiked ∧
      BinaryRule.forwardApplication.combine dogsAndEntities self idleLiked = some c₂ ∧
      c₁ ≠ c₂ := by
  intro dog like self idle liked
  refine ⟨reachable_dogsAndEntities, ?_, ?_, ?_, ⟨.complex (.atom "S") .forward (.atom "NP"),
      some (.lam (.arrow .entity .truth) (.var 0))⟩,
    ⟨.atom "N", some (.lam dog (.lam .entity (.app (.app like (.var 0)) (.var 0))))⟩,
    ⟨.atom "S", some (.lam .entity (.app (.app like (.var 0)) (.var 0)))⟩,
    ⟨.atom "S", some (.lam dog (.app (.app like (.var 0)) (.var 0)))⟩,
    by cbv, by cbv, by cbv, by cbv, by decide⟩
  all_goals
    rintro _ ⟨⟩
    exact ⟨by decide, by decide, by decide⟩

end Categorial
