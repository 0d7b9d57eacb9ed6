import Categorial.Proofs.Bracketing

/-!
# Type raising and the rules that do without it

A raised category `T/(T\X) : λf.f(a)` takes the function that would have taken `X : a`. Applying it
is backward application, and composing it is type-raised composition, so the rules that skip the
raised category give nothing new. The search for a normal form of `(λf.f(a))(g)` first brings `g` to
normal form and then goes on with `g(a)`, as does the search that starts from `g(a)`; the two end with
the same term, types at binders included.

* `Term.raised`: the meaning of a raised category.
* `Term.Normalizes.of_raised`: a raised meaning applied to a function.
* `Term.inferIn_of_raised`: a function that a raised meaning accepts, accepts what was raised.
* `UnaryRule.apply_typeRaising`, `BinaryRule.combine_backwardApplication`,
  `BinaryRule.combine_forwardTypeRaisedComposition`: the rules.
* **`raising_agrees`**: composing or applying what was raised gives what the shorter rule gives.
-/

namespace Categorial

variable {sig : Signature}

/-! ## Raised meanings -/

namespace Term

/-- `λf.f(a)`, for functions from `aTy` to `targetTy`. -/
def raised (aTy targetTy : Ty) (a : Term) : Term :=
  lam (.arrow aTy targetTy) (app (var 0) (a.shift (1 : Nat) 0))

variable {aTy targetTy : Ty} {a : Term}

theorem shift_raised (aTy targetTy : Ty) (a : Term) :
    (raised aTy targetTy a).shift (1 : Nat) 0 = raised aTy targetTy (a.shift (1 : Nat) 0) := by
  have hvar : (var 0).shift (1 : Nat) 1 = var 0 := rfl
  rw [raised, raised, shift_lam, shift_app, hvar, shift_shift _ 1 1 0 1 (by omega) (by omega),
    shift_shift _ 1 1 0 0 le_rfl (by omega)]

/-- A binder whose variable is applied is never dropped. -/
theorem isNormal_raised (h : a.isNormal = true) : (raised aTy targetTy a).isNormal = true := by
  refine isNormal_lam.mpr ⟨?_, isNormal_app.mpr ⟨rfl, rfl, by rw [isNormal_shift, h]⟩⟩
  generalize a.shift (1 : Nat) 0 = b
  unfold isEtaBody
  split
  · rename_i heq
    cases heq
    rfl
  · rfl

/-- The search may start with the function in normal form. -/
theorem Normalizes.app_left {f f' u : Term} (hf : Normalizes f f') (h : Normalizes (.app f' a) u) :
    Normalizes (.app f a) u := by
  cases h with
  | redex hf' ha hu =>
    obtain rfl := hf'.unique (.self hf.isNormal)
    exact .redex hf ha hu
  | app hf' ha hlam =>
    obtain rfl := hf'.unique (.self hf.isNormal)
    exact .app hf ha hlam

/-- A raised meaning applied to a function has the normal form of the function applied to what was
raised. -/
theorem Normalizes.of_raised (ha : a.isNormal = true) {f u : Term}
    (h : Normalizes (.app (raised aTy targetTy a) f) u) : Normalizes (.app f a) u := by
  have hself : Normalizes (raised aTy targetTy a) (raised aTy targetTy a) :=
    .self (isNormal_raised ha)
  cases h with
  | redex hr hf hu =>
    cases hr.unique hself
    rw [instantiate, instantiate_shift_one, instantiate, if_pos rfl, shift_zero] at hu
    exact hf.app_left hu
  | app hr hf hlam =>
    obtain rfl := hr.unique hself
    cases hlam

/-- A function that a raised meaning accepts, accepts what was raised: its argument may be more
general, and its result more special. -/
theorem inferIn_of_raised {ctx : List Ty} (ha : a.inferIn sig ctx = some aTy) {f : Term} {ty : Ty}
    (h : (app (raised aTy targetTy a) f).inferIn sig ctx = some ty) :
    ∃ ty', (app f a).inferIn sig ctx = some ty' := by
  obtain ⟨arg, fTy, hr, hf, hc⟩ := inferIn_app_eq_some.mp h
  obtain ⟨_, -, he⟩ := inferIn_lam_eq_some.mp hr
  cases he
  obtain ⟨arg, ret, rfl, harg, -⟩ := Signature.exists_arrow_of_compatible hc
  exact ⟨ret, inferIn_app_eq_some.mpr ⟨arg, aTy, hf, ha, harg⟩⟩

end Term

/-! ## Rules -/

section Rules

variable {x y z : Syn} {f a g : Option Term}

theorem BinaryRule.combine_backwardApplication :
    backwardApplication.combine sig ⟨y, a⟩ ⟨.complex x .backward y, f⟩ =
      (applySem sig f a).map (Category.make x) := by
  simp [combine, applies, Syn.complex?, Option.map_eq_bind]

theorem BinaryRule.combine_forwardTypeRaisedComposition :
    forwardTypeRaisedComposition.combine sig ⟨y, a⟩
        ⟨.complex (.complex x .backward y) .forward z, g⟩ =
      (raiseComposeSem sig a g).map (Category.make (.complex x .forward z)) := by
  simp [combine, applies, Syn.complex?, Option.map_eq_bind]

theorem UnaryRule.apply_typeRaising {name : String} {targetTy : Ty} {cat raised : Category}
    (h : (typeRaising name y x targetTy).apply sig cat = some raised) :
    cat.syn = y ∧ ∃ sem, raiseSem sig targetTy cat.sem = some sem ∧
      raised = Category.make (.complex x .forward (.complex x .backward y)) sem := by
  simp only [apply, Option.bind_eq_bind] at h
  split_ifs at h with hsyn
  · obtain ⟨sem, hsem, h⟩ := Option.bind_eq_some_iff.mp h
    rw [Option.bind_some] at h
    split_ifs at h
    cases h
    exact ⟨hsyn, sem, hsem, rfl⟩
  · cases h

end Rules

/-! ## Built meanings -/

theorem raiseComposeSem_of_infer {a g : Term} {ty ret bodyTy : Ty}
    (hg : g.infer sig = some (.arrow ty ret))
    (h : (Term.app (.app (g.shift (1 : Nat) 0) (.var 0)) (a.shift (1 : Nat) 0)).inferIn sig [ty] =
      some bodyTy) :
    raiseComposeSem sig (some a) (some g) =
      some (some (.lam ty (.app (.app (g.shift (1 : Nat) 0) (.var 0)) (a.shift (1 : Nat) 0)))) := by
  simp only [raiseComposeSem, hg, Option.bind_eq_bind, Option.bind_some, Ty.arrow?]
  exact checkedSem_eq_some.mpr ⟨rfl, _, Term.inferIn_lam_eq_some.mpr ⟨_, h, rfl⟩⟩

/-- Two typed meanings are the same if the search ends on the second as it ends on the first. -/
theorem make_eq_make (hs : sig.Reachable) {t t' : Term} {ty ty' : Ty} (ht : t.infer sig = some ty)
    (ht' : t'.infer sig = some ty') (h : ∀ u, t.Normalizes u → t'.Normalizes u) (syn : Syn) :
    Category.make syn (some t') = Category.make syn (some t) := by
  obtain ⟨u, hu⟩ := Term.exists_normalizes hs ht
  rw [Category.make, Category.make, Option.map_some, Option.map_some,
    Term.normalize_of_normalizes (Term.isClosed_of_infer ht) hu,
    Term.normalize_of_normalizes (Term.isClosed_of_infer ht') (h u hu)]

section Agreement

variable {targetTy : Ty} {a raised : Option Term}

/-- What the rule makes of a meaning is in normal form already. -/
theorem raiseSem_some {a : Term} (ha : a.isNormal = true)
    (h : raiseSem sig targetTy (some a) = some raised) :
    ∃ aTy, a.infer sig = some aTy ∧ raised.map Term.normalize = some (.raised aTy targetTy a) := by
  simp only [raiseSem, Option.bind_eq_bind, Option.bind_eq_some_iff, Option.some.injEq] at h
  obtain ⟨aTy, haTy, rfl⟩ := h
  refine ⟨aTy, haTy, congrArg some ?_⟩
  exact Term.normalize_of_normalizes (Term.isClosed_of_infer (infer_raised haTy targetTy))
    (.self (Term.isNormal_raised ha))

theorem map_applySem_of_raised (hs : sig.Reachable) (ha : ∀ t, a = some t → t.isNormal = true)
    (hraised : raiseSem sig targetTy a = some raised) {f sem : Option Term}
    (h : applySem sig (raised.map Term.normalize) f = some sem) (syn : Syn) :
    (applySem sig f a).map (Category.make syn) = some (Category.make syn sem) := by
  cases a with
  | none =>
    cases hraised
    cases h
    rw [applySem_none_right]
    rfl
  | some a =>
    obtain ⟨aTy, haTy, hnormal⟩ := raiseSem_some (ha a rfl) hraised
    rw [hnormal] at h
    cases f with
    | none =>
      cases h
      rfl
    | some f =>
      obtain ⟨rfl, ty, hty⟩ := applySem_eq_some.mp h
      obtain ⟨ty', hty'⟩ := Term.inferIn_of_raised haTy hty
      rw [applySem_eq_some.mpr ⟨rfl, ty', hty'⟩, Option.map_some,
        make_eq_make hs hty hty' fun u hu => hu.of_raised (ha a rfl)]

theorem map_raiseComposeSem_of_raised (hs : sig.Reachable)
    (ha : ∀ t, a = some t → t.isNormal = true)
    (hraised : raiseSem sig targetTy a = some raised) {g sem : Option Term}
    (h : composeSem sig 1 (raised.map Term.normalize) g = some sem) (syn : Syn) :
    (raiseComposeSem sig a g).map (Category.make syn) = some (Category.make syn sem) := by
  cases a with
  | none =>
    cases hraised
    cases h
    rfl
  | some a =>
    obtain ⟨aTy, haTy, hnormal⟩ := raiseSem_some (ha a rfl) hraised
    rw [hnormal] at h
    cases g with
    | none =>
      cases h
      rfl
    | some g =>
      obtain ⟨zTy, ret, hg, rfl, ty, hty⟩ := composeSem_one_eq_some.mp h
      rw [Term.composed, Term.shift_raised] at hty ⊢
      -- under the binder, what was raised is applied to `g(z)`
      obtain ⟨bodyTy, hbody, -⟩ := Term.inferIn_lam_eq_some.mp hty
      have haTy' : (a.shift (1 : Nat) 0).inferIn sig [zTy] = some aTy :=
        (Term.inferIn_shift_zero a [zTy] []).trans haTy
      have han : (a.shift (1 : Nat) 0).isNormal = true := by rw [Term.isNormal_shift, ha a rfl]
      obtain ⟨bodyTy', hbody'⟩ := Term.inferIn_of_raised haTy' hbody
      rw [raiseComposeSem_of_infer hg hbody', Option.map_some,
        make_eq_make hs hty (Term.inferIn_lam_eq_some.mpr ⟨bodyTy', hbody', rfl⟩)]
      intro u hu
      cases hu with
      | lam hb => exact .lam (hb.of_raised han)

end Agreement

/-- **Raising and then composing is type-raised composition, and raising and then applying is
backward application.** Nothing is asked of the other category: if its meaning does not fit, the
longer way fails too. -/
theorem raising_agrees (sig : Signature) (hs : sig.Reachable) (name : String) (arg target : Syn)
    (targetTy : Ty) (maxDegree : Nat) (hdegree : 1 ≤ maxDegree) (cat raised : Category)
    (hcat : cat.Sound sig)
    (hraised : (UnaryRule.typeRaising name arg target targetTy).apply sig cat = some raised) :
    (∀ (z : Syn) (other c : Category),
      other.syn = .complex (.complex target .backward arg) .forward z →
      (BinaryRule.forwardComposition maxDegree).combine sig raised other = some c →
      BinaryRule.forwardTypeRaisedComposition.combine sig cat other = some c) ∧
    (∀ other c : Category, other.syn = .complex target .backward arg →
      BinaryRule.forwardApplication.combine sig raised other = some c →
      BinaryRule.backwardApplication.combine sig cat other = some c) := by
  obtain ⟨hsyn, rSem, hrSem, rfl⟩ := UnaryRule.apply_typeRaising hraised
  obtain ⟨x, a⟩ := cat
  cases hsyn
  have ha : ∀ t, a = some t → t.isNormal = true := fun t ht => (hcat t ht).2.2
  refine ⟨?_, ?_⟩
  · rintro z ⟨_, g⟩ c rfl h
    rw [Category.make, BinaryRule.combine_forwardComposition hdegree] at h
    obtain ⟨sem, hsem, rfl⟩ := Option.map_eq_some_iff.mp h
    rw [BinaryRule.combine_forwardTypeRaisedComposition]
    exact map_raiseComposeSem_of_raised hs ha hrSem hsem _
  · rintro ⟨_, v⟩ c rfl h
    rw [Category.make, BinaryRule.combine_forwardApplication] at h
    obtain ⟨sem, hsem, rfl⟩ := Option.map_eq_some_iff.mp h
    rw [BinaryRule.combine_backwardApplication]
    exact map_applySem_of_raised hs ha hrSem hsem _

/-- The dog `rex` is raised to `S/(S\NP)`. Composed with `λz:e.λy:dog.chase(y, z)` it is
`chase(rex)`, and applied to `λy:e.bite(y, y)` it is `bite(rex, rex)`; the shorter rules give the same
categories. -/
theorem raising_agrees_rex :
    let dog : Ty := .atom "dog"
    let np : Syn := .atom "NP"
    let s : Syn := .atom "S"
    let relation : Ty := .arrow .entity (.arrow .entity .truth)
    let chase : Term := .const "chase" relation
    let bite : Term := .const "bite" relation
    let rex : Category := ⟨np, some (.const "rex" dog)⟩
    let chases : Category := ⟨.complex (.complex s .backward np) .forward np,
      some (.lam .entity (.lam dog (.app (.app chase (.var 0)) (.var 1))))⟩
    let bites : Category := ⟨.complex s .backward np,
      some (.lam .entity (.app (.app bite (.var 0)) (.var 0)))⟩
    ∃ raised rexChases rexBites,
      (UnaryRule.typeRaising "raise" np s .truth).apply dogsAndEntities rex = some raised ∧
      (BinaryRule.forwardComposition 1).combine dogsAndEntities raised chases = some rexChases ∧
      BinaryRule.forwardTypeRaisedComposition.combine dogsAndEntities rex chases = some rexChases ∧
      BinaryRule.forwardApplication.combine dogsAndEntities raised bites = some rexBites ∧
      BinaryRule.backwardApplication.combine dogsAndEntities rex bites = some rexBites := by
  intro dog np s relation chase bite rex chases bites
  have hrex : rex.Sound dogsAndEntities := by
    rintro _ ⟨⟩
    exact ⟨rfl, rfl, rfl⟩
  have hraised : (UnaryRule.typeRaising "raise" np s .truth).apply dogsAndEntities rex =
      some ⟨.complex s .forward (.complex s .backward np),
        some (.raised dog .truth (.const "rex" dog))⟩ := by
    cbv
  obtain ⟨hcompose, happly⟩ := raising_agrees dogsAndEntities reachable_dogsAndEntities "raise" np s
    .truth 1 le_rfl rex _ hrex hraised
  have hchases : (BinaryRule.forwardComposition 1).combine dogsAndEntities
      ⟨.complex s .forward (.complex s .backward np),
        some (.raised dog .truth (.const "rex" dog))⟩ chases =
      some ⟨.complex s .forward np, some (.app chase (.const "rex" dog))⟩ := by
    cbv
  have hbites : BinaryRule.forwardApplication.combine dogsAndEntities
      ⟨.complex s .forward (.complex s .backward np),
        some (.raised dog .truth (.const "rex" dog))⟩ bites =
      some ⟨s, some (.app (.app bite (.const "rex" dog)) (.const "rex" dog))⟩ := by
    cbv
  exact ⟨_, _, _, hraised, hchases, hcompose np chases _ rfl hchases, hbites,
    happly bites _ rfl hbites⟩

end Categorial
