import Categorial.Proofs.Confluence
import Categorial.Proofs.WellTyped

/-!
# Conversion in a flat hierarchy

If no atomic type has a parent, an argument has exactly the type that its function expects. The types
at the binders of a normal term then follow from its type and from the types of its constants, and so
normal terms that are equal up to types at binders are equal: a typed term has one normal form,
whichever redexes are contracted. The search for normal forms decides which terms are convertible.

* `Signature.Flat`: no atomic type has a parent; `Signature.compatible_iff_eq`.
* `Term.Reduces.inferIn`: a step keeps types up to compatibility.
* `Term.eq_of_skeleton_eq`: normal terms that are equal up to types at binders.
* **`Term.eq_of_reductions`**: a typed term has one normal form.
* `Term.Convertible`: steps in both directions through typed terms.
* **`flat_conversion`**: convertible terms are those with the same normal form.
-/

namespace Categorial

/-! ## Flat hierarchies -/

namespace Signature

variable {sig : Signature}

/-- No atomic type has a parent. -/
def Flat (sig : Signature) : Prop := ∀ d ∈ sig.atomics, d.2 = none

theorem flat_start : Flat {} := by
  simp [Flat]

theorem eq_of_climbs {l : List (String × Option String)} (hl : ∀ d ∈ l, d.2 = none) {a b : String}
    (h : climbs l a b = true) : a = b := by
  induction l with
  | nil => simpa [climbs] using h
  | cons d older ih =>
    rcases (climbs_cons ..).mp h with h | ⟨-, p, hp, -⟩ | ⟨-, h⟩
    · exact h
    · cases (hl _ List.mem_cons_self).symm.trans hp
    · exact ih (fun d hd => hl d (List.mem_cons_of_mem _ hd)) h

theorem eq_of_compatibleWith (hflat : sig.Flat) {flipped : Bool} {a b : Ty}
    (h : sig.compatibleWith flipped a b = true) : a = b := by
  induction a generalizing flipped b with
  | atom x =>
    cases b with
    | atom y =>
      cases flipped with
      | true => rw [eq_of_climbs hflat h]
      | false => rw [eq_of_climbs hflat h]
    | arrow y z => simp [compatibleWith] at h
  | arrow x y ihx ihy =>
    cases b with
    | atom z => simp [compatibleWith] at h
    | arrow z w =>
      rw [compatibleWith, Bool.and_eq_true] at h
      rw [ihx h.1, ihy h.2]

/-- In a flat hierarchy a type is compatible with itself only. -/
theorem compatible_iff_eq (hflat : sig.Flat) {a b : Ty} : sig.compatible a b = true ↔ a = b :=
  ⟨fun h => eq_of_compatibleWith hflat h, fun h => h ▸ sig.compatible_refl a⟩

end Signature

namespace Term

variable {sig : Signature}

/-- In a flat hierarchy the names of the atomic types play no part in typing. -/
theorem inferIn_of_flat (hflat : sig.Flat) (ctx : List Ty) (t : Term) :
    t.inferIn sig ctx = t.inferIn {} ctx := by
  have hcompatible : ∀ a b, sig.compatible a b = Signature.compatible {} a b := fun a b =>
    Bool.eq_iff_iff.mpr ((Signature.compatible_iff_eq hflat).trans
      (Signature.compatible_iff_eq Signature.flat_start).symm)
  induction t generalizing ctx with
  | const n ty => rfl
  | var k => rfl
  | app f a ihf iha => simp only [inferIn, ihf, iha, hcompatible]
  | lam ty b ih => rw [inferIn, ih, inferIn]

/-! ## Types along reductions -/

/-- A step keeps types up to compatibility. -/
theorem Reduces.inferIn (hs : sig.Reachable) {t u : Term} (h : Reduces t u) {ctx : List Ty} {ty : Ty}
    (ht : t.inferIn sig ctx = some ty) :
    ∃ ty', u.inferIn sig ctx = some ty' ∧ sig.compatible ty ty' = true := by
  induction h generalizing ctx ty with
  | beta x b a =>
    obtain ⟨arg, aTy, hf, ha, hc⟩ := inferIn_app_eq_some.mp ht
    obtain ⟨bTy, hb, he⟩ := inferIn_lam_eq_some.mp hf
    obtain ⟨rfl, rfl⟩ := Ty.arrow.inj he
    rw [betaMod_zero]
    exact inferIn_instantiate hs a arg aTy ctx ha hc b [] ty hb
  | @eta x f hf =>
    obtain ⟨bTy, hb, rfl⟩ := inferIn_lam_eq_some.mp ht
    obtain ⟨arg, aTy, hfun, ha, hc⟩ := inferIn_app_eq_some.mp hb
    cases ha
    refine ⟨.arrow arg bTy, (inferIn_lower f [] x ctx hf).trans hfun, ?_⟩
    rw [Signature.compatible_arrow, hc, sig.compatible_refl]
    rfl
  | fn a _ ih =>
    obtain ⟨arg, aTy, hf, ha, hc⟩ := inferIn_app_eq_some.mp ht
    obtain ⟨fTy', hf', hff⟩ := ih hf
    obtain ⟨arg', ret', rfl, harg, hret⟩ := Signature.exists_arrow_of_compatible hff
    exact ⟨ret', inferIn_app_eq_some.mpr ⟨arg', aTy, hf', ha,
      Signature.compatible_trans hs harg hc⟩, hret⟩
  | arg f _ ih =>
    obtain ⟨arg, aTy, hf, ha, hc⟩ := inferIn_app_eq_some.mp ht
    obtain ⟨aTy', ha', haa⟩ := ih ha
    exact ⟨ty, inferIn_app_eq_some.mpr ⟨arg, aTy', hf, ha', Signature.compatible_trans hs hc haa⟩,
      sig.compatible_refl ty⟩
  | body x _ ih =>
    obtain ⟨bTy, hb, rfl⟩ := inferIn_lam_eq_some.mp ht
    obtain ⟨bTy', hb', hbb⟩ := ih hb
    refine ⟨.arrow x bTy', inferIn_lam_eq_some.mpr ⟨bTy', hb', rfl⟩, ?_⟩
    rw [Signature.compatible_arrow, sig.compatible_refl, hbb]
    rfl

theorem Reductions.inferIn (hs : sig.Reachable) {t u : Term} (h : Reductions t u) {ctx : List Ty}
    {ty : Ty} (ht : t.inferIn sig ctx = some ty) :
    ∃ ty', u.inferIn sig ctx = some ty' ∧ sig.compatible ty ty' = true := by
  induction h with
  | refl => exact ⟨ty, ht, sig.compatible_refl ty⟩
  | tail _ hstep ih =>
    obtain ⟨ty', hty', hc⟩ := ih
    obtain ⟨ty'', hty'', hc'⟩ := hstep.inferIn hs hty'
    exact ⟨ty'', hty'', Signature.compatible_trans hs hc hc'⟩

/-! ## One normal form -/

/-- Normal terms that are equal up to types at binders are equal: the type of a function that is not an
abstraction follows from its head, and that of an argument from its function. -/
theorem eq_of_skeleton_eq (hflat : sig.Flat) {t u : Term} (hn : t.isNormal = true)
    (h : t.skeleton = u.skeleton) {ctx : List Ty} {ty ty' : Ty} (ht : t.inferIn sig ctx = some ty)
    (hu : u.inferIn sig ctx = some ty') (hlam : t.isLam = true → ty = ty') : t = u := by
  induction t generalizing u ctx ty ty' with
  | const n cTy =>
    cases u with
    | const m dTy => exact h
    | _ => cases h
  | var k =>
    cases u with
    | var i => exact h
    | _ => cases h
  | app f a ihf iha =>
    cases u with
    | app g b =>
      obtain ⟨hf, ha⟩ := app.inj h
      obtain ⟨hflam, hfn, han⟩ := isNormal_app.mp hn
      obtain ⟨arg, aTy, hfT, haT, hc⟩ := inferIn_app_eq_some.mp ht
      obtain ⟨arg', bTy, hgT, hbT, hc'⟩ := inferIn_app_eq_some.mp hu
      have hfg : f = g := ihf hfn hf hfT hgT fun hl => by rw [hflam] at hl; cases hl
      subst hfg
      cases hfT.symm.trans hgT
      have hab : aTy = bTy := by
        rw [← (Signature.compatible_iff_eq hflat).mp hc, (Signature.compatible_iff_eq hflat).mp hc']
      rw [iha han ha haT hbT fun _ => hab]
    | _ => cases h
  | lam x b ih =>
    cases u with
    | lam y c =>
      obtain ⟨bTy, hb, rfl⟩ := inferIn_lam_eq_some.mp ht
      obtain ⟨cTy, hc, rfl⟩ := inferIn_lam_eq_some.mp hu
      obtain ⟨rfl, rfl⟩ := Ty.arrow.inj (hlam rfl)
      rw [ih (isNormal_lam.mp hn).2 (lam.inj h).2 hb hc fun _ => rfl]
    | _ => cases h

/-- **In a flat hierarchy a typed term has one normal form.** -/
theorem eq_of_reductions (hs : sig.Reachable) (hflat : sig.Flat) {t u v : Term} {ctx : List Ty}
    {ty : Ty} (ht : t.inferIn sig ctx = some ty) (hu : Reductions t u) (hv : Reductions t v)
    (hun : u.isNormal = true) (hvn : v.isNormal = true) : u = v := by
  obtain ⟨uTy, huT, huc⟩ := hu.inferIn hs ht
  obtain ⟨vTy, hvT, hvc⟩ := hv.inferIn hs ht
  refine eq_of_skeleton_eq hflat hun (skeleton_eq_of_reductions hu hv hun hvn) huT hvT fun _ => ?_
  rw [← (Signature.compatible_iff_eq hflat).mp huc, (Signature.compatible_iff_eq hflat).mp hvc]

/-! ## Conversion -/

/-- The term has a type in some context. -/
def Typed (sig : Signature) (t : Term) : Prop := ∃ ctx ty, t.inferIn sig ctx = some ty

/-- The terms are linked by steps of reduction in either direction, through typed terms. -/
def Convertible (sig : Signature) : Term → Term → Prop :=
  Relation.EqvGen fun t u => Reduces t u ∧ t.Typed sig ∧ u.Typed sig

theorem typed_of_flat (hflat : sig.Flat) (t : Term) : t.Typed sig ↔ t.Typed {} := by
  simp only [Typed, inferIn_of_flat hflat]

theorem Normalizes.unique {t u v : Term} (hu : Normalizes t u) (hv : Normalizes t v) : u = v :=
  Option.some.inj ((eq_some_of_normalizes hu).symm.trans (eq_some_of_normalizes hv))

/-- Convertible terms are the same or have the same normal form. -/
theorem Convertible.normalizes (hflat : sig.Flat) {s t : Term} (h : Convertible sig s t) :
    s = t ∨ ∃ u, Normalizes s u ∧ Normalizes t u := by
  induction h with
  | rel s t h =>
    obtain ⟨hstep, hs, ht⟩ := h
    obtain ⟨ctx, ty, hty⟩ := (typed_of_flat hflat s).mp hs
    obtain ⟨_, _, hty'⟩ := (typed_of_flat hflat t).mp ht
    obtain ⟨u, hu⟩ := exists_normalizes .start hty
    obtain ⟨v, hv⟩ := exists_normalizes .start hty'
    have huv : u = v := eq_of_reductions .start Signature.flat_start hty hu.reductions
      (.head hstep hv.reductions) hu.isNormal hv.isNormal
    exact Or.inr ⟨u, hu, huv ▸ hv⟩
  | refl s => exact Or.inl rfl
  | symm s t _ ih =>
    rcases ih with rfl | ⟨u, hs, ht⟩
    · exact Or.inl rfl
    · exact Or.inr ⟨u, ht, hs⟩
  | trans s m t _ _ ih₁ ih₂ =>
    rcases ih₁ with rfl | ⟨u, hs, hm⟩
    · exact ih₂
    · rcases ih₂ with rfl | ⟨v, hm', ht⟩
      · exact Or.inr ⟨u, hs, hm⟩
      · exact Or.inr ⟨u, hs, hm.unique hm' ▸ ht⟩

theorem normalize_of_normalizes {t u : Term} (hc : t.isClosed = true) (h : Normalizes t u) :
    t.normalize = u := by
  rw [normalize, normalize?, modulus, if_pos (closedAt_mono (Nat.zero_le _) hc),
    eq_some_of_normalizes h, Option.getD_some]

/-- A typed term is convertible to what it reduces to. -/
theorem Reductions.convertible (hflat : sig.Flat) {t u : Term} (h : Reductions t u)
    (ht : t.Typed sig) : Convertible sig t u ∧ u.Typed sig := by
  induction h with
  | refl => exact ⟨.refl t, ht⟩
  | tail _ hstep ih =>
    obtain ⟨hconv, hm⟩ := ih
    obtain ⟨ctx, ty, hty⟩ := (typed_of_flat hflat _).mp hm
    obtain ⟨ty', hty', -⟩ := hstep.inferIn .start hty
    have hu : Typed sig _ := (typed_of_flat hflat _).mpr ⟨ctx, ty', hty'⟩
    exact ⟨.trans _ _ _ hconv (.rel _ _ ⟨hstep, hm, hu⟩), hu⟩

end Term

/-- **Normal forms decide conversion in a flat hierarchy.** Closed terms that are linked by steps of
reduction in either direction, through typed terms, have the same normal form and make the same
categories; closed typed terms with the same normal form are linked in this way. -/
theorem flat_conversion (sig : Signature) (hflat : sig.Flat) (s t : Term) (hs : s.isClosed = true)
    (ht : t.isClosed = true) :
    (s.Convertible sig t →
      s.normalize = t.normalize ∧
        ∀ syn, Category.make syn (some s) = Category.make syn (some t)) ∧
    (s.Typed sig → t.Typed sig → s.normalize = t.normalize → s.Convertible sig t) := by
  constructor
  · intro h
    have he : s.normalize = t.normalize := by
      rcases h.normalizes hflat with rfl | ⟨u, hu, hv⟩
      · rfl
      · rw [Term.normalize_of_normalizes hs hu, Term.normalize_of_normalizes ht hv]
    refine ⟨he, fun syn => ?_⟩
    rw [Category.make, Category.make, Option.map_some, Option.map_some, he]
  · intro hsT htT he
    obtain ⟨_, _, hsty⟩ := (Term.typed_of_flat hflat s).mp hsT
    obtain ⟨_, _, htty⟩ := (Term.typed_of_flat hflat t).mp htT
    obtain ⟨u, hu⟩ := Term.exists_normalizes .start hsty
    obtain ⟨v, hv⟩ := Term.exists_normalizes .start htty
    rw [Term.normalize_of_normalizes hs hu, Term.normalize_of_normalizes ht hv] at he
    subst he
    exact .trans _ _ _ (hu.reductions.convertible hflat hsT).1
      (.symm _ _ (hv.reductions.convertible hflat htT).1)

/-- `λP:<e,t>.P(ann)` applied to `sleep`, and `λx:e.sleep(x)` applied to `ann`, both convert to
`sleep(ann)`; so they have the same normal form, and are the same meaning of a sentence. -/
theorem flat_conversion_sleep :
    let sleep : Term := .const "sleep" (.arrow .entity .truth)
    let ann : Term := .const "ann" .entity
    let s : Term := .app (.lam (.arrow .entity .truth) (.app (.var 0) ann)) sleep
    let t : Term := .app (.lam .entity (.app sleep (.var 0))) ann
    s.Convertible {} t ∧ s.normalize = t.normalize ∧
      Category.make (.atom "S") (some s) = Category.make (.atom "S") (some t) := by
  intro sleep ann s t
  have hs : s.Reduces (.app sleep ann) := .beta _ _ _
  have ht : t.Reduces (.app sleep ann) := .fn ann (.eta _ rfl)
  have htyped : (Term.app sleep ann).Typed {} := ⟨[], .truth, rfl⟩
  have hconv : s.Convertible {} t :=
    .trans _ _ _ (.rel _ _ ⟨hs, ⟨[], .truth, rfl⟩, htyped⟩)
      (.symm _ _ (.rel _ _ ⟨ht, ⟨[], .truth, rfl⟩, htyped⟩))
  obtain ⟨he, hmake⟩ := (flat_conversion {} Signature.flat_start s t rfl rfl).1 hconv
  exact ⟨hconv, he, hmake _⟩

end Categorial
