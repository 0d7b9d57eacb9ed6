import Categorial.Proofs.NormalForm
import Categorial.Rule.Combine

/-!
# Rules keep meanings well-typed

A category is sound if its meaning is absent, or closed, well-typed and in normal form. Whatever the
rules make of sound categories is sound again. Most results are checked for their type when they are
built; a raised meaning is not, but has one.

* `Term.exists_normalize?`: a typed closed term has a normal form of a compatible type.
* `Category.Sound`, `Category.sound_make`.
* **`typed_meanings_preserved`**: normal forms keep types, and rules keep soundness.
-/

namespace Categorial

variable {sig : Signature}

namespace Term

theorem closedAt_mono {t : Term} {m n : Nat} (hmn : m ≤ n) (h : t.closedAt m = true) :
    t.closedAt n = true := by
  induction t generalizing m n with
  | const x ty => rfl
  | var k =>
    simp only [closedAt, decide_eq_true_eq] at h ⊢
    omega
  | app f a ihf iha =>
    rw [closedAt, Bool.and_eq_true] at h ⊢
    exact ⟨ihf hmn h.1, iha hmn h.2⟩
  | lam ty b ih => exact ih (Nat.succ_le_succ hmn) h

theorem isClosed_of_infer {t : Term} {ty : Ty} (h : t.infer sig = some ty) : t.isClosed = true :=
  closedAt_of_inferIn h

/-- A typed closed term needs no modulus. -/
theorem modulus_of_infer {t : Term} {ty : Ty} (h : t.infer sig = some ty) : t.modulus = 0 :=
  if_pos (closedAt_mono (Nat.zero_le _) (isClosed_of_infer h))

/-- A typed closed term has a normal form of a compatible type. -/
theorem exists_normalize? (hs : sig.Reachable) {t : Term} {ty : Ty} (h : t.infer sig = some ty) :
    ∃ u ty', t.normalize? = some u ∧ u.isNormal = true ∧ u.infer sig = some ty' ∧
      sig.compatible ty ty' = true := by
  obtain ⟨u, hu⟩ := exists_normalizes hs h
  obtain ⟨ty', hty', hc⟩ := hu.inferIn hs h
  refine ⟨u, ty', ?_, hu.isNormal, hty', hc⟩
  rw [normalize?, modulus_of_infer h]
  exact normalizeMod?_zero_eq_some.mpr hu

end Term

/-! ## Sound categories -/

/-- The meaning is absent, or closed, well-typed and in normal form. -/
def Category.Sound (sig : Signature) (c : Category) : Prop :=
  ∀ t, c.sem = some t → t.isClosed = true ∧ (t.infer sig).isSome = true ∧ t.isNormal = true

/-- The meaning is absent or well-typed. -/
def TypedSem (sig : Signature) (sem : Option Term) : Prop :=
  ∀ t, sem = some t → ∃ ty, t.infer sig = some ty

theorem typedSem_none : TypedSem sig none := fun _ h => by cases h

theorem Category.sound_make (hs : sig.Reachable) {sem : Option Term} (h : TypedSem sig sem)
    (syn : Syn) : (Category.make syn sem).Sound sig := by
  intro t ht
  obtain ⟨s, rfl, rfl⟩ := Option.map_eq_some_iff.mp ht
  obtain ⟨ty, hty⟩ := h s rfl
  obtain ⟨u, ty', hu, hn, hu', -⟩ := Term.exists_normalize? hs hty
  rw [Term.normalize, hu, Option.getD_some]
  exact ⟨Term.isClosed_of_infer hu', by rw [hu']; rfl, hn⟩

/-! ## Built meanings -/

theorem checkedSem_eq_some {t : Term} {sem : Option Term} :
    checkedSem sig t = some sem ↔ sem = some t ∧ ∃ ty, t.infer sig = some ty := by
  unfold checkedSem
  split_ifs with h
  · rw [Option.some.injEq, eq_comm, ← Option.isSome_iff_exists]
    exact (and_iff_left h).symm
  · rw [← Option.isSome_iff_exists]
    exact ⟨nofun, fun h' => (h h'.2).elim⟩

theorem typedSem_of_checkedSem {t : Term} {sem : Option Term}
    (h : checkedSem sig t = some sem) : TypedSem sig sem := by
  unfold checkedSem at h
  split_ifs at h with ht
  cases h
  rintro _ ⟨⟩
  exact Option.isSome_iff_exists.mp ht

theorem typedSem_of_applySem {f a sem : Option Term} (h : applySem sig f a = some sem) :
    TypedSem sig sem := by
  unfold applySem at h
  split at h
  · exact typedSem_of_checkedSem h
  · cases h; exact typedSem_none

theorem typedSem_of_composeSem {degree : Nat} {f g sem : Option Term}
    (h : composeSem sig degree f g = some sem) : TypedSem sig sem := by
  unfold composeSem at h
  split at h
  · simp only [Option.bind_eq_bind, Option.bind_eq_some_iff] at h
    obtain ⟨_, _, _, _, h⟩ := h
    exact typedSem_of_checkedSem h
  · cases h; exact typedSem_none

theorem typedSem_of_raiseComposeSem {a g sem : Option Term}
    (h : raiseComposeSem sig a g = some sem) : TypedSem sig sem := by
  unfold raiseComposeSem at h
  split at h
  · simp only [Option.bind_eq_bind, Option.bind_eq_some_iff] at h
    obtain ⟨_, _, ⟨_, _⟩, _, h⟩ := h
    exact typedSem_of_checkedSem h
  · cases h; exact typedSem_none

/-- `λf.f(a)` has a type whenever `a` has one. -/
theorem infer_raised {a : Term} {aTy : Ty} (ha : a.infer sig = some aTy) (targetTy : Ty) :
    (Term.lam (.arrow aTy targetTy) (.app (.var 0) (a.shift 1 0))).infer sig =
      some (.arrow (.arrow aTy targetTy) targetTy) := by
  refine Term.inferIn_lam_eq_some.mpr ⟨targetTy, Term.inferIn_app_eq_some.mpr ?_, rfl⟩
  exact ⟨aTy, aTy, rfl, (Term.inferIn_shift_zero a [.arrow aTy targetTy] []).trans ha,
    sig.compatible_refl aTy⟩

theorem typedSem_of_raiseSem {targetTy : Ty} {a sem : Option Term}
    (h : raiseSem sig targetTy a = some sem) : TypedSem sig sem := by
  unfold raiseSem at h
  split at h
  · simp only [Option.bind_eq_bind, Option.bind_eq_some_iff, Option.some.injEq] at h
    obtain ⟨aTy, ha, rfl⟩ := h
    rintro _ ⟨⟩
    exact ⟨_, infer_raised ha targetTy⟩
  · cases h; exact typedSem_none

/-! ## Rules -/

theorem sound_of_compose (hs : sig.Reachable) {slash : Slash} {maxDegree : Nat}
    {functor other c : Category} (h : compose sig slash maxDegree functor other = some c) :
    c.Sound sig := by
  unfold compose at h
  simp only [Option.bind_eq_bind, Option.bind_eq_some_iff] at h
  obtain ⟨⟨x, fSlash, y⟩, -, h⟩ := h
  split_ifs at h
  · simp at h
  · simp only [Option.bind_eq_some_iff] at h
    obtain ⟨⟨degree, args⟩, -, sem, hsem, h⟩ := h
    cases h
    exact Category.sound_make hs (typedSem_of_composeSem hsem) _

theorem BinaryRule.sound_of_combine (hs : sig.Reachable) {rule : BinaryRule}
    {left right c : Category} (hl : left.Sound sig) (hr : right.Sound sig)
    (h : rule.combine sig left right = some c) : c.Sound sig := by
  unfold combine at h
  split_ifs at h
  cases rule with
  | forwardApplication =>
    simp only [Option.bind_eq_bind, Option.bind_eq_some_iff] at h
    obtain ⟨_, -, sem, hsem, h⟩ := h
    cases h
    exact Category.sound_make hs (typedSem_of_applySem hsem) _
  | backwardApplication =>
    simp only [Option.bind_eq_bind, Option.bind_eq_some_iff] at h
    obtain ⟨_, -, sem, hsem, h⟩ := h
    cases h
    exact Category.sound_make hs (typedSem_of_applySem hsem) _
  | forwardComposition maxDegree => exact sound_of_compose hs h
  | backwardComposition maxDegree => exact sound_of_compose hs h
  | forwardTypeRaisedComposition =>
    simp only [Option.bind_eq_bind, Option.bind_eq_some_iff] at h
    obtain ⟨_, -, _, -, sem, hsem, h⟩ := h
    cases h
    exact Category.sound_make hs (typedSem_of_raiseComposeSem hsem) _
  | forwardSkipping => cases h; exact hr
  | backwardSkipping => cases h; exact hl

theorem UnaryRule.sound_of_apply (hs : sig.Reachable) {rule : UnaryRule} {cat c : Category}
    (h : rule.apply sig cat = some c) : c.Sound sig := by
  unfold apply at h
  cases rule with
  | typeRaising name arg target targetTy =>
    simp only [Option.bind_eq_bind] at h
    split_ifs at h
    · obtain ⟨sem, hsem, h⟩ := Option.bind_eq_some_iff.mp h
      rw [Option.bind_some] at h
      split_ifs at h
      cases h
      exact Category.sound_make hs (typedSem_of_raiseSem hsem) _
    · cases h
  | typeShifting name source target template =>
    simp only [Option.bind_eq_bind] at h
    split_ifs at h
    · obtain ⟨sem, hsem, h⟩ := Option.bind_eq_some_iff.mp h
      rw [Option.bind_some] at h
      split_ifs at h
      cases h
      exact Category.sound_make hs (typedSem_of_applySem hsem) _
    · cases h

/-- **Well-typedness is preserved.** A closed term of some type has a normal form, and the type of
that is compatible with it; all that the binary rules make of sound categories is sound, and all
that the unary rules make of any. -/
theorem typed_meanings_preserved (sig : Signature) (hs : sig.Reachable) :
    (∀ (t : Term) (ty : Ty), t.infer sig = some ty →
      ∃ u ty', t.normalize? = some u ∧ u.infer sig = some ty' ∧ sig.compatible ty ty' = true) ∧
    ∀ rule : Rule,
      (∀ left right c : Category, left.Sound sig → right.Sound sig →
        rule.combine sig left right = some c → c.Sound sig) ∧
      (∀ cat c : Category, rule.applyUnary sig cat = some c → c.Sound sig) := by
  refine ⟨fun t ty h => ?_, fun rule => ⟨fun left right c hl hr h => ?_, fun cat c h => ?_⟩⟩
  · obtain ⟨u, ty', hu, -, hty', hc⟩ := Term.exists_normalize? hs h
    exact ⟨u, ty', hu, hty', hc⟩
  · cases rule with
    | binary r => exact r.sound_of_combine hs hl hr h
    | unary r => cases h
  · cases rule with
    | binary r => cases h
    | unary r => exact r.sound_of_apply hs h

/-- Dropping the binder of `λx:dog.bark(x)` leaves a function on all entities; `bark` applied to a dog
is a sound meaning, and so is the raised dog. -/
theorem typed_meanings_preserved_dog :
    ∃ sig : Signature, sig.Reachable ∧
      (∃ u ty', (Term.lam (.atom "dog") (.app (.const "bark" (.arrow .entity .truth))
        (.var 0))).normalize? = some u ∧ u.infer sig = some ty' ∧
          sig.compatible (.arrow (.atom "dog") .truth) ty' = true) ∧
      (Category.make (.atom "S") (some (.app (.const "bark" (.arrow .entity .truth))
        (.const "rex" (.atom "dog"))))).Sound sig ∧
      ∃ c, Rule.applyUnary sig (.unary (.typeRaising "raise" (.atom "NP") (.atom "S") .truth))
        ⟨.atom "NP", some (.const "rex" (.atom "dog"))⟩ = some c ∧ c.Sound sig := by
  have hdog : Signature.addAtomic {} "dog" (some "e") =
      .ok { atomics := [("dog", some "e"), ("t", none), ("e", none)] } := rfl
  have hs := Signature.Reachable.addAtomic .start hdog
  obtain ⟨hterm, hrule⟩ := typed_meanings_preserved _ hs
  refine ⟨_, hs, hterm _ _ rfl, ?_, _, rfl,
    (hrule (.unary (.typeRaising "raise" (.atom "NP") (.atom "S") .truth))).2
      ⟨.atom "NP", some (.const "rex" (.atom "dog"))⟩ _ rfl⟩
  refine (hrule (.binary .forwardApplication)).1
    ⟨.complex (.atom "S") .forward (.atom "NP"), some (.const "bark" (.arrow .entity .truth))⟩
    ⟨.atom "NP", some (.const "rex" (.atom "dog"))⟩ _ ?_ ?_ rfl
  · rintro _ ⟨⟩
    exact ⟨rfl, rfl, rfl⟩
  · rintro _ ⟨⟩
    exact ⟨rfl, rfl, rfl⟩

end Categorial
