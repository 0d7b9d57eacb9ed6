import Categorial.Proofs.Confluence
import Categorial.Proofs.WellTyped

/-!
# Terms without idle binders

A binder is idle if its variable does not occur. Contracting a redex with an idle binder throws the
argument away, and with it constants that may occur nowhere else. In a term without idle binders
nothing is thrown away: reduction keeps the constants, the free variables, and the absence of idle
binders.

* `Term.isRelevant`: no binder is idle.
* `Term.hasFreeMod_instantiate`, `Term.mem_constantNames_instantiate`: what occurs after a
  substitution; `Term.isRelevant_instantiate`.
* `Term.Keeps`: the same constants and free variables occur; **`Term.Reduces.keeps`**.
* `Term.keeps_normalize`: normal forms keep the constants.
-/

namespace Categorial.Term

/-- The variable of every binder occurs. -/
def isRelevant : Term → Bool
  | const _ _ => true
  | var _ => true
  | app f a => f.isRelevant && a.isRelevant
  | lam _ b => b.hasFreeMod 0 0 && b.isRelevant

theorem isRelevant_app {f a : Term} :
    (app f a).isRelevant = true ↔ f.isRelevant = true ∧ a.isRelevant = true := by
  rw [isRelevant, Bool.and_eq_true]

theorem isRelevant_lam {ty : Ty} {b : Term} :
    (lam ty b).isRelevant = true ↔ b.hasFreeMod 0 0 = true ∧ b.isRelevant = true := by
  rw [isRelevant, Bool.and_eq_true]

/-! ## Shifts -/

@[simp] theorem constantNames_shift (t : Term) (d : Int) (c : Nat) :
    (t.shift d c).constantNames = t.constantNames := by
  induction t generalizing c with
  | const x ty => rfl
  | var k => rfl
  | app f a ihf iha => rw [shift_app, constantNames, constantNames, ihf, iha]
  | lam ty b ih => rw [shift_lam, constantNames, constantNames, ih]

theorem isRelevant_shift (t : Term) (n c : Nat) : (t.shift n c).isRelevant = t.isRelevant := by
  induction t generalizing c with
  | const x ty => rfl
  | var k => rfl
  | app f a ihf iha => rw [shift_app, isRelevant, isRelevant, ihf, iha]
  | lam ty b ih =>
    rw [shift_lam, isRelevant, isRelevant, hasFreeMod_shift b n (Nat.succ_pos c), ih]

theorem isRelevant_lower {t : Term} {c : Nat} (h : t.hasFreeMod 0 c = false) :
    (t.shift (-1) c).isRelevant = t.isRelevant := by
  rw [← isRelevant_shift _ 1 c, shift_one_lower t c h]

theorem hasFreeMod_app {f a : Term} {k : Nat} : (app f a).hasFreeMod 0 k = true ↔
    f.hasFreeMod 0 k = true ∨ a.hasFreeMod 0 k = true := by
  rw [hasFreeMod, Bool.or_eq_true]

theorem hasFreeMod_lam {ty : Ty} {b : Term} {k : Nat} :
    (lam ty b).hasFreeMod 0 k = b.hasFreeMod 0 (k + 1) := by
  rw [hasFreeMod, under_zero]

/-- The variables from `c` on are moved by `n`, and none is left in the gap. -/
theorem hasFreeMod_shift_iff (t : Term) (n : Nat) {k c : Nat} (h : c ≤ k) :
    (t.shift n c).hasFreeMod 0 k = true ↔ c + n ≤ k ∧ t.hasFreeMod 0 (k - n) = true := by
  induction t generalizing k c with
  | const x ty => simp [hasFreeMod]
  | var i =>
    simp only [shift_var, moveIndex_natCast, hasFreeMod, beq_iff_eq]
    split_ifs <;> omega
  | app f a ihf iha => rw [shift_app, hasFreeMod_app, hasFreeMod_app, ihf h, iha h, ← and_or_left]
  | lam ty b ih =>
    rw [shift_lam, hasFreeMod_lam, hasFreeMod_lam, ih (Nat.succ_le_succ h)]
    by_cases hk : c + n ≤ k
    · rw [show k + 1 - n = k - n + 1 by omega]
      exact and_congr_left' (by omega)
    · exact ⟨fun h' => absurd h'.1 (by omega), fun h' => absurd h'.1 hk⟩

theorem hasFreeMod_lower {t : Term} (h : t.hasFreeMod 0 0 = false) (k : Nat) :
    (t.shift (-1) 0).hasFreeMod 0 k = true ↔ t.hasFreeMod 0 (k + 1) = true := by
  have hshift := hasFreeMod_shift_iff (t.shift (-1) 0) 1 (Nat.zero_le (k + 1))
  rw [shift_one_lower t 0 h, Nat.add_sub_cancel] at hshift
  exact ⟨fun hk => hshift.mpr ⟨by omega, hk⟩, fun hk => (hshift.mp hk).2⟩

/-! ## Substitution -/

/-- What occurs free after a substitution occurred before, or in what was put in. -/
theorem hasFreeMod_instantiate (t s : Term) (d k : Nat) :
    (t.instantiate s d).hasFreeMod 0 k = true ↔
      t.hasFreeMod 0 (if k < d then k else k + 1) = true ∨
        (t.hasFreeMod 0 d = true ∧ d ≤ k ∧ s.hasFreeMod 0 (k - d) = true) := by
  induction t generalizing d k with
  | const x ty => simp [instantiate, hasFreeMod]
  | var i =>
    rw [instantiate]
    by_cases hi : i = d
    · have hne : ¬ i = if k < d then k else k + 1 := by split_ifs <;> omega
      rw [if_pos hi, hasFreeMod_shift_iff s d (Nat.zero_le k), Nat.zero_add]
      simp only [hasFreeMod, beq_iff_eq, hi, true_and, or_iff_right (hi ▸ hne)]
    · rw [if_neg hi]
      simp only [hasFreeMod, beq_iff_eq, hi, false_and, or_false]
      split_ifs <;> simp only [hasFreeMod, beq_iff_eq] <;> omega
  | app f a ihf iha =>
    rw [instantiate, hasFreeMod_app, ihf, iha, hasFreeMod_app, hasFreeMod_app]
    tauto
  | lam ty b ih =>
    have hindex : (if k + 1 < d + 1 then k + 1 else k + 1 + 1) = (if k < d then k else k + 1) + 1 := by
      split_ifs <;> omega
    rw [instantiate, hasFreeMod_lam, ih, hasFreeMod_lam, hasFreeMod_lam, hindex, Nat.succ_le_succ_iff,
      Nat.add_sub_add_right]

theorem mem_constantNames_app {f a : Term} {n : String} : n ∈ (app f a).constantNames ↔
    n ∈ f.constantNames ∨ n ∈ a.constantNames := by
  rw [constantNames, List.mem_append]

/-- The constants after a substitution are those before it and, if anything was put in, those of what
was put in. -/
theorem mem_constantNames_instantiate (t s : Term) (d : Nat) (n : String) :
    n ∈ (t.instantiate s d).constantNames ↔
      n ∈ t.constantNames ∨ (t.hasFreeMod 0 d = true ∧ n ∈ s.constantNames) := by
  induction t generalizing d with
  | const x ty => simp [instantiate, hasFreeMod]
  | var i =>
    rw [instantiate]
    split_ifs with h₁ h₂ <;> simp [hasFreeMod, constantNames, h₁]
  | app f a ihf iha =>
    rw [instantiate, mem_constantNames_app, ihf, iha, mem_constantNames_app, hasFreeMod_app]
    tauto
  | lam ty b ih => rw [instantiate, constantNames, ih, constantNames, hasFreeMod_lam]

theorem isRelevant_instantiate {t s : Term} (ht : t.isRelevant = true) (hs : s.isRelevant = true)
    (d : Nat) : (t.instantiate s d).isRelevant = true := by
  induction t generalizing d with
  | const x ty => rfl
  | var i =>
    rw [instantiate]
    split_ifs
    · rwa [isRelevant_shift]
    · rfl
    · rfl
  | app f a ihf iha =>
    obtain ⟨hf, ha⟩ := isRelevant_app.mp ht
    exact isRelevant_app.mpr ⟨ihf hf d, iha ha d⟩
  | lam ty b ih =>
    obtain ⟨hfree, hb⟩ := isRelevant_lam.mp ht
    refine isRelevant_lam.mpr ⟨(hasFreeMod_instantiate b s (d + 1) 0).mpr (Or.inl ?_), ih hb (d + 1)⟩
    rwa [if_pos (Nat.succ_pos d)]

/-! ## Reduction -/

/-- The second term has no idle binder, and the constants and free variables of the first. -/
structure Keeps (t u : Term) : Prop where
  relevant : u.isRelevant = true
  free : ∀ k, u.hasFreeMod 0 k = true ↔ t.hasFreeMod 0 k = true
  constants : ∀ n, n ∈ u.constantNames ↔ n ∈ t.constantNames

theorem Keeps.refl {t : Term} (h : t.isRelevant = true) : Keeps t t :=
  ⟨h, fun _ => Iff.rfl, fun _ => Iff.rfl⟩

theorem Keeps.trans {t u v : Term} (h₁ : Keeps t u) (h₂ : Keeps u v) : Keeps t v :=
  ⟨h₂.relevant, fun k => (h₂.free k).trans (h₁.free k),
    fun n => (h₂.constants n).trans (h₁.constants n)⟩

/-- **Reduction keeps the constants of a term without idle binders.** -/
theorem Reduces.keeps {t u : Term} (h : Reduces t u) (ht : t.isRelevant = true) : Keeps t u := by
  induction h with
  | beta ty b a =>
    obtain ⟨hlam, ha⟩ := isRelevant_app.mp ht
    obtain ⟨hfree, hb⟩ := isRelevant_lam.mp hlam
    rw [betaMod_zero]
    refine ⟨isRelevant_instantiate hb ha 0, fun k => ?_, fun n => ?_⟩
    · rw [hasFreeMod_instantiate, hasFreeMod_app, hasFreeMod_lam, if_neg (Nat.not_lt_zero k)]
      simp only [hfree, Nat.zero_le, Nat.sub_zero, true_and]
    · rw [mem_constantNames_instantiate, mem_constantNames_app, constantNames]
      simp only [hfree, true_and]
  | @eta ty f hf =>
    obtain ⟨-, hbody⟩ := isRelevant_lam.mp ht
    refine ⟨(isRelevant_lower hf).trans (isRelevant_app.mp hbody).1, fun k => ?_, fun n => ?_⟩
    · rw [hasFreeMod_lower hf, hasFreeMod_lam, hasFreeMod_app]
      simp [hasFreeMod]
    · rw [constantNames_shift]
      simp [constantNames]
  | fn a _ ih =>
    obtain ⟨hf, ha⟩ := isRelevant_app.mp ht
    have hkeeps := ih hf
    refine ⟨isRelevant_app.mpr ⟨hkeeps.relevant, ha⟩, fun k => ?_, fun n => ?_⟩
    · rw [hasFreeMod_app, hasFreeMod_app, hkeeps.free]
    · rw [mem_constantNames_app, mem_constantNames_app, hkeeps.constants]
  | arg f _ ih =>
    obtain ⟨hf, ha⟩ := isRelevant_app.mp ht
    have hkeeps := ih ha
    refine ⟨isRelevant_app.mpr ⟨hf, hkeeps.relevant⟩, fun k => ?_, fun n => ?_⟩
    · rw [hasFreeMod_app, hasFreeMod_app, hkeeps.free]
    · rw [mem_constantNames_app, mem_constantNames_app, hkeeps.constants]
  | body ty _ ih =>
    obtain ⟨hfree, hb⟩ := isRelevant_lam.mp ht
    have hkeeps := ih hb
    refine ⟨isRelevant_lam.mpr ⟨(hkeeps.free 0).mpr hfree, hkeeps.relevant⟩, fun k => ?_, fun n => ?_⟩
    · rw [hasFreeMod_lam, hasFreeMod_lam, hkeeps.free]
    · rw [constantNames, constantNames, hkeeps.constants]

theorem Reductions.keeps {t u : Term} (h : Reductions t u) (ht : t.isRelevant = true) :
    Keeps t u := by
  induction h with
  | refl => exact .refl ht
  | tail _ hstep ih => exact ih.trans (hstep.keeps ih.relevant)

/-- A closed term without idle binders has the constants of its normal form. -/
theorem keeps_normalize {t : Term} (hc : t.isClosed = true) (ht : t.isRelevant = true) :
    Keeps t t.normalize := by
  have hmodulus : t.modulus = 0 := if_pos (closedAt_mono (Nat.zero_le _) hc)
  rw [normalize, normalize?, hmodulus]
  cases h : normalizeMod? 0 t with
  | none => exact .refl ht
  | some u => exact (normalizes_of_eq_some h).reductions.keeps ht

end Categorial.Term
