import Categorial.Chart.Basic
import Categorial.Beam.State
import Categorial.Proofs.Order

/-!
# Standings

Scores that are exact numbers are added and compared without rounding: they form a linearly ordered
commutative monoid. A standing is a score with the rule and the category of the last step; groups of a
cell and states of a beam are ranked by their standings, the best standing being the least one.

* `Score.exact`: exact scores.
* `Standing`, with its order.
* `Group.standing`, `State.standing`: what groups and states are ranked by.
* `pairwise_mergeSort_standing`: ranked lists are in order of standing.
-/

namespace Categorial

/-- Exact scores, such as the rational or the real numbers. -/
instance Score.exact {σ : Type} [AddCommMonoid σ] [LinearOrder σ] : Score σ where
  zero := 0
  add a b := a + b
  cmp := compare
  exceeds a b := decide (b < a)
  max a b := Max.max a b

/-- Exact scores are in a total order. -/
instance Score.transCmp_exact {σ : Type} [AddCommMonoid σ] [LinearOrder σ] :
    Std.TransCmp (Score.cmp : σ → σ → Ordering) :=
  inferInstanceAs (Std.TransCmp (compare : σ → σ → Ordering))

/-- A score with the rule and the category of the last step. -/
@[ext] structure Standing (σ : Type) where
  score : σ
  rule : RuleId
  category : Category

/-- Best score first, then the rule in order of registration, then the category. -/
def Standing.cmp {σ : Type} [Score σ] (a b : Standing σ) : Ordering :=
  ((Score.byDesc a.score b.score).then (a.rule.cmp b.rule)).then (a.category.cmp b.category)

variable {σ : Type} [AddCommMonoid σ] [LinearOrder σ]

namespace Standing

theorem chained_byDesc (a b c : σ) :
    Chained (Score.byDesc a b) (Score.byDesc b c) (Score.byDesc a c) :=
  Chained.of_trans (fun a b : σ => compare b a) a b c

instance : Std.TransCmp (cmp : Standing σ → Standing σ → Ordering) := by
  refine transCmp_of_chained (fun a b => ?_) fun a b c =>
    ((chained_byDesc _ _ _).lex (RuleId.chained_cmp _ _ _)).lex (Category.chained_cmp _ _ _)
  have hscore : compare b.score a.score = (compare a.score b.score).swap :=
    Std.OrientedCmp.eq_swap
  change Score.byDesc a.score b.score = (Score.byDesc b.score a.score).swap at hscore
  have hrule : a.rule.cmp b.rule = (b.rule.cmp a.rule).swap := Std.OrientedCmp.eq_swap
  have hcategory : a.category.cmp b.category = (b.category.cmp a.category).swap :=
    Std.OrientedCmp.eq_swap
  rw [cmp, cmp, hscore, hrule, hcategory, Ordering.swap_then, Ordering.swap_then]

theorem eq_of_cmp_eq {a b : Standing σ} (h : a.cmp b = .eq) : a = b := by
  rw [cmp, Ordering.then_eq_eq, Ordering.then_eq_eq] at h
  refine Standing.ext ?_ (Std.LawfulEqCmp.eq_of_compare h.1.2) (Std.LawfulEqCmp.eq_of_compare h.2)
  exact (compare_eq_iff_eq.mp h.1.1).symm

instance : PartialOrder (Standing σ) where
  le a b := (a.cmp b).isLE = true
  le_refl _ := Std.ReflCmp.isLE_rfl
  le_trans _ _ _ := Std.TransCmp.isLE_trans
  le_antisymm _ _ h h' := eq_of_cmp_eq (Std.OrientedCmp.isLE_antisymm h h')

theorem le_iff {a b : Standing σ} : a ≤ b ↔ (a.cmp b).isLE = true := Iff.rfl

theorem total (a b : Standing σ) : a ≤ b ∨ b ≤ a := by
  cases h : a.cmp b with
  | lt | eq => exact Or.inl (by rw [le_iff, h]; rfl)
  | gt => exact Or.inr (by rw [le_iff, Std.OrientedCmp.gt_iff_lt.mp h]; rfl)

theorem le_of_isLT {a b : Standing σ} (h : (a.cmp b).isLT = true) : a ≤ b := by
  rw [le_iff, Ordering.isLT_iff_eq_lt.mp h]
  rfl

theorem le_of_not_isLT {a b : Standing σ} (h : ¬ (a.cmp b).isLT = true) : b ≤ a := by
  cases hab : a.cmp b with
  | lt => exact absurd (by rw [hab]; rfl) h
  | eq => rw [eq_of_cmp_eq hab]
  | gt =>
    rw [le_iff, Std.OrientedCmp.gt_iff_lt.mp hab]
    rfl

/-- Steps with the same category are ranked by their scores and rules. -/
theorem cmp_of_category_eq {a b : Standing σ} (h : a.category = b.category) :
    a.cmp b = (Score.byDesc a.score b.score).then (a.rule.cmp b.rule) := by
  have hc : b.category.cmp b.category = .eq := Std.ReflCmp.compare_self
  rw [cmp, h, hc, Ordering.then_eq]

/-- A better standing has no lower score. -/
theorem score_le {a b : Standing σ} (h : a ≤ b) : b.score ≤ a.score := by
  rw [le_iff, cmp, Ordering.isLE_then_iff_and, Ordering.isLE_then_iff_and] at h
  exact compare_le_iff_le.mp (Ordering.ne_gt_iff_isLE.mpr h.1.1)

/-- Steps with the same rule and category are ranked by their scores. -/
theorem mk_le_mk {x y : σ} {rule : RuleId} {category : Category} :
    (⟨x, rule, category⟩ : Standing σ) ≤ ⟨y, rule, category⟩ ↔ y ≤ x := by
  refine ⟨fun h => score_le h, fun h => ?_⟩
  rcases h.lt_or_eq with h | rfl
  · have hlt : Score.byDesc x y = .lt := compare_lt_iff_lt.mpr h
    rw [le_iff, cmp, hlt]
    rfl
  · exact le_rfl

end Standing

/-- A ranked list is in order of standing. -/
theorem pairwise_mergeSort_standing {α : Type} (f : α → Standing σ) {le : α → α → Bool} {l : List α}
    (hle : ∀ a ∈ l, ∀ b ∈ l, le a b = ((f a).cmp (f b)).isLE) :
    (l.mergeSort le).Pairwise fun a b => f a ≤ f b := by
  rw [← List.pairwise_map (R := fun a b : Standing σ => a ≤ b),
    List.map_mergeSort (f := f) (s := fun a b => (a.cmp b).isLE) hle]
  refine List.pairwise_mergeSort (fun a b c => ?_) (fun a b => ?_) _
  · exact fun h₁ h₂ => Std.TransCmp.isLE_trans h₁ h₂
  · rw [Bool.or_eq_true]
    exact Standing.total a b

/-- The first of a list in order of standing has the least one. -/
theorem le_of_head?_eq_some {α : Type} {f : α → Standing σ} {l : List α} {x : α}
    (hl : l.Pairwise fun a b => f a ≤ f b) (h : l.head? = some x) : ∀ y ∈ l, f x ≤ f y := by
  obtain ⟨rest, rfl⟩ := List.head?_eq_some_iff.mp h
  exact List.forall_mem_cons.mpr ⟨le_rfl, (List.pairwise_cons.mp hl).1⟩

section Ranked

variable {σ : Type} [Score σ]

/-- What a group is ranked by. -/
def Group.standing (g : Group σ) : Standing σ := ⟨g.best.score, g.best.rule, g.category⟩

theorem Draft.rank_eq (g h : Group σ) : Draft.rank g h = g.standing.cmp h.standing := rfl

/-- What a state is ranked by. -/
def State.standing (s : State σ) : Standing σ :=
  match s.histories with
  | h :: _ => ⟨s.score, h.action.rule, h.action.category⟩
  | [] => ⟨s.score, .lexical, default⟩

theorem State.rank_eq {s t : State σ} (hs : s.histories ≠ []) (ht : t.histories ≠ []) :
    s.rank t = s.standing.cmp t.standing := by
  obtain ⟨h, hs', hs⟩ := List.exists_cons_of_ne_nil hs
  obtain ⟨k, ht', ht⟩ := List.exists_cons_of_ne_nil ht
  simp only [rank, lastOrder, standing, Standing.cmp, hs, ht, Ordering.then_assoc]

end Ranked

end Categorial
