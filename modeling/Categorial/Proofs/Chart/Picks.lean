import Categorial.Proofs.Chart.Trees

/-!
# The picks of a group

A group singles out its best step, and its best step that is not unary, as steps are added to it.
The best derivation of a group follows these picks, and the best actions are those of the best
derivation.

* `Group.Placed`, `Group.placed_gather`: the picks are steps of the group, whatever the scores are.
* `Group.Picks`, **`Group.picks_gather`**: what the two picks of a group are.
* `Group.bestTreeOf?_false`, `Group.bestTreeOf?_true`: the best derivations follow the picks.
* **`Group.bestActions_eq`**: the best actions are those of the best derivation.
-/

namespace Categorial

/-! ## The places of picks -/

namespace Group

variable {σ : Type} [Score σ]

theorem steps_push_of_not {g : Group σ} {s : Step σ (Group σ)}
    (h : ¬ g.steps.any s.sameBuild = true) : (g.push s).steps = g.steps ++ [s] := by
  rw [push, if_neg h]

/-- Old steps keep their places. -/
theorem getElem?_steps_push {g : Group σ} {i : Nat} {x : Step σ (Group σ)}
    (hx : g.steps[i]? = some x) (s : Step σ (Group σ)) : (g.push s).steps[i]? = some x := by
  by_cases h : g.steps.any s.sameBuild = true
  · rw [push, if_pos h, hx]
  · rw [steps_push_of_not h, List.getElem?_append_left (List.getElem?_eq_some_iff.mp hx).1, hx]

/-- A new step comes after the others. -/
theorem getElem?_steps_push_length {g : Group σ} {s : Step σ (Group σ)}
    (h : ¬ g.steps.any s.sameBuild = true) : (g.push s).steps[g.steps.length]? = some s := by
  rw [steps_push_of_not h]
  exact List.getElem?_concat_length

/-- The picks of the group are places of steps. -/
structure Placed (g : Group σ) : Prop where
  best : ∃ s, g.steps[g.best.index]? = some s
  base : ∀ p, g.base = some p → ∃ s, g.steps[p.index]? = some s

omit [Score σ] in
theorem placed_single (id : Nat) (span : Span) (s : Step σ (Group σ)) :
    (single id span s).Placed := by
  refine ⟨⟨s, rfl⟩, fun p hp => ?_⟩
  change (if s.isUnary then none else some _) = some p at hp
  split_ifs at hp
  rw [← Option.some_inj.mp hp]
  exact ⟨s, rfl⟩

theorem Placed.push {g : Group σ} (h : g.Placed) (s : Step σ (Group σ)) : (g.push s).Placed := by
  by_cases hsame : g.steps.any s.sameBuild = true
  · rw [Group.push, if_pos hsame]
    exact h
  · set new : Pick σ := ⟨g.steps.length, s.score, s.action.rule⟩ with hnew
    have hbest : (g.push s).best = betterPick g.best new := by rw [Group.push, if_neg hsame]
    have hbase : (g.push s).base = betterBase g.base s new := by rw [Group.push, if_neg hsame]
    have hlast : ∃ x, (g.push s).steps[new.index]? = some x := ⟨s, getElem?_steps_push_length hsame⟩
    have hold : ∀ {i : Nat}, (∃ x, g.steps[i]? = some x) → ∃ x, (g.push s).steps[i]? = some x := by
      rintro i ⟨x, hx⟩
      exact ⟨x, getElem?_steps_push hx s⟩
    refine ⟨?_, fun p hp => ?_⟩
    · rw [hbest, betterPick]
      split_ifs
      · exact hlast
      · exact hold h.best
    · have hcases : g.base = some p ∨ new = p := by
        rw [hbase, betterBase.eq_def] at hp
        split_ifs at hp
        · exact .inl hp
        · split at hp
          · exact .inr (Option.some_inj.mp hp)
          · split_ifs at hp
            · exact .inr (Option.some_inj.mp hp)
            · exact .inl hp
      rcases hcases with hp | rfl
      · exact hold (h.base p hp)
      · exact hlast

theorem placed_gather (id : Nat) (span : Span) (s : Step σ (Group σ))
    (rest : List (Step σ (Group σ))) : (gather id span s rest).Placed :=
  gather_induct (motive := Placed) (placed_single id span s) fun _ s' _ h => h.push s'

end Group

/-! ## The picks of a group -/

section Picks

variable {σ : Type} [AddCommMonoid σ] [LinearOrder σ]

/-- What a step is ranked by. -/
def Step.standing (s : Step σ (Group σ)) : Standing σ := ⟨s.score, s.action.rule, s.action.category⟩

namespace Group

/-- The better of two picks has the better standing, whatever the category. -/
theorem betterPick_cases (old new : Pick σ) :
    (betterPick old new = new ∧ ∀ c,
      (⟨new.score, new.rule, c⟩ : Standing σ) ≤ ⟨old.score, old.rule, c⟩) ∨
    (betterPick old new = old ∧ ∀ c,
      (⟨old.score, old.rule, c⟩ : Standing σ) ≤ ⟨new.score, new.rule, c⟩) := by
  have hcmp : ∀ c, (⟨new.score, new.rule, c⟩ : Standing σ).cmp ⟨old.score, old.rule, c⟩ =
      (Score.byDesc new.score old.score).then (new.rule.cmp old.rule) :=
    fun c => Standing.cmp_of_category_eq rfl
  unfold betterPick
  split_ifs with h
  · exact Or.inl ⟨rfl, fun c => Standing.le_of_isLT ((hcmp c).symm ▸ h)⟩
  · exact Or.inr ⟨rfl, fun c => Standing.le_of_not_isLT ((hcmp c).symm ▸ h)⟩

theorem betterBase_cases (old : Option (Pick σ)) (s : Step σ (Group σ)) (new : Pick σ) :
    (betterBase old s new = some new ∧ s.isUnary = false ∧ ∀ p, old = some p → p.score ≤ new.score) ∨
    (betterBase old s new = old ∧
      (s.isUnary = false → ∃ p, old = some p ∧ new.score ≤ p.score)) := by
  unfold betterBase
  split_ifs with hs
  · exact Or.inr ⟨rfl, fun h => absurd hs (by simp [h])⟩
  · have hs := Bool.eq_false_iff.mpr hs
    cases old with
    | none => exact Or.inl ⟨rfl, hs, nofun⟩
    | some p =>
      change ((if decide (p.score < new.score) = true then some new else some p) = some new ∧ _) ∨
        ((if decide (p.score < new.score) = true then some new else some p) = some p ∧ _)
      by_cases hlt : p.score < new.score
      · rw [if_pos (decide_eq_true hlt)]
        refine Or.inl ⟨rfl, hs, fun q hq => ?_⟩
        rw [← Option.some_inj.mp hq]
        exact hlt.le
      · rw [if_neg (by simp [hlt])]
        exact Or.inr ⟨rfl, fun _ => ⟨p, rfl, not_lt.mp hlt⟩⟩

/-- The picks of the group stand for the steps at their places: one with the best standing, and one
that has the highest score among those that are not unary. -/
structure Picks (g : Group σ) : Prop where
  best : ∃ s, g.steps[g.best.index]? = some s ∧ s.score = g.best.score ∧ s.action.rule = g.best.rule
  least : ∀ s ∈ g.steps, ∀ c,
    (⟨g.best.score, g.best.rule, c⟩ : Standing σ) ≤ ⟨s.score, s.action.rule, c⟩
  base : ∀ p, g.base = some p →
    ∃ s, g.steps[p.index]? = some s ∧ s.isUnary = false ∧ s.score = p.score
  highest : ∀ s ∈ g.steps, s.isUnary = false → ∃ p, g.base = some p ∧ s.score ≤ p.score

theorem picks_single (id : Nat) (span : Span) (s : Step σ (Group σ)) :
    (single id span s).Picks := by
  have hbase : (single id span s).base =
      if s.isUnary then none else some ⟨0, s.score, s.action.rule⟩ := rfl
  refine ⟨⟨s, rfl, rfl, rfl⟩, fun x hx c => ?_, fun p hp => ?_, fun x hx hu => ?_⟩
  · rw [List.mem_singleton.mp hx]
    exact le_rfl
  · rw [hbase] at hp
    split_ifs at hp with hu
    rw [← Option.some_inj.mp hp]
    exact ⟨s, rfl, Bool.eq_false_iff.mpr hu, rfl⟩
  · rw [List.mem_singleton.mp hx] at hu ⊢
    rw [hbase, hu]
    exact ⟨_, rfl, le_rfl⟩

theorem Picks.push {g : Group σ} (h : g.Picks) (s : Step σ (Group σ)) : (g.push s).Picks := by
  by_cases hsame : g.steps.any s.sameBuild = true
  · rw [Group.push, if_pos hsame]
    exact h
  · set new : Pick σ := ⟨g.steps.length, s.score, s.action.rule⟩ with hnew
    have hbest : (g.push s).best = betterPick g.best new := by rw [Group.push, if_neg hsame]
    have hbase : (g.push s).base = betterBase g.base s new := by rw [Group.push, if_neg hsame]
    have hold : ∀ {i : Nat} {x}, g.steps[i]? = some x → (g.push s).steps[i]? = some x :=
      fun hx => getElem?_steps_push hx s
    have hlast : (g.push s).steps[new.index]? = some s := getElem?_steps_push_length hsame
    have hmem : ∀ x ∈ (g.push s).steps, x ∈ g.steps ∨ x = s := by
      intro x hx
      rw [steps_push_of_not hsame] at hx
      exact (List.mem_append.mp hx).imp_right List.mem_singleton.mp
    refine ⟨?_, fun x hx c => ?_, fun p hp => ?_, fun x hx hu => ?_⟩
    · rw [hbest]
      rcases betterPick_cases g.best new with ⟨he, -⟩ | ⟨he, -⟩ <;> rw [he]
      · exact ⟨s, hlast, rfl, rfl⟩
      · obtain ⟨x, hx, hx'⟩ := h.best
        exact ⟨x, hold hx, hx'⟩
    · rw [hbest]
      rcases betterPick_cases g.best new with ⟨he, hle⟩ | ⟨he, hle⟩ <;> rw [he] <;>
        rcases hmem x hx with hx | rfl
      · exact (hle c).trans (h.least x hx c)
      · exact le_rfl
      · exact h.least x hx c
      · exact hle c
    · rw [hbase] at hp
      rcases betterBase_cases g.base s new with ⟨he, hs, -⟩ | ⟨he, -⟩ <;> rw [he] at hp
      · rw [← Option.some_inj.mp hp]
        exact ⟨s, hlast, hs, rfl⟩
      · obtain ⟨x, hx, hx'⟩ := h.base p hp
        exact ⟨x, hold hx, hx'⟩
    · rw [hbase]
      rcases betterBase_cases g.base s new with ⟨he, -, hle⟩ | ⟨he, hle⟩ <;> rw [he] <;>
        rcases hmem x hx with hx | rfl
      · obtain ⟨p, hp, hscore⟩ := h.highest x hx hu
        exact ⟨new, rfl, hscore.trans (hle p hp)⟩
      · exact ⟨new, rfl, le_rfl⟩
      · exact h.highest x hx hu
      · exact hle hu

theorem picks_gather (id : Nat) (span : Span) (s : Step σ (Group σ))
    (rest : List (Step σ (Group σ))) : (gather id span s rest).Picks :=
  gather_induct (motive := Picks) (picks_single id span s) fun _ s' _ h => h.push s'

end Group

end Picks

/-! ## Best derivations -/

namespace Group

variable {σ : Type} {w : List String}

theorem bestTreeAt?_eq (i : Nat) (steps : List (Step σ (Group σ))) :
    bestTreeAt? w i steps = steps[i]?.bind (bestTreeOfStep? w) := by
  induction steps generalizing i with
  | nil => rw [bestTreeAt?]; rfl
  | cons s steps ih =>
    cases i with
    | zero => rw [bestTreeAt?]; rfl
    | succ i => rw [bestTreeAt?, ih, List.getElem?_cons_succ]

theorem bestTreeOf?_false (g : Group σ) :
    g.bestTreeOf? w false = g.steps[g.best.index]?.bind (bestTreeOfStep? w) := by
  obtain ⟨id, span, category, steps, best, base, parses⟩ := g
  rw [bestTreeOf?.eq_def]
  exact bestTreeAt?_eq best.index steps

theorem bestTreeOf?_true {g : Group σ} {p : Pick σ} (h : g.base = some p) :
    g.bestTreeOf? w true = g.steps[p.index]?.bind (bestTreeOfStep? w) := by
  obtain ⟨id, span, category, steps, best, base, parses⟩ := g
  obtain rfl : base = some p := h
  rw [bestTreeOf?.eq_def]
  exact bestTreeAt?_eq p.index steps

mutual

/-- The best actions follow the same picks as the best derivation. -/
theorem bestActionsOf_eq (baseOnly : Bool) : (g : Group σ) → {d : Derivation} →
    bestTreeOf? w baseOnly g = some d → bestActionsOf baseOnly g = d.actions
  | ⟨_, _, _, steps, best, base, _⟩, d, h => by
    rw [bestTreeOf?.eq_def] at h
    rw [bestActionsOf.eq_def]
    cases baseOnly with
    | false => exact bestActionsAt_eq best.index steps h
    | true =>
      cases base with
      | none => cases h
      | some p => exact bestActionsAt_eq p.index steps h

theorem bestActionsAt_eq : (i : Nat) → (steps : List (Step σ (Group σ))) → {d : Derivation} →
    bestTreeAt? w i steps = some d → bestActionsAt i steps = d.actions
  | _, [], d, h => by
    rw [bestTreeAt?] at h
    cases h
  | 0, s :: _, d, h => by
    rw [bestTreeAt?] at h
    rw [bestActionsAt]
    exact bestActionsOfStep_eq s h
  | i + 1, _ :: steps, d, h => by
    rw [bestTreeAt?] at h
    rw [bestActionsAt]
    exact bestActionsAt_eq i steps h

theorem bestActionsOfStep_eq : (s : Step σ (Group σ)) → {d : Derivation} →
    bestTreeOfStep? w s = some d → bestActionsOfStep s = d.actions
  | .lexical a _, d, h => by
    rw [bestTreeOfStep?] at h
    cases h
    rw [bestActionsOfStep, Derivation.actions]
  | .binary a _ _ l r, d, h => by
    rw [bestTreeOfStep?] at h
    obtain ⟨left, hl, h⟩ := Option.bind_eq_some_iff.mp h
    obtain ⟨right, hr, h⟩ := Option.bind_eq_some_iff.mp h
    cases h
    rw [bestActionsOfStep, Derivation.actions, bestActionsOf_eq false l hl,
      bestActionsOf_eq false r hr]
  | .unary a _ _ c, d, h => by
    rw [bestTreeOfStep?] at h
    obtain ⟨child, hc, h⟩ := Option.bind_eq_some_iff.mp h
    cases h
    rw [bestActionsOfStep, Derivation.actions, bestActionsOf_eq true c hc]

end

/-- The best actions are those of the best derivation. -/
theorem bestActions_eq {g : Group σ} {d : Derivation} (h : g.bestTree? w = some d) :
    g.bestActions = d.actions :=
  bestActionsOf_eq false g h

end Group

end Categorial
