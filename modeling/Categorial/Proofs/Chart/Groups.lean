import Categorial.Proofs.Beam.Moves
import Categorial.Proofs.Beam.Readings
import Categorial.Proofs.Chart.Steps

/-!
# The steps that a group keeps

A group drops a step that builds the same as one it has, and counts the derivations of those it
keeps.

* `Step.sameBuild_iff`: the same rule on the same groups.
* `Group.Keeps`: the group keeps all of some steps, up to repetitions.
* **`Group.keeps_gather`**: so does a group that gathers them.
-/

namespace Categorial

section Steps

variable {σ : Type}

theorem Step.parses_le_cap (s : Step σ (Group σ)) : s.parses ≤ Count.cap := by
  cases s with
  | lexical => exact (by decide : 1 ≤ Count.cap)
  | binary => exact Nat.min_le_left _ _
  | unary => exact Nat.min_le_left _ _

theorem Step.sameBuild_iff {s t : Step σ (Group σ)} :
    s.sameBuild t = true ↔ s.children.map Group.id = t.children.map Group.id ∧
      s.action.same t.action = true := by
  simp [Step.sameBuild]

end Steps

variable {σ : Type} [Score σ]

namespace Group

/-- The group keeps the steps, except those that build the same as an earlier one. -/
structure Keeps (l : List (Step σ (Group σ))) (g : Group σ) : Prop where
  ne_nil : g.steps ≠ []
  mem : ∀ x ∈ g.steps, x ∈ l
  kept : ∀ x ∈ l, x ∈ g.steps ∨ ∃ y ∈ g.steps, x.sameBuild y = true
  head : g.steps.head? = l.head?
  apart : g.steps.Pairwise fun x y => y.sameBuild x = false
  parses : g.parses = min Count.cap (g.steps.map Step.parses).sum

omit [Score σ] in
theorem keeps_single (id : Nat) (span : Span) (s : Step σ (Group σ)) :
    Keeps [s] (single id span s) where
  ne_nil := List.cons_ne_nil s []
  mem _ hx := hx
  kept _ hx := Or.inl hx
  head := rfl
  apart := List.pairwise_singleton _ s
  parses := by
    have := s.parses_le_cap
    simp [single, this]

theorem Keeps.push {l : List (Step σ (Group σ))} {g : Group σ} (h : Keeps l g)
    (s : Step σ (Group σ)) : Keeps (l ++ [s]) (g.push s) := by
  have hhead : (l ++ [s]).head? = l.head? := by
    obtain ⟨x, hx⟩ := List.exists_mem_of_ne_nil _ h.ne_nil
    exact List.head?_append_of_ne_nil _ (List.ne_nil_of_mem (h.mem x hx))
  by_cases hsame : g.steps.any s.sameBuild = true
  · have he : g.push s = g := by rw [Group.push, if_pos hsame]
    obtain ⟨y, hy, hsy⟩ := List.any_eq_true.mp hsame
    rw [he]
    refine ⟨h.ne_nil, fun x hx => List.mem_append_left _ (h.mem x hx), fun x hx => ?_,
      hhead ▸ h.head, h.apart, h.parses⟩
    rcases List.mem_append.mp hx with hx | hx
    · exact h.kept x hx
    · rw [List.mem_singleton.mp hx]
      exact Or.inr ⟨y, hy, hsy⟩
  · have hsteps : (g.push s).steps = g.steps ++ [s] := by rw [Group.push, if_neg hsame]
    have hparses : (g.push s).parses = Count.add g.parses s.parses := by
      rw [Group.push, if_neg hsame]
    refine ⟨?_, fun x hx => ?_, fun x hx => ?_, ?_, ?_, ?_⟩
    · rw [hsteps]
      exact List.append_ne_nil_of_left_ne_nil h.ne_nil _
    · rw [hsteps] at hx
      exact List.mem_append.mpr ((List.mem_append.mp hx).imp_left (h.mem x))
    · rw [hsteps]
      rcases List.mem_append.mp hx with hx | hx
      · rcases h.kept x hx with hx | ⟨y, hy, hxy⟩
        · exact Or.inl (List.mem_append_left _ hx)
        · exact Or.inr ⟨y, List.mem_append_left _ hy, hxy⟩
      · exact Or.inl (List.mem_append_right _ hx)
    · rw [hsteps, hhead, ← h.head, List.head?_append_of_ne_nil _ h.ne_nil]
    · rw [hsteps, List.pairwise_append]
      refine ⟨h.apart, List.pairwise_singleton _ s, fun x hx y hy => ?_⟩
      rw [List.mem_singleton.mp hy, Bool.eq_false_iff]
      exact fun hxy => hsame (List.any_eq_true.mpr ⟨x, hx, hxy⟩)
    · rw [hparses, hsteps, List.map_append, List.sum_append, ← Count.add_cap, ← h.parses]
      simp [s.parses_le_cap]

/-- **A group that gathers steps keeps them.** -/
theorem keeps_gather (id : Nat) (span : Span) (s : Step σ (Group σ))
    (rest : List (Step σ (Group σ))) : Keeps (s :: rest) (gather id span s rest) := by
  induction rest using List.reverseRecOn with
  | nil => exact keeps_single id span s
  | append_singleton rest x ih =>
    rw [gather_concat, ← List.cons_append]
    exact ih.push x

end Group

end Categorial
