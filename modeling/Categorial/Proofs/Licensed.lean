import Categorial.Proofs.Beam.Moves
import Categorial.Proofs.Standing

/-!
# Licensed derivations

The derivations that a grammar licenses over a sentence: look-ups of first entries, unary rules on
derivations that do not end with one, and binary rules on adjacent derivations. A licensed derivation
is determined by its actions.

* `Grammatical`: such derivations, whatever entries may be looked up.
* `Licensed`: those that look up first entries; `Grammatical.inside`: they lie in the sentence.
* **`Grammatical.replay_actions`**: replaying the actions gives the derivation back.
* `Derivation.standing`, `pathStanding`: the standing of a derivation and of a sequence of actions.
-/

namespace Categorial

/-- The derivation ends with a unary rule. -/
def Derivation.isUnary : Derivation → Bool
  | unary _ _ => true
  | _ => false

/-- The derivation follows the rules of the grammar; `P` tells which entries may be looked up. -/
inductive Grammatical (P : Span → Entry → Prop) (G : Grammar) (w : List String) : Derivation → Prop
  | leaf {span : Span} {e : Entry} : span.start < span.stop → span.stop ≤ w.length →
      P span e → Grammatical P G w (.leaf (.lookup span e) (span.tokens w))
  | unary {d : Derivation} {id : RuleId} {c : Category} : Grammatical P G w d → d.isUnary = false →
      (id, c) ∈ G.rules.unaryResults G.sig d.category →
      Grammatical P G w (.unary { span := d.span, rule := id, category := c } d)
  | binary {l r : Derivation} {id : RuleId} {c : Category} : Grammatical P G w l →
      Grammatical P G w r → l.span.stop = r.span.start →
      (id, c) ∈ G.rules.binaryResults G.sig l.category r.category →
      Grammatical P G w
        (.binary { span := ⟨l.span.start, r.span.stop⟩, rule := id, category := c } l r)

/-- The grammar licenses the derivation over the sentence. -/
abbrev Licensed (G : Grammar) (L : Lexicon) (w : List String) : Derivation → Prop :=
  Grammatical ((G.provider L).IsFirst w) G w

variable {P Q : Span → Entry → Prop} {G : Grammar} {w : List String} {d d' : Derivation}

namespace Grammatical

theorem mono (h : Grammatical P G w d) (hPQ : ∀ span e, P span e → Q span e) :
    Grammatical Q G w d := by
  induction h with
  | leaf h₁ h₂ he => exact .leaf h₁ h₂ (hPQ _ _ he)
  | unary _ hu hx ih => exact .unary ih hu hx
  | binary _ _ hadj hx ihl ihr => exact .binary ihl ihr hadj hx

theorem inside (h : Grammatical P G w d) : d.span.start < d.span.stop ∧ d.span.stop ≤ w.length := by
  induction h with
  | leaf h₁ h₂ _ => exact ⟨h₁, h₂⟩
  | unary _ _ _ ih => exact ih
  | @binary l r _ _ _ _ hadj _ ihl ihr =>
    refine ⟨?_, ihr.2⟩
    change l.span.start < r.span.stop
    omega

/-! ## Replaying -/

theorem replayStep_leaf {span : Span} {e : Entry} (h : span.stop ≤ w.length) (rules : RuleSet)
    (stack : List Derivation) :
    Derivation.replayStep w rules stack (.lookup span e) =
      some (.leaf (.lookup span e) (span.tokens w) :: stack) := by
  simp [Derivation.replayStep, Action.lookup, Derivation.wordsOf?, h]

theorem replayStep_unary {a : Action} {r : UnaryRule} {rules : RuleSet}
    (h : rules.get? a.rule = some (.unary r)) (d : Derivation) (stack : List Derivation) :
    Derivation.replayStep w rules (d :: stack) a = some (.unary a d :: stack) := by
  unfold Derivation.replayStep
  split
  · next hlex => rw [hlex] at h; cases h
  · rw [h]

theorem replayStep_binary {a : Action} {r : BinaryRule} {rules : RuleSet}
    (h : rules.get? a.rule = some (.binary r)) (d₁ d₂ : Derivation) (stack : List Derivation) :
    Derivation.replayStep w rules (d₂ :: d₁ :: stack) a = some (.binary a d₁ d₂ :: stack) := by
  unfold Derivation.replayStep
  split
  · next hlex => rw [hlex] at h; cases h
  · rw [h]

theorem foldlM_replayStep (h : Grammatical P G w d) (stack : List Derivation) :
    d.actions.foldlM (Derivation.replayStep w G.rules) stack = some (d :: stack) := by
  induction h generalizing stack with
  | leaf _ h₂ _ =>
    rw [Derivation.actions, List.foldlM_cons, replayStep_leaf h₂]
    rfl
  | unary _ _ hres ih =>
    obtain ⟨r, hr⟩ := RuleSet.get?_of_mem_unaryResults hres
    rw [Derivation.actions, List.foldlM_append, ih, Option.bind_eq_bind, Option.bind_some,
      List.foldlM_cons, replayStep_unary hr]
    rfl
  | binary _ _ _ hres ihl ihr =>
    obtain ⟨r, hr⟩ := RuleSet.get?_of_mem_binaryResults hres
    rw [Derivation.actions, List.foldlM_append, List.foldlM_append, ihl, Option.bind_eq_bind,
      Option.bind_some, ihr, Option.bind_some, List.foldlM_cons, replayStep_binary hr]
    rfl

/-- **Replaying the actions of a derivation gives it back.** -/
theorem replay_actions (h : Grammatical P G w d) : Derivation.replay w G.rules d.actions = some d := by
  rw [Derivation.replay, Derivation.replayAll, h.foldlM_replayStep]

theorem eq_of_actions_eq (h : Grammatical P G w d) (h' : Grammatical P G w d')
    (he : d.actions = d'.actions) : d = d' := by
  have hd := h.replay_actions
  rw [he, h'.replay_actions] at hd
  exact (Option.some_inj.mp hd).symm

end Grammatical

/-! ## Standings -/

variable {σ : Type} [AddCommMonoid σ]

theorem Derivation.exists_actions_eq_concat (d : Derivation) :
    ∃ as, d.actions = as ++ [d.action] := by
  cases d with
  | leaf a ws => exact ⟨[], rfl⟩
  | unary a d => exact ⟨d.actions, rfl⟩
  | binary a l r => exact ⟨l.actions ++ r.actions, rfl⟩

theorem Derivation.action_mem_actions (d : Derivation) : d.action ∈ d.actions := by
  obtain ⟨as, has⟩ := d.exists_actions_eq_concat
  rw [has]
  exact List.mem_append_right _ (List.mem_singleton_self _)

/-- The standing of a derivation: the sum of the scores of its actions, its last rule, its
category. -/
def Derivation.standing (score : Action → σ) (d : Derivation) : Standing σ :=
  ⟨(d.actions.map score).sum, d.action.rule, d.category⟩

/-- The standing of a sequence of actions, last one first. -/
def pathStanding (score : Action → σ) : List Action → Standing σ
  | [] => ⟨0, .lexical, default⟩
  | a :: as => ⟨((a :: as).map score).sum, a.rule, a.category⟩

theorem score_pathStanding (score : Action → σ) (as : List Action) :
    (pathStanding score as).score = (as.map score).sum := by
  cases as <;> rfl

/-- The standing of a derivation is that of its actions. -/
theorem pathStanding_actions (score : Action → σ) (d : Derivation) :
    pathStanding score d.actions.reverse = d.standing score := by
  have hscore : (pathStanding score d.actions.reverse).score = (d.actions.map score).sum := by
    rw [score_pathStanding, List.map_reverse, List.sum_reverse]
  obtain ⟨as, has⟩ := d.exists_actions_eq_concat
  rw [has, List.reverse_append, List.reverse_singleton, List.singleton_append] at hscore ⊢
  refine Standing.ext ?_ rfl rfl
  rw [hscore, Derivation.standing, has]

end Categorial
