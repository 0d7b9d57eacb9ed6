import Categorial.Action
import Categorial.Weights

/-!
# Linear models

A linear model scores an action by its features: the rule, the syntactic category and, for a
look-up, the entry and its origin. A skipped word costs a fixed penalty that is never learned.

* `Model`: anything that scores actions and can be updated.
* `LinearModel.features`, `LinearModel.score`, `LinearModel.update`.
* `Model.derivationFeatures`: the features of a sequence of actions.
-/

namespace Categorial

/-- A way to score actions that can be updated. The sentence and the registered rules are at hand. -/
structure Model (μ σ : Type) where
  /-- The features of an action. -/
  features : μ → RuleSet → List String → Action → Features σ
  /-- The score of an action. -/
  score : μ → RuleSet → List String → Action → σ
  /-- Move the model by a multiple of a feature vector. -/
  update : μ → Features σ → σ → μ

variable {μ σ : Type} [Scalar σ]

/-- The summed features of a sequence of actions. -/
def Model.derivationFeatures (M : Model μ σ) (m : μ) (rules : RuleSet) (sentence : List String)
    (actions : List Action) : Features σ :=
  actions.foldl (fun f a => Features.addAll f (M.features m rules sentence a) Scalar.one) {}

/-- Weights and the score of a skipped word. -/
structure LinearModel (σ : Type) where
  weights : Weights σ
  skipPenalty : σ

namespace LinearModel

/-- The feature of skipped words. -/
def skipFeature : String := "SKIP"

/-- The features of an action. -/
def features (rules : RuleSet) (a : Action) : Features σ :=
  let f : Features σ := {}
  let f := Features.add f ("RULE=" ++ rules.nameOf a.rule) Scalar.one
  let f := Features.add f ("SYN=" ++ a.category.syn.text) Scalar.one
  let f := match a.entry with
    | some e =>
      Features.add (Features.add f ("LEX=" ++ e.text) Scalar.one)
        ("LEXORIGIN=" ++ e.origin.text) Scalar.one
    | none => f
  if rules.skips a.rule then Features.add f skipFeature Scalar.one else f

/-- The score of an action: its weighted features, and the penalty if it skips a word. -/
def score (m : LinearModel σ) (rules : RuleSet) (a : Action) : σ :=
  let f : Features σ := features rules a
  let skips := Features.get f skipFeature
  Score.add (m.weights.dot (f.erase skipFeature)) (Scalar.mul skips m.skipPenalty)

/-- Add `step` times a vector to the weights; the feature of skipped words has none. -/
def update (m : LinearModel σ) (delta : Features σ) (step : σ) : LinearModel σ :=
  { m with weights := m.weights.addScaled (delta.erase skipFeature) step }

/-- Linear models as a way to score actions. -/
def model : Model (LinearModel σ) σ where
  features _ rules _ a := features rules a
  score m rules _ a := m.score rules a
  update m delta step := m.update delta step

end LinearModel

end Categorial
