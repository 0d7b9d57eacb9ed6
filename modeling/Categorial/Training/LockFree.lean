import Categorial.Training.Trainer

/-!
# Training on examples at the same time

Under the lock-free discipline several workers train on the examples of a dataset at the same time,
in any order, and read and update one model. While one of them searches, the updates of others reach
the model, whole or name by name, so two actions of one search may be scored by different models.
What a worker sees is left open here: a run is possible if some choice of what its workers saw gives
it.

* `Tally`, `Live`: scores in a search during which the model changes.
* `Training.Sight`, `Training.Sights`, `Setup.shared`: what a worker sees of the model.
* `Training.Interleaved`: a pass over a dataset in which the examples are trained on at the same
  time.
* `Training.Trainer.Epoch`, `Training.Trainer.Runs`: what one epoch, and epochs in turn, may come to
  under the discipline of the options.
-/

namespace Categorial

/-! ## Scores that change during a search -/

/-- A score by the way it was put together. -/
inductive Tally where
  | zero
  /-- The score of an action. -/
  | own (a : Action)
  | add (x y : Tally)
  | max (x y : Tally)

namespace Tally

variable {σ : Type} (read : Tally → Action → σ)

/-- What a score counts for when it is added to another one. That of an action is read at this
moment; a sum that was put together before is worth what it was. -/
def addend (other x : Tally) (worth : σ) : σ :=
  match x with
  | own a => read other a
  | _ => worth

/-- The number that a score came to. -/
def value [Score σ] : Tally → σ
  | zero => Score.zero
  | own a => read zero a
  | add x y => Score.add (addend read y x (value x)) (addend read x y (value y))
  | max x y => Score.max (value x) (value y)

end Tally

/-- A score in a search during which the scores of actions change. An action counts for what was
read when it was added to the score of what came before. -/
structure Live {σ : Type} (read : Tally → Action → σ) where
  tally : Tally

instance {σ : Type} [Score σ] (read : Tally → Action → σ) : Score (Live read) where
  zero := ⟨.zero⟩
  add x y := ⟨.add x.tally y.tally⟩
  cmp x y := Score.cmp (x.tally.value read) (y.tally.value read)
  exceeds x y := Score.exceeds (x.tally.value read) (y.tally.value read)
  max x y := ⟨.max x.tally y.tally⟩

namespace Training

variable {μ σ : Type} [Scalar σ]

/-! ## What a worker sees -/

/-- What is seen of the model at one stage of an example. -/
inductive Sight (μ : Type) where
  /-- The model stays the same. -/
  | steady (m : μ)
  /-- The model may be another one whenever an action is scored: `see x a` is the one that is read
  for `a` after the actions that make up `x`. A reading that catches an update halfway sees some of
  its names changed and the others not. -/
  | changing (see : Tally → Action → μ)

namespace Sight

/-- The model that is read for an action. -/
def model (v : Sight μ) (x : Tally) (a : Action) : μ :=
  match v with
  | steady m => m
  | changing see => see x a

/-- The scores of a search. -/
def scoring (s : Setup μ σ) (sentence : List String) : Sight μ → Scoring
  | steady m => s.scoring m sentence
  | changing see =>
    { Value := Live fun x a => s.model.score (see x a) s.grammar.rules sentence a
      own := fun a => ⟨.own a⟩ }

/-- The summed features of a sequence of actions. -/
def derivationFeatures (s : Setup μ σ) (sentence : List String) (v : Sight μ)
    (actions : List Action) : Features σ :=
  (actions.foldl (fun (f, x) a =>
    (Features.addAll f (s.model.features (v.model x a) s.grammar.rules sentence a) Scalar.one,
      Tally.add x (.own a))) ({}, Tally.zero)).1

end Sight

/-- A multiple of a feature vector that was written to the model. -/
structure Update (σ : Type) where
  delta : Features σ
  step : σ

/-- What the worker of an example sees at every stage, after what it has written itself. -/
abbrev Sights (μ σ : Type) := List (Update σ) → Stage → Sight μ

/-- A model that others read and update as well. The state of an example is what it has written so
far. -/
def Setup.shared (s : Setup μ σ) (sentence : List String) (sights : Sights μ σ) :
    Access (List (Update σ)) σ where
  scoring written stage := (sights written stage).scoring s sentence
  derivationFeatures written stage := (sights written stage).derivationFeatures s sentence
  update written delta step := written ++ [⟨delta, step⟩]

/-! ## Passes -/

/-- What is left of an example after a pass: the updates that were written for it, its memo and what
happened. Nothing happened if it was not begun because another one had failed. -/
structure Visit (σ : Type) where
  written : List (Update σ)
  memo : Memo
  outcome : Option (Except TrainError Outcome)

/-- Train on an example, unless it is not begun. -/
def visit (s : Setup μ σ) (sights : Option (Sights μ σ)) (index : Nat) (e : Example)
    (memo : Memo) : Visit σ :=
  match sights with
  | some v =>
    let r := trainExample s (s.shared e.tokens v) index [] e memo
    ⟨r.state, r.memo, some r.outcome⟩
  | none => ⟨[], memo, none⟩

/-- Visits of the examples from number `index` on, whatever their workers see. -/
inductive Visits (s : Setup μ σ) :
    (index : Nat) → List Example → List Memo → List (Visit σ) → Prop
  | nil {index : Nat} : Visits s index [] [] []
  | cons {index : Nat} {e : Example} {es : List Example} {memo : Memo} {memos : List Memo}
      {visits : List (Visit σ)} (sights : Option (Sights μ σ)) :
      Visits s (index + 1) es memos visits →
      Visits s index (e :: es) (memo :: memos) (visit s sights index e memo :: visits)

/-- Move a model by an update. -/
def Update.write (M : Model μ σ) (m : μ) (u : Update σ) : μ := M.update m u.delta u.step

/-- The parts are updates that together make up one. -/
def Update.IsSplit (u : Update σ) (parts : List (Update σ)) : Prop :=
  (∀ p ∈ parts, p.step = u.step) ∧ parts.flatMap (fun p => p.delta.entries) = u.delta.entries

/-- Each of the updates is written whole or in parts. -/
inductive Split : (updates parts : List (Update σ)) → Prop
  | nil : Split [] []
  | cons {u : Update σ} {us first parts : List (Update σ)} :
      u.IsSplit first → Split us parts → Split (u :: us) (first ++ parts)

/-- All updates have reached the model, whole or in parts and in any order. -/
def Written (M : Model μ σ) (m : μ) (updates : List (Update σ)) (m' : μ) : Prop :=
  ∃ parts order : List (Update σ), Split updates parts ∧ order.Perm parts ∧
    m' = order.foldl (Update.write M) m

/-- The result of a pass, from what happened to the examples: all outcomes or one of the failures. -/
def Concludes (l : List (Option (Except TrainError Outcome))) :
    Except TrainError (List Outcome) → Prop
  | .ok outcomes => l = outcomes.map fun o => some (.ok o)
  | .error e => some (.error e) ∈ l

/-- A pass in which the examples are trained on at the same time may lead from one model to another,
leave these memos and have this result. -/
def Interleaved (s : Setup μ σ) (data : List Example) (memos : List Memo) (m m' : μ)
    (memos' : List Memo) (result : Except TrainError (List Outcome)) : Prop :=
  ∃ visits, Visits s 0 data memos visits ∧ memos' = visits.map Visit.memo ∧
    Written s.model m (visits.flatMap Visit.written) m' ∧
    Concludes (visits.map Visit.outcome) result

/-- What a pass may come to under the discipline of the options. -/
def Pass (s : Setup μ σ) (data : List Example) (memos : List Memo) (m m' : μ) (memos' : List Memo)
    (result : Except TrainError (List Outcome)) : Prop :=
  match s.options.discipline with
  | .serialized => runExamples s 0 data memos m [] = (m', memos', result)
  | .lockFree => Interleaved s data memos m m' memos' result

namespace Trainer

/-- What a trainer keeps about the examples of a dataset of `n` examples. -/
def memos (t : Trainer μ) (n : Nat) : List Memo :=
  (t.fit n).1.filters.zipWith Memo.mk (t.fit n).1.gold

/-- An epoch may lead from one trainer to another and have this result. -/
inductive Epoch (s : Setup μ σ) (epoch : Nat) (data : Dataset) (t : Trainer μ) :
    Trainer μ → Except TrainError Stats → Prop
  | misfit {e : TrainError} (h : (t.fit data.length).2 = .error e) :
      Epoch s epoch data t (t.fit data.length).1 (.error e)
  | pass {m : μ} {memos : List Memo} {result : Except TrainError (List Outcome)}
      (h : (t.fit data.length).2 = .ok ())
      (hpass : Pass s data (t.memos data.length) t.model m memos result) :
      Epoch s epoch data t ⟨m, memos.map Memo.oracle, memos.map Memo.gold⟩
        (result.map fun outcomes => outcomes.foldl Stats.record { epoch })

/-- Epochs from number `epoch` on, up to the first failure, may lead from one trainer to another and
have this result. -/
inductive Runs (s : Setup μ σ) (data : Dataset) : (n epoch : Nat) → Trainer μ → Trainer μ →
    Except TrainError (List Stats) → Prop
  | done {epoch : Nat} {t : Trainer μ} : Runs s data 0 epoch t t (.ok [])
  | failed {n epoch : Nat} {t t' : Trainer μ} {e : TrainError} :
      Epoch s epoch data t t' (.error e) → Runs s data (n + 1) epoch t t' (.error e)
  | passed {n epoch : Nat} {t t' t'' : Trainer μ} {stats : Stats}
      {rest : Except TrainError (List Stats)} :
      Epoch s epoch data t t' (.ok stats) → Runs s data n (epoch + 1) t' t'' rest →
      Runs s data (n + 1) epoch t t'' (rest.map (stats :: ·))

end Trainer

end Training

end Categorial
