import Categorial.Proofs.Training.Sizes
import Categorial.Proofs.Training.Updates

/-!
# The two update disciplines agree

An update is written in one pass, or first to the names that have a weight and then to the others. Under
one name both add the same numbers in the same order, because all entries of the update with this name go
into the same pass. So two tables of weights that answer every look-up alike still do so after the same
update, whatever their disciplines are. Training asks a model for features and scores and updates it, and
nothing else. Two models that cannot be told apart in this way therefore have the same course of
training.

* `Weights.get?_addScaled_eq`: the weight of a name after an update, without regard to the discipline.
* `Weights.Agree`: tables that answer every look-up alike; `Weights.Agree.addScaled`: one update.
* `Model.Respects`: models that are related cannot be told apart, and updates keep them related.
* `Training.simulates_access`: one example; `Training.Trainer.Related.runEpoch`: one epoch.
* **`Training.disciplines_agree`**: any updates, and any course of training.
-/

namespace Categorial

/-! ## One update -/

namespace Weights

variable {σ : Type} [Scalar σ]

/-- The weight of a name is raised by the numbers listed for it, one after another. -/
theorem get?_raised (step : σ) (l : List (String × σ)) (t : Std.TreeMap String σ) (name : String) :
    (raised step t l).get? name = (l.filter fun e => e.1 == name).foldl
      (fun v e => some (Score.add (v.getD Score.zero) (Scalar.mul step e.2))) (t.get? name) := by
  induction l generalizing t with
  | nil => rfl
  | cons e l ih =>
    refine (ih _).trans ?_
    rw [get?_bump, List.filter_cons]
    by_cases he : e.1 = name
    · subst he
      simp
    · simp [he]

omit [Scalar σ] in
/-- The entries with one name are all in the pass over known names, or all in the other one. -/
theorem filter_passes (t : Std.TreeMap String σ) (l : List (String × σ)) (name : String) :
    ((l.filter fun e => t.contains e.1) ++ l.filter fun e => !t.contains e.1).filter
      (fun e => e.1 == name) = l.filter fun e => e.1 == name := by
  have hpass : ∀ (keep : Bool → Bool), ∀ e ∈ l,
      (e.1 == name && keep (t.contains e.1)) = (e.1 == name && keep (t.contains name)) := by
    intro keep e _
    cases he : e.1 == name with
    | true => rw [beq_iff_eq.mp he]
    | false => rfl
  rw [List.filter_append, List.filter_filter, List.filter_filter, List.filter_congr (hpass fun b => b),
    List.filter_congr (hpass Bool.not)]
  cases t.contains name <;> simp

/-- The weight of a name after an update does not depend on the discipline. -/
theorem get?_addScaled_eq (w : Weights σ) (delta : Features σ) (step : σ) (name : String) :
    (w.addScaled delta step).table.get? name = (delta.entries.filter fun e => e.1 == name).foldl
      (fun v e => some (Score.add (v.getD Score.zero) (Scalar.mul step e.2))) (w.table.get? name) := by
  obtain ⟨discipline, t⟩ := w
  cases discipline with
  | serialized => exact get?_raised step delta.entries t name
  | lockFree =>
    have htable : addKnownThenNew t delta step = raised step t
        ((delta.entries.filter fun e => t.contains e.1) ++
          delta.entries.filter fun e => !t.contains e.1) := by
      rw [addKnownThenNew, List.partition_eq_filter_filter, raised, List.foldl_append]
      rfl
    change (addKnownThenNew t delta step).get? name = _
    rw [htable, get?_raised, filter_passes]

theorem discipline_addScaled (w : Weights σ) (delta : Features σ) (step : σ) :
    (w.addScaled delta step).discipline = w.discipline := by
  unfold addScaled
  split <;> rfl

/-! ## Tables that answer alike -/

/-- Every look-up has the same answer. -/
def Agree (v w : Weights σ) : Prop := ∀ name, v.table.get? name = w.table.get? name

namespace Agree

variable {v w : Weights σ}

omit [Scalar σ] in
theorem equiv (h : Agree v w) : v.table.Equiv w.table := .of_forall_constGet?_eq h

omit [Scalar σ] in
theorem toList (h : Agree v w) : v.toList = w.toList := h.equiv.toList_eq

omit [Scalar σ] in
theorem size (h : Agree v w) : v.size = w.size := h.equiv.size_eq

theorem get (h : Agree v w) (name : String) : v.get name = w.get name := by
  rw [Weights.get, Weights.get, h name]

theorem dot (h : Agree v w) (f : Features σ) : v.dot f = w.dot f := by
  simp only [Weights.dot, h.get]

/-- The same update keeps tables alike. -/
theorem addScaled (h : Agree v w) (delta : Features σ) (step : σ) :
    Agree (v.addScaled delta step) (w.addScaled delta step) := by
  intro name
  rw [get?_addScaled_eq, get?_addScaled_eq, h name]

end Agree

/-- The weights after some updates. -/
def addAll (w : Weights σ) (updates : List (Features σ × σ)) : Weights σ :=
  updates.foldl (fun w u => w.addScaled u.1 u.2) w

theorem Agree.addAll {v w : Weights σ} (h : Agree v w) (updates : List (Features σ × σ)) :
    Agree (v.addAll updates) (w.addAll updates) := by
  induction updates generalizing v w with
  | nil => exact h
  | cons u updates ih => exact ih (h.addScaled u.1 u.2)

theorem discipline_addAll (w : Weights σ) (updates : List (Features σ × σ)) :
    (w.addAll updates).discipline = w.discipline := by
  induction updates generalizing w with
  | nil => rfl
  | cons u updates ih => exact (ih _).trans (w.discipline_addScaled u.1 u.2)

end Weights

/-! ## Models that cannot be told apart -/

variable {μ σ : Type}

/-- Related models have the same features and scores, and the same update keeps them related. -/
structure Model.Respects (M : Model μ σ) (R : μ → μ → Prop) : Prop where
  features {m m' : μ} : R m m' → M.features m = M.features m'
  score {m m' : μ} : R m m' → M.score m = M.score m'
  update {m m' : μ} : R m m' → ∀ delta step, R (M.update m delta step) (M.update m' delta step)

variable [Scalar σ]

/-- The models have weights that answer alike, and the same penalty for skipped words. -/
def LinearModel.Agree (m m' : LinearModel σ) : Prop :=
  m.weights.Agree m'.weights ∧ m.skipPenalty = m'.skipPenalty

theorem LinearModel.respects_agree : (model : Model (LinearModel σ) σ).Respects Agree where
  features _ := rfl
  score := by
    rintro m m' ⟨hweights, hpenalty⟩
    funext rules sentence a
    change m.score rules a = m'.score rules a
    rw [score, score, hweights.dot, hpenalty]
  update := by
    rintro m m' ⟨hweights, hpenalty⟩ delta step
    exact ⟨hweights.addScaled _ step, hpenalty⟩

namespace Training

variable {s : Setup μ σ} {R : μ → μ → Prop} {m m' : μ}

/-- Training on an example, which nobody else reads or updates the model for, cannot tell related models
apart. -/
theorem simulates_access (hR : s.model.Respects R) (sentence : List String) :
    (s.access sentence).Simulates (s.access sentence) R where
  scoring h := by
    funext stage
    change s.scoring _ sentence = s.scoring _ sentence
    rw [Setup.scoring, Setup.scoring, hR.score h]
  derivationFeatures h := by
    funext stage actions
    change s.model.derivationFeatures _ _ _ _ = s.model.derivationFeatures _ _ _ _
    rw [Model.derivationFeatures, Model.derivationFeatures, hR.features h]
  update h := hR.update h

theorem runExamples_related (hR : s.model.Respects R) (h : R m m') (index : Nat) (data : List Example)
    (memos : List Memo) (outcomes : List Outcome) :
    R (runExamples s index data memos m outcomes).1 (runExamples s index data memos m' outcomes).1 ∧
      (runExamples s index data memos m outcomes).2 = (runExamples s index data memos m' outcomes).2 := by
  induction data generalizing index memos m m' outcomes with
  | nil => cases memos <;> exact ⟨h, rfl⟩
  | cons e data ih =>
    cases memos with
    | nil => exact ⟨h, rfl⟩
    | cons memo memos =>
      obtain ⟨hmodel, hmemo, houtcome⟩ :=
        trainExample_related (s := s) (simulates_access hR e.tokens) h index e memo
      rw [runExamples, runExamples]
      dsimp only
      rw [hmemo, houtcome]
      split
      · exact ⟨hmodel, rfl⟩
      · next o _ =>
        obtain ⟨hmodels, hrest⟩ := ih hmodel (index + 1) memos (outcomes ++ [o])
        exact ⟨hmodels, congrArg (fun x =>
          ((trainExample s (s.access e.tokens) index m' e memo).memo :: x.1, x.2)) hrest⟩

namespace Trainer

/-- The models are related, and the same is kept about the examples. -/
structure Related (R : μ → μ → Prop) (t t' : Trainer μ) : Prop where
  model : R t.model t'.model
  filters : t.filters = t'.filters
  gold : t.gold = t'.gold

variable {t t' : Trainer μ}

omit [Scalar σ] in
theorem Related.fit (h : Related R t t') (n : Nat) :
    Related R (t.fit n).1 (t'.fit n).1 ∧ (t.fit n).2 = (t'.fit n).2 := by
  obtain ⟨model, filters, gold⟩ := t
  obtain ⟨model', filters', gold'⟩ := t'
  obtain ⟨hmodel, rfl, rfl⟩ := h
  refine ⟨?_, ?_⟩
  · rw [fit_eq, fit_eq]
    exact ⟨hmodel, rfl, rfl⟩
  · unfold Trainer.fit
    dsimp only
    split_ifs <;> rfl

/-- One epoch. -/
theorem Related.runEpoch (hR : s.model.Respects R) (h : Related R t t') (epoch : Nat) (data : Dataset) :
    Related R (t.runEpoch s epoch data).1 (t'.runEpoch s epoch data).1 ∧
      (t.runEpoch s epoch data).2 = (t'.runEpoch s epoch data).2 := by
  obtain ⟨hafter, hresult⟩ := h.fit data.length
  cases hfit : (t.fit data.length).2 with
  | error e =>
    rw [runEpoch_of_misfit hfit, runEpoch_of_misfit (hresult ▸ hfit)]
    exact ⟨hafter, rfl⟩
  | ok u =>
    have hmemos : t.memos data.length = t'.memos data.length := by
      rw [memos, memos, hafter.filters, hafter.gold]
    obtain ⟨hmodel, hrest⟩ := runExamples_related hR h.model 0 data (t'.memos data.length) []
    rw [runEpoch_of_fit hfit, runEpoch_of_fit (hresult ▸ hfit), hmemos, hrest]
    exact ⟨⟨hmodel, rfl, rfl⟩, rfl⟩

/-- Epochs up to the first failure. -/
theorem Related.runEpochs (hR : s.model.Respects R) (h : Related R t t') (data : Dataset)
    (n epoch : Nat) :
    Related R (runEpochs s data n epoch t).1 (runEpochs s data n epoch t').1 ∧
      (runEpochs s data n epoch t).2 = (runEpochs s data n epoch t').2 := by
  induction n generalizing t t' epoch with
  | zero => exact ⟨h, rfl⟩
  | succ n ih =>
    obtain ⟨hafter, hresult⟩ := h.runEpoch hR epoch data
    rw [Trainer.runEpochs, Trainer.runEpochs]
    generalize t.runEpoch s epoch data = x at hafter hresult
    generalize t'.runEpoch s epoch data = y at hafter hresult
    obtain ⟨t₁, result⟩ := x
    obtain ⟨t₁', result'⟩ := y
    dsimp only at hresult
    subst hresult
    cases result with
    | error e => exact ⟨hafter, rfl⟩
    | ok stats =>
      obtain ⟨hlast, hstats⟩ := ih hafter (epoch + 1)
      exact ⟨hlast, congrArg (Except.map (stats :: ·)) hstats⟩

/-- Epochs on any datasets. -/
theorem Related.runSeries (hR : s.model.Respects R) (h : Related R t t') (runs : List (Nat × Dataset)) :
    Related R (runSeries s runs t).1 (runSeries s runs t').1 ∧
      (runSeries s runs t).2 = (runSeries s runs t').2 := by
  induction runs generalizing t t' with
  | nil => exact ⟨h, rfl⟩
  | cons run runs ih =>
    obtain ⟨hafter, hresult⟩ := h.runEpoch hR run.1 run.2
    obtain ⟨hlast, hresults⟩ := ih hafter
    exact ⟨hlast, congrArg₂ List.cons hresult hresults⟩

end Trainer

/-- **The two disciplines agree.** For every snapshot of weights, with whatever addition and
multiplication: after any updates, the weights that are written in one pass and those that are written in
two give the same answers, have the same number of names and the same contents. A trainer that starts
with the one or with the other, whatever it keeps, has the same statistics and failures, keeps the same
and ends with the same weights, after any epochs on any datasets and after training on a dataset. -/
theorem disciplines_agree (snapshot : List (String × σ)) :
    (∀ updates : List (Features σ × σ),
      let one := (Weights.ofList .serialized snapshot).addAll updates
      let two := (Weights.ofList .lockFree snapshot).addAll updates
      one.discipline = .serialized ∧ two.discipline = .lockFree ∧
      (∀ name, one.get name = two.get name) ∧ (∀ f, one.dot f = two.dot f) ∧
      one.size = two.size ∧ one.toList = two.toList) ∧
    ∀ (grammar : Grammar) (lexicon : Lexicon) (options : Options σ) (skipPenalty : σ)
      (filters : List (Option Oracle)) (gold : List (Option (List Action))),
      let s : Setup (LinearModel σ) σ := ⟨grammar, lexicon, LinearModel.model, options⟩
      let one : Trainer (LinearModel σ) := ⟨⟨.ofList .serialized snapshot, skipPenalty⟩, filters, gold⟩
      let two : Trainer (LinearModel σ) := ⟨⟨.ofList .lockFree snapshot, skipPenalty⟩, filters, gold⟩
      (∀ runs, (one.runSeries s runs).2 = (two.runSeries s runs).2 ∧
        (one.runSeries s runs).1.filters = (two.runSeries s runs).1.filters ∧
        (one.runSeries s runs).1.gold = (two.runSeries s runs).1.gold ∧
        (one.runSeries s runs).1.model.weights.toList =
          (two.runSeries s runs).1.model.weights.toList) ∧
      ∀ data, (one.train s data).2 = (two.train s data).2 ∧
        (one.train s data).1.filters = (two.train s data).1.filters ∧
        (one.train s data).1.gold = (two.train s data).1.gold ∧
        (one.train s data).1.model.weights.toList = (two.train s data).1.model.weights.toList := by
  have hstart : (Weights.ofList .serialized snapshot).Agree (.ofList .lockFree snapshot) := fun _ => rfl
  constructor
  · intro updates one two
    have hagree : one.Agree two := hstart.addAll updates
    exact ⟨Weights.discipline_addAll _ updates, Weights.discipline_addAll _ updates, hagree.get,
      hagree.dot, hagree.size, hagree.toList⟩
  · intro grammar lexicon options skipPenalty filters gold s one two
    have hrespects : s.model.Respects LinearModel.Agree := LinearModel.respects_agree
    have hrelated : Trainer.Related LinearModel.Agree one two := ⟨⟨hstart, rfl⟩, rfl, rfl⟩
    constructor
    · intro runs
      obtain ⟨hafter, hresults⟩ := hrelated.runSeries hrespects runs
      exact ⟨hresults, hafter.filters, hafter.gold, hafter.model.1.toList⟩
    · intro data
      obtain ⟨hafter, hresults⟩ := hrelated.runEpochs hrespects data options.epochs 1
      exact ⟨hresults, hafter.filters, hafter.gold, hafter.model.1.toList⟩

end Training

end Categorial
