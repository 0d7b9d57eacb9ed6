import Categorial.Proofs.Beam.Ranges
import Categorial.Proofs.Training.Kept
import Categorial.Proofs.Training.Resume

/-!
# Memos of another size

Before an epoch begins, a memo that keeps nothing is given a place for every example, and then both memos
must have the size of the dataset. If one of them has not, the epoch fails and no example is looked at.
But the other memo, if it was empty, has its places by then, and a later epoch on a dataset of another
size takes it for a memo of other data. So the failure is harmless if and only if neither memo was empty,
or there were no examples.

* `TrainError.isMisfit`: the failures of the check of sizes; `Training.isMisfit_runExamples`: no example
  fails with one.
* `Training.Trainer.fit_eq`, `Training.Trainer.fit_eq_ok_iff`: what the check of sizes does.
* `Training.Trainer.runSeries`: epochs in turn on any datasets, whether or not some of them fail.
* **`Training.Trainer.misfit_harmless_iff`**: what a failed check of sizes leaves behind.
-/

namespace Categorial

/-- The failure is one of the check of sizes. -/
def TrainError.isMisfit : TrainError → Bool
  | filtersMismatch _ _ => true
  | goldMismatch _ _ => true
  | _ => false

theorem Beam.Fails.isMisfit {σ : Type} {w : Window σ} {e : TrainError} (h : Fails w e) :
    e.isMisfit = false := by
  cases h <;> rfl

namespace Training

variable {μ σ ω : Type} [Scalar σ] {s : Setup μ σ}

/-! ## Failures of examples -/

theorem isMisfit_learnAll (A : Access ω σ) (index : Nat) (sentence : List String) (i : Nat)
    (golds : List Gold) (w : ω) (p : Progress) {e : TrainError}
    (h : (learnAll s A index sentence i golds w p).2 = .error e) : e.isMisfit = false := by
  induction golds generalizing i w p with
  | nil => cases h
  | cons g golds ih =>
    rw [learnAll] at h
    split at h
    · next hfail =>
      cases h
      exact (Beam.fails_of_findViolation hfail).isMisfit
    · exact ih _ _ _ h
    · next v _ =>
      by_cases hlength : v.pruned && v.gold.length != v.predicted.length
      · rw [if_pos hlength] at h
        cases h
        rfl
      · rw [if_neg hlength] at h
        exact ih _ _ _ h

theorem isMisfit_trainExample (A : Access ω σ) (index : Nat) (w : ω) (x : Example) (memo : Memo)
    {e : TrainError} (h : (trainExample s A index w x memo).outcome = .error e) :
    e.isMisfit = false := by
  unfold trainExample at h
  generalize goldOf s (A.scoring w) x memo = found at h
  obtain ⟨golds, memo'⟩ := found
  dsimp only at h
  split_ifs at h
  cases hlearn : (learnAll s A index x.tokens 0 golds w {}).2 with
  | error e' =>
    rw [hlearn] at h
    cases h
    exact isMisfit_learnAll A index x.tokens 0 golds w {} hlearn
  | ok p =>
    rw [hlearn] at h
    cases h

theorem isMisfit_runExamples (s : Setup μ σ) (index : Nat) (data : List Example) (memos : List Memo)
    (m : μ) (outcomes : List Outcome) {e : TrainError}
    (h : (runExamples s index data memos m outcomes).2.2 = .error e) : e.isMisfit = false := by
  induction data generalizing index memos m outcomes with
  | nil => cases memos <;> cases h
  | cons x data ih =>
    cases memos with
    | nil => cases h
    | cons memo memos =>
      rw [runExamples] at h
      dsimp only at h
      split at h
      · next hfail =>
        cases h
        exact isMisfit_trainExample (s.access x.tokens) index m x memo hfail
      · exact ih _ _ _ _ h

namespace Trainer

/-! ## The check of sizes -/

/-- A place for every example, if there are none. -/
def sized {α : Type} (kept : List (Option α)) (n : Nat) : List (Option α) :=
  if kept = [] then List.replicate n none else kept

theorem sized_eq_self_iff {α : Type} {kept : List (Option α)} {n : Nat} :
    sized kept n = kept ↔ n = 0 ∨ kept ≠ [] := by
  unfold sized
  split_ifs with h
  · simp [h]
  · simp [h]

/-- An empty memo that was given places suits datasets of that size only. -/
theorem eq_of_sized_nil {α : Type} {n k : Nat} (hn : n ≠ 0)
    (h : sized ([] : List (Option α)) n = [] ∨ (sized ([] : List (Option α)) n).length = k) :
    k = n := by
  have hplaces : sized ([] : List (Option α)) n = List.replicate n none := if_pos rfl
  rw [hplaces, List.replicate_eq_nil_iff, List.length_replicate] at h
  exact (h.resolve_left hn).symm

omit [Scalar σ] in
theorem fit_eq (t : Trainer μ) (n : Nat) :
    (t.fit n).1 = ⟨t.model, sized t.filters n, sized t.gold n⟩ := by
  unfold fit sized
  simp only [List.isEmpty_iff]
  split_ifs <;> rfl

omit [Scalar σ] in
/-- The check succeeds if each memo is empty or has the right size. -/
theorem fit_eq_ok_iff {t : Trainer μ} {n : Nat} : (t.fit n).2 = .ok () ↔
    (t.filters = [] ∨ t.filters.length = n) ∧ (t.gold = [] ∨ t.gold.length = n) := by
  have hsized {α : Type} (kept : List (Option α)) :
      (sized kept n).length = n ↔ kept = [] ∨ kept.length = n := by
    unfold sized
    split_ifs with h <;> simp [h]
  rw [← hsized, ← hsized]
  unfold fit sized
  simp only [List.isEmpty_iff]
  generalize (if t.filters = [] then List.replicate n none else t.filters) = filters
  generalize (if t.gold = [] then List.replicate n none else t.gold) = gold
  split_ifs <;> simp_all

omit [Scalar σ] in
theorem isMisfit_of_fit {t : Trainer μ} {n : Nat} {e : TrainError} (h : (t.fit n).2 = .error e) :
    e.isMisfit = true := by
  unfold fit at h
  dsimp only at h
  split_ifs at h <;> cases h <;> rfl

/-- An epoch fails with such a failure only if the check of sizes does. -/
theorem fit_of_isMisfit {t : Trainer μ} {epoch : Nat} {data : Dataset} {e : TrainError}
    (he : e.isMisfit = true) (h : (t.runEpoch s epoch data).2 = .error e) :
    (t.fit data.length).2 = .error e := by
  cases hfit : (t.fit data.length).2 with
  | error e' =>
    rw [runEpoch_of_misfit hfit] at h
    cases h
    rfl
  | ok u =>
    rw [runEpoch_of_fit hfit] at h
    dsimp only at h
    cases hrun : (runExamples s 0 data (t.memos data.length) t.model []).2.2 with
    | error e' =>
      rw [hrun] at h
      cases h
      rw [isMisfit_runExamples s 0 data _ _ _ hrun] at he
      cases he
    | ok outcomes =>
      rw [hrun] at h
      cases h

/-- Where the check succeeds for one trainer and fails for another, their epochs end differently. -/
theorem runEpoch_ne_of_fit (s : Setup μ σ) (epoch : Nat) {data : Dataset} {t t' : Trainer μ}
    (h : (t.fit data.length).2 = .ok ()) (h' : (t'.fit data.length).2 ≠ .ok ()) :
    (t'.runEpoch s epoch data).2 ≠ (t.runEpoch s epoch data).2 := by
  intro heq
  cases hfit : (t'.fit data.length).2 with
  | ok u => exact h' hfit
  | error e =>
    rw [runEpoch_of_misfit hfit] at heq
    have herror := fit_of_isMisfit (isMisfit_of_fit hfit) heq.symm
    rw [h] at herror
    cases herror

/-- If a failed check has left places in a memo that was empty, there are datasets for which it succeeds
before and fails afterwards. -/
theorem exists_fit_ne {t : Trainer μ} {n : Nat} {e : TrainError} (h : (t.fit n).2 = .error e)
    (hn : n ≠ 0) (hempty : t.filters = [] ∨ t.gold = []) :
    ∃ k, (t.fit k).2 = .ok () ∧ ((t.fit n).1.fit k).2 ≠ .ok () := by
  have hmisfit : ¬ ((t.filters = [] ∨ t.filters.length = n) ∧ (t.gold = [] ∨ t.gold.length = n)) := by
    rw [← fit_eq_ok_iff, h]
    exact fun hok => by cases hok
  rcases hempty with hfilters | hgold
  · -- the filters have `n` places now, and the gold sequences another number of them
    refine ⟨t.gold.length, fit_eq_ok_iff.mpr ⟨.inl hfilters, .inr rfl⟩, fun hok => ?_⟩
    rw [fit_eq, fit_eq_ok_iff, hfilters] at hok
    exact hmisfit ⟨.inl hfilters, .inr (eq_of_sized_nil hn hok.1)⟩
  · refine ⟨t.filters.length, fit_eq_ok_iff.mpr ⟨.inr rfl, .inl hgold⟩, fun hok => ?_⟩
    rw [fit_eq, fit_eq_ok_iff, hgold] at hok
    exact hmisfit ⟨.inr (eq_of_sized_nil hn hok.2), .inl hgold⟩

/-! ## Epochs on several datasets -/

/-- Epochs in turn, each with its number and its dataset, whether or not earlier ones fail. -/
def runSeries (s : Setup μ σ) :
    List (Nat × Dataset) → Trainer μ → Trainer μ × List (Except TrainError Stats)
  | [], t => (t, [])
  | (epoch, data) :: runs, t =>
    let (t, result) := t.runEpoch s epoch data
    let (t, results) := runSeries s runs t
    (t, result :: results)

/-- **What a failed check of sizes leaves behind.** For every trainer, whatever it keeps, and every
dataset: if an epoch fails because of the sizes of the memos, the model is as it was, and so is each memo
that was not empty; a memo that was empty has a place for every example. The trainer is as it was if and
only if there are no examples or neither memo was empty, and the same condition is necessary and
sufficient for all later epochs, on any datasets, to end as if the one that failed had not been run. -/
theorem misfit_harmless_iff (s : Setup μ σ) (t : Trainer μ) (epoch : Nat) (data : Dataset)
    {e : TrainError} (he : e.isMisfit = true) (h : (t.runEpoch s epoch data).2 = .error e) :
    (t.runEpoch s epoch data).1 =
      ⟨t.model, sized t.filters data.length, sized t.gold data.length⟩ ∧
    ((t.runEpoch s epoch data).1 = t ↔ data = [] ∨ t.filters ≠ [] ∧ t.gold ≠ []) ∧
    ((∀ runs, (runSeries s runs (t.runEpoch s epoch data).1).2 = (runSeries s runs t).2) ↔
      data = [] ∨ t.filters ≠ [] ∧ t.gold ≠ []) := by
  have hfit := fit_of_isMisfit he h
  have hafter : (t.runEpoch s epoch data).1 = (t.fit data.length).1 := by
    rw [runEpoch_of_misfit hfit]
  have hsame : (t.fit data.length).1 = t ↔ data = [] ∨ t.filters ≠ [] ∧ t.gold ≠ [] := by
    rw [fit_eq, ← List.length_eq_zero_iff, or_and_left, ← sized_eq_self_iff, ← sized_eq_self_iff]
    obtain ⟨m, filters, gold⟩ := t
    simp only [mk.injEq, true_and]
  rw [hafter, fit_eq, ← fit_eq]
  refine ⟨rfl, hsame, fun hruns => ?_, fun hcond runs => by rw [hsame.mpr hcond]⟩
  by_contra hcond
  rw [not_or, not_and_or, not_not, not_not] at hcond
  obtain ⟨k, hok, hne⟩ := exists_fit_ne hfit (mt List.length_eq_zero_iff.mp hcond.1) hcond.2
  have hlength : (List.replicate k (default : Example)).length = k := List.length_replicate
  rw [← hlength] at hok hne
  exact runEpoch_ne_of_fit s 0 hok hne (List.cons.inj (hruns [(0, List.replicate k default)])).1

/-- A trainer that has a place for one oracle and one gold sequence stays as it is when an epoch on two
examples fails. -/
theorem misfit_harmless_iff_dogs :
    ((⟨(), [none], [none]⟩ : Trainer Unit).runEpoch dogsSetup 1 (dogsData ++ dogsData)).1 =
      ⟨(), [none], [none]⟩ :=
  (misfit_harmless_iff dogsSetup ⟨(), [none], [none]⟩ 1 (dogsData ++ dogsData)
    (e := .filtersMismatch 1 2) rfl rfl).2.1.mpr (.inr ⟨List.cons_ne_nil _ _, List.cons_ne_nil _ _⟩)

/-- A trainer with a place for one gold sequence, and with none for an oracle. -/
def onlyGold : Trainer Unit := { model := (), gold := [none] }

/-- An epoch of this trainer on two examples fails and leaves places for two oracles behind, so that an
epoch on one example fails as well. Without the first one it succeeds. -/
theorem misfit_harmful :
    (onlyGold.runEpoch dogsSetup 1 (dogsData ++ dogsData)).2 = .error (.goldMismatch 1 2) ∧
    (onlyGold.runEpoch dogsSetup 1 (dogsData ++ dogsData)).1.filters = [none, none] ∧
    ((onlyGold.runEpoch dogsSetup 1 (dogsData ++ dogsData)).1.runEpoch dogsSetup 1 dogsData).2 =
      .error (.filtersMismatch 2 1) ∧
    ∃ stats, (onlyGold.runEpoch dogsSetup 1 dogsData).2 = .ok stats := by
  have hfits : Fits dogsSetup dogsData onlyGold :=
    ⟨.inl rfl, .inr rfl, .cons (sound_none dogsSetup _) .nil⟩
  exact ⟨rfl, rfl, rfl, ((epoch_runEpoch dogsSetup 1 dogsData onlyGold).succeeds hfits).1⟩

end Trainer

end Training

end Categorial
