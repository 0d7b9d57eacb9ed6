import Categorial.Training.LockFree
import Mathlib

/-!
# Passes in turn and at the same time

Taking the examples in turn is one way in which a pass at the same time may go: every worker sees
the model that the examples before it have left, and it changes by its own updates only. So what
holds of every pass at the same time holds under both disciplines, and the epoch that takes the
examples in turn is possible under both.

* `Training.Access.Simulates`: two ways to reach the model between which training cannot tell;
  `Training.trainExample_related`.
* `Training.Visits.forall₂`: what holds of the memos after all visits.
* `Training.interleaved_runExamples`: examples in turn; `Training.Pass.interleaved`: any pass.
* `Training.Trainer.epoch_runEpoch`, `Training.Trainer.runs_runEpochs`: epochs that take the
  examples in turn.
* **`Training.Trainer.runs_iff`**: under the serialized discipline there are no others.
-/

namespace Categorial.Training

variable {μ σ ω ω' : Type} [Scalar σ] {s : Setup μ σ}

/-! ## Ways to reach the model -/

/-- In related states the model is read alike, and the same update leads to related states. -/
structure Access.Simulates (A : Access ω σ) (A' : Access ω' σ) (R : ω → ω' → Prop) : Prop where
  scoring {w : ω} {w' : ω'} : R w w' → A.scoring w = A'.scoring w'
  derivationFeatures {w : ω} {w' : ω'} :
    R w w' → A.derivationFeatures w = A'.derivationFeatures w'
  update {w : ω} {w' : ω'} :
    R w w' → ∀ delta step, R (A.update w delta step) (A'.update w' delta step)

section Related

variable {A : Access ω σ} {A' : Access ω' σ} {R : ω → ω' → Prop} {w : ω} {w' : ω'}

theorem learn_related (hA : A.Simulates A' R) (h : R w w') (i : Nat) (v : Violation) :
    R (learn s A w i v) (learn s A' w' i v) := by
  have hdifference : A.difference w i v = A'.difference w' i v := by
    unfold Access.difference
    rw [hA.derivationFeatures h]
  unfold learn
  rw [hdifference]
  dsimp only
  split_ifs
  · exact hA.update h _ _
  · exact h

theorem learnAll_related (hA : A.Simulates A' R) (h : R w w') (index : Nat) (sentence : List String)
    (i : Nat) (golds : List Gold) (p : Progress) :
    R (learnAll s A index sentence i golds w p).1 (learnAll s A' index sentence i golds w' p).1 ∧
      (learnAll s A index sentence i golds w p).2 = (learnAll s A' index sentence i golds w' p).2 := by
  induction golds generalizing i w w' p with
  | nil => exact ⟨h, rfl⟩
  | cons g golds ih =>
    rw [learnAll, learnAll, hA.scoring h]
    split
    · exact ⟨h, rfl⟩
    · exact ih h _ p
    · next v _ =>
      by_cases hlength : v.pruned && v.gold.length != v.predicted.length
      · rw [if_pos hlength, if_pos hlength]
        exact ⟨h, rfl⟩
      · rw [if_neg hlength, if_neg hlength]
        exact ih (learn_related hA h i v) _ _

/-- Training on an example leads from related states to related states, all else being the same. -/
theorem trainExample_related (hA : A.Simulates A' R) (h : R w w') (index : Nat) (e : Example)
    (memo : Memo) :
    R (trainExample s A index w e memo).state (trainExample s A' index w' e memo).state ∧
      (trainExample s A index w e memo).memo = (trainExample s A' index w' e memo).memo ∧
      (trainExample s A index w e memo).outcome = (trainExample s A' index w' e memo).outcome := by
  unfold trainExample
  rw [hA.scoring h]
  dsimp only
  split_ifs
  · exact ⟨h, rfl, rfl⟩
  · exact ⟨h, rfl, rfl⟩
  · exact ⟨h, rfl, rfl⟩
  · obtain ⟨hstate, hresult⟩ :=
      learnAll_related (s := s) hA h index e.tokens 0 (goldOf s (A'.scoring w') e memo).1 {}
    exact ⟨hstate, rfl, congrArg (Except.map Progress.outcome) hresult⟩

end Related

/-! ## What is kept -/

section Kept

variable {P : Example → Memo → Prop}
  (hlook : ∀ look e memo, P e memo → P e (goldOf s look e memo).2)

include hlook

theorem memo_trainExample (A : Access ω σ) (index : Nat) (w : ω) {e : Example} {memo : Memo}
    (h : P e memo) : P e (trainExample s A index w e memo).memo := by
  have hgold := hlook (A.scoring w) e memo h
  unfold trainExample
  dsimp only
  split_ifs
  · exact h
  · exact hgold
  · exact hgold
  · exact hgold

/-- What every look at an example leaves true of its memo is true after all visits. -/
theorem Visits.forall₂ {index : Nat} {data : List Example} {memos : List Memo}
    {visits : List (Visit σ)} (hv : Visits s index data memos visits)
    (h : List.Forall₂ P data memos) : List.Forall₂ P data (visits.map Visit.memo) := by
  induction hv with
  | nil => exact .nil
  | cons sights _ ih =>
    obtain ⟨he, hdata⟩ := List.forall₂_cons.mp h
    cases sights with
    | none => exact .cons he (ih hdata)
    | some v => exact .cons (memo_trainExample hlook _ _ _ he) (ih hdata)

end Kept

/-! ## Updates that reach the model -/

omit [Scalar σ] in
theorem Split.append {us vs parts parts' : List (Update σ)} (h : Split us parts)
    (h' : Split vs parts') : Split (us ++ vs) (parts ++ parts') := by
  induction h with
  | nil => exact h'
  | cons hsplit _ ih =>
    rw [List.cons_append, List.append_assoc]
    exact .cons hsplit ih

omit [Scalar σ] in
/-- Updates may be written whole. -/
theorem split_self (us : List (Update σ)) : Split us us := by
  induction us with
  | nil => exact .nil
  | cons u us ih =>
    have hwhole : u.IsSplit [u] := ⟨by simp, by simp⟩
    exact .cons hwhole ih

omit [Scalar σ] in
/-- Updates may be written in turn. -/
theorem written_foldl (M : Model μ σ) (m : μ) (us : List (Update σ)) :
    Written M m us (us.foldl (Update.write M) m) :=
  ⟨us, us, split_self us, .refl us, rfl⟩

omit [Scalar σ] in
theorem Written.append {M : Model μ σ} {m m' m'' : μ} {us vs : List (Update σ)}
    (h : Written M m us m') (h' : Written M m' vs m'') : Written M m (us ++ vs) m'' := by
  obtain ⟨parts, order, hsplit, hperm, rfl⟩ := h
  obtain ⟨parts', order', hsplit', hperm', rfl⟩ := h'
  exact ⟨_, order ++ order', hsplit.append hsplit', hperm.append hperm', List.foldl_append.symm⟩

/-! ## Examples in turn -/

/-- The worker sees a model that only its own updates change. -/
def Sights.ofModel (M : Model μ σ) (m : μ) : Sights μ σ :=
  fun written _ => .steady (written.foldl (Update.write M) m)

theorem derivationFeatures_steady (s : Setup μ σ) (m : μ) (sentence : List String) :
    (Sight.steady m).derivationFeatures s sentence =
      s.model.derivationFeatures m s.grammar.rules sentence := by
  funext actions
  have h (p : Features σ × Tally) : (actions.foldl (fun p a =>
      (Features.addAll p.1 (s.model.features m s.grammar.rules sentence a) Scalar.one,
        Tally.add p.2 (.own a))) p).1 = actions.foldl (fun f a =>
      Features.addAll f (s.model.features m s.grammar.rules sentence a) Scalar.one) p.1 := by
    induction actions generalizing p with
    | nil => rfl
    | cons a actions ih => exact ih _
  exact h ({}, .zero)

theorem simulates_shared (s : Setup μ σ) (m : μ) (sentence : List String) :
    (s.access sentence).Simulates (s.shared sentence (.ofModel s.model m))
      fun m' written => m' = written.foldl (Update.write s.model) m where
  scoring h := by
    subst h
    rfl
  derivationFeatures h := by
    subst h
    funext stage
    exact (derivationFeatures_steady s _ sentence).symm
  update h delta step := by
    subst h
    exact (List.foldl_concat (Update.write s.model) m ⟨delta, step⟩ _).symm

/-- The visit of an example that nobody interferes with. -/
theorem visit_ofModel (s : Setup μ σ) (m : μ) (index : Nat) (e : Example) (memo : Memo) :
    ∃ written, visit s (some (.ofModel s.model m)) index e memo =
        ⟨written, (trainExample s (s.access e.tokens) index m e memo).memo,
          some (trainExample s (s.access e.tokens) index m e memo).outcome⟩ ∧
      (trainExample s (s.access e.tokens) index m e memo).state =
        written.foldl (Update.write s.model) m := by
  have hstart : m = ([] : List (Update σ)).foldl (Update.write s.model) m := rfl
  obtain ⟨hstate, hmemo, houtcome⟩ := trainExample_related (s := s)
    (simulates_shared s m e.tokens) hstart index e memo
  refine ⟨_, ?_, hstate⟩
  rw [hmemo, houtcome]
  rfl

/-- No example need be begun. -/
theorem visits_none (s : Setup μ σ) (index : Nat) {data : List Example} {memos : List Memo}
    (h : memos.length = data.length) :
    Visits s index data memos (memos.map fun memo => ⟨[], memo, none⟩) := by
  induction data generalizing index memos with
  | nil =>
    obtain rfl := List.length_eq_zero_iff.mp h
    exact .nil
  | cons e data ih =>
    cases memos with
    | nil => cases h
    | cons memo memos => exact .cons none (ih (index + 1) (Nat.succ.inj h))

/-- Going through examples in turn, from number `index` on. -/
theorem exists_visits_runExamples (s : Setup μ σ) (index : Nat) {data : List Example}
    {memos : List Memo} (h : memos.length = data.length) (m : μ) (outcomes : List Outcome) :
    ∃ visits, Visits s index data memos visits ∧
      (runExamples s index data memos m outcomes).2.1 = visits.map Visit.memo ∧
      Written s.model m (visits.flatMap Visit.written) (runExamples s index data memos m outcomes).1 ∧
      ∃ result, Concludes (visits.map Visit.outcome) result ∧
        (runExamples s index data memos m outcomes).2.2 = result.map (outcomes ++ ·) := by
  induction data generalizing index memos m outcomes with
  | nil =>
    obtain rfl := List.length_eq_zero_iff.mp h
    refine ⟨[], .nil, rfl, written_foldl s.model m [], .ok [], rfl, ?_⟩
    exact congrArg Except.ok (List.append_nil outcomes).symm
  | cons e data ih =>
    cases memos with
    | nil => cases h
    | cons memo memos =>
      have hlength : memos.length = data.length := Nat.succ.inj h
      obtain ⟨written, hvisit, hstate⟩ := visit_ofModel s m index e memo
      rw [runExamples]
      dsimp only
      cases houtcome : (trainExample s (s.access e.tokens) index m e memo).outcome with
      | error err =>
        refine ⟨visit s (some (.ofModel s.model m)) index e memo :: _,
          .cons _ (visits_none s (index + 1) hlength), ?_, ?_, .error err, ?_, rfl⟩
        · simp [hvisit, Function.comp_def]
        · have hnone :
              (memos.map fun memo => (⟨[], memo, none⟩ : Visit σ)).flatMap Visit.written = [] := by
            simp [List.flatMap_eq_nil_iff]
          rw [hvisit, List.flatMap_cons, hnone, List.append_nil, hstate]
          exact written_foldl s.model m written
        · rw [hvisit, houtcome]
          exact List.mem_cons_self
      | ok o =>
        obtain ⟨visits, hvisits, hmemos, hwritten, result, hresult, houtcomes⟩ :=
          ih (index + 1) hlength (trainExample s (s.access e.tokens) index m e memo).state
            (outcomes ++ [o])
        refine ⟨visit s (some (.ofModel s.model m)) index e memo :: visits, .cons _ hvisits, ?_, ?_,
          result.map (o :: ·), ?_, ?_⟩
        · simp only [hvisit, List.map_cons, hmemos]
        · rw [hvisit, List.flatMap_cons]
          rw [hstate] at hwritten ⊢
          exact (written_foldl s.model m written).append hwritten
        · rw [List.map_cons, hvisit, houtcome]
          cases result with
          | error err => exact List.mem_cons_of_mem _ hresult
          | ok os => exact congrArg (some (.ok o) :: ·) hresult
        · dsimp only
          rw [houtcomes]
          cases result with
          | error err => rfl
          | ok os => exact congrArg Except.ok (List.append_assoc outcomes [o] os)

/-- Taking the examples in turn is one way in which a pass at the same time may go. -/
theorem interleaved_runExamples (s : Setup μ σ) {data : List Example} {memos : List Memo}
    (h : memos.length = data.length) (m : μ) :
    Interleaved s data memos m (runExamples s 0 data memos m []).1
      (runExamples s 0 data memos m []).2.1 (runExamples s 0 data memos m []).2.2 := by
  obtain ⟨visits, hvisits, hmemos, hwritten, result, hresult, houtcomes⟩ :=
    exists_visits_runExamples s 0 h m []
  refine ⟨visits, hvisits, hmemos, hwritten, ?_⟩
  rw [houtcomes]
  cases result <;> exact hresult

/-- Whatever the discipline, a pass goes as one at the same time may go. -/
theorem Pass.interleaved {data : List Example} {memos memos' : List Memo} {m m' : μ}
    {result : Except TrainError (List Outcome)} (h : Pass s data memos m m' memos' result)
    (hlength : memos.length = data.length) : Interleaved s data memos m m' memos' result := by
  unfold Pass at h
  split at h
  · have hpass := interleaved_runExamples s hlength m
    rw [h] at hpass
    exact hpass
  · exact h

/-- Whatever the discipline, a pass may take the examples in turn. -/
theorem pass_runExamples (s : Setup μ σ) {data : List Example} {memos : List Memo}
    (h : memos.length = data.length) (m : μ) :
    Pass s data memos m (runExamples s 0 data memos m []).1
      (runExamples s 0 data memos m []).2.1 (runExamples s 0 data memos m []).2.2 := by
  unfold Pass
  split
  · rfl
  · exact interleaved_runExamples s h m

/-! ## Epochs in turn -/

namespace Trainer

variable {data : Dataset} {t t' : Trainer μ}

omit [Scalar σ] in
theorem length_of_fit {n : Nat} (h : (t.fit n).2 = .ok ()) :
    (t.fit n).1.filters.length = n ∧ (t.fit n).1.gold.length = n := by
  unfold fit at h ⊢
  generalize (if t.filters.isEmpty then List.replicate n none else t.filters) = filters at h ⊢
  generalize (if t.gold.isEmpty then List.replicate n none else t.gold) = gold at h ⊢
  by_cases hf : filters.length = n <;> by_cases hg : gold.length = n <;> simp_all

omit [Scalar σ] in
theorem length_memos {n : Nat} (h : (t.fit n).2 = .ok ()) : (t.memos n).length = n := by
  obtain ⟨hfilters, hgold⟩ := length_of_fit h
  rw [memos, List.length_zipWith, hfilters, hgold, min_self]

omit [Scalar σ] in
theorem model_fit (t : Trainer μ) (n : Nat) : (t.fit n).1.model = t.model := by
  unfold fit
  dsimp only
  split_ifs <;> rfl

theorem runEpoch_of_misfit {e : TrainError} (h : (t.fit data.length).2 = .error e) (s : Setup μ σ)
    (epoch : Nat) : t.runEpoch s epoch data = ((t.fit data.length).1, .error e) := by
  unfold runEpoch
  generalize t.fit data.length = x at h
  obtain ⟨t', result⟩ := x
  cases h
  rfl

/-- An epoch keeps the model and the memos that going through the examples leaves, and counts what
happened to them. -/
theorem runEpoch_of_fit (h : (t.fit data.length).2 = .ok ()) (s : Setup μ σ) (epoch : Nat) :
    t.runEpoch s epoch data =
      (⟨(runExamples s 0 data (t.memos data.length) t.model []).1,
        (runExamples s 0 data (t.memos data.length) t.model []).2.1.map Memo.oracle,
        (runExamples s 0 data (t.memos data.length) t.model []).2.1.map Memo.gold⟩,
      (runExamples s 0 data (t.memos data.length) t.model []).2.2.map fun outcomes =>
        outcomes.foldl Stats.record { epoch }) := by
  have hmodel := t.model_fit data.length
  unfold memos runEpoch
  generalize t.fit data.length = x at h hmodel
  obtain ⟨t', result⟩ := x
  cases h
  dsimp only at hmodel ⊢
  rw [← hmodel]

/-- The epoch that takes the examples in turn is possible under both disciplines. -/
theorem epoch_runEpoch (s : Setup μ σ) (epoch : Nat) (data : Dataset) (t : Trainer μ) :
    Epoch s epoch data t (t.runEpoch s epoch data).1 (t.runEpoch s epoch data).2 := by
  cases hfit : (t.fit data.length).2 with
  | error e =>
    rw [runEpoch_of_misfit hfit]
    exact .misfit hfit
  | ok u =>
    rw [runEpoch_of_fit hfit]
    exact .pass hfit (pass_runExamples s (length_memos hfit) t.model)

/-- Epochs that take the examples in turn are possible under both disciplines. -/
theorem runs_runEpochs (s : Setup μ σ) (data : Dataset) (n epoch : Nat) (t : Trainer μ) :
    Runs s data n epoch t (runEpochs s data n epoch t).1 (runEpochs s data n epoch t).2 := by
  induction n generalizing epoch t with
  | zero => exact .done
  | succ n ih =>
    have hepoch := epoch_runEpoch s epoch data t
    rw [runEpochs]
    generalize t.runEpoch s epoch data = x at hepoch
    obtain ⟨t', result⟩ := x
    cases result with
    | error e => exact .failed hepoch
    | ok stats => exact .passed hepoch (ih (epoch + 1) t')

end Trainer

end Categorial.Training
