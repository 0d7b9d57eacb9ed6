import Categorial.Proofs.Oracle.Constrained
import Categorial.Proofs.Training.Golds
import Categorial.Proofs.Training.Passes

/-!
# Training does not fail

A trainer that starts with nothing kept goes through any number of epochs of one dataset without
failure: what it keeps about an example stays sound, and sound gold sequences are followed fairly.
None of this depends on the scores, so they may be different ones at every stage of an example and
change in the middle of a search. This covers both disciplines.

* `Training.exists_learnAll`, `Training.exists_trainExample`: one example.
* `Training.exists_of_interleaved`: one pass.
* `Training.Trainer.Fits`: what a trainer keeps between epochs.
* **`Training.Trainer.runs_succeed`**: any number of epochs.
-/

namespace Categorial

namespace Training

variable {μ σ ω : Type} {s : Setup μ σ}

theorem Followable.fair {sentence : List String} {g : Gold} (h : Followable s sentence g)
    (v : Scoring) : Beam.Fair (Beam.findViolation (s.taskOf v sentence) g.window s.options.beamWidth
      g.actions g.complete) :=
  Beam.fair_findViolation (s.taskOf v sentence) _ h.start_le h.stop_le (h.admits v)

variable [Scalar σ]

/-! ## Examples -/

/-- Learning from gold sequences that can be followed does not fail. -/
theorem exists_learnAll (A : Access ω σ) (index : Nat) {sentence : List String} (i : Nat)
    {golds : List Gold} (h : ∀ g ∈ golds, Followable s sentence g) (w : ω) (p : Progress) :
    ∃ p', (learnAll s A index sentence i golds w p).2 = .ok p' := by
  induction golds generalizing i w p with
  | nil => exact ⟨p, rfl⟩
  | cons g golds ih =>
    have ih := fun i => ih i fun g hg => h g (List.mem_cons_of_mem _ hg)
    obtain ⟨v, hv, hfair⟩ := (h g List.mem_cons_self).fair (A.scoring w (.gold i))
    rw [learnAll, hv]
    cases v with
    | none => exact ih _ w p
    | some v =>
      have hlen : ¬ (v.pruned && v.gold.length != v.predicted.length) = true := by
        rw [Bool.and_eq_true, bne_iff_ne]
        exact fun hp => hp.2 (hfair v rfl hp.1)
      dsimp only
      rw [if_neg hlen]
      exact ih _ _ _

/-- Training on an example about which only sound things are kept, in whatever way the model is
reached. -/
theorem exists_trainExample (A : Access ω σ) (index : Nat) (w : ω) {e : Example} {memo : Memo}
    (h : memo.Sound s e) : ∃ o, (trainExample s A index w e memo).outcome = .ok o := by
  obtain ⟨hgolds, -⟩ := sound_goldOf (A.scoring w) h
  unfold trainExample
  dsimp only
  split_ifs
  · exact ⟨_, rfl⟩
  · exact ⟨_, rfl⟩
  · exact ⟨_, rfl⟩
  · obtain ⟨p, hp⟩ := exists_learnAll A index 0 hgolds w {}
    rw [hp]
    exact ⟨p.outcome, rfl⟩

/-! ## One gold sequence -/

section OneGold

variable {A : Access ω σ} {w : ω} {e : Example} {memo : Memo} {g : Gold}

theorem trainExample_of_wrong (index : Nat) (hlong : e.tokens.length ≤ s.options.maxSentenceLength)
    (hgold : (goldOf s (A.scoring w) e memo).1 = [g])
    (hwrong : alreadyCorrect s (A.scoring w .unrestricted) e = false) :
    trainExample s A index w e memo = ⟨(learnAll s A index e.tokens 0 [g] w {}).1,
      (goldOf s (A.scoring w) e memo).2,
      (learnAll s A index e.tokens 0 [g] w {}).2.map Progress.outcome⟩ := by
  have hsome : ¬ [g].isEmpty = true := Bool.false_ne_true
  have hwrong' : ¬ alreadyCorrect s (A.scoring w .unrestricted) e = true := by
    rw [hwrong]
    exact Bool.false_ne_true
  unfold trainExample
  dsimp only
  rw [if_neg (Nat.not_lt.mpr hlong), hgold, if_neg hsome, if_neg hwrong']

theorem trainExample_of_noViolation (index : Nat)
    (hlong : e.tokens.length ≤ s.options.maxSentenceLength)
    (hgold : (goldOf s (A.scoring w) e memo).1 = [g])
    (hwrong : alreadyCorrect s (A.scoring w .unrestricted) e = false)
    (hnone : Beam.findViolation (s.taskOf (A.scoring w (.gold 0)) e.tokens) g.window
      s.options.beamWidth g.actions g.complete = .ok none) :
    trainExample s A index w e memo = ⟨w, (goldOf s (A.scoring w) e memo).2, .ok .noViolation⟩ := by
  rw [trainExample_of_wrong index hlong hgold hwrong, learnAll, hnone]
  rfl

theorem trainExample_of_violation (index : Nat)
    (hlong : e.tokens.length ≤ s.options.maxSentenceLength)
    (hgold : (goldOf s (A.scoring w) e memo).1 = [g])
    (hwrong : alreadyCorrect s (A.scoring w .unrestricted) e = false) {v : Violation}
    (hsome : Beam.findViolation (s.taskOf (A.scoring w (.gold 0)) e.tokens) g.window
      s.options.beamWidth g.actions g.complete = .ok (some v)) (hpruned : v.pruned = false) :
    ∃ ratio, trainExample s A index w e memo = ⟨learn s A w 0 v,
      (goldOf s (A.scoring w) e memo).2, .ok (.updated 1 0 ratio)⟩ := by
  have hfair : ¬ (v.pruned && v.gold.length != v.predicted.length) = true := by simp [hpruned]
  refine ⟨(0.0 : Float) + Float.ofNat v.failAt / Float.ofNat (max g.actions.length 1), ?_⟩
  rw [trainExample_of_wrong index hlong hgold hwrong, learnAll, hsome]
  dsimp only
  rw [if_neg hfair, hpruned]
  rfl

end OneGold

/-! ## Passes -/

/-- Visits of examples about which only sound things are kept. -/
theorem Visits.succeed {index : Nat} {data : List Example} {memos : List Memo}
    {visits : List (Visit σ)} (hv : Visits s index data memos visits)
    (h : List.Forall₂ (fun e memo => memo.Sound s e) data memos) (err : TrainError) :
    some (.error err) ∉ visits.map Visit.outcome := by
  induction hv with
  | nil => exact List.not_mem_nil
  | @cons index e data memo memos visits sights _ ih =>
    obtain ⟨he, hdata⟩ := List.forall₂_cons.mp h
    cases sights with
    | none => simpa [visit] using ih hdata
    | some v =>
      obtain ⟨o, ho⟩ := exists_trainExample (s.shared e.tokens v) index [] he
      simpa [visit, ho] using ih hdata

/-- A pass over examples about which only sound things are kept. -/
theorem exists_of_interleaved {data : List Example} {memos memos' : List Memo} {m m' : μ}
    {result : Except TrainError (List Outcome)} (hp : Interleaved s data memos m m' memos' result)
    (h : List.Forall₂ (fun e memo => memo.Sound s e) data memos) :
    (∃ os, result = .ok os) ∧ List.Forall₂ (fun e memo => memo.Sound s e) data memos' := by
  obtain ⟨visits, hvisits, rfl, -, hresult⟩ := hp
  have hlook (look : Stage → Scoring) (e : Example) (memo : Memo) (hmemo : memo.Sound s e) :
      (goldOf s look e memo).2.Sound s e := (sound_goldOf look hmemo).2
  refine ⟨?_, hvisits.forall₂ hlook h⟩
  cases result with
  | error e => exact absurd hresult (hvisits.succeed h e)
  | ok os => exact ⟨os, rfl⟩

/-! ## Epochs -/

namespace Trainer

/-- Nothing is kept, or something sound about every example. -/
structure Fits (s : Setup μ σ) (data : Dataset) (t : Trainer μ) : Prop where
  filters : t.filters = [] ∨ t.filters.length = data.length
  gold : t.gold = [] ∨ t.gold.length = data.length
  sound : List.Forall₂ (fun e memo => memo.Sound s e) data (t.memos data.length)

omit [Scalar σ] in
theorem sound_none (s : Setup μ σ) (e : Example) : Memo.Sound s e ⟨none, none⟩ :=
  ⟨by simp, by simp⟩

omit [Scalar σ] in
theorem memos_empty (m : μ) (n : Nat) :
    ({ model := m } : Trainer μ).memos n = List.replicate n ⟨none, none⟩ := by
  unfold memos fit
  simp

theorem forall₂_memos_empty {P : Example → Memo → Prop} (h : ∀ e, P e ⟨none, none⟩)
    (data : Dataset) (m : μ) :
    List.Forall₂ P data (({ model := m } : Trainer μ).memos data.length) := by
  rw [memos_empty]
  induction data with
  | nil => exact .nil
  | cons e data ih => exact .cons (h e) ih

omit [Scalar σ] in
theorem fits_empty (s : Setup μ σ) (data : Dataset) (m : μ) : Fits s data { model := m } :=
  ⟨Or.inl rfl, Or.inl rfl, forall₂_memos_empty (sound_none s) data m⟩

omit [Scalar σ] in
theorem fit_ok {data : Dataset} {t : Trainer μ} (h : Fits s data t) :
    (t.fit data.length).2 = .ok () := by
  have hf : (if t.filters.isEmpty then List.replicate data.length none
      else t.filters).length = data.length := by
    rcases h.filters with he | he
    · simp [he]
    · split_ifs <;> simp [he]
  have hg : (if t.gold.isEmpty then List.replicate data.length none
      else t.gold).length = data.length := by
    rcases h.gold with he | he
    · simp [he]
    · split_ifs <;> simp [he]
  unfold fit
  dsimp only
  rw [if_neg (not_not_intro hf), if_neg (not_not_intro hg)]

/-- The memos of a trainer that keeps one for every example. -/
theorem memos_of_length {m : μ} {ms : List Memo} {n : Nat} (h : ms.length = n) :
    (⟨m, ms.map Memo.oracle, ms.map Memo.gold⟩ : Trainer μ).memos n = ms := by
  have hzip : (ms.map Memo.oracle).zipWith Memo.mk (ms.map Memo.gold) = ms := by
    rw [List.zipWith_map, List.zipWith_self]
    simp
  cases ms with
  | nil =>
    subst h
    rfl
  | cons x ms =>
    unfold memos fit
    simp only [List.map_cons, List.isEmpty_cons, Bool.false_eq_true, if_false] at hzip ⊢
    split_ifs <;> exact hzip

/-- What is kept fits, so an epoch is a pass, and under both disciplines it goes as one at the same
time may go. -/
theorem Epoch.exists_interleaved {data : Dataset} {t t' : Trainer μ} {epoch : Nat}
    {result : Except TrainError Stats} (he : Epoch s epoch data t t' result) (h : Fits s data t) :
    ∃ m memos outcomes, Interleaved s data (t.memos data.length) t.model m memos outcomes ∧
      t' = ⟨m, memos.map Memo.oracle, memos.map Memo.gold⟩ ∧
      result = outcomes.map fun os => os.foldl Stats.record { epoch } := by
  have hfit := fit_ok h
  cases he with
  | misfit hmisfit =>
    rw [hfit] at hmisfit
    cases hmisfit
  | pass _ hpass => exact ⟨_, _, _, hpass.interleaved (length_memos hfit), rfl, rfl⟩

/-- One epoch, under either discipline. -/
theorem Epoch.succeeds {data : Dataset} {t t' : Trainer μ} {epoch : Nat}
    {result : Except TrainError Stats} (he : Epoch s epoch data t t' result) (h : Fits s data t) :
    (∃ stats, result = .ok stats) ∧ Fits s data t' := by
  obtain ⟨m, memos, outcomes, hpass, rfl, rfl⟩ := he.exists_interleaved h
  obtain ⟨⟨os, rfl⟩, hmemos⟩ := exists_of_interleaved hpass h.sound
  have hlen := hmemos.length_eq.symm
  refine ⟨⟨_, rfl⟩, Or.inr (by simpa using hlen), Or.inr (by simpa using hlen), ?_⟩
  rw [memos_of_length hlen]
  exact hmemos

/-- Any number of epochs, under either discipline. -/
theorem Runs.succeed {data : Dataset} {n epoch : Nat} {t t' : Trainer μ}
    {result : Except TrainError (List Stats)} (hr : Runs s data n epoch t t' result)
    (h : Fits s data t) : (∃ stats, result = .ok stats) ∧ Fits s data t' := by
  induction hr with
  | done => exact ⟨⟨[], rfl⟩, h⟩
  | failed he =>
    obtain ⟨⟨_, hok⟩, -⟩ := he.succeeds h
    cases hok
  | passed he _ ih =>
    obtain ⟨⟨later, rfl⟩, hfits⟩ := ih (he.succeeds h).2
    exact ⟨⟨_, rfl⟩, hfits⟩

/-- **Training from scratch does not fail**, under either discipline and for any number of epochs:
some course of training is possible, and every possible one succeeds, whatever the workers see of a
model that others update in the middle of a search. Afterwards the gold sequences of an example,
found or kept, lie in their windows, are legal there and complete if they are said to be, and the
comparison with what is preferred is a fair one, for all scores in each of the searches. -/
theorem runs_succeed (s : Setup μ σ) (data : Dataset) (m : μ) (n epoch : Nat) :
    Runs s data n epoch { model := m } (runEpochs s data n epoch { model := m }).1
      (runEpochs s data n epoch { model := m }).2 ∧
    ∀ t result, Runs s data n epoch { model := m } t result →
      (∃ stats, result = .ok stats) ∧
      List.Forall₂ (fun e memo => ∀ (look : Stage → Scoring) (v : Scoring),
        ∀ g ∈ (goldOf s look e memo).1,
          (∀ a ∈ g.actions, g.window.contains a.span = true) ∧
          (Window.ofTask (s.taskOf v e.tokens) g.window).Admits g.actions g.complete ∧
          Beam.Fair (Beam.findViolation (s.taskOf v e.tokens) g.window s.options.beamWidth g.actions
            g.complete))
        data (t.memos data.length) := by
  refine ⟨runs_runEpochs s data n epoch _, fun t result hruns => ?_⟩
  obtain ⟨hok, hfits⟩ := hruns.succeed (fits_empty s data m)
  refine ⟨hok, hfits.sound.imp fun e memo hmemo look v g hg => ?_⟩
  have hfollow := (sound_goldOf look hmemo).1 g hg
  obtain ⟨st, hlegal, -⟩ := hfollow.admits v
  refine ⟨fun a ha => ?_, hfollow.admits v, hfollow.fair v⟩
  exact hlegal.inside.2.2 a (List.mem_reverse.mpr ha)

end Trainer

/-! ## An example -/

end Training

/-- Whole numbers, with quotients and square roots rounded down. -/
instance Scalar.int : Scalar ℤ where
  one := 1
  emptySum := 0
  mul a b := a * b
  div a b := a / b
  neg a := -a
  sqrt a := Int.sqrt a
  isZero a := a == 0

namespace Training

/-- The word `dogs` looked up as a noun. -/
def dogsNoun : Action :=
  .lookup ⟨0, 1⟩ ⟨["dogs"], ⟨.atom "N", some (.const "dog" (.arrow .entity .truth))⟩, .fixed⟩

/-- The word `dogs` looked up as a noun phrase. -/
def dogsPhrase : Action :=
  .lookup ⟨0, 1⟩ ⟨["dogs"], ⟨.atom "NP", some Oracle.theDogs⟩, .fixed⟩

/-- Training on the word `dogs`, a noun or a noun phrase, with a model that has one weight, that of
noun phrases. -/
def oneWeight (d : Discipline) : Setup ℤ ℤ where
  grammar := {}
  lexicon := .ofList (dogsNoun.entry.toList ++ dogsPhrase.entry.toList)
  model := {
    features := fun _ _ _ a => if a.category.syn = .atom "NP" then Features.add {} "NP" 1 else {}
    score := fun m _ _ a => if a.category.syn = .atom "NP" then m else 0
    update := fun m delta step => m + step * Features.get delta "NP" }
  options := {
    discipline := d
    beamWidth := 4, limit := none, maxSentenceLength := 8, packing := .packed, epochs := 1
    learningRate := 1, maxUpdateNorm := 1
    earlyUpdate := false, discontiguous := false, useStoredGold := true }

/-- Training on the word `dogs` with a model that prefers noun phrases and never changes. -/
def dogsSetup : Setup Unit ℤ where
  grammar := Oracle.dogs.grammar
  lexicon := Oracle.dogs.lexicon
  model := {
    features := fun _ _ _ _ => {}
    score := fun _ _ _ a => if a.category.syn = .atom "NP" then 1 else 0
    update := fun m _ _ => m }
  options := {
    beamWidth := 4, limit := none, maxSentenceLength := 8, packing := .packed, epochs := 1
    learningRate := 1, maxUpdateNorm := 1
    earlyUpdate := false, discontiguous := false, useStoredGold := true }

/-- In another one it means the dogs. -/
def phraseExample : Example := ⟨["dogs"], Oracle.theDogs⟩

/-- The second example alone. -/
def dogsData : Dataset := [phraseExample]

/-- The only gold sequence of the second example looks the word up as a noun phrase. -/
theorem goldOf_phrase (d : Discipline) {memo : Memo}
    (h : memo = ⟨none, none⟩ ∨ memo.gold = some [dogsPhrase]) :
    (goldOf (oneWeight d) (fun _ => (oneWeight d).scoring 0 ["dogs"]) phraseExample memo).1 =
        [⟨⟨0, 1⟩, [dogsPhrase], true⟩] ∧
      (goldOf (oneWeight d) (fun _ => (oneWeight d).scoring 0 ["dogs"]) phraseExample memo).2.gold =
        some [dogsPhrase] := by
  rcases h with rfl | h
  · constructor
    · cbv
    · cbv
  · rw [goldOf_of_stored _ rfl h]
    exact ⟨rfl, h⟩

/-- Without a preference the noun comes first, and the weight goes up by one. -/
theorem trainExample_phrase (d : Discipline) (index : Nat) {memo : Memo}
    (h : memo = ⟨none, none⟩ ∨ memo.gold = some [dogsPhrase]) : ∃ memo' ratio,
    trainExample (oneWeight d) ((oneWeight d).access ["dogs"]) index 0 phraseExample memo =
      ⟨1, memo', .ok (.updated 1 0 ratio)⟩ ∧ memo'.gold = some [dogsPhrase] := by
  have hwrong : alreadyCorrect (oneWeight d) ((oneWeight d).scoring 0 ["dogs"]) phraseExample =
      false := by
    cbv
  have hsome : Beam.findViolation ((oneWeight d).task 0 ["dogs"]) ⟨0, 1⟩ 4 [dogsPhrase] true =
      .ok (some ⟨1, false, [dogsPhrase], [dogsNoun]⟩) := by
    cbv
  have hlearn : learn (oneWeight d) ((oneWeight d).access ["dogs"]) 0 0
      ⟨1, false, [dogsPhrase], [dogsNoun]⟩ = 1 := by
    cbv
  obtain ⟨hgold, hkept⟩ := goldOf_phrase d h
  obtain ⟨ratio, hresult⟩ := trainExample_of_violation (s := oneWeight d)
    (A := (oneWeight d).access ["dogs"]) (e := phraseExample) index (show 1 ≤ 8 by decide) hgold
    hwrong hsome rfl
  rw [hlearn] at hresult
  exact ⟨_, ratio, hresult, hkept⟩

/-- A worker sees the weight go up in the middle of the search beside the gold. -/
def lateSight : Sights ℤ ℤ := fun _ stage =>
  match stage with
  | .gold _ => .changing fun _ a => if a.category.syn = .atom "NP" then 1 else 0
  | _ => .steady 0

/-- The noun came first in the unrestricted search, but beside the gold it does not any more. -/
theorem visit_lateSight (d : Discipline) (index : Nat) : ∃ memo,
    visit (oneWeight d) (some lateSight) index phraseExample ⟨none, none⟩ =
      ⟨[], memo, some (.ok .noViolation)⟩ ∧ memo.gold = some [dogsPhrase] := by
  have hgold : (goldOf (oneWeight d) (((oneWeight d).shared ["dogs"] lateSight).scoring [])
      phraseExample ⟨none, none⟩).1 = [⟨⟨0, 1⟩, [dogsPhrase], true⟩] := by
    cbv
  have hkept : (goldOf (oneWeight d) (((oneWeight d).shared ["dogs"] lateSight).scoring [])
      phraseExample ⟨none, none⟩).2.gold = some [dogsPhrase] := by
    cbv
  have hwrong : alreadyCorrect (oneWeight d)
      (((oneWeight d).shared ["dogs"] lateSight).scoring [] .unrestricted) phraseExample =
        false := by
    cbv
  have hnone : Beam.findViolation ((oneWeight d).taskOf
      (((oneWeight d).shared ["dogs"] lateSight).scoring [] (.gold 0)) ["dogs"]) ⟨0, 1⟩ 4
      [dogsPhrase] true = .ok none := by
    cbv
  have h := trainExample_of_noViolation (s := oneWeight d)
    (A := (oneWeight d).shared ["dogs"] lateSight) (e := phraseExample) index
    (show 1 ≤ 8 by decide) hgold hwrong hnone
  refine ⟨_, ?_, hkept⟩
  rw [visit, show phraseExample.tokens = ["dogs"] from rfl, h]

namespace Trainer

/-- Two workers train on `dogs` at the same time. One of them learns; the other one sees this in the
middle of a search, where the gold wins after all. No order of the two examples gives this epoch. -/
theorem runs_dogs (epoch : Nat) : ∃ (stats : Stats) (memo memo' : Memo),
    Runs (oneWeight .lockFree) [phraseExample, phraseExample] 1 epoch { model := 0 }
      ⟨1, [memo.oracle, memo'.oracle], [memo.gold, memo'.gold]⟩ (.ok [stats]) ∧
    memo.gold = some [dogsPhrase] ∧ memo'.gold = some [dogsPhrase] ∧
    stats.updates = 1 ∧ stats.noViolation = 1 := by
  obtain ⟨memo, ratio, hfirst, hgold⟩ := trainExample_phrase .lockFree 0 (.inl rfl)
  obtain ⟨written, hvisit, hmodel⟩ :=
    visit_ofModel (oneWeight .lockFree) 0 0 phraseExample ⟨none, none⟩
  obtain ⟨memo', hsecond, hgold'⟩ := visit_lateSight .lockFree 1
  rw [show phraseExample.tokens = ["dogs"] from rfl, hfirst] at hvisit hmodel
  dsimp only at hvisit hmodel
  have hvisits : Visits (oneWeight .lockFree) 0 [phraseExample, phraseExample]
      [⟨none, none⟩, ⟨none, none⟩]
      [⟨written, memo, some (.ok (.updated 1 0 ratio))⟩,
        ⟨[], memo', some (.ok .noViolation)⟩] := by
    rw [← hvisit, ← hsecond]
    exact .cons _ (.cons _ .nil)
  have hpass : Interleaved (oneWeight .lockFree) [phraseExample, phraseExample]
      [⟨none, none⟩, ⟨none, none⟩] 0 1 [memo, memo']
      (.ok [.updated 1 0 ratio, .noViolation]) := by
    refine ⟨_, hvisits, rfl, ?_, rfl⟩
    rw [hmodel]
    simpa using written_foldl (oneWeight .lockFree).model 0 written
  have hepoch : Epoch (oneWeight .lockFree) epoch [phraseExample, phraseExample] { model := 0 }
      _ _ := .pass rfl hpass
  exact ⟨_, memo, memo', .passed hepoch .done, hgold, hgold', rfl, rfl⟩

/-- After this epoch the kept gold sequence is compared fairly, whatever the scores are. -/
theorem runs_succeed_dogs : ∃ t stats,
    Runs (oneWeight .lockFree) [phraseExample, phraseExample] 1 1 { model := 0 } t (.ok [stats]) ∧
    stats.updates = 1 ∧ stats.noViolation = 1 ∧ ∀ v : Scoring, Beam.Fair
      (Beam.findViolation ((oneWeight .lockFree).taskOf v ["dogs"]) ⟨0, 1⟩ 4 [dogsPhrase]
        true) := by
  obtain ⟨stats, memo, memo', hruns, hgold, -, hupdates, hnone⟩ := runs_dogs 1
  refine ⟨_, stats, hruns, hupdates, hnone, fun v => ?_⟩
  have hmemos := ((runs_succeed (oneWeight .lockFree) [phraseExample, phraseExample] 0 1 1).2 _ _
    hruns).2
  have hkept : (⟨1, [memo.oracle, memo'.oracle], [memo.gold, memo'.gold]⟩ : Trainer ℤ).memos 2 =
      [memo, memo'] := rfl
  rw [show [phraseExample, phraseExample].length = 2 from rfl, hkept] at hmemos
  have hlook :=
    goldOf_of_stored (s := oneWeight .lockFree) (fun _ => v) (e := phraseExample) rfl hgold
  have hg := (List.forall₂_cons.mp hmemos).1 (fun _ => v) v
  rw [hlook] at hg
  exact (hg _ (List.mem_singleton_self _)).2.2

end Trainer

end Training

end Categorial
