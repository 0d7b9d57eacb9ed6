import Categorial.Proofs.Beam.Stacks
import Categorial.Proofs.Oracle.Constrained
import Categorial.Proofs.Training.Epochs

/-!
# Kept gold sequences

A gold sequence is kept only if it was found under an exact filter and means the target of that
filter. The filter was built for the example and still asks for the same target, whatever searches
it has been shown in the meantime. So a kept sequence is a derivation of the example, and every
later epoch may use it without another look. None of this depends on scores, or on what else is
trained on at the same time: nobody but its own worker looks at what is kept about an example.

* `Training.DerivesTarget`: the actions are a derivation of an example.
* `Oracle.Aims`, `Oracle.aims_build`: the filter of an exact oracle asks for the target.
* `Training.goldToKeep_cases`, `Training.goldOf_cases`: what is kept about an example.
* `Training.Memo.Truthful`, **`Training.truthful_goldOf`**: kept sequences are derivations.
* `Training.Trainer.Runs.forall₂`: what holds of nothing kept and is kept by every look at an
  example holds after any number of epochs, under either discipline.
* **`Training.Trainer.kept_golds_derive`**: kept sequences after any number of epochs.
-/

namespace Categorial

theorem GoldFilter.isMet_iff {f : GoldFilter} {g : Grammar} {c : Category} :
    f.isMet g c = true ↔ Oracle.meaning? g c = some f.target := by
  unfold isMet Oracle.meaning?
  cases c.sem <;> simp

theorem Span.tokens_whole (w : List String) : Span.tokens ⟨0, w.length⟩ w = w := by
  simp [Span.tokens]

/-! ## The target of an oracle -/

namespace Oracle

/-- An exact filter asks for the target over a sentence of `n` tokens. -/
def Aims (n : Nat) (target : Term) : Oracle → Prop
  | exact f => f.window = ⟨0, n⟩ ∧ f.target = target
  | _ => True

theorem aims_build {σ : Type} [Score σ] (t : Task σ) (o : Options) (target : Term) :
    (build t o target).Aims t.sentence.length (t.grammar.underspecify target.normalize) := by
  have hsound := sound_build t o target
  rcases build_cases t o target with ⟨f, he, h⟩ | ⟨fs, he, -⟩ | he | he <;> rw [he] at hsound ⊢
  · obtain ⟨g, -, rfl⟩ := Option.map_eq_some_iff.mp h
    exact ⟨hsound, rfl⟩
  · trivial
  · trivial
  · trivial

end Oracle

namespace Training

variable {μ σ ω : Type} {s : Setup μ σ} {e : Example} {memo : Memo}

/-! ## Derivations of an example -/

/-- The actions replay to one derivation of the whole sentence: it has the words of the sentence and
a root category, and means the target, details apart. -/
def DerivesTarget (g : Grammar) (e : Example) (actions : List Action) : Prop :=
  ∃ d, Derivation.replay e.tokens g.rules actions = some d ∧ d.span = ⟨0, e.tokens.length⟩ ∧
    d.words = e.tokens ∧ g.isRoot d.category.syn = true ∧
    d.category.sem.map g.underspecify = some (g.underspecify e.target.normalize)

/-- A complete gold sequence under a filter that asks for the target derives it. -/
theorem derivesTarget_constrained {f : GoldFilter} {v : Scoring} {g : Gold}
    (hwindow : f.window = ⟨0, e.tokens.length⟩)
    (htarget : f.target = s.grammar.underspecify e.target.normalize)
    (hg : (constrained s v e.tokens f).1 = some g) (hcomplete : g.complete = true) :
    DerivesTarget s.grammar e g.actions := by
  have hinside : f.Inside (s.taskOf v e.tokens).sentence.length := by
    rw [GoldFilter.Inside, hwindow]
    exact ⟨Nat.zero_le _, le_rfl⟩
  rcases constrained_cases hg with ⟨r, hr, hmet, rfl⟩ | ⟨b, hb, st, hst, rfl⟩
  · have hbest := (Beam.read_readings _).best r hr
    obtain ⟨hmem, hcat⟩ := List.mem_filter.mp (List.mem_of_mem_head? (Option.mem_def.mpr hbest))
    obtain ⟨d, hd, hdc, htree⟩ := GoldFilter.parses_of_mem_completed hinside hmem
    have hspan : d.span = ⟨0, e.tokens.length⟩ := hd.span.trans hwindow
    have hc : d.category = r.category :=
      Option.some_inj.mp (hdc.symm.trans (of_decide_eq_true hcat))
    refine ⟨d, htree, hspan, ?_, hd.root hwindow, ?_⟩
    · rw [hd.licensed.words_eq, hspan]
      exact Span.tokens_whole e.tokens
    · rw [hc, ← htarget]
      exact GoldFilter.isMet_iff.mp hmet
  · cases hcomplete

/-! ## What is kept about an example -/

/-- Only the complete gold sequence of an exact oracle is new among what is kept. -/
theorem goldToKeep_cases (o : Oracle) (golds : List Gold) (kept : Option (List Action)) :
    goldToKeep o golds kept = kept ∨
      ∃ f, o = .exact f ∧ ∃ g ∈ golds, g.complete = true ∧
        goldToKeep o golds kept = some g.actions := by
  unfold goldToKeep
  split
  · next f g rest =>
    split_ifs with hg
    · exact Or.inr ⟨f, rfl, g, List.mem_cons_self, hg, rfl⟩
    · exact Or.inl rfl
  · exact Or.inl rfl

/-- A look at an example leaves what is kept as it is, or asks the kept oracle or a new one. -/
theorem goldOf_cases (s : Setup μ σ) (look : Stage → Scoring) (e : Example) (memo : Memo) :
    (∃ actions, memo.gold = some actions ∧
      goldOf s look e memo = ([⟨⟨0, e.tokens.length⟩, actions, true⟩], memo)) ∨
    ∃ o, (memo.oracle = some o ∨ memo.oracle = none ∧
        o = Oracle.build (s.taskOf (look .oracle) e.tokens) s.oracleOptions e.target) ∧
      goldOf s look e memo = ((goldOfOracle s look e.tokens o).1,
        ⟨some (goldOfOracle s look e.tokens o).2, goldToKeep (goldOfOracle s look e.tokens o).2
          (goldOfOracle s look e.tokens o).1 memo.gold⟩) := by
  unfold goldOf
  split
  · next actions hstored =>
    split_ifs at hstored
    exact Or.inl ⟨actions, hstored, rfl⟩
  · cases hmemo : memo.oracle with
    | some o => exact Or.inr ⟨o, Or.inl rfl, rfl⟩
    | none => exact Or.inr ⟨_, Or.inr ⟨rfl, rfl⟩, rfl⟩

/-- What an oracle aims at does not change when it is asked, and its complete gold sequences derive
the target. -/
theorem aims_goldOfOracle (look : Stage → Scoring) {o : Oracle}
    (h : o.Aims e.tokens.length (s.grammar.underspecify e.target.normalize)) :
    (goldOfOracle s look e.tokens o).2.Aims e.tokens.length
        (s.grammar.underspecify e.target.normalize) ∧
      ∀ f, (goldOfOracle s look e.tokens o).2 = .exact f →
        ∀ g ∈ (goldOfOracle s look e.tokens o).1, g.complete = true →
          DerivesTarget s.grammar e g.actions := by
  cases o with
  | exact f =>
    refine ⟨⟨?_, ?_⟩, fun _ _ g hg hcomplete => ?_⟩
    · exact (window_constrained s _ e.tokens f).trans h.1
    · exact (target_constrained s _ e.tokens f).trans h.2
    · exact derivesTarget_constrained h.1 h.2 (Option.mem_toList.mp hg) hcomplete
  | earlyUpdate f => exact ⟨trivial, fun _ he => by cases he⟩
  | discontiguous fs => exact ⟨trivial, fun _ he => by cases he⟩
  | unreachable => exact ⟨trivial, fun _ he => by cases he⟩

/-- A kept oracle that is exact asks for the target, and a kept gold sequence derives it. -/
structure Memo.Truthful (s : Setup μ σ) (e : Example) (memo : Memo) : Prop where
  oracle : ∀ o, memo.oracle = some o →
    o.Aims e.tokens.length (s.grammar.underspecify e.target.normalize)
  gold : ∀ actions, memo.gold = some actions → DerivesTarget s.grammar e actions

theorem truthful_none (s : Setup μ σ) (e : Example) : Memo.Truthful s e ⟨none, none⟩ :=
  ⟨by simp, by simp⟩

/-- **What is kept about an example stays truthful**, whatever the scores are in each search. -/
theorem truthful_goldOf (look : Stage → Scoring) (h : memo.Truthful s e) :
    (goldOf s look e memo).2.Truthful s e := by
  rcases goldOf_cases s look e memo with ⟨actions, -, he⟩ | ⟨o, ho, he⟩ <;> rw [he]
  · exact h
  · have haims : o.Aims e.tokens.length (s.grammar.underspecify e.target.normalize) := by
      rcases ho with ho | ⟨-, rfl⟩
      · exact h.oracle o ho
      · exact Oracle.aims_build _ _ _
    obtain ⟨haims, hgolds⟩ := aims_goldOfOracle look haims
    refine ⟨fun o' ho' => Option.some_inj.mp ho' ▸ haims, fun actions hactions => ?_⟩
    rcases goldToKeep_cases (goldOfOracle s look e.tokens o).2 (goldOfOracle s look e.tokens o).1
      memo.gold with hkept | ⟨f, hf, g, hg, hcomplete, hkept⟩
    · exact h.gold actions (hkept.symm.trans hactions)
    · obtain rfl := Option.some_inj.mp (hkept.symm.trans hactions)
      exact hgolds f hf g hg hcomplete

/-! ## What is kept during training -/

variable [Scalar σ]

section Runs

variable {P : Example → Memo → Prop}
  (hlook : ∀ look e memo, P e memo → P e (goldOf s look e memo).2)

include hlook

theorem Trainer.Epoch.forall₂ {data : Dataset} {t t' : Trainer μ} {epoch : Nat}
    {result : Except TrainError Stats} (he : Epoch s epoch data t t' result) (ht : t.Fits s data)
    (h : List.Forall₂ P data (t.memos data.length)) :
    List.Forall₂ P data (t'.memos data.length) := by
  obtain ⟨m, memos, outcomes, ⟨visits, hvisits, rfl, -⟩, rfl, -⟩ := he.exists_interleaved ht
  have hmemos := hvisits.forall₂ hlook h
  rw [memos_of_length hmemos.length_eq.symm]
  exact hmemos

/-- What holds of every example and nothing kept about it, and is kept by every look at an example,
holds after any number of epochs. -/
theorem Trainer.Runs.forall₂ {data : Dataset} {n epoch : Nat} {t t' : Trainer μ}
    {result : Except TrainError (List Stats)} (hr : Runs s data n epoch t t' result)
    (ht : t.Fits s data) (h : List.Forall₂ P data (t.memos data.length)) :
    List.Forall₂ P data (t'.memos data.length) := by
  induction hr with
  | done => exact h
  | failed he => exact he.forall₂ hlook ht h
  | passed he _ ih => exact ih (he.succeeds ht).2 (he.forall₂ hlook ht h)

end Runs

namespace Trainer

omit [Scalar σ] in
theorem gold_fit {t : Trainer μ} (h : t.gold ≠ []) (n : Nat) : (t.fit n).1.gold = t.gold := by
  have hempty : ¬ t.gold.isEmpty = true := fun he => h (List.isEmpty_iff.mp he)
  unfold fit
  dsimp only
  rw [if_neg hempty]
  split_ifs <;> rfl

omit [Scalar σ] in
/-- A kept gold sequence is part of what is kept about its example. -/
theorem exists_memo_of_gold {data : Dataset} {t : Trainer μ} (ht : t.Fits s data) {i : Nat}
    {actions : List Action} (h : t.gold[i]? = some (some actions)) :
    ∃ memo, (t.memos data.length)[i]? = some memo ∧ memo.gold = some actions := by
  obtain ⟨hfilters, hgold⟩ := length_of_fit (fit_ok ht)
  have hne : t.gold ≠ [] := by
    rintro he
    simp [he] at h
  have hkept : (t.fit data.length).1.gold[i]? = some (some actions) := by rw [gold_fit hne, h]
  obtain ⟨hi, -⟩ := List.getElem?_eq_some_iff.mp hkept
  have hi' : i < (t.fit data.length).1.filters.length := by omega
  refine ⟨⟨(t.fit data.length).1.filters[i], some actions⟩, ?_, rfl⟩
  rw [memos, List.getElem?_zipWith, hkept, List.getElem?_eq_getElem hi']

/-- **Kept gold sequences are derivations of their examples**, after any number of epochs that began
with nothing kept, under either discipline and whatever the workers saw: replayed over the tokens of
the example, a kept sequence gives one derivation of the whole sentence, with its words, a root
category and the meaning of the target. -/
theorem kept_golds_derive (s : Setup μ σ) (data : Dataset) (m : μ) (n epoch : Nat) {t : Trainer μ}
    {result : Except TrainError (List Stats)}
    (hruns : Runs s data n epoch { model := m } t result) (i : Nat) (actions : List Action)
    (h : t.gold[i]? = some (some actions)) :
    ∃ e, data[i]? = some e ∧ ∃ d, Derivation.replay e.tokens s.grammar.rules actions = some d ∧
      d.span = ⟨0, e.tokens.length⟩ ∧ d.words = e.tokens ∧
      s.grammar.isRoot d.category.syn = true ∧
      d.category.sem.map s.grammar.underspecify =
        some (s.grammar.underspecify e.target.normalize) := by
  have hfits := fits_empty s data m
  have htruthful := hruns.forall₂ (fun look e memo hmemo => truthful_goldOf look hmemo) hfits
    (forall₂_memos_empty (truthful_none s) data m)
  obtain ⟨memo, hmemo, hgold⟩ := exists_memo_of_gold (hruns.succeed hfits).2 h
  obtain ⟨hi, rfl⟩ := List.getElem?_eq_some_iff.mp hmemo
  have hi' : i < data.length := htruthful.length_eq ▸ hi
  exact ⟨data[i], List.getElem?_eq_getElem hi', (htruthful.get hi' hi).gold actions hgold⟩

end Trainer

/-- After an epoch in which the second worker saw the weight change in the middle of a search, the
sequence that it keeps derives the noun phrase. -/
theorem Trainer.kept_golds_derive_dogs : ∃ t stats,
    Runs (oneWeight .lockFree) [phraseExample, phraseExample] 1 1 { model := 0 } t (.ok [stats]) ∧
    stats.noViolation = 1 ∧ t.gold[1]? = some (some [dogsPhrase]) ∧
    ∃ d, Derivation.replay ["dogs"] (oneWeight .lockFree).grammar.rules [dogsPhrase] = some d ∧
      d.category.sem = some Oracle.theDogs := by
  obtain ⟨stats, memo, memo', hruns, -, hgold, -, hnone⟩ := runs_dogs 1
  have hkept : [memo.gold, memo'.gold][1]? = some (some [dogsPhrase]) := congrArg some hgold
  obtain ⟨e, he, d, hd, -, -, -, hsem⟩ := kept_golds_derive (oneWeight .lockFree)
    [phraseExample, phraseExample] 0 1 1 hruns 1 [dogsPhrase] hkept
  obtain rfl := Option.some_inj.mp he
  have htarget : Oracle.theDogs.normalize = Oracle.theDogs := by
    cbv
  refine ⟨_, stats, hruns, hnone, hkept, d, hd, ?_⟩
  rw [← htarget]
  exact Option.map_id'.symm.trans hsem

end Training

end Categorial
