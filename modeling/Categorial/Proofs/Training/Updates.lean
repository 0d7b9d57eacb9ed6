import Categorial.Proofs.Features
import Categorial.Proofs.Training.Epochs

/-!
# Updates of a linear model

A linear model scores an action by the weights of its features, and skipped words by a penalty of their
own. So the score of a sequence of actions is linear in the weights, with the summed features as
coefficients. An update adds a multiple of the difference between the features of the gold and of the
predicted actions to the weights, and the score of the gold grows over the other one by the square of
this difference. The feature of skipped words takes part in neither.

* `Weights.raised`, `Weights.addScaled_table`: an update raises one weight after another.
* `Weights.get_addScaled`, `Weights.get?_addScaled`: the weights after an update.
* `LinearModel.score_eq`, `LinearModel.sum_score`: scores in terms of weights.
* **`Training.update_widens_margin`**: what an update does to the scores and to the weights.
-/

namespace Categorial

/-- Integers are exact. -/
instance Scalar.Exact.int : Scalar.Exact ℤ where
  zero_eq := rfl
  add_eq _ _ := rfl
  one_eq := rfl
  emptySum_eq := rfl
  mul_eq _ _ := rfl
  neg_eq _ := rfl
  isZero_iff _ := beq_iff_eq

/-! ## Weights after an update -/

namespace Weights

variable {σ : Type} [Scalar σ] {t : Std.TreeMap String σ} {name : String}

/-- The weights after each of a list of names is raised by `step` times its number. -/
def raised (step : σ) (t : Std.TreeMap String σ) (l : List (String × σ)) : Std.TreeMap String σ :=
  l.foldl (fun t e => bump t e.1 (Scalar.mul step e.2)) t

theorem get?_bump (t : Std.TreeMap String σ) (n : String) (v : σ) (name : String) :
    (bump t n v).get? name =
      if n = name then some (Score.add ((t.get? n).getD Score.zero) v) else t.get? name := by
  simp only [bump, Std.TreeMap.get?_eq_getElem?, Std.TreeMap.getElem?_insert,
    Std.LawfulEqCmp.compare_eq_iff_eq]

/-- Whatever the discipline, the weights are raised name by name. -/
theorem addScaled_table (w : Weights σ) (delta : Features σ) (step : σ) :
    ∃ l, l.Perm delta.entries ∧ (w.addScaled delta step).table = raised step w.table l := by
  obtain ⟨discipline, t⟩ := w
  cases discipline with
  | serialized => exact ⟨delta.entries, .refl _, rfl⟩
  | lockFree =>
    refine ⟨_, List.filter_append_perm (fun e => t.contains e.1) delta.entries, ?_⟩
    change addKnownThenNew t delta step = _
    rw [addKnownThenNew, List.partition_eq_filter_filter, raised, List.foldl_append]
    rfl

theorem get?_raised_of_ne (step : σ) {l : List (String × σ)} (h : ∀ e ∈ l, e.1 ≠ name) :
    (raised step t l).get? name = t.get? name := by
  induction l generalizing t with
  | nil => rfl
  | cons e l ih =>
    obtain ⟨he, hl⟩ := List.forall_mem_cons.mp h
    exact (ih hl).trans ((get?_bump t _ _ name).trans (if_neg he))

/-- The stored weight of a name that an update does not list stays as it is. -/
theorem get?_addScaled (w : Weights σ) {delta : Features σ} (step : σ)
    (h : ∀ e ∈ delta.entries, e.1 ≠ name) :
    (w.addScaled delta step).table.get? name = w.table.get? name := by
  obtain ⟨l, hperm, htable⟩ := w.addScaled_table delta step
  rw [htable, get?_raised_of_ne step fun e he => h e (hperm.mem_iff.mp he)]

variable [CommRing σ] [Scalar.Exact σ]

theorem getD_raised (step : σ) (l : List (String × σ)) (t : Std.TreeMap String σ) (name : String) :
    ((raised step t l).get? name).getD Score.zero =
      (t.get? name).getD Score.zero + step * Features.vec l name := by
  induction l generalizing t with
  | nil => rw [Features.vec_nil, Finsupp.zero_apply, mul_zero, add_zero]; rfl
  | cons e l ih =>
    refine (ih _).trans ?_
    rw [get?_bump, Features.vec_cons, Finsupp.add_apply, mul_add, ← add_assoc]
    split_ifs with he
    · subst he
      rw [Option.getD_some, Scalar.Exact.add_eq, Scalar.Exact.mul_eq, Finsupp.single_eq_same]
    · rw [Finsupp.single_eq_of_ne (Ne.symm he), mul_zero, add_zero]

/-- An update adds a multiple of a vector to the weights. -/
theorem get_addScaled (w : Weights σ) (delta : Features σ) (step : σ) :
    (w.addScaled delta step).get = w.get + step • ⇑(Features.vec delta.entries) := by
  funext name
  obtain ⟨l, hperm, htable⟩ := w.addScaled_table delta step
  rw [get, htable, getD_raised, Features.vec_perm hperm]
  rfl

theorem dot_eq_sum (w : Weights σ) (f : Features σ) :
    w.dot f = (f.entries.map fun e => e.2 * w.get e.1).sum := by
  rw [dot, Features.sum_eq]
  simp only [Scalar.Exact.mul_eq]

theorem dot_eq (w : Weights σ) (f : Features σ) :
    w.dot f = Finsupp.linearCombination σ w.get (Features.vec f.entries) :=
  (w.dot_eq_sum f).trans (Features.sum_map_mul w.get f.entries)

/-- An update by a vector raises the product with this vector by its square. -/
theorem dot_addScaled (w : Weights σ) {delta : Features σ} (hdelta : delta.Increasing) (step : σ) :
    (w.addScaled delta step).dot delta =
      w.dot delta + step * (delta.entries.map fun e => e.2 * e.2).sum := by
  have hterm : ∀ e ∈ delta.entries,
      e.2 * (w.addScaled delta step).get e.1 = e.2 * w.get e.1 + step * (e.2 * e.2) := by
    intro e he
    rw [get_addScaled, Pi.add_apply, Pi.smul_apply, smul_eq_mul,
      Features.vec_of_mem hdelta.pairwise_ne he]
    ring
  rw [dot_eq_sum, dot_eq_sum, List.map_congr_left hterm, List.sum_map_add, List.sum_map_mul_left]

end Weights

/-! ## Scores of a linear model -/

namespace LinearModel

/-- No other feature of an action is taken for the one of skipped words. -/
theorem append_ne_skipFeature {kind : String} (hkind : ¬ kind.toList <+: skipFeature.toList)
    (rest : String) : kind ++ rest ≠ skipFeature := by
  intro h
  refine hkind ⟨rest.toList, ?_⟩
  rw [← h, String.toList_append]

variable {σ : Type} [Scalar σ]

theorem increasing_features (rules : RuleSet) (a : Action) :
    (features rules a : Features σ).Increasing := by
  unfold features
  cases a.entry <;> dsimp only <;> split_ifs <;>
    apply_rules [Features.increasing_add, NameMap.increasing_empty]

variable [CommRing σ] [Scalar.Exact σ]

/-- An action has the feature of skipped words once if its rule skips, and not at all otherwise. -/
theorem vec_features_skipFeature (rules : RuleSet) (a : Action) :
    Features.vec (features rules a : Features σ).entries skipFeature =
      if rules.skips a.rule then 1 else 0 := by
  -- the other features are told apart by how their names begin, whatever text follows
  have hrule : "RULE=" ++ rules.nameOf a.rule ≠ skipFeature :=
    append_ne_skipFeature (by decide) _
  have hsyn : "SYN=" ++ a.category.syn.text ≠ skipFeature := append_ne_skipFeature (by decide) _
  have hlex : ∀ text, "LEX=" ++ text ≠ skipFeature := append_ne_skipFeature (by decide)
  have horigin : ∀ text, "LEXORIGIN=" ++ text ≠ skipFeature := append_ne_skipFeature (by decide)
  unfold features
  cases a.entry with
  | none =>
    split_ifs <;> simp [Features.vec_add, Scalar.Exact.one_eq, hrule, hsyn]
  | some e =>
    split_ifs <;> simp [Features.vec_add, Scalar.Exact.one_eq, hrule, hsyn, hlex, horigin]

/-- The score of an action in terms of the function that its features stand for. -/
theorem score_eq (m : LinearModel σ) (rules : RuleSet) (a : Action) :
    m.score rules a = Finsupp.linearCombination σ m.weights.get
        ((Features.vec (features rules a).entries).erase skipFeature) +
      m.skipPenalty * if rules.skips a.rule then 1 else 0 := by
  rw [score, Scalar.Exact.add_eq, Scalar.Exact.mul_eq, Weights.dot_eq, Features.vec_erase,
    Features.get_eq (increasing_features rules a), vec_features_skipFeature, mul_comm m.skipPenalty]

theorem vec_derivationFeatures (m : LinearModel σ) (rules : RuleSet) (sentence : List String)
    (actions : List Action) :
    Features.vec (model.derivationFeatures m rules sentence actions).entries =
      (actions.map fun a => Features.vec (features rules a : Features σ).entries).sum := by
  have hfold : ∀ f : Features σ, Features.vec (actions.foldl (fun f a => Features.addAll f
      (features rules a) Scalar.one) f).entries =
        Features.vec f.entries + (actions.map fun a => Features.vec (features rules a).entries).sum := by
    induction actions with
    | nil => exact fun f => (add_zero _).symm
    | cons a actions ih =>
      intro f
      rw [List.foldl_cons, ih, Features.vec_addAll, Scalar.Exact.one_eq, one_smul, List.map_cons,
        List.sum_cons, add_assoc]
  exact (hfold {}).trans (zero_add _)

/-- The score of a sequence of actions is linear in the weights, skipped words apart. -/
theorem sum_score (m : LinearModel σ) (rules : RuleSet) (sentence : List String)
    (actions : List Action) :
    (actions.map (m.score rules)).sum = Finsupp.linearCombination σ m.weights.get
        ((Features.vec (model.derivationFeatures m rules sentence actions).entries).erase
          skipFeature) +
      m.skipPenalty * (actions.countP fun a => rules.skips a.rule : ℕ) := by
  rw [vec_derivationFeatures]
  induction actions with
  | nil => simp
  | cons a actions ih =>
    rw [List.map_cons, List.sum_cons, List.map_cons, List.sum_cons, ih, score_eq, Finsupp.erase_add,
      map_add, List.countP_cons]
    push_cast
    ring

end LinearModel

namespace Training

open LinearModel

variable {σ : Type} [Scalar σ]

theorem increasing_difference {μ : Type} (s : Setup μ σ) (m : μ) (sentence : List String)
    (v : Violation) : (difference s m sentence v).Increasing := by
  refine Features.increasing_prune (Features.increasing_addAll ?_ _ _)
  exact List.foldlRecOn (motive := NameMap.Increasing) _ _ NameMap.increasing_empty
    fun _ h _ _ => Features.increasing_addAll h _ _

variable [CommRing σ] [Scalar.Exact σ]

theorem vec_difference {μ : Type} (s : Setup μ σ) (m : μ) (sentence : List String) (v : Violation) :
    Features.vec (difference s m sentence v).entries =
      Features.vec (s.model.derivationFeatures m s.grammar.rules sentence v.gold).entries -
        Features.vec (s.model.derivationFeatures m s.grammar.rules sentence v.predicted).entries := by
  rw [difference, Access.difference, Features.vec_prune, Features.vec_addAll, Scalar.Exact.neg_eq,
    Scalar.Exact.one_eq, neg_one_smul, sub_eq_add_neg]
  rfl

/-- What the gold scores more than the predicted actions, with any weights: the difference of their
features does not depend on them. -/
theorem margin_eq (grammar : Grammar) (lexicon : Lexicon) (options : Options σ)
    (m m' : LinearModel σ) (sentence : List String) (v : Violation) :
    (v.gold.map (m'.score grammar.rules)).sum - (v.predicted.map (m'.score grammar.rules)).sum =
      m'.weights.dot ((difference ⟨grammar, lexicon, model, options⟩ m sentence v).erase skipFeature) +
        m'.skipPenalty * ((v.gold.countP fun a => grammar.rules.skips a.rule : ℕ) -
          (v.predicted.countP fun a => grammar.rules.skips a.rule : ℕ)) := by
  rw [m'.sum_score _ sentence, m'.sum_score _ sentence, Weights.dot_eq, Features.vec_erase,
    vec_difference, Finsupp.erase_sub, map_sub]
  simp only [vec_derivationFeatures]
  ring

/-- **An update widens the margin of the gold by a known amount and leaves skipping alone.** With exact
numbers, for every grammar, weights, penalty, gold and predicted actions and step, the scores of a
sequence of actions add up to the product of the weights with the summed features, without the one of
skipped words, and the penalty times the number of actions made by a skipping rule. After an update by
the difference of the features of the gold and the predicted actions, the score of the gold less that of
the predicted actions is greater by the step times the sum of the squares of this difference, skipped
words apart. The penalty, the stored weight of skipped words and those of all features that the
difference does not have are what they were. -/
theorem update_widens_margin (grammar : Grammar) (lexicon : Lexicon) (options : Options σ)
    (m : LinearModel σ) (sentence : List String) (v : Violation) (step : σ) :
    let s : Setup (LinearModel σ) σ := ⟨grammar, lexicon, model, options⟩
    let total (m : LinearModel σ) (actions : List Action) : σ :=
      (actions.map (s.task m sentence).score).sum
    let delta := difference s m sentence v
    let after := s.model.update m delta step
    (∀ actions, total m actions =
      m.weights.dot ((s.model.derivationFeatures m grammar.rules sentence actions).erase skipFeature) +
        m.skipPenalty * (actions.countP fun a => grammar.rules.skips a.rule : ℕ)) ∧
    total after v.gold - total after v.predicted = total m v.gold - total m v.predicted +
      step * ((delta.erase skipFeature).entries.map fun e => e.2 * e.2).sum ∧
    after.skipPenalty = m.skipPenalty ∧
    ∀ name, name = skipFeature ∨ delta.contains name = false →
      after.weights.table.get? name = m.weights.table.get? name := by
  intro s total delta after
  refine ⟨fun actions => ?_, ?_, rfl, fun name hname => ?_⟩
  · rw [Weights.dot_eq, Features.vec_erase]
    exact m.sum_score grammar.rules sentence actions
  · -- the difference is the same for all weights, so both margins are products with it
    have hmargin : ∀ m', total m' v.gold - total m' v.predicted = _ := fun m' =>
      margin_eq grammar lexicon options m m' sentence v
    have hdelta : (delta.erase skipFeature).Increasing := (increasing_difference s m sentence v).filter _
    rw [hmargin, hmargin]
    change (m.weights.addScaled (delta.erase skipFeature) step).dot (delta.erase skipFeature) + _ = _
    rw [Weights.dot_addScaled _ hdelta, add_right_comm]
    rfl
  · refine m.weights.get?_addScaled step fun e he heq => ?_
    obtain ⟨he, hskip⟩ := List.mem_filter.mp he
    rcases hname with rfl | hname
    · exact bne_iff_ne.mp hskip heq
    · exact NameMap.contains_eq_false_iff.mp hname e he heq

/-- In `um dogs` the first word is skipped in the gold actions; the predicted ones have only a noun
phrase for the second word. -/
def umDogs : Violation where
  failAt := 2
  pruned := false
  gold := [.lookup ⟨1, 2⟩ ⟨["dogs"], ⟨.atom "N", none⟩, .fixed⟩,
    { span := ⟨0, 2⟩, rule := .rule 0, category := ⟨.atom "N", none⟩ }]
  predicted := [.lookup ⟨1, 2⟩ ⟨["dogs"], ⟨.atom "NP", none⟩, .fixed⟩]

/-- Training a linear model on nouns and skipped words. -/
def umDogsSetup : Setup (LinearModel ℤ) ℤ where
  grammar := { rules := ⟨[.binary .forwardSkipping]⟩ }
  lexicon := .ofList []
  model := model
  options := dogsSetup.options

/-- A step of three widens the margin by three times eight: the noun counts twice, both entries, the
skipping rule and the noun phrase once. The weight of skipped words stays five. -/
theorem update_widens_margin_umDogs :
    let m : LinearModel ℤ := ⟨.ofList .lockFree [("SKIP", 5)], -1⟩
    let after := m.update (difference umDogsSetup m ["um", "dogs"] umDogs) 3
    let margin (m : LinearModel ℤ) : ℤ :=
      (umDogs.gold.map (m.score umDogsSetup.grammar.rules)).sum -
        (umDogs.predicted.map (m.score umDogsSetup.grammar.rules)).sum
    margin after = margin m + 24 ∧ after.weights.table.get? "SKIP" = some 5 := by
  intro m after margin
  obtain ⟨-, hmargin, -, hskip⟩ := update_widens_margin umDogsSetup.grammar umDogsSetup.lexicon
    umDogsSetup.options m ["um", "dogs"] umDogs 3
  have hsquares : (((difference umDogsSetup m ["um", "dogs"] umDogs).erase skipFeature).entries.map
      fun e => e.2 * e.2).sum = 8 := by
    cbv
  have hweight : m.weights.table.get? "SKIP" = some 5 := by
    cbv
  refine ⟨?_, (hskip skipFeature (Or.inl rfl)).trans hweight⟩
  exact hmargin.trans (congrArg (margin m + 3 * ·) hsquares)

end Training

end Categorial
