import Categorial.Proofs.Chart.Exhaustive
import Categorial.Proofs.Chart.Picks
import Mathlib

/-!
# The best derivation of a group

Under exact scores the two picks of a group lead to derivations with the recorded scores, and no
derivation of the group has a higher one: a step adds the score of its action to the best ones of the
groups it builds on. In an unpruned chart the best group has the highest score of all derivations.

* `Chart.OptimalStep`, `Chart.Optimal`: steps and groups with their best derivations.
* `Chart.Built`, **`Chart.optimal_groups`**: the groups of a chart, dropped ones included.
* `Task.RootDerivation`: the derivations of a task that a chart is to find.
* **`chart_best_optimal`**: what a chart reports as best.
-/

namespace Categorial

/-! ## Best derivations are optimal -/

namespace Derivation

variable {σ : Type} [AddCommMonoid σ] {score : Action → σ}

theorem standing_leaf (a : Action) (ws : List String) :
    (Derivation.leaf a ws).standing score = ⟨score a, a.rule, a.category⟩ := by
  simp [standing, actions, action, category]

theorem standing_unary (a : Action) (d : Derivation) : (Derivation.unary a d).standing score =
    ⟨score a + (d.standing score).score, a.rule, a.category⟩ := by
  simp [standing, actions, action, category, add_comm]

theorem standing_binary (a : Action) (l r : Derivation) :
    (Derivation.binary a l r).standing score =
      ⟨score a + ((l.standing score).score + (r.standing score).score), a.rule, a.category⟩ := by
  simp [standing, actions, action, category, add_comm, add_left_comm]

end Derivation

variable {σ : Type} [AddCommMonoid σ] [LinearOrder σ]

namespace Chart

open Draft

/-- The step has a best derivation, with the standing of the step. -/
structure OptimalStep (t : Task σ) (s : Step σ (Group σ)) : Prop where
  attained : ∃ d ∈ Group.treesOfStep t.sentence s,
    Group.bestTreeOfStep? t.sentence s = some d ∧ d.standing t.score = s.standing
  least : ∀ d ∈ Group.treesOfStep t.sentence s, s.standing ≤ d.standing t.score

/-- The group has a best derivation, with the standing of the group. Before the unary rules are
applied it also has the score of the best step that is not unary. -/
structure Optimal (t : Task σ) (base : Bool) (_span : Span) (g : Group σ) : Prop where
  attained : ∃ d ∈ g.trees t.sentence,
    g.bestTreeOf? t.sentence false = some d ∧ d.standing t.score = g.standing
  least : ∀ d ∈ g.trees t.sentence, g.standing ≤ d.standing t.score
  base : base = true → ∀ p, g.base = some p → (∃ d ∈ g.trees t.sentence,
      g.bestTreeOf? t.sentence true = some d ∧ (d.standing t.score).score = p.score) ∧
    ∀ d ∈ g.trees t.sentence, (d.standing t.score).score ≤ p.score

variable {t : Task σ} {mode : Packing} {limit : Option Nat} {base : Bool} {span : Span} {g : Group σ}

theorem optimalStep_lexicalStep (t : Task σ) (span : Span) (e : Entry) :
    OptimalStep t (lexicalStep t span e) := by
  have hstanding : (Derivation.leaf (.lookup span e) (span.tokens t.sentence)).standing t.score =
      ⟨t.score (.lookup span e), .lexical, e.category⟩ := Derivation.standing_leaf _ _
  rw [lexicalStep]
  refine ⟨⟨_, ?_, ?_, hstanding⟩, fun d hd => ?_⟩
  · rw [Group.treesOfStep]
    exact List.mem_singleton_self _
  · rw [Group.bestTreeOfStep?]
    rfl
  · rw [Group.treesOfStep, List.mem_singleton] at hd
    rw [hd]
    exact hstanding.symm.le

variable [IsOrderedAddMonoid σ]

/-- A rule adds its own score to the best ones of the groups it builds on. -/
theorem optimalStep_of_ruleStep {s : Step σ (Group σ)} (h : RuleStep t (Optimal t) base span s) :
    OptimalStep t s := by
  cases h with
  | @binary k l r x _ _ hl hr _ _ =>
    obtain ⟨dl, hdl, hbl, hsl⟩ := hl.attained
    obtain ⟨dr, hdr, hbr, hsr⟩ := hr.attained
    rw [binaryStep]
    refine ⟨⟨.binary (ruleAction span x) dl dr, ?_, ?_, ?_⟩, fun d hd => ?_⟩
    · exact Group.mem_treesOfStep_binary.mpr ⟨dl, hdl, dr, hdr, rfl⟩
    · rw [Group.bestTreeOfStep?, hbl, hbr]
      rfl
    · rw [Derivation.standing_binary, hsl, hsr]
      rfl
    · obtain ⟨dl', hdl', dr', hdr', rfl⟩ := Group.mem_treesOfStep_binary.mp hd
      rw [Derivation.standing_binary]
      exact Standing.mk_le_mk.mpr (add_le_add_right (add_le_add
        (Standing.score_le (hl.least dl' hdl')) (Standing.score_le (hr.least dr' hdr'))) _)
  | @unary c p x _ hc hp _ _ =>
    obtain ⟨⟨dc, hdc, hbc, hsc⟩, hmost⟩ := hc.base rfl p hp
    rw [unaryStep]
    refine ⟨⟨.unary (ruleAction span x) dc, ?_, ?_, ?_⟩, fun d hd => ?_⟩
    · exact Group.mem_treesOfStep_unary.mpr ⟨dc, hdc, rfl⟩
    · rw [Group.bestTreeOfStep?, hbc]
      rfl
    · rw [Derivation.standing_unary, hsc]
      rfl
    · obtain ⟨dc', hdc', rfl⟩ := Group.mem_treesOfStep_unary.mp hd
      rw [Derivation.standing_unary]
      exact Standing.mk_le_mk.mpr (add_le_add_right (hmost dc' hdc') _)

omit [IsOrderedAddMonoid σ] in
/-- The best derivation of a group is that of the step it picks. -/
theorem optimal_of_picks (hpicks : g.Picks) (hcat : ∀ s ∈ g.steps, s.action.category = g.category)
    (hbase : base = true → ∀ s ∈ g.steps, s.isUnary = false)
    (hsteps : ∀ s ∈ g.steps, OptimalStep t s) : Optimal t base span g := by
  have hleast : ∀ s ∈ g.steps, g.standing ≤ s.standing := by
    intro s hs
    rw [Step.standing, hcat s hs]
    exact hpicks.least s hs g.category
  refine ⟨?_, fun d hd => ?_, fun hb p hp => ⟨?_, fun d hd => ?_⟩⟩
  · obtain ⟨s, hs, hscore, hrule⟩ := hpicks.best
    have hmem := List.mem_of_getElem? hs
    obtain ⟨d, hd, hbest, hstanding⟩ := (hsteps s hmem).attained
    refine ⟨d, Group.mem_trees.mpr ⟨s, hmem, hd⟩, ?_, hstanding.trans ?_⟩
    · rw [Group.bestTreeOf?_false, hs]
      exact hbest
    · rw [Step.standing, Group.standing, hscore, hrule, hcat s hmem]
  · obtain ⟨s, hs, hd⟩ := Group.mem_trees.mp hd
    exact (hleast s hs).trans ((hsteps s hs).least d hd)
  · obtain ⟨s, hs, -, hscore⟩ := hpicks.base p hp
    have hmem := List.mem_of_getElem? hs
    obtain ⟨d, hd, hbest, hstanding⟩ := (hsteps s hmem).attained
    refine ⟨d, Group.mem_trees.mpr ⟨s, hmem, hd⟩, ?_, ?_⟩
    · rw [Group.bestTreeOf?_true hp, hs]
      exact hbest
    · rw [hstanding]
      exact hscore
  · obtain ⟨s, hs, hd⟩ := Group.mem_trees.mp hd
    obtain ⟨p', hp', hle⟩ := hpicks.highest s hs (hbase hb s hs)
    obtain rfl : p = p' := Option.some_inj.mp (hp.symm.trans hp')
    exact (Standing.score_le ((hsteps s hs).least d hd)).trans hle

theorem optimal_of_madeFrom (hstop : span.stop ≤ t.sentence.length)
    (hmade : MadeFrom t mode (Optimal t) base span g) : Optimal t base span g := by
  have hpicks : g.Picks := by
    obtain ⟨more, ⟨s, rest, hg, -⟩, -⟩ := hmade
    rw [hg]
    exact Group.picks_gather g.id span s rest
  have hstep : ∀ s ∈ g.steps, OptimalStep t s ∧ (base = true → s.isUnary = false) := by
    intro s hs
    rcases (hmade.cases_step hstop hs).2 with ⟨e, -, rfl⟩ | hrule
    · exact ⟨optimalStep_lexicalStep t span e, fun _ => rfl⟩
    · refine ⟨optimalStep_of_ruleStep hrule, fun hb => ?_⟩
      cases hrule with
      | binary => rfl
      | unary hbase => rw [hb] at hbase; cases hbase
  exact optimal_of_picks hpicks (fun s hs => (hmade.cases_step hstop hs).1)
    (fun hb s hs => (hstep s hs).2 hb) fun s hs => (hstep s hs).1

/-- The group was built for a cell of the chart, whether or not the limit drops it. -/
def Built (t : Task σ) (mode : Packing) (limit : Option Nat) (span : Span) (g : Group σ) : Prop :=
  (span.start < span.stop ∧ span.stop ≤ t.sentence.length) ∧ ∃ firstId, g ∈ cellGroups t
    (t.grammar.provider t.lexicon) mode (parse t mode limit).cell firstId span

omit [IsOrderedAddMonoid σ] in
theorem built_of_mem_cell (hg : g ∈ (parse t mode limit).cell span) : Built t mode limit span g := by
  obtain ⟨-, hspan⟩ := span_of_mem_cell hg
  obtain ⟨firstId, he⟩ := cell_parse t mode limit hspan
  rw [he] at hg
  exact ⟨hspan, firstId, mem_of_mem_kept hg⟩

/-- **The best derivations of the groups of a chart are optimal.** -/
theorem optimal_groups (hg : Built t mode limit span g) : Optimal t false span g := by
  obtain ⟨hspan, firstId, hg⟩ := hg
  exact (forall_groups (fun _ _ _ _ h₂ => optimal_of_madeFrom h₂) hspan firstId).2 g hg

omit [IsOrderedAddMonoid σ] in
theorem pairwise_mergeSort_rank (gs : List (Group σ)) :
    (gs.mergeSort fun g h => (rank g h).isLE).Pairwise fun g h => g.standing ≤ h.standing :=
  pairwise_mergeSort_standing Group.standing fun g _ h _ => by rw [rank_eq]

omit [IsOrderedAddMonoid σ] in
/-- The groups of a cell are in order of standing. -/
theorem pairwise_cell (t : Task σ) (mode : Packing) (limit : Option Nat) (span : Span) :
    ((parse t mode limit).cell span).Pairwise fun g h => g.standing ≤ h.standing := by
  by_cases hspan : span.start < span.stop ∧ span.stop ≤ t.sentence.length
  · obtain ⟨firstId, he⟩ := cell_parse t mode limit hspan
    rw [he]
    cases limit with
    | none => exact pairwise_mergeSort_rank _
    | some k => exact (pairwise_mergeSort_rank _).sublist (List.take_sublist k _)
  · rw [cell_parse_eq_nil t mode limit hspan]
    exact List.Pairwise.nil

omit [IsOrderedAddMonoid σ] in
/-- The best derivation of a chart has the least standing. -/
theorem standing_le_of_best? (hg : (parse t.unfiltered mode none).best? t.grammar = some g) :
    ∀ h ∈ (parse t.unfiltered mode none).derivations t.grammar, g.standing ≤ h.standing :=
  le_of_head?_eq_some ((pairwise_cell t.unfiltered mode none _).filter _) hg

end Chart

/-! ## What a chart reports as best -/

section Roots

variable {σ : Type}

/-- The derivation is one of the whole sentence with a root category, and looks up entries that a chart
offers. -/
def Task.RootDerivation (t : Task σ) (mode : Packing) (d : Derivation) : Prop :=
  Grammatical (t.Offers mode) t.grammar t.sentence d ∧ d.span = ⟨0, t.sentence.length⟩ ∧
    t.grammar.isRoot d.category.syn = true

namespace Chart

variable [Score σ] {t : Task σ} {mode : Packing} {g : Group σ}

/-- The trees of the root groups of a chart are the derivations of allowed actions. -/
theorem exists_mem_trees_iff_of_uniform (hu : t.Uniform) {d : Derivation} :
    (t.RootDerivation mode d ∧ ∀ a ∈ d.actions, t.accept a = true) ↔
      ∃ g ∈ (parse t mode none).derivations t.grammar, d ∈ g.trees t.sentence := by
  have hkeeps : KeepsLookups t mode (t.Offers mode) := keepsLookups_offers hu mode
  constructor
  · rintro ⟨⟨hgr, hs, hroot⟩, hallowed⟩
    obtain ⟨g, hg, hd⟩ := exhausts_parse hu mode _ d ⟨hgr, hallowed⟩ hs nofun
    have hc := (yields_cell hkeeps hg).category d hd
    exact ⟨g, mem_derivations_iff.mpr ⟨hg, hc ▸ hroot⟩, hd⟩
  · rintro ⟨g, hg, hd⟩
    obtain ⟨hg, hroot⟩ := mem_derivations_iff.mp hg
    have hy := yields_cell hkeeps hg
    obtain ⟨hgr, hallowed⟩ := hy.makes d hd
    exact ⟨⟨hgr, hy.span d hd, hy.category d hd ▸ hroot⟩, hallowed⟩

/-- A derivation of a chart is a tree of one of its root groups. -/
theorem exists_mem_trees_iff {d : Derivation} : t.RootDerivation mode d ↔
    ∃ g ∈ (parse t.unfiltered mode none).derivations t.grammar, d ∈ g.trees t.sentence :=
  (and_iff_left fun _ _ => rfl).symm.trans (exists_mem_trees_iff_of_uniform t.uniform_unfiltered)

/-- The trees of a packed root group are the derivations of its category. -/
theorem mem_trees_iff (hg : g ∈ (parse t.unfiltered .packed none).derivations t.grammar)
    {d : Derivation} :
    d ∈ g.trees t.sentence ↔ t.RootDerivation .packed d ∧ d.category = g.category := by
  have hcell := (mem_derivations.mp hg).1
  have hholds := holds_parse t.uniform_unfiltered none ⟨0, t.sentence.length⟩
  constructor
  · exact fun hd => ⟨exists_mem_trees_iff.mpr ⟨g, hg, hd⟩, (hholds.yields g hcell).category d hd⟩
  · rintro ⟨hd, hc⟩
    -- the group that has the derivation has its category, and so is this one
    obtain ⟨g', hg', hd⟩ := exists_mem_trees_iff.mp hd
    have hcell' := (mem_derivations.mp hg').1
    have hc' := (hholds.yields g' hcell').category d hd
    rwa [List.inj_on_of_nodup_map hholds.nodup hcell hcell' (hc.symm.trans hc')]

end Chart

end Roots

namespace Chart

variable {t : Task σ} {mode : Packing} {limit : Option Nat} {span : Span} {g : Group σ}

/-- The actions of the best derivation rebuild it. -/
theorem replay_bestActions (hg : Built t mode limit span g) {d : Derivation}
    (hd : d ∈ g.trees t.sentence) (hbest : g.bestTree? t.sentence = some d) :
    Derivation.replay t.sentence t.grammar.rules g.bestActions = some d := by
  obtain ⟨hspan, firstId, hg⟩ := hg
  -- which entries are looked up does not matter here
  have hkeeps : KeepsLookups t mode fun _ _ => True := fun _ _ _ _ _ _ _ _ _ => trivial
  rw [Group.bestActions_eq hbest]
  exact ((((yields_groups hkeeps hspan firstId).2 g hg).makes d hd).1).replay_actions

end Chart

variable [IsOrderedAddMonoid σ]

/-- **The best derivation of a chart is optimal and is reported consistently.** For every grammar,
lexicon, sentence, filter, limit, packing and exact score, the score of a group is the sum of the
scores of its best actions, no derivation of the group has a higher one, and the best actions rebuild
the best derivation. Without a limit and a filter, the score of the best root group is the highest one
of all derivations of the sentence; any entry may be looked up in those if the entries of the lexicon
differ. -/
theorem chart_best_optimal (t : Task σ) (mode : Packing) :
    (∀ limit span g, Chart.Built t mode limit span g →
      g.best.score = (g.bestActions.map t.score).sum ∧
      (∀ d ∈ g.trees t.sentence, (d.actions.map t.score).sum ≤ g.best.score) ∧
      ∃ d ∈ g.trees t.sentence, g.bestTree? t.sentence = some d ∧
        Derivation.replay t.sentence t.grammar.rules g.bestActions = some d) ∧
    ((Chart.parse t.unfiltered mode none).best? t.grammar = none →
      ∀ d, ¬ t.RootDerivation mode d) ∧
    (∀ g, (Chart.parse t.unfiltered mode none).best? t.grammar = some g →
      IsGreatest {x | ∃ d, t.RootDerivation mode d ∧ (d.actions.map t.score).sum = x}
        g.best.score) ∧
    (t.lexicon.Distinct → ∀ span e, t.Offers mode span e ↔
      e ∈ (t.grammar.provider t.lexicon).lookup (span.tokens t.sentence)) := by
  refine ⟨fun limit span g hg => ?_, fun hnone d hd => ?_, fun g hg => ⟨?_, ?_⟩,
    fun h span e => Task.offers_iff_mem h⟩
  · obtain ⟨⟨d, hd, hbest, hstanding⟩, hleast, -⟩ := Chart.optimal_groups hg
    refine ⟨?_, fun d hd => Standing.score_le (hleast d hd), d, hd, hbest,
      Chart.replay_bestActions hg hd hbest⟩
    rw [Group.bestActions_eq hbest]
    exact (congrArg Standing.score hstanding).symm
  · obtain ⟨g, hg, -⟩ := Chart.exists_mem_trees_iff.mp hd
    rw [List.head?_eq_none_iff.mp hnone] at hg
    cases hg
  · have hmem := List.mem_of_mem_head? hg
    obtain ⟨⟨d, hd, -, hstanding⟩, -, -⟩ :=
      Chart.optimal_groups (Chart.built_of_mem_cell (Chart.mem_derivations.mp hmem).1)
    exact ⟨d, Chart.exists_mem_trees_iff.mpr ⟨g, hmem, hd⟩, congrArg Standing.score hstanding⟩
  · rintro x ⟨d, hd, rfl⟩
    obtain ⟨g', hg', hd'⟩ := Chart.exists_mem_trees_iff.mp hd
    obtain ⟨-, hleast, -⟩ :=
      Chart.optimal_groups (Chart.built_of_mem_cell (Chart.mem_derivations.mp hg').1)
    calc (d.actions.map t.score).sum
      _ ≤ g'.best.score := Standing.score_le (hleast d hd')
      _ ≤ g.best.score := Standing.score_le (Chart.standing_le_of_best? hg g' hg')

/-- The word `fish` with an entry that raising could also make; raising is worth two, a look-up one. -/
def fish : Task ℤ where
  grammar := {
    rules := ⟨[.unary (.typeRaising "raise" (.atom "NP") (.atom "S") .truth)]⟩
    roots := [.complex (.atom "S") .forward (.complex (.atom "S") .backward (.atom "NP"))] }
  lexicon := .ofList [⟨["fish"], ⟨.atom "NP", none⟩, .fixed⟩,
    ⟨["fish"], ⟨.complex (.atom "S") .forward (.complex (.atom "S") .backward (.atom "NP")), none⟩,
      .fixed⟩]
  sentence := ["fish"]
  score a := if a.rule = .lexical then 1 else 2

/-- With a limit of one group, the cell of `fish` keeps the raised category, which is best made by
raising; and no derivation of it has a higher score than 3. -/
theorem chart_best_optimal_fish :
    (∃ g ∈ (Chart.parse fish .packed (some 1)).cell ⟨0, 1⟩, g.best.score = 3 ∧
      (g.bestActions.map fish.score).sum = 3 ∧
      (∀ d ∈ g.trees fish.sentence, (d.actions.map fish.score).sum ≤ 3) ∧
      ∃ d, Derivation.replay fish.sentence fish.grammar.rules g.bestActions = some d) ∧
    IsGreatest {x | ∃ d, fish.RootDerivation .packed d ∧ (d.actions.map fish.score).sum = x} 3 ∧
    ∀ span e, fish.Offers .packed span e ↔
      e ∈ (fish.grammar.provider fish.lexicon).lookup (span.tokens fish.sentence) := by
  obtain ⟨hgroups, -, hgreatest, hoffers⟩ := chart_best_optimal fish .packed
  have hcell : ((Chart.parse fish .packed (some 1)).cell ⟨0, 1⟩).map (fun g => g.best.score) =
      [3] := by
    cbv
  have hbest : ((Chart.parse fish.unfiltered .packed none).best? fish.grammar).map
      (fun g => g.best.score) = some 3 := by
    cbv
  refine ⟨?_, ?_, hoffers (Lexicon.distinct_ofList _)⟩
  · obtain ⟨g, hg, hthree⟩ := List.mem_map.mp (hcell ▸ List.mem_singleton_self (3 : ℤ))
    obtain ⟨hsum, hmost, d, -, -, hreplay⟩ :=
      hgroups (some 1) ⟨0, 1⟩ g (Chart.built_of_mem_cell hg)
    rw [hthree] at hsum hmost
    exact ⟨g, hg, hthree, hsum.symm, hmost, d, hreplay⟩
  · obtain ⟨g, hg, hthree⟩ := Option.map_eq_some_iff.mp hbest
    rw [← hthree]
    exact hgreatest g hg

end Categorial
