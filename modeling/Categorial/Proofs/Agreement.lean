import Categorial.Proofs.Beam.Completed
import Categorial.Proofs.Beam.Scored
import Categorial.Proofs.Chart.Optimal
import Mathlib

/-!
# Chart and beam search agree

An unpruned packed chart and a beam search that cuts nothing find the same categories over the whole
sentence, count the same number of derivations for each, and rank the same category first with the
same score. Both survey the licensed derivations over the sentence that have a root category, and a
survey has only one result.

* `Task.Parses`: the derivations of a task.
* `Task.Survey`: number and best standing of the derivations of one category.
* `Chart.survey_derivations`, `Beam.survey_readings`: the two parsers.
* **`chart_beam_agree`**: their results.
-/

namespace Categorial

variable {σ : Type} [AddCommMonoid σ] [LinearOrder σ]

namespace Task

/-- The derivation is licensed over the whole sentence and has a root category. -/
def Parses (t : Task σ) (d : Derivation) : Prop :=
  Licensed t.grammar t.lexicon t.sentence d ∧ d.span = ⟨0, t.sentence.length⟩ ∧
    t.grammar.isRoot d.category.syn = true

/-- The task has derivations with the category; `parses` is their number up to the cap and `best` the
best of their standings. -/
def Survey (t : Task σ) (c : Category) (parses : Nat) (best : Standing σ) : Prop :=
  ∃ paths : List (List Action), paths.Nodup ∧
    (∀ as, as ∈ paths ↔ ∃ d, t.Parses d ∧ d.category = c ∧ as = d.actions.reverse) ∧
    parses = min Count.cap paths.length ∧ (∃ as ∈ paths, pathStanding t.score as = best) ∧
    ∀ as ∈ paths, best ≤ pathStanding t.score as

namespace Survey

variable {t : Task σ} {c : Category} {m n : Nat} {x y : Standing σ}

/-- A survey has only one result. -/
theorem unique (h : t.Survey c m x) (h' : t.Survey c n y) : m = n ∧ x = y := by
  obtain ⟨ps, hnd, hmem, rfl, ⟨as, has, hx⟩, hleast⟩ := h
  obtain ⟨qs, hnd', hmem', rfl, ⟨bs, hbs, hy⟩, hleast'⟩ := h'
  have hperm : ps.Perm qs :=
    (List.perm_ext_iff_of_nodup hnd hnd').mpr fun cs => (hmem cs).trans (hmem' cs).symm
  refine ⟨by rw [hperm.length_eq], le_antisymm ?_ ?_⟩
  · rw [← hy]
    exact hleast bs (hperm.mem_iff.mpr hbs)
  · rw [← hx]
    exact hleast' as (hperm.mem_iff.mp has)

theorem exists_parses (h : t.Survey c m x) : ∃ d, t.Parses d ∧ d.category = c := by
  obtain ⟨ps, -, hmem, -, ⟨as, has, -⟩, -⟩ := h
  obtain ⟨d, hd, hc, -⟩ := (hmem as).mp has
  exact ⟨d, hd, hc⟩

end Survey

end Task

/-! ## The chart -/

namespace Chart

variable {t : Task σ} [IsOrderedAddMonoid σ]

/-- The derivations of an unpruned chart are a survey of each category. -/
theorem survey_derivations {g : Group σ}
    (hg : g ∈ (parse t.unfiltered .packed none).derivations t.grammar) :
    t.Survey g.category g.parses g.standing := by
  have hcell := (mem_derivations.mp hg).1
  have hholds := holds_parse t.uniform_unfiltered none ⟨0, t.sentence.length⟩
  obtain ⟨⟨best, hbest, -, hattained⟩, hleast, -⟩ := optimal_groups (built_of_mem_cell hcell)
  have hmem : ∀ d, d ∈ g.trees t.sentence ↔ t.Parses d ∧ d.category = g.category := fun d =>
    mem_trees_iff hg
  refine ⟨(g.trees t.sentence).map fun d => d.actions.reverse, ?_, fun as => ?_, ?_, ?_,
    fun as has => ?_⟩
  · exact hholds.nodup_paths hcell
  · simp only [List.mem_map, hmem, and_assoc, eq_comm]
  · rw [List.length_map]
    exact (hholds.counted g hcell).parses_eq
  · exact ⟨_, List.mem_map_of_mem hbest, (pathStanding_actions t.score best).trans hattained⟩
  · obtain ⟨d, hd, rfl⟩ := List.mem_map.mp has
    rw [pathStanding_actions]
    exact hleast d hd

omit [IsOrderedAddMonoid σ] in
theorem exists_mem_derivations {d : Derivation} (hd : t.Parses d) :
    ∃ g ∈ (parse t.unfiltered .packed none).derivations t.grammar, g.category = d.category := by
  obtain ⟨g, hg, hd⟩ := exists_mem_trees_iff.mp (show t.RootDerivation .packed d from hd)
  have hholds := holds_parse t.uniform_unfiltered none ⟨0, t.sentence.length⟩
  exact ⟨g, hg, ((hholds.yields g (mem_derivations.mp hg).1).category d hd).symm⟩

end Chart

/-! ## The beam search -/

namespace Beam

variable {t : Task σ} {mode : Packing} {width : Nat}

/-- The window of the whole sentence, with all actions allowed. -/
def wholeWindow (t : Task σ) : Window σ := .ofTask t.unfiltered ⟨0, t.sentence.length⟩

omit [AddCommMonoid σ] [LinearOrder σ] in
theorem clip_whole (n : Nat) : clip n ⟨0, n⟩ = ⟨0, n⟩ := by
  simp [clip]

omit [AddCommMonoid σ] [LinearOrder σ] in
/-- The derivations of the whole sentence are those of the task. -/
theorem parses_wholeWindow {d : Derivation} : (wholeWindow t).Parses d ↔ t.Parses d :=
  ⟨fun h => ⟨h.licensed, h.span, h.root rfl⟩, fun h => ⟨h.1, h.2.1, fun _ _ => rfl, fun _ => h.2.2⟩⟩

omit [AddCommMonoid σ] [LinearOrder σ] in
/-- The paths of the completed states of a category are those of the derivations with it. -/
theorem mem_paths_statesFor {l : List (State σ)}
    (h : Enumerates (wholeWindow t) (maxSteps (wholeWindow t).span) l) {c : Category}
    {as : List Action} : as ∈ (statesFor l c).flatMap State.paths ↔
      ∃ d, t.Parses d ∧ d.category = c ∧ as = d.actions.reverse := by
  rw [h.mem_paths_statesFor rfl le_rfl]
  simp only [parses_wholeWindow]

/-- The completed states of a search are in order of standing. -/
theorem pairwise_completed [IsOrderedAddMonoid σ] (t : Task σ) (window : Span) (mode : Packing)
    (width : Nat) :
    (parse t window mode width).completed.Pairwise fun s s' => s.standing ≤ s'.standing := by
  have h : ∀ s ∈ (parse t window mode width).completed, s.Ranked := fun s hs =>
    (State.scored_of_mem_completed hs).2
  exact pairwise_mergeSort_standing State.standing fun s hs s' hs' => by
    rw [State.rank_eq (h s (mem_byRank.mpr hs)).ne_nil (h s' (mem_byRank.mpr hs')).ne_nil]

theorem enumerates_parseAll (hfit : ∀ b ∈ (parseAll t.unfiltered mode width).beams,
    Fits (wholeWindow t) mode (widthOf width) b) :
    Enumerates (wholeWindow t) (maxSteps (wholeWindow t).span)
      (parseAll t.unfiltered mode width).completed := by
  have hclip : clip t.unfiltered.sentence.length ⟨0, t.sentence.length⟩ =
      ⟨0, t.sentence.length⟩ := clip_whole _
  have hw : Window.ofTask t.unfiltered
      (clip t.unfiltered.sentence.length ⟨0, t.sentence.length⟩) = wholeWindow t := by
    rw [hclip]
    rfl
  rw [← hw] at hfit ⊢
  exact enumerates_parse (by rw [hclip]; exact Nat.zero_le _) hfit

section Readings

variable [IsOrderedAddMonoid σ] (hfit : ∀ b ∈ (parseAll t.unfiltered mode width).beams,
  Fits (wholeWindow t) mode (widthOf width) b)

include hfit

/-- The readings of a search that cuts nothing are a survey of each category. -/
theorem survey_readings {r : Reading σ} (hr : r ∈ (parseAll t.unfiltered mode width).readings) :
    t.Survey r.category r.parses r.best.standing := by
  have h := enumerates_parseAll hfit
  have hread := read_readings (parseAll t.unfiltered mode width)
  set l := (parseAll t.unfiltered mode width).completed
  have hsub : (statesFor l r.category).Sublist l := List.filter_sublist
  have hbest := hread.best r hr
  have hscored : ∀ s ∈ l, s.Scored t.score := fun s hs => (State.scored_of_mem_completed hs).1
  refine ⟨(statesFor l r.category).flatMap State.paths, (hsub.flatMap _).nodup h.nodup,
    fun as => mem_paths_statesFor h, ?_, ?_, fun as has => ?_⟩
  · have hcap : ∀ s ∈ l, s.parses ≤ Count.cap := by
      intro s hs
      obtain ⟨k, -, hreached⟩ := h.reached s hs
      exact hreached.parses.trans_le (min_le_left _ _)
    exact (hread.parses hcap r hr).trans (h.parsesFor_eq r.category)
  · have hmem := List.mem_of_mem_head? hbest
    obtain ⟨as, has, he⟩ := (hscored r.best (hsub.subset hmem)).attained
    exact ⟨as, List.mem_flatMap.mpr ⟨r.best, hmem, has⟩, he⟩
  · obtain ⟨s, hs, has⟩ := List.mem_flatMap.mp has
    have hle := le_of_head?_eq_some ((pairwise_completed _ _ mode width).sublist hsub) hbest s hs
    exact hle.trans ((hscored s (hsub.subset hs)).least as has)

theorem category_best {r : Reading σ} (hr : r ∈ (parseAll t.unfiltered mode width).readings) :
    r.best.standing.category = r.category := by
  obtain ⟨paths, -, hmem, -, ⟨as, has, he⟩, -⟩ := survey_readings hfit hr
  obtain ⟨d, -, hc, rfl⟩ := (hmem as).mp has
  rw [pathStanding_actions] at he
  rw [← he]
  exact hc

omit [IsOrderedAddMonoid σ] in
theorem exists_mem_readings {d : Derivation} (hd : t.Parses d) :
    ∃ r ∈ (parseAll t.unfiltered mode width).readings, r.category = d.category := by
  have hmem := (mem_paths_statesFor (enumerates_parseAll hfit)).mpr ⟨d, hd, rfl, rfl⟩
  obtain ⟨s, hs, -⟩ := List.mem_flatMap.mp hmem
  obtain ⟨hs, hc⟩ := List.mem_filter.mp hs
  exact (read_readings _).covers s hs d.category (of_decide_eq_true hc)

/-- The first reading of a search has the least standing. -/
theorem standing_le_of_head? {r : Reading σ}
    (hr : (parseAll t.unfiltered mode width).readings.head? = some r) :
    ∀ r' ∈ (parseAll t.unfiltered mode width).readings, r.best.standing ≤ r'.best.standing := by
  intro r' hr'
  have hread := read_readings (parseAll t.unfiltered mode width)
  have hsome : ∀ s ∈ (parseAll t.unfiltered mode width).completed, s.category?.isSome = true := by
    intro s hs
    obtain ⟨x, hx, -⟩ := Window.isComplete_iff.mp ((enumerates_parseAll hfit).complete s hs)
    rw [State.category?, State.top?, hx]
    rfl
  have hhead := hread.head hsome
  rw [hr] at hhead
  have hmem := List.mem_of_mem_filter (List.mem_of_mem_head? (hread.best r' hr'))
  exact le_of_head?_eq_some (pairwise_completed _ _ mode width) hhead.symm r'.best hmem

end Readings

end Beam

/-! ## Agreement -/

variable [IsOrderedAddMonoid σ]

/-- **Chart and beam search agree when nothing is pruned.** For every grammar, lexicon, sentence and
exact score: the unpruned packed chart and a search whose beam is at every step wide enough for all
states find the same categories over the sentence, with the same numbers of derivations, and the
best of both have the same category and score. -/
theorem chart_beam_agree (t : Task σ) (mode : Packing) (width : Nat)
    (hfit : ∀ b ∈ (Beam.parseAll t.unfiltered mode width).beams,
      Beam.Fits (Beam.wholeWindow t) mode (Beam.widthOf width) b) :
    (∀ c, (∃ g ∈ (Chart.parse t.unfiltered .packed none).derivations t.grammar, g.category = c) ↔
      ∃ r ∈ (Beam.parseAll t.unfiltered mode width).readings, r.category = c) ∧
    (∀ g ∈ (Chart.parse t.unfiltered .packed none).derivations t.grammar,
      ∀ r ∈ (Beam.parseAll t.unfiltered mode width).readings, g.category = r.category →
        g.parses = r.parses) ∧
    ((Chart.parse t.unfiltered .packed none).best? t.grammar).map
        (fun g => (g.category, g.best.score)) =
      (Beam.parseAll t.unfiltered mode width).readings.head?.map
        (fun r => (r.category, r.best.score)) := by
  have hto : ∀ g ∈ (Chart.parse t.unfiltered .packed none).derivations t.grammar,
      ∃ r ∈ (Beam.parseAll t.unfiltered mode width).readings, r.category = g.category := by
    intro g hg
    obtain ⟨d, hd, hc⟩ := (Chart.survey_derivations hg).exists_parses
    rw [← hc]
    exact Beam.exists_mem_readings hfit hd
  have hfrom : ∀ r ∈ (Beam.parseAll t.unfiltered mode width).readings,
      ∃ g ∈ (Chart.parse t.unfiltered .packed none).derivations t.grammar,
        g.category = r.category := by
    intro r hr
    obtain ⟨d, hd, hc⟩ := (Beam.survey_readings hfit hr).exists_parses
    rw [← hc]
    exact Chart.exists_mem_derivations hd
  have hsame : ∀ g ∈ (Chart.parse t.unfiltered .packed none).derivations t.grammar,
      ∀ r ∈ (Beam.parseAll t.unfiltered mode width).readings, g.category = r.category →
        g.parses = r.parses ∧ g.standing = r.best.standing := by
    intro g hg r hr hc
    have hg := Chart.survey_derivations hg
    rw [hc] at hg
    exact hg.unique (Beam.survey_readings hfit hr)
  refine ⟨fun c => ⟨?_, ?_⟩, fun g hg r hr hc => (hsame g hg r hr hc).1, ?_⟩
  · rintro ⟨g, hg, rfl⟩
    exact hto g hg
  · rintro ⟨r, hr, rfl⟩
    exact hfrom r hr
  · cases hg : (Chart.parse t.unfiltered .packed none).best? t.grammar with
    | none =>
      cases hr : (Beam.parseAll t.unfiltered mode width).readings.head? with
      | none => rfl
      | some r =>
        obtain ⟨g, hg', -⟩ := hfrom r (List.mem_of_mem_head? hr)
        rw [List.head?_eq_none_iff.mp hg] at hg'
        cases hg'
    | some g =>
      have hgmem := List.mem_of_mem_head? hg
      cases hr : (Beam.parseAll t.unfiltered mode width).readings.head? with
      | none =>
        obtain ⟨r, hr', -⟩ := hto g hgmem
        rw [List.head?_eq_none_iff.mp hr] at hr'
        cases hr'
      | some r =>
        have hrmem := List.mem_of_mem_head? hr
        obtain ⟨r', hr', hcr⟩ := hto g hgmem
        obtain ⟨g', hg', hcg⟩ := hfrom r hrmem
        have hstanding : g.standing = r.best.standing := by
          refine le_antisymm ?_ ?_
          · rw [← (hsame g' hg' r hrmem hcg).2]
            exact Chart.standing_le_of_best? hg g' hg'
          · rw [(hsame g hgmem r' hr' hcr.symm).2]
            exact Beam.standing_le_of_head? hfit hr r' hr'
        have hscore : g.best.score = r.best.score :=
          (congrArg Standing.score hstanding).trans r.best.score_standing
        have hcat : g.category = r.category :=
          (congrArg Standing.category hstanding).trans (Beam.category_best hfit hrmem)
        rw [Option.map_some, Option.map_some, hscore, hcat]

/-- The words `rex barks` under application and type raising; raising costs one. -/
def rexBarks : Task ℤ where
  grammar := { rules := ⟨[.binary .forwardApplication, .binary .backwardApplication,
    .unary (.typeRaising "raise" (.atom "NP") (.atom "S") .truth)]⟩ }
  lexicon := ⟨[⟨["rex"], ⟨.atom "NP", none⟩, .fixed⟩,
    ⟨["barks"], ⟨.complex (.atom "S") .backward (.atom "NP"), none⟩, .fixed⟩]⟩
  sentence := ["rex", "barks"]
  score a := if a.rule = .rule 2 then -1 else 1

/-- A beam of two states is wide enough for `rex barks`; so the chart counts two derivations as the
search does, with and without raising, and the best one has the score 3. -/
theorem chart_beam_agree_rexBarks :
    (∀ b ∈ (Beam.parseAll rexBarks.unfiltered .packed 2).beams,
      Beam.Fits (Beam.wholeWindow rexBarks) .packed (Beam.widthOf 2) b) ∧
    (∀ g ∈ (Chart.parse rexBarks.unfiltered .packed none).derivations rexBarks.grammar,
      g.parses = 2) ∧
    ((Chart.parse rexBarks.unfiltered .packed none).best? rexBarks.grammar).map
      (fun g => (g.category, g.best.score)) = some (⟨.atom "S", none⟩, 3) := by
  have hall : ((Beam.parseAll rexBarks.unfiltered .packed 2).beams.all fun b => decide
      (Beam.Fits (Beam.wholeWindow rexBarks) .packed (Beam.widthOf 2) b)) = true := by
    cbv
  have hfit : ∀ b ∈ (Beam.parseAll rexBarks.unfiltered .packed 2).beams,
      Beam.Fits (Beam.wholeWindow rexBarks) .packed (Beam.widthOf 2) b := fun b hb =>
    of_decide_eq_true (List.all_eq_true.mp hall b hb)
  have htwo : (Beam.parseAll rexBarks.unfiltered .packed 2).readings.map Beam.Reading.parses =
      [2] := by
    cbv
  obtain ⟨hcategories, hparses, hbest⟩ := chart_beam_agree rexBarks .packed 2 hfit
  refine ⟨hfit, fun g hg => ?_, ?_⟩
  · obtain ⟨r, hr, hc⟩ := (hcategories g.category).mp ⟨g, hg, rfl⟩
    have hr' := List.mem_map_of_mem (f := Beam.Reading.parses) hr
    rw [htwo, List.mem_singleton] at hr'
    rw [hparses g hg r hr hc.symm, hr']
  · rw [hbest]
    cbv

end Categorial
