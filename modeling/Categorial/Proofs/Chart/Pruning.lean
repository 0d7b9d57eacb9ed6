import Categorial.Proofs.Chart.Optimal
import Categorial.Proofs.Chart.Roster

/-!
# Pruned charts

A limit drops the lowest groups of every cell, and so it changes what longer spans are built from.
Still nothing new can come up: a derivation in a pruned chart is grammatical, and the unpruned chart has
all of those. So a group that is kept has its derivations in the unpruned group of its category, and
these include its best one.

* `Draft.rank_eq_lt`: no two groups with different categories rank alike.
* `Chart.before_of_not_mem_kept`: what is dropped ranks after what is kept.
* `Chart.exists_unpruned`: the group of an unpruned chart that a kept group is a part of.
* **`pruning_drops_lowest`**: what a limit does to a packed chart.
-/

namespace Categorial

variable {σ : Type} [AddCommMonoid σ] [LinearOrder σ]

/-- Groups with different categories never rank alike. -/
theorem Draft.rank_eq_lt {g h : Group σ} (hle : g.standing ≤ h.standing)
    (hne : g.category ≠ h.category) : rank g h = .lt := by
  rw [rank_eq]
  cases hcmp : g.standing.cmp h.standing with
  | lt => rfl
  | eq => exact absurd (congrArg Standing.category (Standing.eq_of_cmp_eq hcmp)) hne
  | gt =>
    rw [Standing.le_iff, hcmp] at hle
    cases hle

namespace Chart

open Draft

variable {t : Task σ} {k : Nat} {limit : Option Nat} {span : Span} {g : Group σ}

/-- If a group is dropped then the cell is full, and no group that is kept ranks after it. -/
theorem before_of_not_mem_kept {gs : List (Group σ)} (hg : g ∈ gs) (hdrop : g ∉ kept (some k) gs) :
    (kept (some k) gs).length = k ∧ ∀ h ∈ kept (some k) gs, h.standing ≤ g.standing := by
  have hsorted := pairwise_mergeSort_rank gs
  have hmem : g ∈ gs.mergeSort fun g h => (rank g h).isLE := List.mem_mergeSort.mpr hg
  rw [← List.take_append_drop k (gs.mergeSort fun g h => (rank g h).isLE)] at hsorted hmem
  have hlast := (List.mem_append.mp hmem).resolve_left hdrop
  refine ⟨List.length_take_of_le ?_, fun h hh => (List.pairwise_append.mp hsorted).2.2 h hh g hlast⟩
  exact (Nat.lt_of_not_ge fun hle => List.ne_nil_of_mem hlast (List.drop_eq_nil_of_le hle)).le

theorem length_cell_le (t : Task σ) (mode : Packing) (k : Nat) (span : Span) :
    ((parse t mode (some k)).cell span).length ≤ k := by
  by_cases hspan : span.start < span.stop ∧ span.stop ≤ t.sentence.length
  · obtain ⟨firstId, he⟩ := cell_parse t mode (some k) hspan
    rw [he]
    exact List.length_take_le k _
  · rw [cell_parse_eq_nil t mode (some k) hspan]
    exact Nat.zero_le k

/-- The groups of a packed cell are ranked, with no ties. -/
theorem pairwise_rank_cell (t : Task σ) (limit : Option Nat) (span : Span) :
    ((parse t .packed limit).cell span).Pairwise fun g h => rank g h = .lt := by
  have hnodup := List.pairwise_map.mp (nodup_categories_packed t limit span)
  exact ((pairwise_cell t .packed limit span).and hnodup).imp fun h => rank_eq_lt h.1 h.2

/-- A group that was built for a packed cell and is not in it ranks after all that are. -/
theorem before_of_dropped (hg : g ∈ roster t .packed (some k)) (hspan : g.span = span)
    (hdrop : g ∉ (parse t .packed (some k)).cell span) :
    ((parse t .packed (some k)).cell span).length = k ∧
      ∀ h ∈ (parse t .packed (some k)).cell span, rank h g = .lt := by
  obtain ⟨first, hlisted⟩ := exists_listed t .packed (some k)
  obtain ⟨span', hmember⟩ := (hlisted.mem_iff g).mp hg
  obtain rfl : span' = span := (span_of_member hmember).symm.trans hspan
  obtain ⟨hinside, hg⟩ := hmember
  have hcell := hlisted.filled.cell_eq span' (mem_spans.mpr hinside)
  rw [mode_parse] at hcell
  obtain ⟨hfull, hbefore⟩ := before_of_not_mem_kept hg (hcell ▸ hdrop)
  refine ⟨hcell ▸ hfull, fun h hh => rank_eq_lt (hbefore h (hcell ▸ hh)) fun hc => hdrop ?_⟩
  -- a group with the category of a kept one is that group
  have hnodup := (gathered_cellGroups (t := t) (p := t.grammar.provider t.lexicon) .packed
    (parse t .packed (some k)).cell (first span') span').nodup rfl
  have hh' := mem_of_mem_kept (hcell ▸ hh)
  rwa [← List.inj_on_of_nodup_map hnodup hh' hg hc]

/-- The derivations of a group that a limit keeps are all in the group of its category in the unpruned
chart, which has no lower score. -/
theorem exists_unpruned [IsOrderedAddMonoid σ] (hu : t.Uniform)
    (hg : g ∈ (parse t .packed limit).cell span) :
    ∃ g' ∈ (parse t .packed none).cell span, g'.category = g.category ∧
      g.best.score ≤ g'.best.score ∧ g.trees t.sentence ⊆ g'.trees t.sentence := by
  have hyields := yields_cell (keepsLookups_offers hu .packed) hg
  have hwhole : ∀ d ∈ g.trees t.sentence, ∃ g' ∈ (parse t .packed none).cell span,
      g'.category = g.category ∧ d ∈ g'.trees t.sentence := by
    intro d hd
    obtain ⟨g', hg', hd'⟩ := exhausts_parse hu .packed span d (hyields.makes d hd)
      (hyields.span d hd) nofun
    have hc := (yields_cell (keepsLookups_offers hu .packed) hg').category d hd'
    exact ⟨g', hg', hc.symm.trans (hyields.category d hd), hd'⟩
  obtain ⟨best, hbest, -, hstanding⟩ := (optimal_groups (built_of_mem_cell hg)).attained
  obtain ⟨g', hg', hc, hmem⟩ := hwhole best hbest
  refine ⟨g', hg', hc, ?_, fun d hd => ?_⟩
  · have hleast := (optimal_groups (built_of_mem_cell hg')).least best hmem
    rw [hstanding] at hleast
    exact Standing.score_le hleast
  · -- all derivations of the group have its category, and so they are in one group
    obtain ⟨g'', hg'', hc', hd⟩ := hwhole d hd
    rwa [List.inj_on_of_nodup_map (nodup_categories_packed t none span) hg' hg'' (hc.trans hc'.symm)]

end Chart

/-- **Pruning loses the lowest groups and their derivations only.** For every grammar, lexicon, sentence
and exact score, and every limit, the cells of the packed chart have at most as many groups as the limit
says, with different categories, ranked by their scores, their best rules and their categories. A group
that was built for a cell is dropped only if the cell is full, and it ranks after all groups kept there.
Each group kept is, in the chart without a limit, part of the group with its category over its span: that
one has no lower score, and all derivations of the group. -/
theorem pruning_drops_lowest [IsOrderedAddMonoid σ] (t : Task σ) (k : Nat) (span : Span) :
    let pruned := (Chart.parse t.unfiltered .packed (some k)).cell span
    let whole := (Chart.parse t.unfiltered .packed none).cell span
    pruned.length ≤ k ∧
    (pruned.map Group.category).Nodup ∧
    pruned.Pairwise (fun g h => Draft.rank g h = .lt) ∧
    (∀ g ∈ Chart.roster t.unfiltered .packed (some k), g.span = span → g ∉ pruned →
      pruned.length = k ∧ ∀ h ∈ pruned, Draft.rank h g = .lt) ∧
    ∀ g ∈ pruned, ∃ g' ∈ whole, g'.category = g.category ∧ g.best.score ≤ g'.best.score ∧
      ∀ d ∈ g.trees t.sentence, d ∈ g'.trees t.sentence := by
  intro pruned whole
  exact ⟨Chart.length_cell_le _ _ _ _, Chart.nodup_categories_packed _ _ _,
    Chart.pairwise_rank_cell _ _ _, fun g hg hspan hdrop => Chart.before_of_dropped hg hspan hdrop,
    fun g hg => Chart.exists_unpruned t.uniform_unfiltered hg⟩

/-- With a limit of one group, the cell of `fish` keeps the raised category only. The noun phrase that it
was raised from is dropped, since it ranks lower, but the derivations that go through it are all there in
the chart without a limit. -/
theorem pruning_drops_lowest_fish :
    (∃ g ∈ Chart.roster fish.unfiltered .packed (some 1), g.category.syn = .atom "NP" ∧
      ∀ h ∈ (Chart.parse fish.unfiltered .packed (some 1)).cell ⟨0, 1⟩, Draft.rank h g = .lt) ∧
    ∃ g ∈ (Chart.parse fish.unfiltered .packed (some 1)).cell ⟨0, 1⟩,
      ∃ g' ∈ (Chart.parse fish.unfiltered .packed none).cell ⟨0, 1⟩, g'.category = g.category ∧
        3 ≤ g'.best.score ∧ ∀ d ∈ g.trees fish.sentence, d ∈ g'.trees fish.sentence := by
  obtain ⟨-, -, -, hdropped, hkept⟩ := pruning_drops_lowest fish 1 ⟨0, 1⟩
  have hcell : ((Chart.parse fish.unfiltered .packed (some 1)).cell ⟨0, 1⟩).map
      (fun g => (g.category.syn == .atom "NP", g.best.score)) = [(false, 3)] := by
    cbv
  have hroster : (Chart.roster fish.unfiltered .packed (some 1)).map
      (fun g => (g.category.syn == .atom "NP", g.span)) = [(true, ⟨0, 1⟩), (false, ⟨0, 1⟩)] := by
    cbv
  refine ⟨?_, ?_⟩
  · obtain ⟨g, hg, he⟩ := List.mem_map.mp (hroster ▸ List.mem_cons_self)
    obtain ⟨hnoun, hspan⟩ := Prod.mk.inj he
    refine ⟨g, hg, eq_of_beq hnoun, (hdropped g hg hspan fun hmem => ?_).2⟩
    have hmem := List.mem_map_of_mem (f := fun g => (g.category.syn == .atom "NP", g.best.score)) hmem
    rw [hcell, List.mem_singleton, hnoun] at hmem
    cases hmem
  · obtain ⟨g, hg, he⟩ := List.mem_map.mp (hcell ▸ List.mem_singleton_self _)
    obtain ⟨g', hg', hc, hle, htrees⟩ := hkept g hg
    exact ⟨g, hg, g', hg', hc, (Prod.mk.inj he).2 ▸ hle, htrees⟩

end Categorial
