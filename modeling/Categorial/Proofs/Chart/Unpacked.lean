import Categorial.Proofs.Chart.Optimal

/-!
# Charts with and without packing

Without packing every step is a group of its own, and so a group has one derivation. If the entries of
the lexicon differ, the groups of a cell have different derivations: the root groups are the
derivations of the sentence, one by one. A packed chart gathers the same derivations by category, and
so it finds the same categories, counts the same derivations and ranks the same one first.

* `RuleSet.nodup_results`: no rule gives two results.
* `Chart.Separate`: lists with one derivation each, all different.
* **`Chart.separate_parse`**: the groups of a cell without packing.
* `Chart.isLeast_standing`: the best group has the best standing of all derivations.
* **`chart_packing_agree`**: what the two charts have in common.
-/

namespace Categorial

/-! ## No rule gives two results -/

namespace RuleSet

theorem pairwise_toList (rs : RuleSet) : rs.toList.Pairwise fun x y => x.1 ≠ y.1 := by
  have hnd : (rs.rules.zipIdx.map Prod.snd).Nodup := List.nodup_zipIdx_map_snd rs.rules
  rw [toList, List.pairwise_map]
  exact (List.pairwise_map.mp hnd).imp fun hne he => hne (RuleId.rule.inj he)

theorem nodup_results (rs : RuleSet) (f : Rule → Option Category) :
    (rs.toList.filterMap fun (id, r) => (f r).map fun c => (id, c)).Nodup := by
  refine rs.pairwise_toList.filterMap _ fun x y hne x' hx' y' hy' he => hne ?_
  obtain ⟨_, -, rfl⟩ := Option.map_eq_some_iff.mp hx'
  obtain ⟨_, -, rfl⟩ := Option.map_eq_some_iff.mp hy'
  exact (Prod.mk.inj he).1

theorem nodup_binaryResults (rs : RuleSet) (sig : Signature) (left right : Category) :
    (rs.binaryResults sig left right).Nodup :=
  rs.nodup_results fun r => r.combine sig left right

theorem nodup_unaryResults (rs : RuleSet) (sig : Signature) (cat : Category) :
    (rs.unaryResults sig cat).Nodup :=
  rs.nodup_results fun r => r.applyUnary sig cat

end RuleSet

namespace Chart

open Draft

/-! ## One derivation each -/

/-- Each of the lists has one derivation, and no two have the same. -/
structure Separate (ts : List (List Derivation)) : Prop where
  single : ∀ l ∈ ts, ∃ d, l = [d]
  apart : ts.Pairwise List.Disjoint

namespace Separate

variable {ts ts' : List (List Derivation)}

theorem sublist (h : Separate ts) (hsub : ts'.Sublist ts) : Separate ts' :=
  ⟨fun l hl => h.single l (hsub.subset hl), h.apart.sublist hsub⟩

theorem perm (h : Separate ts) (hperm : ts'.Perm ts) : Separate ts' :=
  ⟨fun l hl => h.single l (hperm.mem_iff.mp hl),
    (hperm.pairwise_iff fun {_ _} hd => List.Disjoint.symm hd).mpr h.apart⟩

theorem length_flatten (h : Separate ts) : ts.flatten.length = ts.length := by
  have hone : ∀ l ∈ ts, l.length = 1 := by
    intro l hl
    obtain ⟨d, rfl⟩ := h.single l hl
    rfl
  rw [List.length_flatten, List.map_congr_left hone, List.map_const', List.sum_replicate, smul_eq_mul,
    mul_one]

theorem nodup_flatten (h : Separate ts) : ts.flatten.Nodup := by
  refine List.nodup_flatten.mpr ⟨fun l hl => ?_, h.apart⟩
  obtain ⟨d, rfl⟩ := h.single l hl
  exact List.nodup_singleton d

end Separate

variable {σ : Type}

/-- Steps on different numbers of groups make different derivations. -/
theorem Separate.append {w : List String} {l₁ l₂ : List (Step σ (Group σ))}
    (h₁ : Separate (l₁.map (Group.treesOfStep w))) (h₂ : Separate (l₂.map (Group.treesOfStep w)))
    (hne : ∀ s ∈ l₁, ∀ s' ∈ l₂, s.children.length ≠ s'.children.length) :
    Separate ((l₁ ++ l₂).map (Group.treesOfStep w)) := by
  rw [List.map_append]
  refine ⟨fun l hl => (List.mem_append.mp hl).elim (h₁.single l) (h₂.single l),
    List.pairwise_append.mpr ⟨h₁.apart, h₂.apart, fun l hl l' hl' d hd hd' => ?_⟩⟩
  obtain ⟨s, hs, rfl⟩ := List.mem_map.mp hl
  obtain ⟨s', hs', rfl⟩ := List.mem_map.mp hl'
  exact hne s hs s' hs'
    ((action_and_arity_of_mem hd).2.symm.trans (action_and_arity_of_mem hd').2)

variable [Score σ] {t : Task σ} {span : Span} {cell : Span → List (Group σ)}

/-- Without packing the groups of a cell have the derivations of its steps, one by one. -/
theorem trees_insertSteps (w : List String) (firstId : Nat) (span : Span) (gs : List (Group σ))
    (steps : List (Step σ (Group σ))) :
    (insertSteps .unpacked firstId span gs steps).map (Group.trees w) =
      gs.map (Group.trees w) ++ steps.map (Group.treesOfStep w) := by
  induction steps generalizing gs with
  | nil => rw [insertSteps, List.foldl_nil, List.map_nil, List.append_nil]
  | cons s steps ih =>
    have hsingle : (Group.single (firstId + gs.length) span s).trees w = Group.treesOfStep w s := by
      rw [Group.trees_eq_flatMap, Group.single, List.flatMap_singleton]
    have hstep := ih (insertStep .unpacked firstId span gs s)
    rw [insertStep, List.map_append, List.map_singleton, hsingle, List.append_assoc,
      List.singleton_append] at hstep
    exact hstep

/-! ## The groups of a cell without packing -/

omit [Score σ] in
theorem separate_lexicalSteps (hL : t.lexicon.Distinct)
    (hstop : span.stop ≤ t.sentence.length) :
    Separate ((lexicalSteps t (t.grammar.provider t.lexicon) span).map
      (Group.treesOfStep t.sentence)) := by
  have htrees : ∀ e, Group.treesOfStep t.sentence (lexicalStep t span e) =
      [.leaf (.lookup span e) (span.tokens t.sentence)] := fun e => by
    rw [lexicalStep, Group.treesOfStep]
    rfl
  refine ⟨fun l hl => ?_, ?_⟩
  · obtain ⟨s, hs, rfl⟩ := List.mem_map.mp hl
    obtain ⟨e, -, rfl⟩ := (mem_lexicalSteps hstop).mp hs
    exact ⟨_, htrees e⟩
  · rw [List.pairwise_map, lexicalSteps]
    split_ifs
    · refine List.pairwise_map.mpr ((t.grammar.pairwise_lookup hL _).imp fun hne d hd hd' => hne ?_)
      rw [htrees, List.mem_singleton] at hd hd'
      exact congrArg Derivation.category (hd.symm.trans hd')
    · exact List.Pairwise.nil

/-- Steps on groups with different derivations, or of different rules, make different derivations. -/
theorem disjoint_binaryStep {l l' r r' : Group σ} {x x' : RuleId × Category}
    (h : (l.trees t.sentence).Disjoint (l'.trees t.sentence) ∨
      (r.trees t.sentence).Disjoint (r'.trees t.sentence) ∨ x ≠ x') :
    (Group.treesOfStep t.sentence (binaryStep t span l r x)).Disjoint
      (Group.treesOfStep t.sentence (binaryStep t span l' r' x')) := by
  intro d hd hd'
  obtain ⟨dl, hdl, dr, hdr, rfl⟩ := Group.mem_treesOfStep_binary.mp hd
  obtain ⟨dl', hdl', dr', hdr', he⟩ := Group.mem_treesOfStep_binary.mp hd'
  obtain ⟨ha, rfl, rfl⟩ := Derivation.binary.inj he
  rcases h with h | h | h
  · exact h hdl hdl'
  · exact h hdr hdr'
  · exact h (Prod.ext (congrArg Action.rule ha) (congrArg Action.category ha))

theorem disjoint_unaryStep {g g' : Group σ} {p p' : Pick σ} {x x' : RuleId × Category}
    (h : (g.trees t.sentence).Disjoint (g'.trees t.sentence) ∨ x ≠ x') :
    (Group.treesOfStep t.sentence (unaryStep t span g p x)).Disjoint
      (Group.treesOfStep t.sentence (unaryStep t span g' p' x')) := by
  intro d hd hd'
  obtain ⟨dc, hdc, rfl⟩ := Group.mem_treesOfStep_unary.mp hd
  obtain ⟨dc', hdc', he⟩ := Group.mem_treesOfStep_unary.mp hd'
  obtain ⟨ha, rfl⟩ := Derivation.unary.inj he
  rcases h with h | h
  · exact h hdc hdc'
  · exact h (Prod.ext (congrArg Action.rule ha) (congrArg Action.category ha))

/-- The steps that join the groups of two cells. -/
theorem separate_joins {ls rs : List (Group σ)} (hl : Separate (ls.map (Group.trees t.sentence)))
    (hr : Separate (rs.map (Group.trees t.sentence))) :
    (ls.flatMap fun l => rs.flatMap fun r => joinSteps t span l r).Pairwise fun s s' =>
      (Group.treesOfStep t.sentence s).Disjoint (Group.treesOfStep t.sentence s') := by
  rw [List.pairwise_flatMap]
  refine ⟨fun l _ => List.pairwise_flatMap.mpr ⟨fun r _ => ?_, ?_⟩, ?_⟩
  · exact List.pairwise_map.mpr ((RuleSet.nodup_binaryResults ..).imp fun hne =>
      disjoint_binaryStep (Or.inr (Or.inr hne)))
  · refine (List.pairwise_map.mp hr.apart).imp fun hdisjoint s hs s' hs' => ?_
    obtain ⟨x, -, rfl⟩ := List.mem_map.mp hs
    obtain ⟨x', -, rfl⟩ := List.mem_map.mp hs'
    exact disjoint_binaryStep (Or.inr (Or.inl hdisjoint))
  · refine (List.pairwise_map.mp hl.apart).imp fun hdisjoint s hs s' hs' => ?_
    obtain ⟨r, -, hs⟩ := List.mem_flatMap.mp hs
    obtain ⟨x, -, rfl⟩ := List.mem_map.mp hs
    obtain ⟨r', -, hs'⟩ := List.mem_flatMap.mp hs'
    obtain ⟨x', -, rfl⟩ := List.mem_map.mp hs'
    exact disjoint_binaryStep (Or.inl hdisjoint)

/-- The steps of the binary rules split the span at different places, join different groups or apply
different rules. -/
theorem separate_binarySteps (hcell : ∀ s : Span, s.length < span.length →
      Separate ((cell s).map (Group.trees t.sentence)) ∧
        ∀ g ∈ cell s, ∀ d ∈ g.trees t.sentence, d.span = s) :
    Separate ((binarySteps t cell span).map (Group.treesOfStep t.sentence)) := by
  have hleft : ∀ k, span.start < k → k < span.stop →
      (⟨span.start, k⟩ : Span).length < span.length := by simp only [Span.length]; omega
  have hright : ∀ k, span.start < k → k < span.stop →
      (⟨k, span.stop⟩ : Span).length < span.length := by simp only [Span.length]; omega
  refine ⟨fun ds hds => ?_, ?_⟩
  · obtain ⟨s, hs, rfl⟩ := List.mem_map.mp hds
    obtain ⟨k, l, r, x, h₁, h₂, hl, hr, -, rfl⟩ := mem_binarySteps.mp hs
    obtain ⟨dl, hdl⟩ := (hcell _ (hleft k h₁ h₂)).1.single _ (List.mem_map_of_mem hl)
    obtain ⟨dr, hdr⟩ := (hcell _ (hright k h₁ h₂)).1.single _ (List.mem_map_of_mem hr)
    refine ⟨.binary (ruleAction span x) dl dr, ?_⟩
    rw [binaryStep, Group.treesOfStep, hdl, hdr]
    rfl
  · have hsplit : ∀ i ∈ List.range (span.length - 1), span.start < span.start + 1 + i ∧
        span.start + 1 + i < span.stop := by
      simp only [List.mem_range, Span.length]
      omega
    rw [List.pairwise_map, binarySteps, List.pairwise_flatMap]
    refine ⟨fun i hi => ?_, List.pairwise_lt_range.imp_of_mem fun {i j} hi hj hij s hs s' hs' => ?_⟩
    · obtain ⟨h₁, h₂⟩ := hsplit i hi
      exact separate_joins (hcell _ (hleft _ h₁ h₂)).1 (hcell _ (hright _ h₁ h₂)).1
    · obtain ⟨l, hl, hs⟩ := List.mem_flatMap.mp hs
      obtain ⟨r, -, hs⟩ := List.mem_flatMap.mp hs
      obtain ⟨x, -, rfl⟩ := List.mem_map.mp hs
      obtain ⟨l', hl', hs'⟩ := List.mem_flatMap.mp hs'
      obtain ⟨r', -, hs'⟩ := List.mem_flatMap.mp hs'
      obtain ⟨x', -, rfl⟩ := List.mem_map.mp hs'
      refine disjoint_binaryStep (Or.inl fun d hd hd' => ?_)
      -- the left parts end at different places
      have hspan := (hcell _ (hleft _ (hsplit i hi).1 (hsplit i hi).2)).2 l hl d hd
      have hspan' := (hcell _ (hleft _ (hsplit j hj).1 (hsplit j hj).2)).2 l' hl' d hd'
      have hstop : span.start + 1 + i = span.start + 1 + j :=
        congrArg Span.stop (hspan.symm.trans hspan')
      omega

theorem separate_unarySteps {gs : List (Group σ)}
    (h : Separate (gs.map (Group.trees t.sentence))) :
    Separate ((unarySteps t span gs).map (Group.treesOfStep t.sentence)) := by
  refine ⟨fun l hl => ?_, ?_⟩
  · obtain ⟨s, hs, rfl⟩ := List.mem_map.mp hl
    obtain ⟨g, p, x, hg, -, -, rfl⟩ := mem_unarySteps.mp hs
    obtain ⟨d, hd⟩ := h.single _ (List.mem_map_of_mem hg)
    refine ⟨.unary (ruleAction span x) d, ?_⟩
    rw [unaryStep, Group.treesOfStep, hd]
    rfl
  · rw [List.pairwise_map, unarySteps, List.pairwise_flatMap]
    refine ⟨fun g _ => ?_, (List.pairwise_map.mp h.apart).imp fun hdisjoint s hs s' hs' => ?_⟩
    · unfold turnSteps
      split
      · exact List.pairwise_map.mpr ((RuleSet.nodup_unaryResults ..).imp fun hne =>
          disjoint_unaryStep (Or.inr hne))
      · exact List.Pairwise.nil
    · obtain ⟨p, x, rfl⟩ := exists_of_mem_turnSteps hs
      obtain ⟨p', x', rfl⟩ := exists_of_mem_turnSteps hs'
      exact disjoint_unaryStep (Or.inl hdisjoint)

omit [Score σ] in
theorem separate_allowed {steps : List (Step σ (Group σ))}
    (h : Separate (steps.map (Group.treesOfStep t.sentence))) :
    Separate ((allowed t steps).map (Group.treesOfStep t.sentence)) :=
  h.sublist (List.filter_sublist.map _)

/-- The steps of a cell make one derivation each, all different, if the groups of shorter spans do. -/
theorem separate_cellSteps (hL : t.lexicon.Distinct) (hstop : span.stop ≤ t.sentence.length)
    (firstId : Nat) (hcell : ∀ s : Span, s.length < span.length →
      Separate ((cell s).map (Group.trees t.sentence)) ∧
        ∀ g ∈ cell s, ∀ d ∈ g.trees t.sentence, d.span = s) :
    Separate ((cellSteps t (t.grammar.provider t.lexicon) .unpacked cell firstId span).map
      (Group.treesOfStep t.sentence)) := by
  have hbase : Separate ((baseSteps t (t.grammar.provider t.lexicon) cell span).map
      (Group.treesOfStep t.sentence)) := by
    refine (separate_allowed (separate_lexicalSteps hL hstop)).append
      (separate_allowed (separate_binarySteps hcell)) fun s hs s' hs' => ?_
    rw [children_of_mem_lexicalSteps (mem_allowed.mp hs).1,
      children_of_mem_binarySteps (mem_allowed.mp hs').1]
    decide
  have hgroups : Separate ((baseGroups t (t.grammar.provider t.lexicon) .unpacked cell firstId
      span).map (Group.trees t.sentence)) := by
    rw [baseGroups, trees_insertSteps]
    exact hbase
  refine hbase.append (separate_allowed (separate_unarySteps hgroups)) fun s hs s' hs' => ?_
  rw [children_of_mem_unarySteps (mem_allowed.mp hs').1]
  rcases List.mem_append.mp hs with hs | hs
  · rw [children_of_mem_lexicalSteps (mem_allowed.mp hs).1]
    decide
  · rw [children_of_mem_binarySteps (mem_allowed.mp hs).1]
    decide

/-- **Without packing the groups of a cell have one derivation each, all different.** -/
theorem separate_parse (hL : t.lexicon.Distinct) (limit : Option Nat) (span : Span) :
    Separate (((parse t .unpacked limit).cell span).map (Group.trees t.sentence)) := by
  have hkeeps : KeepsLookups t .unpacked fun _ _ => True := fun _ _ _ _ _ _ _ _ _ => trivial
  induction hn : span.length using Nat.strong_induction_on generalizing span with
  | _ n ih =>
  by_cases hspan : span.start < span.stop ∧ span.stop ≤ t.sentence.length
  · obtain ⟨firstId, he⟩ := cell_parse t .unpacked limit hspan
    have hsteps := separate_cellSteps hL hspan.2 firstId fun s hs =>
      ⟨ih s.length (hn ▸ hs) s rfl, fun g hg => (yields_cell hkeeps hg).span⟩
    have hgroups : Separate ((cellGroups t (t.grammar.provider t.lexicon) .unpacked
        (parse t .unpacked limit).cell firstId span).map (Group.trees t.sentence)) := by
      rw [cellGroups, trees_insertSteps]
      exact hsteps
    obtain ⟨l, hsub, hperm⟩ := kept_sublist_perm limit (cellGroups t
      (t.grammar.provider t.lexicon) .unpacked (parse t .unpacked limit).cell firstId span)
    rw [he]
    exact (hgroups.perm (hperm.map _)).sublist (hsub.map _)
  · rw [cell_parse_eq_nil t .unpacked limit hspan]
    exact ⟨by simp, List.Pairwise.nil⟩

end Chart

/-! ## What the two charts have in common -/

/-- If the entries of the lexicon differ, packing makes no difference to the derivations. -/
theorem Task.rootDerivation_iff {σ : Type} {t : Task σ} (hL : t.lexicon.Distinct)
    (mode mode' : Packing) {d : Derivation} :
    t.RootDerivation mode d ↔ t.RootDerivation mode' d := by
  have hoffers : ∀ m m' : Packing, ∀ span e, t.Offers m span e → t.Offers m' span e :=
    fun m m' span e h => (Task.offers_iff_mem hL).mpr ((Task.offers_iff_mem hL).mp h)
  exact and_congr_left' ⟨fun h => h.mono (hoffers mode mode'), fun h => h.mono (hoffers mode' mode)⟩

variable {σ : Type} [AddCommMonoid σ] [LinearOrder σ]

namespace Chart

variable {t : Task σ} {mode : Packing} {g : Group σ}

/-- The root groups with a category. -/
def rootsFor (c : Chart σ) (G : Grammar) (cat : Category) : List (Group σ) :=
  (c.derivations G).filter fun g => decide (g.category = cat)

omit [AddCommMonoid σ] [LinearOrder σ] in
theorem mem_rootsFor {c : Chart σ} {G : Grammar} {cat : Category} :
    g ∈ c.rootsFor G cat ↔ g ∈ c.derivations G ∧ g.category = cat := by
  rw [rootsFor, List.mem_filter, decide_eq_true_eq]

/-- The unpacked root groups with a category have one derivation each, all different. -/
theorem separate_rootsFor (hL : t.lexicon.Distinct) (cat : Category) :
    Separate (((parse t.unfiltered .unpacked none).rootsFor t.grammar cat).map
      (Group.trees t.sentence)) :=
  (separate_parse (t := t.unfiltered) hL none _).sublist
    ((List.filter_sublist.trans List.filter_sublist).map _)

/-- The derivations of the unpacked root groups with a category are those of the packed one. -/
theorem perm_trees (hL : t.lexicon.Distinct)
    (hg : g ∈ (parse t.unfiltered .packed none).derivations t.grammar) :
    (((parse t.unfiltered .unpacked none).rootsFor t.grammar g.category).map
      (Group.trees t.sentence)).flatten.Perm (g.trees t.sentence) := by
  have hholds := holds_parse t.uniform_unfiltered none ⟨0, t.sentence.length⟩
  have hnodup : (g.trees t.sentence).Nodup := (hholds.counted g (mem_derivations.mp hg).1).nodup
  refine (List.perm_ext_iff_of_nodup (separate_rootsFor hL g.category).nodup_flatten hnodup).mpr
    fun d => ?_
  have hcategory : ∀ h ∈ (parse t.unfiltered .unpacked none).derivations t.grammar,
      d ∈ h.trees t.sentence → d.category = h.category := fun h hh hd =>
    (yields_cell (keepsLookups_offers t.uniform_unfiltered .unpacked)
      (mem_derivations.mp hh).1).category d hd
  rw [mem_trees_iff hg, Task.rootDerivation_iff hL .packed .unpacked, exists_mem_trees_iff,
    ← List.flatMap_def, List.mem_flatMap]
  constructor
  · rintro ⟨h, hh, hd⟩
    obtain ⟨hh, hc⟩ := mem_rootsFor.mp hh
    exact ⟨⟨h, hh, hd⟩, (hcategory h hh hd).trans hc⟩
  · rintro ⟨⟨h, hh, hd⟩, hc⟩
    exact ⟨h, mem_rootsFor.mpr ⟨hh, (hcategory h hh hd).symm.trans hc⟩, hd⟩

/-- A packed root group counts the unpacked ones with its category. -/
theorem parses_eq_length_rootsFor (hL : t.lexicon.Distinct)
    (hg : g ∈ (parse t.unfiltered .packed none).derivations t.grammar) :
    g.parses = min Count.cap
      ((parse t.unfiltered .unpacked none).rootsFor t.grammar g.category).length := by
  have hholds := holds_parse t.uniform_unfiltered none ⟨0, t.sentence.length⟩
  have hlength := (separate_rootsFor hL g.category).length_flatten
  rw [(perm_trees hL hg).length_eq, List.length_map] at hlength
  rw [← hlength]
  exact (hholds.counted g (mem_derivations.mp hg).1).parses_eq

variable [IsOrderedAddMonoid σ]

/-- The best group has the best standing of all derivations of the sentence. -/
theorem isLeast_standing (hg : (parse t.unfiltered mode none).best? t.grammar = some g) :
    IsLeast {x | ∃ d, t.RootDerivation mode d ∧ d.standing t.score = x} g.standing := by
  constructor
  · have hmem := List.mem_of_mem_head? hg
    obtain ⟨⟨d, hd, -, hstanding⟩, -, -⟩ :=
      optimal_groups (built_of_mem_cell (mem_derivations.mp hmem).1)
    exact ⟨d, exists_mem_trees_iff.mpr ⟨g, hmem, hd⟩, hstanding⟩
  · rintro _ ⟨d, hd, rfl⟩
    obtain ⟨g', hg', hd'⟩ := exists_mem_trees_iff.mp hd
    obtain ⟨-, hleast, -⟩ := optimal_groups (built_of_mem_cell (mem_derivations.mp hg').1)
    exact (standing_le_of_best? hg g' hg').trans (hleast d hd')

end Chart

variable [IsOrderedAddMonoid σ]

/-- **Packing does not change what a chart finds.** For every grammar, every lexicon whose entries
differ, as they do when it is made by adding entries, every sentence and every exact score, the unpruned
charts with and without packing have the same root categories; the best root groups of both have the
same category, score and last rule; and a packed root group counts the unpacked ones with its category,
up to the cap. -/
theorem chart_packing_agree (t : Task σ) (hL : t.lexicon.Distinct) :
    (∀ c, (∃ g ∈ (Chart.parse t.unfiltered .packed none).derivations t.grammar, g.category = c) ↔
      ∃ g ∈ (Chart.parse t.unfiltered .unpacked none).derivations t.grammar, g.category = c) ∧
    ((Chart.parse t.unfiltered .packed none).best? t.grammar).map
        (fun g => (g.category, g.best.score, g.best.rule)) =
      ((Chart.parse t.unfiltered .unpacked none).best? t.grammar).map
        (fun g => (g.category, g.best.score, g.best.rule)) ∧
    ∀ g ∈ (Chart.parse t.unfiltered .packed none).derivations t.grammar,
      g.parses = min Count.cap ((Chart.parse t.unfiltered .unpacked none).rootsFor t.grammar
        g.category).length := by
  have hroots := fun c => (Chart.exists_root_iff (t := t) .packed (c := c)).trans
    (Chart.exists_root_iff .unpacked).symm
  refine ⟨hroots, ?_, fun g hg => Chart.parses_eq_length_rootsFor hL hg⟩
  cases hp : (Chart.parse t.unfiltered .packed none).best? t.grammar with
  | none =>
    cases hu : (Chart.parse t.unfiltered .unpacked none).best? t.grammar with
    | none => rfl
    | some h =>
      obtain ⟨g, hg, -⟩ := (hroots h.category).mpr ⟨h, List.mem_of_mem_head? hu, rfl⟩
      rw [List.head?_eq_none_iff.mp hp] at hg
      cases hg
  | some g =>
    cases hu : (Chart.parse t.unfiltered .unpacked none).best? t.grammar with
    | none =>
      obtain ⟨h, hh, -⟩ := (hroots g.category).mp ⟨g, List.mem_of_mem_head? hp, rfl⟩
      rw [List.head?_eq_none_iff.mp hu] at hh
      cases hh
    | some h =>
      have hleast := Chart.isLeast_standing hu
      simp only [Task.rootDerivation_iff hL .unpacked .packed] at hleast
      have hstanding : g.standing = h.standing := (Chart.isLeast_standing hp).unique hleast
      have hscore : g.best.score = h.best.score := congrArg Standing.score hstanding
      have hrule : g.best.rule = h.best.rule := congrArg Standing.rule hstanding
      have hcategory : g.category = h.category := congrArg Standing.category hstanding
      rw [Option.map_some, Option.map_some, hcategory, hscore, hrule]

/-- The words `rex runs` with two entries for `rex`, one of which raising turns into the other. -/
def rexRuns : Task ℤ where
  grammar := { rules := ⟨[.binary .forwardApplication, .binary .backwardApplication,
    .unary (.typeRaising "raise" (.atom "NP") (.atom "S") .truth)]⟩ }
  lexicon := .ofList [⟨["rex"], ⟨.atom "NP", none⟩, .fixed⟩,
    ⟨["rex"], ⟨.complex (.atom "S") .forward (.complex (.atom "S") .backward (.atom "NP")), none⟩,
      .fixed⟩,
    ⟨["runs"], ⟨.complex (.atom "S") .backward (.atom "NP"), none⟩, .fixed⟩]
  sentence := ["rex", "runs"]
  score a := if a.rule = .rule 2 then 0 else 1

/-- The packed chart of `rex runs` has one root group, which counts the three derivations of the
unpacked one. Forward and backward application tie for the best score; both charts put the one
registered first ahead. -/
theorem chart_packing_agree_rexRuns :
    ((Chart.parse rexRuns.unfiltered .unpacked none).derivations rexRuns.grammar).length = 3 ∧
    (∀ g ∈ (Chart.parse rexRuns.unfiltered .packed none).derivations rexRuns.grammar,
      g.category = ⟨.atom "S", none⟩ ∧ g.parses = 3) ∧
    ((Chart.parse rexRuns.unfiltered .packed none).best? rexRuns.grammar).map
      (fun g => (g.category, g.best.score, g.best.rule)) =
        some (⟨.atom "S", none⟩, 3, .rule 0) := by
  have hthree : ((Chart.parse rexRuns.unfiltered .unpacked none).derivations rexRuns.grammar).map
      Group.category = List.replicate 3 ⟨.atom "S", none⟩ := by
    cbv
  have hlength := congrArg List.length hthree
  rw [List.length_map, List.length_replicate] at hlength
  obtain ⟨hroots, hbest, hparses⟩ := chart_packing_agree rexRuns (Lexicon.distinct_ofList _)
  have hcategory : ∀ g ∈ (Chart.parse rexRuns.unfiltered .unpacked none).derivations
      rexRuns.grammar, g.category = ⟨.atom "S", none⟩ := by
    intro g hg
    have hmem := List.mem_map_of_mem (f := Group.category) hg
    rw [hthree] at hmem
    exact List.eq_of_mem_replicate hmem
  refine ⟨hlength, fun g hg => ?_, ?_⟩
  · obtain ⟨h, hh, hc⟩ := (hroots g.category).mp ⟨g, hg, rfl⟩
    have hs := hc.symm.trans (hcategory h hh)
    refine ⟨hs, ?_⟩
    rw [hparses g hg, Chart.rootsFor, List.filter_eq_self.mpr, hlength]
    · decide
    · intro h hh
      rw [decide_eq_true_eq, hcategory h hh, hs]
  · rw [hbest]
    cbv

end Categorial
