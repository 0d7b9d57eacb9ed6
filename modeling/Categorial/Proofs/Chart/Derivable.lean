import Categorial.Proofs.Chart.Cells
import Categorial.Proofs.Entries

/-!
# Charts derive what the grammar derives

Derivability over a sentence is defined by three rules, one for each kind of step; a unary rule
applies only to what no unary rule has just made. An unpruned chart in which all actions are allowed
has over each span exactly the derivable categories, packed or not.

* `Derives`: derivability of a category over a span.
* **`Chart.cells_derive`**: the categories in the cells of a chart.
-/

namespace Categorial

/-- The category is derivable over the span; the flag tells whether a unary rule made it. -/
inductive Derives (G : Grammar) (L : Lexicon) (w : List String) :
    (unary : Bool) → Span → Category → Prop
  | lexical {span : Span} {e : Entry} : span.start < span.stop → span.stop ≤ w.length →
      e ∈ (G.provider L).lookup (span.tokens w) → Derives G L w false span e.category
  | binary {u v : Bool} {i k j : Nat} {l r c : Category} {rule : Rule} :
      Derives G L w u ⟨i, k⟩ l → Derives G L w v ⟨k, j⟩ r → rule ∈ G.rules.rules →
      rule.combine G.sig l r = some c → Derives G L w false ⟨i, j⟩ c
  | unary {span : Span} {c c' : Category} {rule : Rule} :
      Derives G L w false span c → rule ∈ G.rules.rules → rule.applyUnary G.sig c = some c' →
      Derives G L w true span c'

theorem Derives.inside {G : Grammar} {L : Lexicon} {w : List String} {u : Bool} {span : Span}
    {c : Category} (h : Derives G L w u span c) :
    span.start < span.stop ∧ span.stop ≤ w.length := by
  induction h with
  | lexical h₁ h₂ _ => exact ⟨h₁, h₂⟩
  | binary _ _ _ _ ihl ihr => exact ⟨lt_trans ihl.1 ihr.1, ihr.2⟩
  | unary _ _ _ ih => exact ih

variable {σ : Type} [Score σ]

/-- The task with all actions allowed. -/
def Task.unfiltered (t : Task σ) : Task σ := { t with accept := fun _ => true }

namespace Chart

omit [Score σ] in
theorem allowed_unfiltered (t : Task σ) (steps : List (Step σ (Group σ))) :
    Draft.allowed t.unfiltered steps = steps :=
  List.filter_eq_self.mpr fun _ _ => rfl

/-! ## Steps and their categories -/

theorem mem_categories_of_gathered {mode : Packing} {firstId : Nat} {span : Span}
    {steps : List (Step σ (Group σ))} {gs : List (Group σ)}
    (h : Draft.Gathered mode firstId span steps gs) {c : Category} :
    (∃ g ∈ gs, g.category = c) ↔ ∃ s ∈ steps, s.action.category = c := by
  constructor
  · rintro ⟨g, hg, rfl⟩
    obtain ⟨s, rest, he, hmem, -⟩ := h.made g hg
    have hs := hmem s List.mem_cons_self
    rw [Draft.stepsFor, List.mem_filter, decide_eq_true_eq] at hs
    exact ⟨s, hs.1, hs.2⟩
  · rintro ⟨s, hs, rfl⟩
    exact h.covers s hs

omit [Score σ] in
theorem mem_lexicalSteps {t : Task σ} {span : Span} (hspan : span.stop ≤ t.sentence.length)
    {s : Step σ (Group σ)} :
    s ∈ Draft.lexicalSteps t (t.grammar.provider t.lexicon) span ↔
      ∃ e ∈ (t.grammar.provider t.lexicon).lookup (span.tokens t.sentence),
        s = Draft.lexicalStep t span e := by
  unfold Draft.lexicalSteps
  split_ifs with hlen
  · simp only [List.mem_map, eq_comm]
  · simp only [List.not_mem_nil, false_iff, not_exists, not_and]
    intro e he
    have := t.grammar.length_le_maxLength t.lexicon he
    rw [Span.length_tokens hspan] at this
    exact absurd this hlen

theorem mem_binarySteps {t : Task σ} {cell : Span → List (Group σ)} {span : Span}
    {s : Step σ (Group σ)} :
    s ∈ Draft.binarySteps t cell span ↔ ∃ k l r x, span.start < k ∧ k < span.stop ∧
      l ∈ cell ⟨span.start, k⟩ ∧ r ∈ cell ⟨k, span.stop⟩ ∧
      x ∈ t.grammar.rules.binaryResults t.grammar.sig l.category r.category ∧
      s = Draft.binaryStep t span l r x := by
  simp only [Draft.binarySteps, Draft.joinSteps, List.mem_flatMap, List.mem_range, List.mem_map,
    Span.length]
  constructor
  · rintro ⟨i, hi, l, hl, r, hr, x, hx, rfl⟩
    exact ⟨span.start + 1 + i, l, r, x, by omega, by omega, hl, hr, hx, rfl⟩
  · rintro ⟨k, l, r, x, h₁, h₂, hl, hr, hx, rfl⟩
    have hk : span.start + 1 + (k - span.start - 1) = k := by omega
    exact ⟨k - span.start - 1, by omega, l, by rwa [hk], r, by rwa [hk], x, hx, rfl⟩

theorem exists_of_mem_turnSteps {t : Task σ} {span : Span} {g : Group σ} {s : Step σ (Group σ)}
    (h : s ∈ Draft.turnSteps t span g) : ∃ p x, s = Draft.unaryStep t span g p x := by
  unfold Draft.turnSteps at h
  split at h
  · obtain ⟨x, -, rfl⟩ := List.mem_map.mp h
    exact ⟨_, x, rfl⟩
  · cases h

theorem mem_unarySteps {t : Task σ} {span : Span} {gs : List (Group σ)} {s : Step σ (Group σ)} :
    s ∈ Draft.unarySteps t span gs ↔ ∃ g base x, g ∈ gs ∧ g.base = some base ∧
      x ∈ t.grammar.rules.unaryResults t.grammar.sig g.category ∧
      s = Draft.unaryStep t span g base x := by
  simp only [Draft.unarySteps, Draft.turnSteps, List.mem_flatMap]
  constructor
  · rintro ⟨g, hg, hs⟩
    cases hb : g.base with
    | none => rw [hb] at hs; cases hs
    | some base =>
      rw [hb] at hs
      obtain ⟨x, hx, rfl⟩ := List.mem_map.mp hs
      exact ⟨g, base, x, hg, hb, hx, rfl⟩
  · rintro ⟨g, base, x, hg, hb, hx, rfl⟩
    refine ⟨g, hg, ?_⟩
    rw [hb]
    exact List.mem_map_of_mem hx

theorem isUnary_of_mem_baseSteps {t : Task σ} {p : Provider} {cell : Span → List (Group σ)}
    {span : Span} {s : Step σ (Group σ)} (h : s ∈ baseSteps t p cell span) : s.isUnary = false := by
  rcases List.mem_append.mp h with h | h
  · have h := List.mem_of_mem_filter h
    unfold Draft.lexicalSteps at h
    split_ifs at h
    · obtain ⟨e, -, rfl⟩ := List.mem_map.mp h
      rfl
    · cases h
  · obtain ⟨k, l, r, x, -, -, -, -, -, rfl⟩ := mem_binarySteps.mp (List.mem_of_mem_filter h)
    rfl

theorem isSome_base_push {g : Group σ} (s : Step σ (Group σ)) (h : g.base.isSome = true) :
    (g.push s).base.isSome = true := by
  unfold Group.push
  split_ifs
  · exact h
  · obtain ⟨p, hp⟩ := Option.isSome_iff_exists.mp h
    simp only [Group.betterBase, hp]
    split_ifs <;> rfl

/-- The unary rules are applied to every group built before. -/
theorem isSome_base_of_mem_baseGroups {t : Task σ} {p : Provider} {mode : Packing}
    {cell : Span → List (Group σ)} {firstId : Nat} {span : Span} {g : Group σ}
    (h : g ∈ baseGroups t p mode cell firstId span) : g.base.isSome = true := by
  obtain ⟨s, rest, he, hmem, -⟩ := (gathered_baseGroups mode cell firstId span).made g h
  rw [he]
  refine Group.gather_induct (motive := fun g => g.base.isSome = true) ?_
    fun g s' _ hg => isSome_base_push s' hg
  have hs := isUnary_of_mem_baseSteps (List.mem_of_mem_filter (hmem s List.mem_cons_self))
  simp [Group.single, hs]

/-! ## Cells and derivability -/

section Cells

variable {t : Task σ} {mode : Packing}

/-- The cell has exactly the derivable categories. -/
def Exact (t : Task σ) (cell : Span → List (Group σ)) (span : Span) : Prop :=
  ∀ c, (∃ g ∈ cell span, g.category = c) ↔
    ∃ u, Derives t.grammar t.lexicon t.sentence u span c

theorem exists_baseStep_iff {cell : Span → List (Group σ)} {span : Span}
    (hspan : span.start < span.stop ∧ span.stop ≤ t.sentence.length)
    (ih : ∀ s : Span, s.length < span.length → Exact t cell s) {c : Category} :
    (∃ s ∈ baseSteps t.unfiltered (t.grammar.provider t.lexicon) cell span,
      s.action.category = c) ↔ Derives t.grammar t.lexicon t.sentence false span c := by
  simp only [baseSteps, allowed_unfiltered, List.mem_append]
  constructor
  · rintro ⟨s, hs | hs, rfl⟩
    · obtain ⟨e, he, rfl⟩ := (mem_lexicalSteps hspan.2).mp hs
      exact .lexical hspan.1 hspan.2 he
    · obtain ⟨k, l, r, ⟨id, c⟩, h₁, h₂, hl, hr, hx, rfl⟩ := mem_binarySteps.mp hs
      obtain ⟨u, hu⟩ := (ih ⟨span.start, k⟩ (by simp only [Span.length]; omega) _).mp ⟨l, hl, rfl⟩
      obtain ⟨v, hv⟩ := (ih ⟨k, span.stop⟩ (by simp only [Span.length]; omega) _).mp ⟨r, hr, rfl⟩
      obtain ⟨rule, hrule, hc⟩ := RuleSet.mem_binaryResults.mp hx
      exact .binary hu hv (RuleSet.mem_rules_iff.mpr ⟨id, hrule⟩) hc
  · intro h
    cases h with
    | lexical _ _ he => exact ⟨_, Or.inl ((mem_lexicalSteps hspan.2).mpr ⟨_, he, rfl⟩), rfl⟩
    | @binary u v i k j l r c rule hl hr hrule hc =>
      have hi := hl.inside
      have hj := hr.inside
      obtain ⟨gl, hgl, rfl⟩ := (ih ⟨i, k⟩ (by simp only [Span.length] at *; omega) l).mpr ⟨u, hl⟩
      obtain ⟨gr, hgr, rfl⟩ := (ih ⟨k, j⟩ (by simp only [Span.length] at *; omega) r).mpr ⟨v, hr⟩
      obtain ⟨id, hid⟩ := RuleSet.mem_rules_iff.mp hrule
      refine ⟨_, Or.inr (mem_binarySteps.mpr ⟨k, gl, gr, (id, c), hi.1, hj.1, hgl, hgr, ?_, rfl⟩), rfl⟩
      exact RuleSet.mem_binaryResults.mpr ⟨rule, hid, hc⟩

theorem exists_baseGroup_iff {cell : Span → List (Group σ)} {span : Span} {firstId : Nat}
    (hspan : span.start < span.stop ∧ span.stop ≤ t.sentence.length)
    (ih : ∀ s : Span, s.length < span.length → Exact t cell s) {c : Category} :
    (∃ g ∈ baseGroups t.unfiltered (t.grammar.provider t.lexicon) mode cell firstId span,
      g.category = c) ↔ Derives t.grammar t.lexicon t.sentence false span c :=
  (mem_categories_of_gathered (gathered_baseGroups mode cell firstId span)).trans
    (exists_baseStep_iff hspan ih)

/-- If the cells of shorter spans are exact, so is this one. -/
theorem exists_cellGroup_iff {cell : Span → List (Group σ)} {span : Span} {firstId : Nat}
    (hspan : span.start < span.stop ∧ span.stop ≤ t.sentence.length)
    (ih : ∀ s : Span, s.length < span.length → Exact t cell s) {c : Category} :
    (∃ g ∈ cellGroups t.unfiltered (t.grammar.provider t.lexicon) mode cell firstId span,
      g.category = c) ↔ ∃ u, Derives t.grammar t.lexicon t.sentence u span c := by
  rw [mem_categories_of_gathered (gathered_cellGroups mode cell firstId span)]
  simp only [cellSteps, allowed_unfiltered, List.mem_append]
  constructor
  · rintro ⟨s, hs | hs, rfl⟩
    · exact ⟨false, (exists_baseStep_iff hspan ih).mp ⟨s, hs, rfl⟩⟩
    · obtain ⟨g, base, ⟨id, c⟩, hg, -, hx, rfl⟩ := mem_unarySteps.mp hs
      obtain ⟨rule, hrule, hc⟩ := RuleSet.mem_unaryResults.mp hx
      exact ⟨true, .unary ((exists_baseGroup_iff hspan ih).mp ⟨g, hg, rfl⟩)
        (RuleSet.mem_rules_iff.mpr ⟨id, hrule⟩) hc⟩
  · rintro ⟨u, h⟩
    cases u with
    | false =>
      obtain ⟨s, hs, rfl⟩ := (exists_baseStep_iff hspan ih).mpr h
      exact ⟨s, Or.inl hs, rfl⟩
    | true =>
      cases h with
      | @unary _ c' c rule h hrule hc =>
        have hbuilt : ∃ g ∈ baseGroups t.unfiltered (t.grammar.provider t.lexicon) mode cell
            firstId span, g.category = c' := (exists_baseGroup_iff hspan ih).mpr h
        obtain ⟨g, hg, rfl⟩ := hbuilt
        obtain ⟨base, hbase⟩ := Option.isSome_iff_exists.mp (isSome_base_of_mem_baseGroups hg)
        obtain ⟨id, hid⟩ := RuleSet.mem_rules_iff.mp hrule
        refine ⟨_, Or.inr (mem_unarySteps.mpr ⟨g, base, (id, c), hg, hbase, ?_, rfl⟩), rfl⟩
        exact RuleSet.mem_unaryResults.mpr ⟨rule, hid, hc⟩

theorem exact_parse (t : Task σ) (mode : Packing) (span : Span) :
    Exact t (parse t.unfiltered mode none).cell span := by
  induction hn : span.length using Nat.strong_induction_on generalizing span with
  | _ n ih =>
  intro c
  by_cases hspan : span.start < span.stop ∧ span.stop ≤ t.sentence.length
  · obtain ⟨firstId, he⟩ := cell_parse t.unfiltered mode none hspan
    rw [he]
    simp only [(kept_none_perm _).mem_iff]
    exact exists_cellGroup_iff hspan fun s hs => ih s.length (hn ▸ hs) s rfl
  · rw [cell_parse_eq_nil t.unfiltered mode none hspan]
    simp only [List.not_mem_nil, false_and, exists_false, false_iff, not_exists]
    exact fun u h => hspan h.inside

end Cells

/-- Packed cells have one group to a category. -/
theorem nodup_categories_packed (t : Task σ) (limit : Option Nat) (span : Span) :
    (((parse t .packed limit).cell span).map Group.category).Nodup := by
  by_cases hspan : span.start < span.stop ∧ span.stop ≤ t.sentence.length
  · obtain ⟨firstId, he⟩ := cell_parse t .packed limit hspan
    obtain ⟨l, hsub, hperm⟩ := kept_sublist_perm limit (cellGroups t
      (t.grammar.provider t.lexicon) .packed (parse t .packed limit).cell firstId span)
    rw [he]
    refine (hsub.map Group.category).nodup ((hperm.map Group.category).nodup_iff.mpr ?_)
    exact (gathered_cellGroups .packed _ firstId span).nodup rfl
  · rw [cell_parse_eq_nil t .packed limit hspan]
    exact List.nodup_nil

theorem mem_derivations_iff {t : Task σ} {mode : Packing} {limit : Option Nat} {G : Grammar}
    {g : Group σ} : g ∈ (parse t mode limit).derivations G ↔
      g ∈ (parse t mode limit).cell ⟨0, t.sentence.length⟩ ∧ G.isRoot g.category.syn = true := by
  rw [derivations, List.mem_filter, full, sentence_parse]

theorem mem_derivations {t : Task σ} {mode : Packing} {g : Group σ} :
    g ∈ (parse t.unfiltered mode none).derivations t.grammar ↔
      g ∈ (parse t.unfiltered mode none).cell ⟨0, t.sentence.length⟩ ∧
        t.grammar.isRoot g.category.syn = true :=
  mem_derivations_iff

/-- With and without packing a chart has the derivable root categories. -/
theorem exists_root_iff {t : Task σ} (mode : Packing) {c : Category} :
    (∃ g ∈ (parse t.unfiltered mode none).derivations t.grammar, g.category = c) ↔
      (∃ u, Derives t.grammar t.lexicon t.sentence u ⟨0, t.sentence.length⟩ c) ∧
        t.grammar.isRoot c.syn = true := by
  rw [← exact_parse t mode]
  simp only [mem_derivations]
  constructor
  · rintro ⟨g, ⟨hg, hroot⟩, rfl⟩
    exact ⟨⟨g, hg, rfl⟩, hroot⟩
  · rintro ⟨⟨g, hg, rfl⟩, hroot⟩
    exact ⟨g, ⟨hg, hroot⟩, rfl⟩

/-- **An unpruned chart derives what the grammar derives.** Its cells hold exactly the derivable
categories, packed cells hold each at most once, and the derivations are the groups over the whole
sentence with a root category. -/
theorem cells_derive (t : Task σ) :
    (∀ (mode : Packing) (span : Span) (c : Category),
      (∃ g ∈ (parse t.unfiltered mode none).cell span, g.category = c) ↔
        ∃ u, Derives t.grammar t.lexicon t.sentence u span c) ∧
    (∀ span, (((parse t.unfiltered .packed none).cell span).map Group.category).Nodup) ∧
    ∀ (mode : Packing) (g : Group σ),
      g ∈ (parse t.unfiltered mode none).derivations t.grammar ↔
        g ∈ (parse t.unfiltered mode none).cell ⟨0, t.sentence.length⟩ ∧
          t.grammar.isRoot g.category.syn = true :=
  ⟨fun mode span => exact_parse t mode span, nodup_categories_packed t.unfiltered none,
    fun _ _ => mem_derivations⟩

end Chart

end Categorial
