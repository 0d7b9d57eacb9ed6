import Categorial.Proofs.Chart.Harvest

/-!
# What the groups of a chart use

The groups of a chart are told apart by their ids, so the actions of a group are those that it uses.
They are allowed actions in the span of the group, and each of them ends a grammatical derivation of
such actions.

* `Chart.depth`, `Chart.RuleStep.exists_shallower`: steps build on less deep groups.
* `Chart.population_members`: the groups of a chart and what they were before their unary steps.
* **`Chart.has_actions_iff`**: the actions of a group are those that it uses.
* `Chart.Encloses`, `Chart.encloses_cell`: where they are.
* `Chart.Realizes`, `Chart.realizes_cell`: each of them ends a derivation.
-/

namespace Categorial

/-! ## The groups of a chart -/

variable {σ : Type} [Score σ]

namespace Chart

open Draft

variable {t : Task σ} {mode : Packing} {limit : Option Nat} {C D : Bool → Span → Group σ → Prop}
  {base : Bool} {span : Span} {g : Group σ}

/-- How far a group can be above look-ups: a unary rule leaves the span as it is, but is not applied
twice. -/
def depth (base : Bool) (span : Span) : Nat := 2 * span.length + if base then 0 else 1

/-- The groups that a step builds on are less deep. -/
theorem RuleStep.exists_shallower {s : Step σ (Group σ)} (h : RuleStep t C base span s)
    {p : Bool × Group σ} (hp : p ∈ s.parts) :
    ∃ span', C p.1 span' p.2 ∧ depth p.1 span' < depth base span := by
  cases h with
  | @binary k l r x h₁ h₂ hl hr =>
    rcases List.mem_cons.mp hp with rfl | hp
    · refine ⟨_, hl, ?_⟩
      simp only [depth, Span.length, Bool.false_eq_true, if_false]
      omega
    · rw [List.mem_singleton.mp hp]
      refine ⟨_, hr, ?_⟩
      simp only [depth, Span.length, Bool.false_eq_true, if_false]
      omega
  | unary hbase hc =>
    rw [List.mem_singleton.mp hp]
    refine ⟨_, hc, ?_⟩
    rw [hbase]
    exact Nat.lt_succ_self _

theorem RuleStep.exists_of_mem_parts {s : Step σ (Group σ)} (h : RuleStep t C base span s)
    {p : Bool × Group σ} (hp : p ∈ s.parts) : ∃ span', C p.1 span' p.2 := by
  obtain ⟨span', hpart, -⟩ := h.exists_shallower hp
  exact ⟨span', hpart⟩

/-- A group of the chart over the span; the flag tells that it is as it was before the unary rules were
applied. The ids of the groups over a span start with `first` of it. -/
def Member (t : Task σ) (mode : Packing) (limit : Option Nat) (first : Span → Nat) (base : Bool)
    (span : Span) (g : Group σ) : Prop :=
  (span.start < span.stop ∧ span.stop ≤ t.sentence.length) ∧
    match base with
    | true => g ∈ baseGroups t (t.grammar.provider t.lexicon) mode (parse t mode limit).cell
        (first span) span
    | false => g ∈ cellGroups t (t.grammar.provider t.lexicon) mode (parse t mode limit).cell
        (first span) span

section Members

variable {first : Span → Nat}
  (hf : Filled t (t.grammar.provider t.lexicon) limit first (spans t.sentence.length)
    (parse t mode limit))

include hf

theorem member_of_mem_cell (hg : g ∈ (parse t mode limit).cell span) :
    Member t mode limit first false span g := by
  obtain ⟨-, hspan⟩ := span_of_mem_cell hg
  have hcell := hf.cell_eq span (mem_spans.mpr hspan)
  rw [mode_parse] at hcell
  exact ⟨hspan, mem_of_mem_kept (hcell ▸ hg)⟩

theorem madeFrom_of_member (hg : Member t mode limit first base span g) :
    MadeFrom t mode (Member t mode limit first) base span g := by
  obtain ⟨hspan, hg⟩ := hg
  have hcell : ∀ s : Span, s.length < span.length → ∀ g ∈ (parse t mode limit).cell s,
      Member t mode limit first false s g := fun _ _ _ hg => member_of_mem_cell hf hg
  cases base with
  | true => exact madeFrom_of_mem_baseGroups hcell hg
  | false => exact madeFrom_of_mem_cellGroups hcell (fun _ hg' => ⟨hspan, hg'⟩) hg

omit hf in
/-- The ids of the groups over a span lie in the range of the span. -/
theorem id_of_member (hg : Member t mode limit first base span g) :
    first span ≤ g.id ∧ g.id < first span + (cellGroups t (t.grammar.provider t.lexicon) mode
      (parse t mode limit).cell (first span) span).length := by
  obtain ⟨-, hg⟩ := hg
  cases base with
  | true =>
    have hid := List.mem_map_of_mem (f := Group.id) hg
    rw [(gathered_baseGroups mode _ (first span) span).ids, List.mem_range'_1] at hid
    have hlen := length_le_length_insertSteps mode (first span) span
      (baseGroups t (t.grammar.provider t.lexicon) mode (parse t mode limit).cell (first span) span)
      (allowed t (unarySteps t span (baseGroups t (t.grammar.provider t.lexicon) mode
        (parse t mode limit).cell (first span) span)))
    rw [baseGroups, ← insertSteps_append] at hlen
    exact ⟨hid.1, hid.2.trans_le (Nat.add_le_add_left hlen _)⟩
  | false => exact id_of_mem_cellGroups hg

/-- The groups of a chart are told apart by their ids. -/
theorem population_members :
    Group.Population fun b g => ∃ span, Member t mode limit first b span g where
  id_inj := by
    rintro b g g' ⟨s, hg⟩ ⟨s', hg'⟩ hid
    by_cases hs : s = s'
    · subst hs
      obtain ⟨-, hg⟩ := hg
      obtain ⟨-, hg'⟩ := hg'
      cases b with
      | true =>
        have hnd : ((baseGroups t (t.grammar.provider t.lexicon) mode (parse t mode limit).cell
            (first s) s).map Group.id).Nodup := by
          rw [(gathered_baseGroups mode _ (first s) s).ids]
          exact List.nodup_range'
        exact List.inj_on_of_nodup_map hnd hg hg' hid
      | false => exact eq_of_id_eq hg hg' hid
    · have h₁ := id_of_member hg
      have h₂ := id_of_member hg'
      have hapart := hf.apart s (mem_spans.mpr hg.1) s' (mem_spans.mpr hg'.1) hs
      rw [mode_parse] at hapart
      omega
  parts := by
    rintro b g s p ⟨span, hg⟩ hs hp
    rcases ((madeFrom_of_member hf hg).cases_step hg.1.2 hs).2 with ⟨e, -, rfl⟩ | hrule
    · cases hp
    · exact hrule.exists_of_mem_parts hp

theorem has_actions_iff_of_member (hg : Member t mode limit first false span g) {a : Action} :
    g.actions.has a = true ↔ ∃ b, g.Uses b ∧ a.same b = true := by
  have hmem : ∀ b, b ∈ (g.harvest false {}).actions ↔ g.Uses b := fun b =>
    Group.mem_harvest_iff (population_members hf) (K := fun b g => ∃ span,
      Member t mode limit first b span g) ⟨span, hg⟩
  rw [Group.actions, ActionSet.has_ofList, List.any_reverse, List.any_eq_true]
  simp only [hmem]

end Members

/-- **The actions of a group of a chart are those that it uses.** -/
theorem has_actions_iff (hg : g ∈ (parse t mode limit).cell span) {a : Action} :
    g.actions.has a = true ↔ ∃ b, g.Uses b ∧ a.same b = true := by
  obtain ⟨first, hf⟩ := filled_parse t mode limit
  exact has_actions_iff_of_member hf (member_of_mem_cell hf hg)

/-! ## Where the actions of a group are -/

/-- The actions that a group uses are allowed and lie in its span. Those over the whole span have its
category, or one that a unary rule turns into it; before the unary rules are applied, its category. -/
structure Encloses (t : Task σ) (base : Bool) (span : Span) (g : Group σ) : Prop where
  allowed : ∀ a, g.Uses a → t.accept a = true
  inside : ∀ a, g.Uses a → span.start ≤ a.span.start ∧ a.span.stop ≤ span.stop
  whole : ∀ a, g.Uses a → a.span = span → a.category = g.category ∨ (base = false ∧
    ∃ id, (id, g.category) ∈ t.grammar.rules.unaryResults t.grammar.sig a.category)

theorem encloses_of_madeFrom (hstop : span.stop ≤ t.sentence.length)
    (hmade : MadeFrom t mode (Encloses t) base span g) : Encloses t base span g := by
  have hstep : ∀ s ∈ g.steps, t.accept s.action = true ∧ s.action.span = span := by
    intro s hs
    rcases (hmade.cases_step hstop hs).2 with ⟨e, hacc, rfl⟩ | hrule
    · exact ⟨hacc, rfl⟩
    · cases hrule with
      | binary _ _ _ _ _ hacc => exact ⟨hacc, rfl⟩
      | unary _ _ _ _ hacc => exact ⟨hacc, rfl⟩
  have hall : ∀ a, g.Uses a → t.accept a = true ∧
      (span.start ≤ a.span.start ∧ a.span.stop ≤ span.stop) ∧
      (a.span = span → a.category = g.category ∨ (base = false ∧
        ∃ id, (id, g.category) ∈ t.grammar.rules.unaryResults t.grammar.sig a.category)) := by
    intro a ha
    cases ha with
    | @step _ s hs =>
      obtain ⟨hacc, hspan⟩ := hstep s hs
      exact ⟨hacc, by rw [hspan]; exact ⟨le_rfl, le_rfl⟩, fun _ =>
        Or.inl (hmade.cases_step hstop hs).1⟩
    | @part _ s p _ hs hp hu =>
      obtain ⟨hc, hkind⟩ := hmade.cases_step hstop hs
      rcases hkind with ⟨e, -, rfl⟩ | hrule
      · cases hp
      · cases hrule with
        | @binary k l r x h₁ h₂ hl hr _ _ =>
          -- what is below a binary step is over a part of the span
          have hbelow : t.accept a = true ∧ (span.start ≤ a.span.start ∧ a.span.stop ≤ k) ∨
              t.accept a = true ∧ (k ≤ a.span.start ∧ a.span.stop ≤ span.stop) := by
            rcases List.mem_cons.mp hp with rfl | hp
            · exact Or.inl ⟨hl.allowed a hu, hl.inside a hu⟩
            · rw [List.mem_singleton.mp hp] at hu
              exact Or.inr ⟨hr.allowed a hu, hr.inside a hu⟩
          refine ⟨hbelow.elim And.left And.left, ?_, fun hspan => ?_⟩
          · rcases hbelow with ⟨-, h₃, h₄⟩ | ⟨-, h₃, h₄⟩ <;> omega
          · rw [hspan] at hbelow
            rcases hbelow with ⟨-, -, h₄⟩ | ⟨-, h₃, -⟩ <;> omega
        | @unary c pick x hbase hchild _ hx _ =>
          rw [List.mem_singleton.mp hp] at hu
          refine ⟨hchild.allowed a hu, hchild.inside a hu, fun hspan => Or.inr ⟨hbase, x.1, ?_⟩⟩
          rcases hchild.whole a hu hspan with hac | ⟨hb, -⟩
          · rw [hac, ← hc]
            exact hx
          · cases hb
  exact ⟨fun a ha => (hall a ha).1, fun a ha => (hall a ha).2.1, fun a ha => (hall a ha).2.2⟩

theorem encloses_cell (hg : g ∈ (parse t mode limit).cell span) : Encloses t false span g :=
  forall_cell (fun _ _ _ _ h₂ => encloses_of_madeFrom h₂) hg

/-! ## Every action that is used ends a derivation -/

/-- The trees of the group are grammatical and there are some, and every action that the group uses is
the last one of a grammatical derivation of such actions. -/
structure Realizes (t : Task σ) (P : Span → Entry → Prop) (base : Bool) (span : Span)
    (g : Group σ) : Prop where
  yields : Yields t P base span g
  nonempty : g.trees t.sentence ≠ []
  used : ∀ a, g.Uses a → ∃ d, d.action = a ∧ t.Makes P d ∧ ∀ a' ∈ d.actions, g.Uses a'

theorem realizes_of_madeFrom {P : Span → Entry → Prop} (hP : KeepsLookups t mode P)
    (h₁ : span.start < span.stop) (h₂ : span.stop ≤ t.sentence.length)
    (hmade : MadeFrom t mode (Realizes t P) base span g) : Realizes t P base span g := by
  have hyields := yields_of_madeFrom hP h₁ h₂ (hmade.mono fun _ _ _ h => h.yields)
  have hstep : ∀ s ∈ g.steps, ∃ d ∈ g.trees t.sentence, d.action = s.action := by
    intro s hs
    have htrees : Group.treesOfStep t.sentence s ≠ [] := by
      rcases (hmade.cases_step h₂ hs).2 with ⟨e, -, rfl⟩ | hrule
      · rw [lexicalStep, Group.treesOfStep]
        exact List.cons_ne_nil _ _
      · cases hrule with
        | binary _ _ hl hr =>
          obtain ⟨dl, hdl⟩ := List.exists_mem_of_ne_nil _ hl.nonempty
          obtain ⟨dr, hdr⟩ := List.exists_mem_of_ne_nil _ hr.nonempty
          exact List.ne_nil_of_mem (Group.mem_treesOfStep_binary.mpr ⟨dl, hdl, dr, hdr, rfl⟩)
        | unary _ hc =>
          obtain ⟨d, hd⟩ := List.exists_mem_of_ne_nil _ hc.nonempty
          exact List.ne_nil_of_mem (Group.mem_treesOfStep_unary.mpr ⟨d, hd, rfl⟩)
    obtain ⟨d, hd⟩ := List.exists_mem_of_ne_nil _ htrees
    exact ⟨d, Group.mem_trees.mpr ⟨s, hs, hd⟩, (action_and_arity_of_mem hd).1⟩
  refine ⟨hyields, ?_, fun a ha => ?_⟩
  · obtain ⟨more, hmadeOf, -⟩ := hmade
    obtain ⟨l, hkeeps, -⟩ := keeps_of_madeOf hmadeOf
    obtain ⟨s, hs⟩ := List.exists_mem_of_ne_nil _ hkeeps.ne_nil
    obtain ⟨d, hd, -⟩ := hstep s hs
    exact List.ne_nil_of_mem hd
  · cases ha with
    | @step _ s hs =>
      obtain ⟨d, hd, ha⟩ := hstep s hs
      exact ⟨d, ha, hyields.makes d hd, Group.uses_of_mem_trees hd⟩
    | @part _ s p _ hs hp hu =>
      have hpart : ∃ base span, Realizes t P base span p.2 := by
        rcases (hmade.cases_step h₂ hs).2 with ⟨e, -, rfl⟩ | hrule
        · cases hp
        · obtain ⟨span', h⟩ := hrule.exists_of_mem_parts hp
          exact ⟨p.1, span', h⟩
      obtain ⟨base', span', h⟩ := hpart
      obtain ⟨d, hda, hmakes, hused⟩ := h.used a hu
      exact ⟨d, hda, hmakes, fun a' ha' => .part hs hp (hused a' ha')⟩

theorem realizes_cell {P : Span → Entry → Prop} (hP : KeepsLookups t mode P)
    (hg : g ∈ (parse t mode limit).cell span) : Realizes t P false span g :=
  forall_cell (fun _ _ _ h₁ h₂ => realizes_of_madeFrom hP h₁ h₂) hg

end Chart

end Categorial
