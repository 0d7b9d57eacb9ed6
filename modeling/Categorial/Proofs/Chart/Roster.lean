import Categorial.Proofs.Chart.Actions

/-!
# The groups of a chart as a graph

The groups of a chart are numbered in the order in which they are made, and a step names the groups it
builds on. Groups of one cell can name each other by unary steps, so numbers do not go down along steps
and the graph can have cycles. A walk over the groups remembers whether it has come by a unary step, and
then it leaves out the unary steps of the group it has come to. Such a walk ends: a binary step leads to
shorter spans, and a unary step to the same span without its unary steps. What the walk sees of a group
is the group that the step was made from.

* `Chart.roster`: the groups of a chart, those that a limit drops included.
* `Group.stepsSeen`: the steps that a walk goes through; `Chart.Visits`: one move of a walk.
* `Group.Grown`, `Draft.exists_grown`: unary steps leave the other ones alone.
* `Chart.Listed`: the place of a group in the roster is its id.
* **`Chart.wellFounded_visits`**: every walk ends.
* `Chart.Unfolds`, **`Chart.unfolds_of_member`**: what a walk sees.
-/

namespace Categorial

variable {σ : Type}

/-! ## What is seen of a group -/

namespace Group

/-- The steps that a walk goes through: all of them, or those that are not unary. -/
def stepsSeen (baseOnly : Bool) (g : Group σ) : List (Step σ (Group σ)) :=
  g.steps.filter fun s => !(baseOnly && s.isUnary)

theorem stepsSeen_false (g : Group σ) : g.stepsSeen false = g.steps :=
  List.filter_eq_self.mpr fun _ _ => rfl

theorem mem_stepsSeen {baseOnly : Bool} {g : Group σ} {s : Step σ (Group σ)} :
    s ∈ g.stepsSeen baseOnly ↔ s ∈ g.steps ∧ (baseOnly = true → s.isUnary = false) := by
  rw [stepsSeen, List.mem_filter]
  cases baseOnly <;> simp

/-- The second group is the first with more unary steps. -/
structure Grown (g g' : Group σ) : Prop where
  id : g'.id = g.id
  base : g'.base = g.base
  steps : g'.stepsSeen true = g.stepsSeen true

theorem Grown.refl (g : Group σ) : g.Grown g := ⟨rfl, rfl, rfl⟩

theorem Grown.trans {g g' g'' : Group σ} (h : g.Grown g') (h' : g'.Grown g'') : g.Grown g'' :=
  ⟨h'.id.trans h.id, h'.base.trans h.base, h'.steps.trans h.steps⟩

theorem grown_push [Score σ] (g : Group σ) {s : Step σ (Group σ)} (hs : s.isUnary = true) :
    g.Grown (g.push s) := by
  unfold push
  split_ifs
  · exact .refl g
  · refine ⟨rfl, ?_, ?_⟩
    · change betterBase g.base s _ = g.base
      rw [betterBase.eq_def, if_pos hs]
    · change (g.steps ++ [s]).filter _ = _
      rw [List.filter_append, List.filter_singleton, hs]
      exact List.append_nil _

end Group

variable [Score σ]

namespace Draft

/-- A unary step leaves the groups of a cell as they are, or makes one of them grow. -/
theorem exists_grown_insertStep (mode : Packing) (firstId : Nat) (span : Span)
    (gs : List (Group σ)) {s : Step σ (Group σ)} (hs : s.isUnary = true) {g : Group σ} (hg : g ∈ gs) :
    ∃ g' ∈ insertStep mode firstId span gs s, g.Grown g' := by
  cases mode with
  | unpacked => exact ⟨g, List.mem_append_left _ hg, .refl g⟩
  | packed =>
    rcases insertPacked_cases (firstId + gs.length) span s gs with
      ⟨pre, x, post, rfl, -, he⟩ | ⟨-, he⟩ <;> rw [insertStep, he]
    · rcases List.mem_append.mp hg with hg | hg
      · exact ⟨g, List.mem_append_left _ hg, .refl g⟩
      · rcases List.mem_cons.mp hg with rfl | hg
        · exact ⟨g.push s, List.mem_append_right _ List.mem_cons_self, g.grown_push hs⟩
        · exact ⟨g, List.mem_append_right _ (List.mem_cons_of_mem _ hg), .refl g⟩
    · exact ⟨g, List.mem_append_left _ hg, .refl g⟩

theorem exists_grown (mode : Packing) (firstId : Nat) (span : Span) {gs : List (Group σ)}
    {steps : List (Step σ (Group σ))} (hsteps : ∀ s ∈ steps, s.isUnary = true) {g : Group σ}
    (hg : g ∈ gs) : ∃ g' ∈ insertSteps mode firstId span gs steps, g.Grown g' := by
  induction steps generalizing gs g with
  | nil => exact ⟨g, hg, .refl g⟩
  | cons s steps ih =>
    obtain ⟨hs, hsteps⟩ := List.forall_mem_cons.mp hsteps
    obtain ⟨g', hg', hgrown⟩ := exists_grown_insertStep mode firstId span gs hs hg
    obtain ⟨g'', hg'', hgrown'⟩ := ih hsteps hg'
    exact ⟨g'', hg'', hgrown.trans hgrown'⟩

end Draft

namespace Chart

open Draft

/-! ## The roster -/

/-- The groups of a chart in the order in which they were made, those that a limit drops included. -/
def roster (t : Task σ) (mode : Packing) (limit : Option Nat) : List (Group σ) :=
  built t (t.grammar.provider t.lexicon) limit (spans t.sentence.length)
    { sentence := t.sentence, mode }

/-- A walk over the groups goes from a group to one that a step of it builds on. It keeps the id of the
group and whether the step was unary; if so, it will leave out the unary steps of the group. -/
def Visits (groups : List (Group σ)) (next now : Nat × Bool) : Prop :=
  ∃ g, groups[now.1]? = some g ∧ ∃ s ∈ g.stepsSeen now.2, ∃ p ∈ s.parts, next = (p.2.id, p.1)

/-- The roster has the groups over all spans, each at the place that its id tells. -/
structure Listed (t : Task σ) (mode : Packing) (limit : Option Nat) (first : Span → Nat) : Prop where
  filled : Filled t (t.grammar.provider t.lexicon) limit first (spans t.sentence.length)
    (parse t mode limit)
  mem_iff : ∀ g, g ∈ roster t mode limit ↔ ∃ span, Member t mode limit first false span g
  ids : (roster t mode limit).map Group.id = List.range (parse t mode limit).groups

theorem exists_listed (t : Task σ) (mode : Packing) (limit : Option Nat) :
    ∃ first, Listed t mode limit first := by
  obtain ⟨first, hfilled, -, hbuilt⟩ :=
    (filled_empty t (t.grammar.provider t.lexicon) mode limit).foldl (List.nil_append _).symm
  refine ⟨first, hfilled, fun g => ?_, ?_⟩
  · rw [roster, hbuilt, List.mem_flatMap]
    exact exists_congr fun span => and_congr_left fun _ => mem_spans
  · obtain ⟨hids, hgroups⟩ : (roster t mode limit).map Group.id =
        List.range' 0 (roster t mode limit).length ∧
        (parse t mode limit).groups = 0 + (roster t mode limit).length := ids_built _ _
    rw [hids, hgroups, Nat.zero_add, List.range_eq_range']

variable {t : Task σ} {mode : Packing} {limit : Option Nat} {first : Span → Nat} {base : Bool}
  {span : Span} {g : Group σ}

theorem span_of_member (hg : Member t mode limit first base span g) : g.span = span := by
  obtain ⟨-, hg⟩ := hg
  cases base with
  | true =>
    obtain ⟨s, rest, he, -⟩ := (gathered_baseGroups mode _ (first span) span).made g hg
    rw [he, Group.span_gather]
  | false =>
    obtain ⟨s, rest, he, -⟩ := (gathered_cellGroups mode _ (first span) span).made g hg
    rw [he, Group.span_gather]

/-- A group as it was before the unary rules were applied is what is left of a group of the chart
without its unary steps. -/
theorem exists_whole (hg : Member t mode limit first true span g) :
    ∃ whole, Member t mode limit first false span whole ∧ whole.id = g.id ∧
      whole.stepsSeen true = g.steps ∧ whole.base = g.base := by
  obtain ⟨hspan, hg⟩ := hg
  have hunary : ∀ s ∈ allowed t (unarySteps t span (baseGroups t (t.grammar.provider t.lexicon) mode
      (parse t mode limit).cell (first span) span)), s.isUnary = true := by
    intro s hs
    obtain ⟨_, _, _, -, -, -, rfl⟩ := mem_unarySteps.mp (mem_allowed.mp hs).1
    rfl
  obtain ⟨whole, hwhole, hgrown⟩ := exists_grown mode (first span) span hunary hg
  rw [baseGroups, ← insertSteps_append] at hwhole
  refine ⟨whole, ⟨hspan, hwhole⟩, hgrown.id, hgrown.steps.trans ?_, hgrown.base⟩
  refine List.filter_eq_self.mpr fun s hs => ?_
  have hmade := (gathered_baseGroups mode _ (first span) span).made g hg
  rw [isUnary_of_mem_baseSteps (mem_of_madeOf hmade hs).1]
  rfl

namespace Listed

variable (h : Listed t mode limit first)

include h

theorem getElem?_id (hg : Member t mode limit first false span g) :
    (roster t mode limit)[g.id]? = some g := by
  obtain ⟨i, hi⟩ := List.getElem?_of_mem ((h.mem_iff g).mpr ⟨span, hg⟩)
  have hid : ((roster t mode limit).map Group.id)[i]? = some g.id := by
    rw [List.getElem?_map, hi]
    rfl
  rw [h.ids] at hid
  obtain ⟨hlt, hid⟩ := List.getElem?_eq_some_iff.mp hid
  rw [List.getElem_range] at hid
  rw [← hid, hi]

/-- A group of the chart is what a walk sees of the group in its place. -/
theorem exists_seen (hg : Member t mode limit first base span g) :
    ∃ whole, Member t mode limit first false span whole ∧
      (roster t mode limit)[g.id]? = some whole ∧ g.steps = whole.stepsSeen base ∧
      g.base = whole.base ∧ (base = false → g = whole) := by
  cases base with
  | true =>
    obtain ⟨whole, hwhole, hid, hsteps, hbase⟩ := exists_whole hg
    exact ⟨whole, hwhole, hid ▸ h.getElem?_id hwhole, hsteps.symm, hbase.symm, nofun⟩
  | false => exact ⟨g, hg, h.getElem?_id hg, g.stepsSeen_false.symm, rfl, fun _ => rfl⟩

end Listed

/-! ## Walks -/

theorem RuleStep.of_isUnary {C : Bool → Span → Group σ → Prop} {s : Step σ (Group σ)}
    (h : RuleStep t C false span s) (hs : base = true → s.isUnary = false) :
    RuleStep t C base span s := by
  cases h with
  | binary h₁ h₂ hl hr hx hacc => exact .binary h₁ h₂ hl hr hx hacc
  | unary _ hg hp hx hacc =>
    cases base with
    | true => cases hs rfl
    | false => exact .unary rfl hg hp hx hacc

/-- How long a walk can be that starts with a group. -/
def visitDepth (groups : List (Group σ)) (now : Nat × Bool) : Nat :=
  match groups[now.1]? with
  | some g => depth now.2 g.span
  | none => 0

theorem visitDepth_lt {next now : Nat × Bool} (hv : Visits (roster t mode limit) next now) :
    visitDepth (roster t mode limit) next < visitDepth (roster t mode limit) now := by
  obtain ⟨first, h⟩ := exists_listed t mode limit
  obtain ⟨g, hget, s, hs, p, hp, rfl⟩ := hv
  obtain ⟨span, hg⟩ := (h.mem_iff g).mp (List.mem_of_getElem? hget)
  obtain ⟨hs, hseen⟩ := Group.mem_stepsSeen.mp hs
  rcases ((madeFrom_of_member h.filled hg).cases_step hg.1.2 hs).2 with ⟨e, -, rfl⟩ | hrule
  · cases hp
  · obtain ⟨span', hpart, hlt⟩ := (hrule.of_isUnary hseen).exists_shallower hp
    obtain ⟨whole, hwhole, hget', -⟩ := h.exists_seen hpart
    rw [visitDepth, visitDepth, hget, hget']
    change depth p.1 whole.span < depth now.2 g.span
    rwa [span_of_member hwhole, span_of_member hg]

/-- **Every walk over the groups of a chart ends.** -/
theorem wellFounded_visits (t : Task σ) (mode : Packing) (limit : Option Nat) :
    WellFounded (Visits (roster t mode limit)) :=
  Subrelation.wf visitDepth_lt (measure (visitDepth (roster t mode limit))).wf

/-- The group is what a walk sees of the group in its place, and so are all groups below it: its steps,
and the best of those that are not unary. -/
inductive Unfolds (groups : List (Group σ)) : Bool → Group σ → Prop
  | mk {base : Bool} {g whole : Group σ} : groups[g.id]? = some whole →
      g.steps = whole.stepsSeen base → g.base = whole.base → (base = false → g = whole) →
      (∀ s ∈ g.steps, ∀ p ∈ s.parts, Unfolds groups p.1 p.2) → Unfolds groups base g

/-- **The groups that the groups of a chart are made from are what a walk sees.** -/
theorem unfolds_of_member (h : Listed t mode limit first)
    (hg : Member t mode limit first base span g) : Unfolds (roster t mode limit) base g := by
  induction hn : depth base span using Nat.strong_induction_on generalizing base span g with
  | _ n ih =>
  obtain ⟨whole, -, hget, hsteps, hbase, hwhole⟩ := h.exists_seen hg
  refine .mk hget hsteps hbase hwhole fun s hs p hp => ?_
  rcases ((madeFrom_of_member h.filled hg).cases_step hg.1.2 hs).2 with ⟨e, -, rfl⟩ | hrule
  · cases hp
  · obtain ⟨span', hpart, hlt⟩ := hrule.exists_shallower hp
    exact ih _ (hn ▸ hlt) hpart rfl

end Chart

end Categorial
