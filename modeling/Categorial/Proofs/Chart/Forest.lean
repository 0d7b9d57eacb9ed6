import Categorial.Proofs.Chart.Trees

/-!
# What the groups of a chart are made of

A group of a chart gathers look-ups and steps that apply rules to other groups: binary rules to groups
over the two parts of a span, unary rules to groups over the same span as they were before any unary
rule was applied. What such steps pass on from the groups they build on, all groups of a chart have.

* `Chart.RuleStep`, `Chart.MadeFrom`: steps on groups with a property, and groups made of them.
* **`Chart.forall_groups`**: induction over the groups of a chart, those that a limit drops included.
* `Task.Makes`: grammatical derivations of allowed actions; `Task.Offers`: what they may look up.
* **`Chart.yields_groups`**: the trees of a group are such derivations.
-/

namespace Categorial

variable {σ : Type}

/-- The derivation is grammatical and made of allowed actions; `P` tells which entries may be looked
up. -/
def Task.Makes (t : Task σ) (P : Span → Entry → Prop) (d : Derivation) : Prop :=
  Grammatical P t.grammar t.sentence d ∧ ∀ a ∈ d.actions, t.accept a = true

/-- The entry is looked up over the span: when steps are packed, the first of its category, otherwise
any. -/
def Task.Offers (t : Task σ) (mode : Packing) (span : Span) (e : Entry) : Prop :=
  match mode with
  | .packed => (t.grammar.provider t.lexicon).IsFirst t.sentence span e
  | .unpacked => e ∈ (t.grammar.provider t.lexicon).lookup (span.tokens t.sentence)

theorem Task.Offers.mem {t : Task σ} {mode : Packing} {span : Span} {e : Entry}
    (h : t.Offers mode span e) :
    e ∈ (t.grammar.provider t.lexicon).lookup (span.tokens t.sentence) := by
  cases mode with
  | packed => exact Provider.IsFirst.mem h
  | unpacked => exact h

/-- If the entries of the lexicon differ, any entry is offered. -/
theorem Task.offers_iff_mem {t : Task σ} (h : t.lexicon.Distinct) {mode : Packing} {span : Span}
    {e : Entry} : t.Offers mode span e ↔
      e ∈ (t.grammar.provider t.lexicon).lookup (span.tokens t.sentence) := by
  refine ⟨Offers.mem, fun he => ?_⟩
  cases mode with
  | packed => exact Provider.isFirst_of_mem (t.grammar.pairwise_lookup h _) he
  | unpacked => exact he

variable [Score σ]

namespace Chart

open Draft

/-! ## Steps on groups with a property -/

/-- An allowed step over the span applies a rule to groups in `C`. The flag of a group tells that it
is as it was before the unary rules were applied, and `base` that the step belongs to such a group. -/
inductive RuleStep (t : Task σ) (C : Bool → Span → Group σ → Prop) (base : Bool) (span : Span) :
    Step σ (Group σ) → Prop
  | binary {k : Nat} {l r : Group σ} {x : RuleId × Category} : span.start < k → k < span.stop →
      C false ⟨span.start, k⟩ l → C false ⟨k, span.stop⟩ r →
      x ∈ t.grammar.rules.binaryResults t.grammar.sig l.category r.category →
      t.accept (ruleAction span x) = true → RuleStep t C base span (binaryStep t span l r x)
  | unary {g : Group σ} {p : Pick σ} {x : RuleId × Category} : base = false → C true span g →
      g.base = some p → x ∈ t.grammar.rules.unaryResults t.grammar.sig g.category →
      t.accept (ruleAction span x) = true → RuleStep t C base span (unaryStep t span g p x)

/-- The group gathers allowed look-ups and steps that apply rules to groups in `C`. -/
def MadeFrom (t : Task σ) (mode : Packing) (C : Bool → Span → Group σ → Prop) (base : Bool)
    (span : Span) (g : Group σ) : Prop :=
  ∃ more, MadeOf mode span
      (allowed t (lexicalSteps t (t.grammar.provider t.lexicon) span) ++ more) g ∧
    ∀ s ∈ more, RuleStep t C base span s

variable {t : Task σ} {mode : Packing} {limit : Option Nat} {C D : Bool → Span → Group σ → Prop}
  {base : Bool} {span : Span} {cell : Span → List (Group σ)} {firstId : Nat} {g : Group σ}

theorem MadeFrom.mono (h : MadeFrom t mode C base span g)
    (hCD : ∀ base span g, C base span g → D base span g) : MadeFrom t mode D base span g := by
  obtain ⟨more, hmade, hmore⟩ := h
  refine ⟨more, hmade, fun s hs => ?_⟩
  cases hmore s hs with
  | binary h₁ h₂ hl hr hx hacc => exact .binary h₁ h₂ (hCD _ _ _ hl) (hCD _ _ _ hr) hx hacc
  | unary hbase hg hp hx hacc => exact .unary hbase (hCD _ _ _ hg) hp hx hacc

/-- A step of a group is a look-up or applies a rule. -/
theorem MadeFrom.cases_step (h : MadeFrom t mode C base span g)
    (hstop : span.stop ≤ t.sentence.length) {s : Step σ (Group σ)} (hs : s ∈ g.steps) :
    s.action.category = g.category ∧ ((∃ e, t.accept (.lookup span e) = true ∧
      s = lexicalStep t span e) ∨ RuleStep t C base span s) := by
  obtain ⟨more, hmade, hmore⟩ := h
  obtain ⟨hmem, hc⟩ := mem_of_madeOf hmade hs
  refine ⟨hc, ?_⟩
  rcases List.mem_append.mp hmem with hmem | hmem
  · obtain ⟨hmem, hacc⟩ := mem_allowed.mp hmem
    obtain ⟨e, -, rfl⟩ := (mem_lexicalSteps hstop).mp hmem
    exact Or.inl ⟨e, hacc, rfl⟩
  · exact Or.inr (hmore s hmem)

theorem ruleStep_of_mem_binarySteps
    (hC : ∀ s : Span, s.length < span.length → ∀ g ∈ cell s, C false s g) {s : Step σ (Group σ)}
    (hs : s ∈ allowed t (binarySteps t cell span)) : RuleStep t C base span s := by
  obtain ⟨hs, hacc⟩ := mem_allowed.mp hs
  obtain ⟨k, l, r, x, h₁, h₂, hl, hr, hx, rfl⟩ := mem_binarySteps.mp hs
  exact .binary h₁ h₂ (hC _ (by simp only [Span.length]; omega) l hl)
    (hC _ (by simp only [Span.length]; omega) r hr) hx hacc

theorem ruleStep_of_mem_unarySteps {gs : List (Group σ)} (hC : ∀ g ∈ gs, C true span g)
    {s : Step σ (Group σ)} (hs : s ∈ allowed t (unarySteps t span gs)) :
    RuleStep t C false span s := by
  obtain ⟨hs, hacc⟩ := mem_allowed.mp hs
  obtain ⟨g, p, x, hg, hp, hx, rfl⟩ := mem_unarySteps.mp hs
  exact .unary rfl (hC g hg) hp hx hacc

theorem madeFrom_of_mem_baseGroups
    (hC : ∀ s : Span, s.length < span.length → ∀ g ∈ cell s, C false s g)
    (hg : g ∈ baseGroups t (t.grammar.provider t.lexicon) mode cell firstId span) :
    MadeFrom t mode C true span g :=
  ⟨_, (gathered_baseGroups mode cell firstId span).made g hg, fun _ hs =>
    ruleStep_of_mem_binarySteps hC hs⟩

theorem madeFrom_of_mem_cellGroups
    (hC : ∀ s : Span, s.length < span.length → ∀ g ∈ cell s, C false s g)
    (hbase : ∀ g ∈ baseGroups t (t.grammar.provider t.lexicon) mode cell firstId span, C true span g)
    (hg : g ∈ cellGroups t (t.grammar.provider t.lexicon) mode cell firstId span) :
    MadeFrom t mode C false span g := by
  have hmade := (gathered_cellGroups mode cell firstId span).made g hg
  rw [cellSteps, baseSteps, List.append_assoc] at hmade
  refine ⟨_, hmade, fun s hs => ?_⟩
  rcases List.mem_append.mp hs with hs | hs
  · exact ruleStep_of_mem_binarySteps hC hs
  · exact ruleStep_of_mem_unarySteps hbase hs

/-- **Induction over the groups of a chart.** A property that groups have if those they are made from
have it, all groups have, before and after the unary rules are applied. -/
theorem forall_groups (h : ∀ base span g, span.start < span.stop →
    span.stop ≤ t.sentence.length → MadeFrom t mode C base span g → C base span g) {span : Span}
    (hspan : span.start < span.stop ∧ span.stop ≤ t.sentence.length) (firstId : Nat) :
    (∀ g ∈ baseGroups t (t.grammar.provider t.lexicon) mode (parse t mode limit).cell firstId span,
      C true span g) ∧
    ∀ g ∈ cellGroups t (t.grammar.provider t.lexicon) mode (parse t mode limit).cell firstId span,
      C false span g := by
  induction hn : span.length using Nat.strong_induction_on generalizing span firstId with
  | _ n ih =>
  have hcell : ∀ s : Span, s.length < span.length → ∀ g ∈ (parse t mode limit).cell s,
      C false s g := by
    intro s hs g hg
    obtain ⟨-, hinside⟩ := span_of_mem_cell hg
    obtain ⟨firstId', he⟩ := cell_parse t mode limit hinside
    rw [he] at hg
    exact (ih s.length (hn ▸ hs) hinside firstId' rfl).2 g (mem_of_mem_kept hg)
  have hbase : ∀ g ∈ baseGroups t (t.grammar.provider t.lexicon) mode (parse t mode limit).cell
      firstId span, C true span g := fun g hg =>
    h true span g hspan.1 hspan.2 (madeFrom_of_mem_baseGroups hcell hg)
  exact ⟨hbase, fun g hg =>
    h false span g hspan.1 hspan.2 (madeFrom_of_mem_cellGroups hcell hbase hg)⟩

theorem forall_cell (h : ∀ base span g, span.start < span.stop →
    span.stop ≤ t.sentence.length → MadeFrom t mode C base span g → C base span g) {span : Span}
    (hg : g ∈ (parse t mode limit).cell span) : C false span g := by
  obtain ⟨-, hspan⟩ := span_of_mem_cell hg
  obtain ⟨firstId, he⟩ := cell_parse t mode limit hspan
  rw [he] at hg
  exact (forall_groups h hspan firstId).2 g (mem_of_mem_kept hg)

/-! ## The trees of a group are grammatical -/

/-- The trees of the group over the span are grammatical derivations of its category, and do not end
with a unary rule before those are applied. -/
structure Yields (t : Task σ) (P : Span → Entry → Prop) (base : Bool) (span : Span) (g : Group σ) :
    Prop where
  makes : ∀ d ∈ g.trees t.sentence, t.Makes P d
  span : ∀ d ∈ g.trees t.sentence, d.span = span
  category : ∀ d ∈ g.trees t.sentence, d.category = g.category
  notUnary : base = true → ∀ d ∈ g.trees t.sentence, d.isUnary = false

theorem makes_of_ruleStep {P : Span → Entry → Prop} {s : Step σ (Group σ)}
    (h : RuleStep t (Yields t P) base span s) {d : Derivation}
    (hd : d ∈ Group.treesOfStep t.sentence s) :
    t.Makes P d ∧ (base = true → d.isUnary = false) := by
  cases h with
  | @binary k l r x _ _ hl hr hx hacc =>
    obtain ⟨dl, hdl, dr, hdr, rfl⟩ := Group.mem_treesOfStep_binary.mp hd
    obtain ⟨hgl, hal⟩ := hl.makes dl hdl
    obtain ⟨hgr, har⟩ := hr.makes dr hdr
    have hls := hl.span dl hdl
    have hrs := hr.span dr hdr
    have hspan : span = ⟨dl.span.start, dr.span.stop⟩ := by rw [hls, hrs]
    rw [← hl.category dl hdl, ← hr.category dr hdr] at hx
    refine ⟨⟨?_, fun a ha => ?_⟩, fun _ => rfl⟩
    · rw [ruleAction, hspan]
      exact .binary hgl hgr (by rw [hls, hrs]) hx
    · rw [Derivation.actions, List.mem_append, List.mem_append, List.mem_singleton] at ha
      rcases ha with (ha | ha) | rfl
      · exact hal a ha
      · exact har a ha
      · exact hacc
  | @unary c p x hbase hc _ hx hacc =>
    obtain ⟨dc, hdc, rfl⟩ := Group.mem_treesOfStep_unary.mp hd
    obtain ⟨hgc, hac⟩ := hc.makes dc hdc
    rw [← hc.category dc hdc] at hx
    refine ⟨⟨?_, fun a ha => ?_⟩, fun h => by rw [hbase] at h; cases h⟩
    · rw [ruleAction, ← hc.span dc hdc]
      exact .unary hgc (hc.notUnary rfl dc hdc) hx
    · rw [Derivation.actions, List.mem_append, List.mem_singleton] at ha
      rcases ha with ha | rfl
      · exact hac a ha
      · exact hacc

theorem span_action_of_ruleStep {s : Step σ (Group σ)} (h : RuleStep t C base span s) :
    s.action.span = span := by
  cases h with
  | binary => rfl
  | unary => rfl

/-- The look-ups that groups keep are those of entries in `P`. -/
def KeepsLookups (t : Task σ) (mode : Packing) (P : Span → Entry → Prop) : Prop :=
  ∀ span g more e, span.stop ≤ t.sentence.length → MadeOf mode span
      (allowed t (lexicalSteps t (t.grammar.provider t.lexicon) span) ++ more) g →
    e ∈ (t.grammar.provider t.lexicon).lookup (span.tokens t.sentence) →
    t.accept (.lookup span e) = true → lexicalStep t span e ∈ g.steps → P span e

/-- Packed groups keep look-ups of first entries only. -/
theorem keepsLookups_isFirst (hu : t.Uniform) :
    KeepsLookups t .packed ((t.grammar.provider t.lexicon).IsFirst t.sentence) :=
  fun _ _ _ _ hstop hmade he hacc hs =>
    (lexicalStep_mem_steps hstop hu hacc hmade he (mem_of_madeOf hmade hs).2).mp hs

/-- Groups keep look-ups of offered entries only. -/
theorem keepsLookups_offers (hu : t.Uniform) (mode : Packing) :
    KeepsLookups t mode (t.Offers mode) := by
  cases mode with
  | packed => exact keepsLookups_isFirst hu
  | unpacked => exact fun _ _ _ _ _ _ he _ _ => he

/-- The trees of a group are grammatical if those of the groups it is made from are. -/
theorem yields_of_madeFrom {P : Span → Entry → Prop} (hP : KeepsLookups t mode P)
    (h₁ : span.start < span.stop) (h₂ : span.stop ≤ t.sentence.length)
    (hmade : MadeFrom t mode (Yields t P) base span g) : Yields t P base span g := by
  obtain ⟨more, hmade, hmore⟩ := hmade
  have hstep : ∀ s ∈ g.steps, ∀ d ∈ Group.treesOfStep t.sentence s,
      t.Makes P d ∧ s.action.span = span ∧ (base = true → d.isUnary = false) := by
    intro s hs d hd
    rcases List.mem_append.mp (mem_of_madeOf hmade hs).1 with hs' | hs'
    · obtain ⟨hs', hacc⟩ := mem_allowed.mp hs'
      obtain ⟨e, he, rfl⟩ := (mem_lexicalSteps h₂).mp hs'
      rw [lexicalStep, Group.treesOfStep, List.mem_singleton] at hd
      rw [hd]
      refine ⟨⟨.leaf h₁ h₂ (hP span g more e h₂ hmade he hacc hs), fun a ha => ?_⟩, rfl, fun _ => rfl⟩
      rw [List.mem_singleton.mp ha]
      exact hacc
    · obtain ⟨h, hu⟩ := makes_of_ruleStep (hmore s hs') hd
      exact ⟨h, span_action_of_ruleStep (hmore s hs'), hu⟩
  refine ⟨fun d hd => ?_, fun d hd => ?_, fun d hd => ?_, fun hbase d hd => ?_⟩ <;>
    obtain ⟨s, hs, hd⟩ := Group.mem_trees.mp hd
  · exact (hstep s hs d hd).1
  · rw [Derivation.span, (action_and_arity_of_mem hd).1]
    exact (hstep s hs d hd).2.1
  · rw [Derivation.category, (action_and_arity_of_mem hd).1]
    exact (mem_of_madeOf hmade hs).2
  · exact (hstep s hs d hd).2.2 hbase

/-- **The trees of the groups of a chart are grammatical.** -/
theorem yields_groups {P : Span → Entry → Prop} (hP : KeepsLookups t mode P) {span : Span}
    (hspan : span.start < span.stop ∧ span.stop ≤ t.sentence.length) (firstId : Nat) :
    (∀ g ∈ baseGroups t (t.grammar.provider t.lexicon) mode (parse t mode limit).cell firstId span,
      Yields t P true span g) ∧
    ∀ g ∈ cellGroups t (t.grammar.provider t.lexicon) mode (parse t mode limit).cell firstId span,
      Yields t P false span g :=
  forall_groups (fun _ _ _ h₁ h₂ => yields_of_madeFrom hP h₁ h₂) hspan firstId

theorem yields_cell {P : Span → Entry → Prop} (hP : KeepsLookups t mode P) {span : Span}
    (hg : g ∈ (parse t mode limit).cell span) : Yields t P false span g :=
  forall_cell (fun _ _ _ h₁ h₂ => yields_of_madeFrom hP h₁ h₂) hg

end Chart

end Categorial
