import Categorial.Chart.Basic
import Mathlib.Tactic

/-!
# The steps of a cell

The passes over a cell propose steps in a fixed order, and the allowed ones are inserted one after
another. A group gathers steps of its category; when steps are packed, all of them.

* `Draft.lexicalSteps`, `Draft.binarySteps`, `Draft.unarySteps`: the proposed steps.
* `Draft.Adds`: one draft is another with more steps; `Draft.adds_lexicalPass` and its companions.
* `Group.gather`: the group of some steps.
* **`Draft.gathered_insertSteps`**: the groups of a cell are those of its steps.
-/

namespace Categorial

variable {σ : Type} [Score σ]

/-! ## Proposed steps -/

namespace Draft

/-- The action of a rule that gave a category over a span. -/
def ruleAction (span : Span) (r : RuleId × Category) : Action :=
  { span, rule := r.1, category := r.2 }

/-- The step of an entry. -/
def lexicalStep (t : Task σ) (span : Span) (e : Entry) : Step σ (Group σ) :=
  .lexical (.lookup span e) (t.score (.lookup span e))

/-- The step of a binary rule on two groups. -/
def binaryStep (t : Task σ) (span : Span) (l r : Group σ) (x : RuleId × Category) :
    Step σ (Group σ) :=
  let own := t.score (ruleAction span x)
  .binary (ruleAction span x) own (Score.add own (Score.add l.best.score r.best.score)) l r

/-- The step of a unary rule on a group whose best step that is not unary is given. -/
def unaryStep (t : Task σ) (span : Span) (g : Group σ) (base : Pick σ) (x : RuleId × Category) :
    Step σ (Group σ) :=
  let own := t.score (ruleAction span x)
  .unary (ruleAction span x) own (Score.add own base.score) g

/-- The steps of the entries of a span. -/
def lexicalSteps (t : Task σ) (p : Provider) (span : Span) : List (Step σ (Group σ)) :=
  if span.length ≤ p.maxLength then
    (p.lookup (span.tokens t.sentence)).map (lexicalStep t span)
  else []

/-- The steps of the binary rules on two groups. -/
def joinSteps (t : Task σ) (span : Span) (l r : Group σ) : List (Step σ (Group σ)) :=
  (t.grammar.rules.binaryResults t.grammar.sig l.category r.category).map (binaryStep t span l r)

/-- The steps of the binary rules on all splits of a span. -/
def binarySteps (t : Task σ) (cell : Span → List (Group σ)) (span : Span) :
    List (Step σ (Group σ)) :=
  (List.range (span.length - 1)).flatMap fun i =>
    (cell ⟨span.start, span.start + 1 + i⟩).flatMap fun l =>
      (cell ⟨span.start + 1 + i, span.stop⟩).flatMap fun r => joinSteps t span l r

/-- The steps of the unary rules on a group. -/
def turnSteps (t : Task σ) (span : Span) (g : Group σ) : List (Step σ (Group σ)) :=
  match g.base with
  | some base =>
    (t.grammar.rules.unaryResults t.grammar.sig g.category).map (unaryStep t span g base)
  | none => []

/-- The steps of the unary rules on the groups of a span. -/
def unarySteps (t : Task σ) (span : Span) (gs : List (Group σ)) : List (Step σ (Group σ)) :=
  gs.flatMap (turnSteps t span)

/-- The steps whose actions are allowed. -/
def allowed (t : Task σ) (steps : List (Step σ (Group σ))) : List (Step σ (Group σ)) :=
  steps.filter fun s => t.accept s.action

/-! ## Inserting steps -/

/-- The groups of a cell after one more step. -/
def insertStep (mode : Packing) (firstId : Nat) (span : Span) (gs : List (Group σ))
    (s : Step σ (Group σ)) : List (Group σ) :=
  match mode with
  | .packed => insertPacked (firstId + gs.length) span s gs
  | .unpacked => gs ++ [.single (firstId + gs.length) span s]

/-- The groups of a cell after more steps. -/
def insertSteps (mode : Packing) (firstId : Nat) (span : Span) (gs : List (Group σ))
    (steps : List (Step σ (Group σ))) : List (Group σ) :=
  steps.foldl (insertStep mode firstId span) gs

theorem insertSteps_append (mode : Packing) (firstId : Nat) (span : Span) (gs : List (Group σ))
    (l₁ l₂ : List (Step σ (Group σ))) :
    insertSteps mode firstId span gs (l₁ ++ l₂) =
      insertSteps mode firstId span (insertSteps mode firstId span gs l₁) l₂ :=
  List.foldl_append

/-- The second draft is the first with more steps. -/
structure Adds (mode : Packing) (steps : List (Step σ (Group σ))) (d d' : Draft σ) : Prop where
  span : d'.span = d.span
  firstId : d'.firstId = d.firstId
  groups : d'.groups = insertSteps mode d.firstId d.span d.groups steps

namespace Adds

variable {mode : Packing} {d d' d'' : Draft σ} {l₁ l₂ : List (Step σ (Group σ))}

theorem refl : Adds mode [] d d := ⟨rfl, rfl, rfl⟩

theorem append (h₁ : Adds mode l₁ d d') (h₂ : Adds mode l₂ d' d'') :
    Adds mode (l₁ ++ l₂) d d'' := by
  refine ⟨h₂.span.trans h₁.span, h₂.firstId.trans h₁.firstId, ?_⟩
  rw [h₂.groups, h₁.span, h₁.firstId, h₁.groups, insertSteps_append]

/-- A loop whose rounds each add some steps adds them all. -/
theorem foldl {β : Type} {f : Draft σ → β → Draft σ} {steps : β → List (Step σ (Group σ))}
    (xs : List β) (h : ∀ x ∈ xs, ∀ d', d'.span = d.span → Adds mode (steps x) d' (f d' x)) :
    Adds mode (xs.flatMap steps) d (xs.foldl f d) := by
  induction xs generalizing d with
  | nil => exact refl
  | cons x xs ih =>
    have hx := h x List.mem_cons_self d rfl
    rw [List.flatMap_cons, List.foldl_cons]
    refine hx.append (ih fun y hy d' hd' => h y (List.mem_cons_of_mem x hy) d' ?_)
    exact hd'.trans hx.span

end Adds

variable (t : Task σ) (p : Provider) (mode : Packing)

theorem adds_propose (d : Draft σ) (a : Action) (step : σ → Step σ (Group σ))
    (h : ∀ own, (step own).action = a) :
    Adds mode (allowed t [step (t.score a)]) d (d.propose t mode a step) := by
  unfold propose allowed
  rw [List.filter_singleton, h]
  cases t.accept a with
  | true => refine ⟨?_, ?_, ?_⟩ <;> cases mode <;> rfl
  | false => exact ⟨rfl, rfl, rfl⟩

theorem adds_proposals {β : Type} (d : Draft σ) (xs : List β) (act : Span → β → Action)
    (step : Span → β → σ → Step σ (Group σ))
    (h : ∀ span x own, (step span x own).action = act span x) :
    Adds mode (allowed t (xs.map fun x => step d.span x (t.score (act d.span x)))) d
      (xs.foldl (fun d x => d.propose t mode (act d.span x) (step d.span x)) d) := by
  rw [allowed, List.map_eq_flatMap, List.filter_flatMap]
  refine Adds.foldl xs fun x _ d' hd' => ?_
  rw [← hd']
  exact adds_propose t mode d' (act d'.span x) (step d'.span x) (h d'.span x)

theorem adds_lexicalPass (d : Draft σ) :
    Adds mode (allowed t (lexicalSteps t p d.span)) d (d.lexicalPass t p mode) := by
  unfold lexicalPass lexicalSteps
  split_ifs
  · exact adds_proposals t mode d _ Action.lookup
      (fun span e own => .lexical (.lookup span e) own) fun _ _ _ => rfl
  · exact .refl

theorem adds_joinPair (d : Draft σ) (l r : Group σ) :
    Adds mode (allowed t (joinSteps t d.span l r)) d (d.joinPair t mode l r) :=
  adds_proposals t mode d _ ruleAction
    (fun span x own => .binary (ruleAction span x) own
      (Score.add own (Score.add l.best.score r.best.score)) l r) fun _ _ _ => rfl

theorem adds_joinCells (d : Draft σ) (ls rs : List (Group σ)) :
    Adds mode (ls.flatMap fun l => rs.flatMap fun r => allowed t (joinSteps t d.span l r)) d
      (d.joinCells t mode ls rs) := by
  refine Adds.foldl ls fun l _ d' hd' => ?_
  rw [← hd']
  refine Adds.foldl rs fun r _ d'' hd'' => ?_
  rw [← hd'']
  exact adds_joinPair t mode d'' l r

theorem adds_binaryPass (cell : Span → List (Group σ)) (d : Draft σ) :
    Adds mode (allowed t (binarySteps t cell d.span)) d (d.binaryPass t mode cell) := by
  simp only [binarySteps, allowed, List.filter_flatMap]
  refine Adds.foldl _ fun i _ d' hd' => ?_
  rw [← hd']
  exact adds_joinCells t mode d' _ _

theorem adds_unaryPass (d : Draft σ) :
    Adds mode (allowed t (unarySteps t d.span d.groups)) d (d.unaryPass t mode) := by
  simp only [unarySteps, allowed, List.filter_flatMap]
  refine Adds.foldl _ fun g _ d' hd' => ?_
  rw [← hd']
  unfold turnSteps
  cases g.base with
  | none => exact .refl
  | some base =>
    exact adds_proposals t mode d' _ ruleAction
      (fun span x own => .unary (ruleAction span x) own (Score.add own base.score) g)
      fun _ _ _ => rfl

end Draft

/-! ## Groups as gathered steps -/

namespace Group

/-- The group of a step and of the steps pushed after it. -/
def gather (id : Nat) (span : Span) (s : Step σ (Group σ)) (rest : List (Step σ (Group σ))) :
    Group σ :=
  rest.foldl push (single id span s)

@[simp] theorem id_push (g : Group σ) (s : Step σ (Group σ)) : (g.push s).id = g.id := by
  unfold push; split_ifs <;> rfl

@[simp] theorem span_push (g : Group σ) (s : Step σ (Group σ)) : (g.push s).span = g.span := by
  unfold push; split_ifs <;> rfl

@[simp] theorem category_push (g : Group σ) (s : Step σ (Group σ)) :
    (g.push s).category = g.category := by
  unfold push; split_ifs <;> rfl

theorem gather_concat (id : Nat) (span : Span) (s s' : Step σ (Group σ))
    (rest : List (Step σ (Group σ))) :
    gather id span s (rest ++ [s']) = (gather id span s rest).push s' := by
  simp [gather]

/-- What pushing keeps and a single step has, a group of gathered steps has. -/
theorem gather_induct {motive : Group σ → Prop} {id : Nat} {span : Span}
    {s : Step σ (Group σ)} {rest : List (Step σ (Group σ))} (h₁ : motive (single id span s))
    (h₂ : ∀ g, ∀ s' ∈ rest, motive g → motive (g.push s')) : motive (gather id span s rest) := by
  induction rest using List.reverseRecOn with
  | nil => exact h₁
  | append_singleton rest s' ih =>
    rw [gather_concat]
    exact h₂ _ s' (by simp) (ih fun g x hx => h₂ g x (by simp [hx]))

@[simp] theorem span_gather (id : Nat) (span : Span) (s : Step σ (Group σ))
    (rest : List (Step σ (Group σ))) : (gather id span s rest).span = span :=
  gather_induct (motive := fun g => g.span = span) rfl fun g s' _ h => (span_push g s').trans h

end Group

namespace Draft

/-- The steps with a category. -/
def stepsFor (steps : List (Step σ (Group σ))) (c : Category) : List (Step σ (Group σ)) :=
  steps.filter fun s => decide (s.action.category = c)

/-- The group gathers some of the steps; when they are packed, all of its category. -/
def MadeOf (mode : Packing) (span : Span) (steps : List (Step σ (Group σ))) (g : Group σ) : Prop :=
  ∃ s rest, g = .gather g.id span s rest ∧ (∀ x ∈ s :: rest, x ∈ stepsFor steps g.category) ∧
    (mode = .packed → stepsFor steps g.category = s :: rest)

/-- The groups are those of the steps; without packing every step is a group of its own. -/
structure Gathered (mode : Packing) (firstId : Nat) (span : Span) (steps : List (Step σ (Group σ)))
    (gs : List (Group σ)) : Prop where
  ids : gs.map Group.id = List.range' firstId gs.length
  made : ∀ g ∈ gs, MadeOf mode span steps g
  covers : ∀ s ∈ steps, ∃ g ∈ gs, g.category = s.action.category
  alone : mode = .unpacked → ∀ s ∈ steps, ∃ g ∈ gs, g.steps = [s]
  nodup : mode = .packed → (gs.map Group.category).Nodup

/-- A step goes to the first group of its category, or becomes a group. -/
theorem insertPacked_cases (id : Nat) (span : Span) (s : Step σ (Group σ)) (gs : List (Group σ)) :
    (∃ pre g post, gs = pre ++ g :: post ∧ g.category = s.action.category ∧
      insertPacked id span s gs = pre ++ g.push s :: post) ∨
    ((∀ g ∈ gs, g.category ≠ s.action.category) ∧
      insertPacked id span s gs = gs ++ [.single id span s]) := by
  induction gs with
  | nil => exact Or.inr ⟨by simp, rfl⟩
  | cons g rest ih =>
    rw [insertPacked]
    split_ifs with hg
    · exact Or.inl ⟨[], g, rest, rfl, hg, rfl⟩
    · rcases ih with ⟨pre, g', post, rfl, hg', he⟩ | ⟨hne, he⟩
      · exact Or.inl ⟨g :: pre, g', post, rfl, hg', by rw [he]; rfl⟩
      · refine Or.inr ⟨fun g' hg' => ?_, by rw [he]; rfl⟩
        rcases List.mem_cons.mp hg' with rfl | hg'
        · exact hg
        · exact hne g' hg'

omit [Score σ] in
theorem stepsFor_concat (steps : List (Step σ (Group σ))) (s : Step σ (Group σ)) (c : Category) :
    stepsFor (steps ++ [s]) c =
      stepsFor steps c ++ if s.action.category = c then [s] else [] := by
  simp only [stepsFor, List.filter_append, List.filter_singleton]
  split_ifs with h <;> simp [h]

variable {mode : Packing} {firstId : Nat} {span : Span} {steps : List (Step σ (Group σ))}
  {gs : List (Group σ)} {s : Step σ (Group σ)}

theorem MadeOf.concat {g : Group σ} (h : MadeOf mode span steps g)
    (hs : mode = .packed → s.action.category ≠ g.category) : MadeOf mode span (steps ++ [s]) g := by
  obtain ⟨x, rest, hg, hmem, hall⟩ := h
  refine ⟨x, rest, hg, fun y hy => ?_, fun hm => ?_⟩
  · rw [stepsFor_concat]
    exact List.mem_append_left _ (hmem y hy)
  · rw [stepsFor_concat, if_neg (hs hm), List.append_nil, hall hm]

theorem MadeOf.push {g : Group σ} (h : MadeOf mode span steps g)
    (hs : s.action.category = g.category) : MadeOf mode span (steps ++ [s]) (g.push s) := by
  obtain ⟨x, rest, hg, hmem, hall⟩ := h
  have hfor := stepsFor_concat steps s g.category
  rw [if_pos hs] at hfor
  refine ⟨x, rest ++ [s], ?_, fun y hy => ?_, fun hm => ?_⟩
  · rw [Group.gather_concat, Group.id_push, ← hg]
  · rw [Group.category_push, hfor]
    rw [← List.cons_append, List.mem_append] at hy
    exact List.mem_append.mpr (hy.imp (hmem y) id)
  · rw [Group.category_push, hfor, hall hm, List.cons_append]

/-- A step that no group of its category waits for makes a group. -/
theorem MadeOf.single (id : Nat)
    (hs : mode = .packed → ∀ x ∈ steps, x.action.category ≠ s.action.category) :
    MadeOf mode span (steps ++ [s]) (.single id span s) := by
  have hfor := stepsFor_concat steps s s.action.category
  rw [if_pos rfl] at hfor
  refine ⟨s, [], rfl, fun y hy => ?_, fun hm => ?_⟩
  · rw [List.mem_singleton.mp hy]
    exact hfor ▸ List.mem_append_right _ (List.mem_singleton_self s)
  · have hnil : stepsFor steps s.action.category = [] := by
      simpa [stepsFor, List.filter_eq_nil_iff] using hs hm
    exact hfor.trans (by rw [hnil]; rfl)

theorem Gathered.append_single (h : Gathered mode firstId span steps gs)
    (hs : mode = .packed → ∀ g ∈ gs, g.category ≠ s.action.category) :
    Gathered mode firstId span (steps ++ [s])
      (gs ++ [.single (firstId + gs.length) span s]) where
  ids := by
    rw [List.map_append, h.ids, List.length_append, List.length_singleton, List.range'_1_concat]
    rfl
  made g hg := by
    rcases List.mem_append.mp hg with hg | hg
    · exact (h.made g hg).concat fun hm => (hs hm g hg).symm
    · rw [List.mem_singleton.mp hg]
      refine .single _ fun hm x hx => ?_
      obtain ⟨g', hg', he⟩ := h.covers x hx
      rw [← he]
      exact hs hm g' hg'
  covers x hx := by
    rcases List.mem_append.mp hx with hx | hx
    · obtain ⟨g, hg, he⟩ := h.covers x hx
      exact ⟨g, List.mem_append_left _ hg, he⟩
    · rw [List.mem_singleton.mp hx]
      exact ⟨_, List.mem_append_right _ (List.mem_singleton_self _), rfl⟩
  alone hm x hx := by
    rcases List.mem_append.mp hx with hx | hx
    · obtain ⟨g, hg, he⟩ := h.alone hm x hx
      exact ⟨g, List.mem_append_left _ hg, he⟩
    · rw [List.mem_singleton.mp hx]
      exact ⟨_, List.mem_append_right _ (List.mem_singleton_self _), rfl⟩
  nodup hm := by
    rw [List.map_append, List.nodup_append']
    refine ⟨h.nodup hm, List.nodup_singleton _, ?_⟩
    simpa [List.disjoint_right, Group.single] using hs hm

theorem Gathered.insertPacked (h : Gathered .packed firstId span steps gs) :
    Gathered .packed firstId span (steps ++ [s])
      (insertPacked (firstId + gs.length) span s gs) := by
  rcases insertPacked_cases (firstId + gs.length) span s gs with
    ⟨pre, g, post, rfl, hg, he⟩ | ⟨hne, he⟩
  · have hcats : (pre ++ g.push s :: post).map Group.category =
        (pre ++ g :: post).map Group.category := by simp
    have hother : ∀ g' ∈ pre ++ post, g'.category ≠ g.category := by
      have hnd := h.nodup rfl
      rw [List.map_append, List.map_cons, List.nodup_middle, ← List.map_append,
        List.nodup_cons] at hnd
      exact fun g' hg' e => hnd.1 (e ▸ List.mem_map_of_mem hg')
    rw [he]
    refine ⟨?_, fun g' hg' => ?_, fun x hx => ?_, nofun, fun hm => ?_⟩
    · have := h.ids
      simpa using this
    · have hmem : g' = g.push s ∨ g' ∈ pre ++ post := by
        rw [List.mem_append, List.mem_cons] at hg'
        rw [List.mem_append]
        tauto
      rcases hmem with rfl | hmem
      · exact (h.made g (by simp)).push hg.symm
      · have hg'' : g' ∈ pre ++ g :: post := by
          rw [List.mem_append] at hmem ⊢
          exact hmem.imp id (List.mem_cons_of_mem g)
        exact (h.made g' hg'').concat fun _ e => hother g' hmem (e ▸ hg.symm)
    · have : ∃ g' ∈ pre ++ g :: post, g'.category = x.action.category := by
        rcases List.mem_append.mp hx with hx | hx
        · exact h.covers x hx
        · rw [List.mem_singleton.mp hx]
          exact ⟨g, by simp, hg⟩
      rw [← List.mem_map, ← hcats, List.mem_map] at this
      exact this
    · rw [hcats]
      exact h.nodup hm
  · rw [he]
    exact h.append_single fun _ => hne

/-- No group gets lost when steps are inserted. -/
theorem length_le_length_insertSteps (mode : Packing) (firstId : Nat) (span : Span)
    (gs : List (Group σ)) (steps : List (Step σ (Group σ))) :
    gs.length ≤ (insertSteps mode firstId span gs steps).length := by
  induction steps generalizing gs with
  | nil => exact le_rfl
  | cons s steps ih =>
    refine le_trans ?_ (ih (insertStep mode firstId span gs s))
    cases mode with
    | unpacked => simp [insertStep]
    | packed =>
      rcases insertPacked_cases (firstId + gs.length) span s gs with
        ⟨pre, g, post, rfl, -, he⟩ | ⟨-, he⟩
      · rw [insertStep, he]
        simp
      · rw [insertStep, he]
        simp

/-- **The groups of a cell are those of its steps.** -/
theorem gathered_insertSteps (mode : Packing) (firstId : Nat) (span : Span)
    (steps : List (Step σ (Group σ))) :
    Gathered mode firstId span steps (insertSteps mode firstId span [] steps) := by
  induction steps using List.reverseRecOn with
  | nil => exact ⟨rfl, by simp [insertSteps], by simp, by simp, fun _ => by simp [insertSteps]⟩
  | append_singleton steps s ih =>
    rw [insertSteps_append]
    cases mode with
    | packed => exact ih.insertPacked
    | unpacked => exact ih.append_single fun hm => by cases hm

end Draft

end Categorial
