import Categorial.Proofs.Chart.Derivable
import Categorial.Proofs.Chart.Groups
import Categorial.Proofs.Licensed

/-!
# The trees of a group

If the steps of a cell make different derivations, then so do the steps that a group keeps, and the
group says how many derivations it has. Of several look-ups with one category only the first is kept.

* `parses_unary`, `parses_binary`: how derivations are counted.
* `Counted`: a list of derivations without repetitions, with their number.
* `Group.mem_trees`, `Group.mem_treesOfStep_unary`, `Group.mem_treesOfStep_binary`: what trees are.
* `Chart.Distinct`: no two steps make the same derivation.
* **`Chart.Distinct.counted_group`**, `Chart.Distinct.mem_steps`: the groups of such steps.
* `Task.Uniform`: a filter that does not look at entries.
* `Chart.lexicalStep_mem_steps`: the look-ups that a group keeps.
-/

namespace Categorial

/-! ## Counts -/

section Lengths

variable {ls rs : List Derivation} {m n : Nat}

theorem parses_unary (h : n = min Count.cap ls.length) (a : Action) :
    Count.mul 1 n = min Count.cap (ls.map fun d => Derivation.unary a d).length := by
  have hone : 1 = min Count.cap 1 := by decide
  rw [hone, h, Count.mul_cap, one_mul, List.length_map]

theorem parses_binary (hl : m = min Count.cap ls.length) (hr : n = min Count.cap rs.length)
    (a : Action) : Count.mul (Count.mul 1 m) n =
      min Count.cap (rs.flatMap fun r => ls.map fun l => Derivation.binary a l r).length := by
  have hone : 1 = min Count.cap 1 := by decide
  have hlen : (rs.flatMap fun r => ls.map fun l => Derivation.binary a l r).length =
      ls.length * rs.length := by
    simp [List.length_flatMap, mul_comm]
  rw [hone, hl, hr, Count.mul_cap, Count.mul_cap, one_mul, hlen]

end Lengths

/-- The derivations differ, and `parses` is their number up to the cap. -/
structure Counted (l : List Derivation) (parses : Nat) : Prop where
  nodup : l.Nodup
  parses_eq : parses = min Count.cap l.length

namespace Counted

variable {ls rs : List Derivation} {m n : Nat}

theorem leaf (a : Action) (ws : List String) : Counted [.leaf a ws] 1 :=
  ⟨List.nodup_singleton _, (by decide : 1 = min Count.cap 1)⟩

theorem unary (h : Counted ls n) (a : Action) :
    Counted (ls.map fun d => .unary a d) (Count.mul 1 n) :=
  ⟨h.nodup.map fun d d' he => by cases he; rfl, parses_unary h.parses_eq a⟩

theorem binary (hl : Counted ls m) (hr : Counted rs n) (a : Action) :
    Counted (rs.flatMap fun r => ls.map fun l => .binary a l r) (Count.mul (Count.mul 1 m) n) := by
  refine ⟨?_, parses_binary hl.parses_eq hr.parses_eq a⟩
  rw [List.nodup_flatMap]
  refine ⟨fun r _ => hl.nodup.map fun l l' he => by cases he; rfl, ?_⟩
  refine hr.nodup.imp fun {r r'} hne d hd hd' => ?_
  obtain ⟨l, -, rfl⟩ := List.mem_map.mp hd
  obtain ⟨l', -, he⟩ := List.mem_map.mp hd'
  cases he
  exact hne rfl

end Counted

/-! ## The trees of a group -/

variable {σ : Type}

namespace Group

theorem trees_eq_flatMap (w : List String) (g : Group σ) :
    g.trees w = g.steps.flatMap (treesOfStep w) := by
  have hsteps : ∀ steps : List (Step σ (Group σ)),
      treesOfSteps w steps = steps.flatMap (treesOfStep w) := by
    intro steps
    induction steps with
    | nil => rfl
    | cons s steps ih => rw [treesOfSteps, ih, List.flatMap_cons]
  obtain ⟨id, span, category, steps, best, base, parses⟩ := g
  rw [trees, hsteps]

theorem mem_trees {w : List String} {g : Group σ} {d : Derivation} :
    d ∈ g.trees w ↔ ∃ s ∈ g.steps, d ∈ treesOfStep w s := by
  rw [trees_eq_flatMap, List.mem_flatMap]

theorem mem_treesOfStep_unary {w : List String} {a : Action} {x y : σ} {g : Group σ}
    {d : Derivation} : d ∈ treesOfStep w (.unary a x y g) ↔
      ∃ d' ∈ g.trees w, d = .unary a d' := by
  rw [treesOfStep]
  simp only [List.mem_map, eq_comm]

theorem mem_treesOfStep_binary {w : List String} {a : Action} {x y : σ} {l r : Group σ}
    {d : Derivation} : d ∈ treesOfStep w (.binary a x y l r) ↔
      ∃ dl ∈ l.trees w, ∃ dr ∈ r.trees w, d = .binary a dl dr := by
  rw [treesOfStep]
  simp only [List.mem_flatMap, List.mem_map]
  constructor
  · rintro ⟨dr, hr, dl, hl, rfl⟩
    exact ⟨dl, hl, dr, hr, rfl⟩
  · rintro ⟨dl, hl, dr, hr, rfl⟩
    exact ⟨dr, hr, dl, hl, rfl⟩

/-- A group that keeps steps counts its derivations if the steps count theirs. -/
theorem Keeps.parses_eq {w : List String} {l : List (Step σ (Group σ))} {g : Group σ}
    (h : Keeps l g) (hsteps : ∀ s ∈ g.steps, s.parses = min Count.cap (treesOfStep w s).length) :
    g.parses = min Count.cap (g.trees w).length := by
  have hmap : g.steps.map Step.parses =
      (g.steps.map fun s => (treesOfStep w s).length).map (min Count.cap) := by
    rw [List.map_map]
    exact List.map_congr_left hsteps
  rw [h.parses, hmap, Count.sum_cap, trees_eq_flatMap, List.length_flatMap]

/-- A group that keeps steps which make different derivations. -/
theorem Keeps.counted {w : List String} {l : List (Step σ (Group σ))} {g : Group σ}
    (h : Keeps l g) (hsteps : ∀ s ∈ l, Counted (treesOfStep w s) s.parses)
    (hsame : ∀ s ∈ l, ∀ s' ∈ l, ∀ d, d ∈ treesOfStep w s → d ∈ treesOfStep w s' →
      s'.sameBuild s = true) : Counted (g.trees w) g.parses := by
  have hstep : ∀ s ∈ g.steps, Counted (treesOfStep w s) s.parses := fun s hs =>
    hsteps s (h.mem s hs)
  refine ⟨?_, h.parses_eq fun s hs => (hstep s hs).parses_eq⟩
  rw [trees_eq_flatMap, List.nodup_flatMap]
  refine ⟨fun s hs => (hstep s hs).nodup, ?_⟩
  refine List.Pairwise.imp_of_mem (fun {s s'} hs hs' hapart d hd hd' => ?_) h.apart
  rw [hsame s (h.mem s hs) s' (h.mem s' hs') d hd hd'] at hapart
  cases hapart

end Group

/-- The filter does not look at the entry of an action. -/
def Task.Uniform (t : Task σ) : Prop := ∀ a b : Action, a.same b = true → t.accept a = t.accept b

theorem Task.uniform_unfiltered (t : Task σ) : t.unfiltered.Uniform := fun _ _ _ => rfl

namespace Chart

open Draft

/-- The number of derivations that the last step of a derivation builds on. -/
def arity : Derivation → Nat
  | .leaf _ _ => 0
  | .unary _ _ => 1
  | .binary _ _ _ => 2

/-- The last action and the parts of a derivation are those of the step that makes it. -/
theorem action_and_arity_of_mem {w : List String} {s : Step σ (Group σ)} {d : Derivation}
    (h : d ∈ Group.treesOfStep w s) : d.action = s.action ∧ arity d = s.children.length := by
  cases s with
  | lexical a x =>
    rw [Group.treesOfStep, List.mem_singleton] at h
    rw [h]
    exact ⟨rfl, rfl⟩
  | binary a x y l r =>
    obtain ⟨dl, -, dr, -, rfl⟩ := Group.mem_treesOfStep_binary.mp h
    exact ⟨rfl, rfl⟩
  | unary a x y c =>
    obtain ⟨d', -, rfl⟩ := Group.mem_treesOfStep_unary.mp h
    exact ⟨rfl, rfl⟩

theorem length_children_of_sameBuild {s s' : Step σ (Group σ)} (h : s.sameBuild s' = true) :
    s.children.length = s'.children.length := by
  have := congrArg List.length (Step.sameBuild_iff.mp h).1
  rwa [List.length_map, List.length_map] at this

theorem mem_stepsFor {steps : List (Step σ (Group σ))} {c : Category} {s : Step σ (Group σ)} :
    s ∈ stepsFor steps c ↔ s ∈ steps ∧ s.action.category = c := by
  simp [stepsFor]

/-! ## Steps that make different derivations -/

/-- No two steps make the same derivation, unless they build the same; apart from look-ups no step
builds the same as another. -/
structure Distinct (w : List String) (steps : List (Step σ (Group σ))) : Prop where
  counted : ∀ s ∈ steps, Counted (Group.treesOfStep w s) s.parses
  same : ∀ s ∈ steps, ∀ s' ∈ steps, ∀ d, d ∈ Group.treesOfStep w s → d ∈ Group.treesOfStep w s' →
    s'.sameBuild s = true
  eq : ∀ s ∈ steps, ∀ s' ∈ steps, s.sameBuild s' = true → s.children ≠ [] → s = s'

namespace Distinct

variable {w : List String} {l₁ l₂ : List (Step σ (Group σ))}

theorem mono (h : Distinct w l₂) (hsub : ∀ s ∈ l₁, s ∈ l₂) : Distinct w l₁ where
  counted s hs := h.counted s (hsub s hs)
  same s hs s' hs' := h.same s (hsub s hs) s' (hsub s' hs')
  eq s hs s' hs' := h.eq s (hsub s hs) s' (hsub s' hs')

theorem append (h₁ : Distinct w l₁) (h₂ : Distinct w l₂)
    (hne : ∀ s ∈ l₁, ∀ s' ∈ l₂, s.children.length ≠ s'.children.length) :
    Distinct w (l₁ ++ l₂) := by
  have hnot : ∀ s ∈ l₁, ∀ s' ∈ l₂, ∀ d, d ∈ Group.treesOfStep w s → d ∉ Group.treesOfStep w s' :=
    fun s hs s' hs' d hd hd' => hne s hs s' hs'
      ((action_and_arity_of_mem hd).2.symm.trans (action_and_arity_of_mem hd').2)
  refine ⟨fun s hs => ?_, fun s hs s' hs' d hd hd' => ?_, fun s hs s' hs' hsame hc => ?_⟩
  · exact (List.mem_append.mp hs).elim (h₁.counted s) (h₂.counted s)
  · rcases List.mem_append.mp hs with hs | hs <;> rcases List.mem_append.mp hs' with hs' | hs'
    · exact h₁.same s hs s' hs' d hd hd'
    · exact absurd hd' (hnot s hs s' hs' d hd)
    · exact absurd hd (hnot s' hs' s hs d hd')
    · exact h₂.same s hs s' hs' d hd hd'
  · have hlen := length_children_of_sameBuild hsame
    rcases List.mem_append.mp hs with hs | hs <;> rcases List.mem_append.mp hs' with hs' | hs'
    · exact h₁.eq s hs s' hs' hsame hc
    · exact absurd hlen (hne s hs s' hs')
    · exact absurd hlen.symm (hne s' hs' s hs)
    · exact h₂.eq s hs s' hs' hsame hc

end Distinct

variable [Score σ] {mode : Packing} {span : Span} {steps : List (Step σ (Group σ))} {g : Group σ}

/-- A group keeps steps of its category; when they are packed, all of them. -/
theorem keeps_of_madeOf (h : MadeOf mode span steps g) : ∃ l, Group.Keeps l g ∧
    (∀ x ∈ l, x ∈ stepsFor steps g.category) ∧ (mode = .packed → l = stepsFor steps g.category) := by
  obtain ⟨s, rest, hg, hmem, hall⟩ := h
  have hkeeps := Group.keeps_gather g.id span s rest
  rw [← hg] at hkeeps
  exact ⟨s :: rest, hkeeps, hmem, fun hm => (hall hm).symm⟩

theorem keeps_of_madeOf_packed (h : MadeOf .packed span steps g) :
    Group.Keeps (stepsFor steps g.category) g := by
  obtain ⟨l, hkeeps, -, hall⟩ := keeps_of_madeOf h
  exact hall rfl ▸ hkeeps

theorem mem_of_madeOf (h : MadeOf mode span steps g) {s : Step σ (Group σ)} (hs : s ∈ g.steps) :
    s ∈ steps ∧ s.action.category = g.category := by
  obtain ⟨l, hkeeps, hmem, -⟩ := keeps_of_madeOf h
  exact mem_stepsFor.mp (hmem s (hkeeps.mem s hs))

namespace Distinct

variable {w : List String}

theorem counted_group (hd : Distinct w steps) (h : MadeOf .packed span steps g) :
    Counted (g.trees w) g.parses :=
  (keeps_of_madeOf_packed h).counted (fun s hs => hd.counted s (mem_stepsFor.mp hs).1)
    fun s hs s' hs' => hd.same s (mem_stepsFor.mp hs).1 s' (mem_stepsFor.mp hs').1

/-- A group has all steps of its category that apply a rule. -/
theorem mem_steps (hd : Distinct w steps) (h : MadeOf .packed span steps g)
    {s : Step σ (Group σ)} (hs : s ∈ steps) (hc : s.action.category = g.category)
    (hne : s.children ≠ []) : s ∈ g.steps := by
  rcases (keeps_of_madeOf_packed h).kept s (mem_stepsFor.mpr ⟨hs, hc⟩) with hs' | ⟨y, hy, hsame⟩
  · exact hs'
  · rw [hd.eq s hs y (mem_of_madeOf h hy).1 hsame hne]
    exact hy

end Distinct

/-! ## Look-ups -/

section Lexical

variable {t : Task σ} {more : List (Step σ (Group σ))} {e : Entry}

omit [Score σ] in
theorem mem_allowed {s : Step σ (Group σ)} :
    s ∈ allowed t steps ↔ s ∈ steps ∧ t.accept s.action = true := List.mem_filter

omit [Score σ] in
theorem lexicalStep_injective {e e' : Entry} (h : lexicalStep t span e = lexicalStep t span e') :
    e = e' := by
  have haction := congrArg Step.action h
  exact Option.some_inj.mp (congrArg Action.entry haction)

omit [Score σ] in
/-- The look-ups of a category are allowed together. -/
theorem stepsFor_allowed_lexicalSteps (hstop : span.stop ≤ t.sentence.length) (hu : t.Uniform)
    (hacc : t.accept (.lookup span e) = true) :
    stepsFor (allowed t (lexicalSteps t (t.grammar.provider t.lexicon) span)) e.category =
      stepsFor (lexicalSteps t (t.grammar.provider t.lexicon) span) e.category := by
  rw [stepsFor, stepsFor, allowed, List.filter_filter]
  refine List.filter_congr fun s hs => ?_
  obtain ⟨e', -, rfl⟩ := (mem_lexicalSteps hstop).mp hs
  by_cases hc : e'.category = e.category
  · have hsame : (Action.lookup span e').same (.lookup span e) = true :=
      Action.same_iff.mpr ⟨rfl, rfl, hc⟩
    have hacc' : t.accept (lexicalStep t span e').action = true := (hu _ _ hsame).trans hacc
    rw [hacc', Bool.and_true]
  · have hne : decide ((lexicalStep t span e').action.category = e.category) = false :=
      decide_eq_false hc
    rw [hne, Bool.false_and]

omit [Score σ] in
/-- The first look-up of a category comes before all other steps of the category. -/
theorem head_stepsFor (hstop : span.stop ≤ t.sentence.length) (hu : t.Uniform)
    (hacc : t.accept (.lookup span e) = true)
    (he : (t.grammar.provider t.lexicon).IsFirst t.sentence span e) :
    (stepsFor (allowed t (lexicalSteps t (t.grammar.provider t.lexicon) span) ++ more)
      e.category).head? = some (lexicalStep t span e) := by
  have hlen := t.grammar.length_le_maxLength t.lexicon he.mem
  rw [Span.length_tokens hstop] at hlen
  have hfind : (lexicalSteps t (t.grammar.provider t.lexicon) span).find?
      (fun s => decide (s.action.category = e.category)) = some (lexicalStep t span e) := by
    rw [lexicalSteps, if_pos hlen, List.find?_map]
    exact Option.map_eq_some_iff.mpr ⟨e, he, rfl⟩
  have hfirst := stepsFor_allowed_lexicalSteps hstop hu hacc
  rw [stepsFor] at hfirst
  rw [stepsFor, List.filter_append, hfirst, List.head?_append, stepsFor, List.head?_filter, hfind]
  rfl

/-- Only the first look-up of a category is kept. -/
theorem lexicalStep_mem_steps (hstop : span.stop ≤ t.sentence.length) (hu : t.Uniform)
    (hacc : t.accept (.lookup span e) = true)
    (hg : MadeOf .packed span
      (allowed t (lexicalSteps t (t.grammar.provider t.lexicon) span) ++ more) g)
    (he : e ∈ (t.grammar.provider t.lexicon).lookup (span.tokens t.sentence))
    (hc : e.category = g.category) :
    lexicalStep t span e ∈ g.steps ↔
      (t.grammar.provider t.lexicon).IsFirst t.sentence span e := by
  have hk := keeps_of_madeOf_packed hg
  obtain ⟨e₀, hfirst, hc₀⟩ := Provider.exists_isFirst he
  have hsame : (lexicalStep t span e).action.same (lexicalStep t span e₀).action = true :=
    Action.same_iff.mpr ⟨rfl, rfl, hc₀.symm⟩
  have hhead : g.steps.head? = some (lexicalStep t span e₀) := by
    rw [hk.head, ← hc, ← hc₀]
    exact head_stepsFor hstop hu ((hu _ _ hsame).symm.trans hacc) hfirst
  obtain ⟨rest, hrest⟩ := List.head?_eq_some_iff.mp hhead
  constructor
  · intro hmem
    rw [hrest, List.mem_cons] at hmem
    rcases hmem with hmem | hmem
    · rw [lexicalStep_injective hmem]
      exact hfirst
    · -- a later look-up of the category builds the same as the first one
      have hapart := hk.apart
      rw [hrest, List.pairwise_cons] at hapart
      have hbuild : (lexicalStep t span e).sameBuild (lexicalStep t span e₀) = true :=
        Step.sameBuild_iff.mpr ⟨rfl, hsame⟩
      rw [hapart.1 _ hmem] at hbuild
      cases hbuild
  · intro hfirst'
    rw [hrest, hfirst'.eq hfirst hc₀.symm]
    exact List.mem_cons_self

omit [Score σ] in
theorem distinct_lexicalSteps (hstop : span.stop ≤ t.sentence.length) :
    Distinct t.sentence (lexicalSteps t (t.grammar.provider t.lexicon) span) := by
  refine ⟨fun s hs => ?_, fun s hs s' hs' d hd hd' => ?_, fun s hs s' _ _ hne => ?_⟩
  · obtain ⟨e, -, rfl⟩ := (mem_lexicalSteps hstop).mp hs
    rw [lexicalStep, Group.treesOfStep]
    exact Counted.leaf _ _
  · obtain ⟨e, -, rfl⟩ := (mem_lexicalSteps hstop).mp hs
    obtain ⟨e', -, rfl⟩ := (mem_lexicalSteps hstop).mp hs'
    rw [lexicalStep, Group.treesOfStep, List.mem_singleton] at hd hd'
    have haction : Action.lookup span e = Action.lookup span e' :=
      congrArg Derivation.action (hd.symm.trans hd')
    refine Step.sameBuild_iff.mpr ⟨rfl, ?_⟩
    change (Action.lookup span e').same (Action.lookup span e) = true
    rw [haction, Action.same_self]
  · obtain ⟨e, -, rfl⟩ := (mem_lexicalSteps hstop).mp hs
    exact absurd rfl hne

end Lexical

end Chart

end Categorial
