import Categorial.Proofs.Chart.Unpacked
import Categorial.Proofs.ClassOrder

/-!
# The chart and the order of entries

A lexicon with its entries in another order makes a chart whose groups have other numbers and keep
their steps in another order. What a group shows to the cells above it stays the same: its category,
its best score and rule, its best score without unary rules, and the number of its steps. This outline
depends on the outlines of the steps of the group, in any order, because no two steps of a packed cell
build the same; and the outline of a step depends on those of the groups below it.

* `Group.outline`, `Step.outline`: what a group shows, and what a step adds to it.
* `Chart.apart_cellSteps`: no two steps of a packed cell build the same.
* `Group.outline_eq_of_perm`, `Chart.perm_outlines_of_gathered`: outlines do not depend on the order
  of the steps.
* `Chart.kept_outlines_eq`: cells are ranked by outlines.
* **`Chart.cell_rearranged`**: the cells of the two charts have the same outlines.
-/

namespace Categorial

/-! ## Steps that build differently -/

namespace Chart

open Draft

section Apart

variable {σ : Type} [Score σ] {t : Task σ} {span : Span} {cell : Span → List (Group σ)}

/-- No step builds the same as an earlier one. -/
def Apart (steps : List (Step σ (Group σ))) : Prop :=
  steps.Pairwise fun x y => y.sameBuild x = false

omit [Score σ] in
theorem Apart.append {l₁ l₂ : List (Step σ (Group σ))} (h₁ : Apart l₁) (h₂ : Apart l₂)
    (hne : ∀ s ∈ l₁, ∀ s' ∈ l₂, s.children.length ≠ s'.children.length) : Apart (l₁ ++ l₂) := by
  refine List.pairwise_append.mpr ⟨h₁, h₂, fun s hs s' hs' => Bool.eq_false_iff.mpr fun hsame => ?_⟩
  exact hne s hs s' hs' (length_children_of_sameBuild hsame).symm

omit [Score σ] in
theorem Apart.allowed {steps : List (Step σ (Group σ))} (h : Apart steps) : Apart (allowed t steps) :=
  h.filter _

omit [Score σ] in
theorem apart_lexicalSteps {p : Provider}
    (h : ∀ tokens, (p.lookup tokens).Pairwise fun e e' => e.category ≠ e'.category) :
    Apart (lexicalSteps t p span) := by
  unfold lexicalSteps
  split_ifs
  · refine List.pairwise_map.mpr ((h _).imp fun hne => Bool.eq_false_iff.mpr fun hsame => hne ?_)
    exact (Action.same_iff.mp (Step.sameBuild_iff.mp hsame).2).2.2.symm
  · exact List.Pairwise.nil

theorem binaryStep_apart {l l' r r' : Group σ} {x x' : RuleId × Category}
    (h : l.id ≠ l'.id ∨ r.id ≠ r'.id ∨ x ≠ x') :
    (binaryStep t span l' r' x').sameBuild (binaryStep t span l r x) = false := by
  refine Bool.eq_false_iff.mpr fun hsame => ?_
  obtain ⟨hids, haction⟩ := Step.sameBuild_iff.mp hsame
  obtain ⟨-, hrule, hcategory⟩ := Action.same_iff.mp haction
  obtain ⟨hl, hr⟩ := List.cons.inj hids
  rcases h with h | h | h
  · exact h hl.symm
  · exact h (List.cons.inj hr).1.symm
  · exact h (Prod.ext hrule.symm hcategory.symm)

theorem unaryStep_apart {g g' : Group σ} {p p' : Pick σ} {x x' : RuleId × Category}
    (h : g.id ≠ g'.id ∨ x ≠ x') :
    (unaryStep t span g' p' x').sameBuild (unaryStep t span g p x) = false := by
  refine Bool.eq_false_iff.mpr fun hsame => ?_
  obtain ⟨hids, haction⟩ := Step.sameBuild_iff.mp hsame
  obtain ⟨-, hrule, hcategory⟩ := Action.same_iff.mp haction
  rcases h with h | h
  · exact h (List.cons.inj hids).1.symm
  · exact h (Prod.ext hrule.symm hcategory.symm)

/-- The steps that join the groups of two cells. -/
theorem apart_joins {ls rs : List (Group σ)} (hl : (ls.map Group.id).Nodup)
    (hr : (rs.map Group.id).Nodup) :
    Apart (ls.flatMap fun l => rs.flatMap fun r => joinSteps t span l r) := by
  rw [Apart, List.pairwise_flatMap]
  refine ⟨fun l _ => List.pairwise_flatMap.mpr ⟨fun r _ => ?_, ?_⟩, ?_⟩
  · exact List.pairwise_map.mpr ((RuleSet.nodup_binaryResults ..).imp fun hne =>
      binaryStep_apart (Or.inr (Or.inr hne)))
  · refine (List.pairwise_map.mp hr).imp fun hne s hs s' hs' => ?_
    obtain ⟨x, -, rfl⟩ := List.mem_map.mp hs
    obtain ⟨x', -, rfl⟩ := List.mem_map.mp hs'
    exact binaryStep_apart (Or.inr (Or.inl hne))
  · refine (List.pairwise_map.mp hl).imp fun hne s hs s' hs' => ?_
    obtain ⟨r, -, hs⟩ := List.mem_flatMap.mp hs
    obtain ⟨x, -, rfl⟩ := List.mem_map.mp hs
    obtain ⟨r', -, hs'⟩ := List.mem_flatMap.mp hs'
    obtain ⟨x', -, rfl⟩ := List.mem_map.mp hs'
    exact binaryStep_apart (Or.inl hne)

/-- The groups of every cell have their own ids. -/
structure OwnIds (cell : Span → List (Group σ)) : Prop where
  nodup : ∀ s, ((cell s).map Group.id).Nodup
  span : ∀ s s', ∀ g ∈ cell s, ∀ g' ∈ cell s', g.id = g'.id → s = s'

theorem apart_binarySteps (h : OwnIds cell) : Apart (binarySteps t cell span) := by
  rw [Apart, binarySteps, List.pairwise_flatMap]
  refine ⟨fun i _ => apart_joins (h.nodup _) (h.nodup _),
    List.pairwise_lt_range.imp fun {i j} hij s hs s' hs' => ?_⟩
  obtain ⟨l, hl, hs⟩ := List.mem_flatMap.mp hs
  obtain ⟨r, -, hs⟩ := List.mem_flatMap.mp hs
  obtain ⟨x, -, rfl⟩ := List.mem_map.mp hs
  obtain ⟨l', hl', hs'⟩ := List.mem_flatMap.mp hs'
  obtain ⟨r', -, hs'⟩ := List.mem_flatMap.mp hs'
  obtain ⟨x', -, rfl⟩ := List.mem_map.mp hs'
  refine binaryStep_apart (Or.inl fun hid => ?_)
  -- the left parts end at different places
  have hstop := congrArg Span.stop (h.span _ _ l hl l' hl' hid)
  dsimp only at hstop
  omega

theorem apart_unarySteps {gs : List (Group σ)} (h : (gs.map Group.id).Nodup) :
    Apart (unarySteps t span gs) := by
  rw [Apart, unarySteps, List.pairwise_flatMap]
  refine ⟨fun g _ => ?_, (List.pairwise_map.mp h).imp fun hne s hs s' hs' => ?_⟩
  · unfold turnSteps
    split
    · exact List.pairwise_map.mpr ((RuleSet.nodup_unaryResults ..).imp fun hne =>
        unaryStep_apart (Or.inr hne))
    · exact List.Pairwise.nil
  · obtain ⟨p, x, rfl⟩ := exists_of_mem_turnSteps hs
    obtain ⟨p', x', rfl⟩ := exists_of_mem_turnSteps hs'
    exact unaryStep_apart (Or.inl hne)

theorem ownIds_parse (t : Task σ) (mode : Packing) (limit : Option Nat) :
    OwnIds (parse t mode limit).cell := by
  refine ⟨fun s => ?_, fun s s' g hg g' hg' hid => ?_⟩
  · by_cases hspan : s.start < s.stop ∧ s.stop ≤ t.sentence.length
    · obtain ⟨firstId, he⟩ := cell_parse t mode limit hspan
      obtain ⟨l, hsub, hperm⟩ := kept_sublist_perm limit (cellGroups t
        (t.grammar.provider t.lexicon) mode (parse t mode limit).cell firstId s)
      rw [he]
      refine (hsub.map Group.id).nodup ((hperm.map Group.id).nodup_iff.mpr ?_)
      rw [(gathered_cellGroups mode _ firstId s).ids]
      exact List.nodup_range'
    · rw [cell_parse_eq_nil t mode limit hspan]
      exact List.nodup_nil
  · obtain ⟨first, hf⟩ := filled_parse t mode limit
    exact (hf.id_inj hg hg' hid).1

variable {p : Provider}
  (hp : ∀ tokens, (p.lookup tokens).Pairwise fun e e' => e.category ≠ e'.category)
  (hcell : OwnIds cell)

include hp hcell

theorem apart_baseSteps : Apart (baseSteps t p cell span) := by
  refine (apart_lexicalSteps hp).allowed.append (apart_binarySteps hcell).allowed
    fun s hs s' hs' => ?_
  rw [children_of_mem_lexicalSteps (mem_allowed.mp hs).1,
    children_of_mem_binarySteps (mem_allowed.mp hs').1]
  decide

/-- No two steps of a packed cell build the same. -/
theorem apart_cellSteps (firstId : Nat) : Apart (cellSteps t p .packed cell firstId span) := by
  have hids : ((baseGroups t p .packed cell firstId span).map Group.id).Nodup := by
    rw [(gathered_baseGroups .packed cell firstId span).ids]
    exact List.nodup_range'
  refine (apart_baseSteps hp hcell).append (apart_unarySteps hids).allowed fun s hs s' hs' => ?_
  rw [children_of_mem_unarySteps (mem_allowed.mp hs').1]
  rcases List.mem_append.mp hs with hs | hs
  · rw [children_of_mem_lexicalSteps (mem_allowed.mp hs).1]
    decide
  · rw [children_of_mem_binarySteps (mem_allowed.mp hs).1]
    decide

end Apart

end Chart

/-! ## Outlines -/

variable {σ : Type}

/-- What a step adds to its group: its action, its score, and whether it is unary. -/
def Step.outline (s : Step σ (Group σ)) : Action × σ × Bool := (s.action, s.score, s.isUnary)

/-- What a group shows to the cells above it: its category, the score and the rule of its best step,
the best score without unary steps, and the number of its steps. -/
@[ext] structure Outline (σ : Type) where
  category : Category
  score : σ
  rule : RuleId
  base : Option σ
  steps : Nat

/-- What an outline is ranked by. -/
def Outline.standing (o : Outline σ) : Standing σ := ⟨o.score, o.rule, o.category⟩

/-- The outline of a group. -/
def Group.outline (g : Group σ) : Outline σ where
  category := g.category
  score := g.best.score
  rule := g.best.rule
  base := g.base.map Pick.score
  steps := g.steps.length

namespace Group

/-- A group that gathers steps none of which builds the same as another keeps them all. -/
theorem steps_gather [Score σ] (id : Nat) (span : Span) {s : Step σ (Group σ)}
    {rest : List (Step σ (Group σ))} (h : Chart.Apart (s :: rest)) :
    (gather id span s rest).steps = s :: rest := by
  induction rest using List.reverseRecOn with
  | nil => rfl
  | append_singleton rest x ih =>
    obtain ⟨hrest, -, hx⟩ := List.pairwise_append.mp (List.cons_append ▸ h)
    have ih := ih hrest
    have hnone : ¬ (gather id span s rest).steps.any x.sameBuild = true := by
      rw [ih]
      intro hany
      obtain ⟨y, hy, hsame⟩ := List.any_eq_true.mp hany
      rw [hx y hy x (List.mem_singleton_self x)] at hsame
      cases hsame
    rw [gather_concat, push, if_neg hnone]
    change (gather id span s rest).steps ++ [x] = _
    rw [ih, List.cons_append]

variable [AddCommMonoid σ] [LinearOrder σ] {g g' : Group σ}

theorem best_le_of_perm (hg : g.Picks) (hg' : g'.Picks)
    (h : (g.steps.map Step.outline).Perm (g'.steps.map Step.outline)) (c : Category) :
    (⟨g'.best.score, g'.best.rule, c⟩ : Standing σ) ≤ ⟨g.best.score, g.best.rule, c⟩ := by
  obtain ⟨s, hs, hscore, hrule⟩ := hg.best
  have hs := List.mem_map_of_mem (f := Step.outline) (List.mem_of_getElem? hs)
  obtain ⟨s', hs', he⟩ := List.mem_map.mp (h.mem_iff.mp hs)
  obtain ⟨haction, hrest⟩ := Prod.mk.inj he
  have hle := hg'.least s' hs' c
  rwa [haction, (Prod.mk.inj hrest).1, hscore, hrule] at hle

theorem base_le_of_perm (hg : g.Picks) (hg' : g'.Picks)
    (h : (g.steps.map Step.outline).Perm (g'.steps.map Step.outline)) {p : Pick σ}
    (hp : g.base = some p) : ∃ p', g'.base = some p' ∧ p.score ≤ p'.score := by
  obtain ⟨s, hs, hunary, hscore⟩ := hg.base p hp
  have hs := List.mem_map_of_mem (f := Step.outline) (List.mem_of_getElem? hs)
  obtain ⟨s', hs', he⟩ := List.mem_map.mp (h.mem_iff.mp hs)
  obtain ⟨-, hrest⟩ := Prod.mk.inj he
  obtain ⟨hscore', hunary'⟩ := Prod.mk.inj hrest
  obtain ⟨p', hp', hle⟩ := hg'.highest s' hs' (hunary'.trans hunary)
  exact ⟨p', hp', by rwa [hscore', hscore] at hle⟩

/-- **The outline of a group does not depend on the order of its steps.** -/
theorem outline_eq_of_perm (hg : g.Picks) (hg' : g'.Picks) (hcategory : g.category = g'.category)
    (h : (g.steps.map Step.outline).Perm (g'.steps.map Step.outline)) : g.outline = g'.outline := by
  have hbest := le_antisymm (best_le_of_perm hg' hg h.symm g.category)
    (best_le_of_perm hg hg' h g.category)
  have hbase : g.base.map Pick.score = g'.base.map Pick.score := by
    cases hp : g.base with
    | none =>
      cases hp' : g'.base with
      | none => rfl
      | some p' =>
        obtain ⟨p, hp'', -⟩ := base_le_of_perm hg' hg h.symm hp'
        cases hp.symm.trans hp''
    | some p =>
      obtain ⟨p', hp', hle⟩ := base_le_of_perm hg hg' h hp
      obtain ⟨q, hq, hle'⟩ := base_le_of_perm hg' hg h.symm hp'
      obtain rfl := Option.some_inj.mp (hp.symm.trans hq)
      rw [hp']
      exact congrArg some (le_antisymm hle hle')
  have hlength := h.length_eq
  rw [List.length_map, List.length_map] at hlength
  exact Outline.ext hcategory (congrArg Standing.score hbest) (congrArg Standing.rule hbest) hbase
    hlength

end Group

namespace Chart

open Draft

variable [AddCommMonoid σ] [LinearOrder σ]

/-! ## Cells with the same steps -/

section Gathered

variable {firstId firstId' : Nat} {span span' : Span} {steps steps' : List (Step σ (Group σ))}
  {gs gs' : List (Group σ)}

omit [AddCommMonoid σ] [LinearOrder σ] in
theorem outlines_stepsFor (steps : List (Step σ (Group σ))) (c : Category) :
    (stepsFor steps c).map Step.outline =
      (steps.map Step.outline).filter fun o => decide (o.1.category = c) := by
  rw [List.filter_map]
  rfl

theorem steps_of_gathered (h : Gathered .packed firstId span steps gs) (ha : Apart steps)
    {g : Group σ} (hg : g ∈ gs) : g.steps = stepsFor steps g.category ∧ g.Picks := by
  obtain ⟨s, rest, he, -, hall⟩ := h.made g hg
  have hapart : Apart (s :: rest) := hall rfl ▸ ha.filter _
  have hpicks := Group.picks_gather g.id span s rest
  rw [← he] at hpicks
  rw [hall rfl]
  exact ⟨(congrArg Group.steps he).trans (Group.steps_gather g.id span hapart), hpicks⟩

theorem exists_outline_eq (h : Gathered .packed firstId span steps gs)
    (h' : Gathered .packed firstId' span' steps' gs') (ha : Apart steps) (ha' : Apart steps')
    (hperm : (steps.map Step.outline).Perm (steps'.map Step.outline)) {g : Group σ} (hg : g ∈ gs) :
    ∃ g' ∈ gs', g.outline = g'.outline := by
  obtain ⟨hsteps, hpicks⟩ := steps_of_gathered h ha hg
  have hfor : ((stepsFor steps g.category).map Step.outline).Perm
      ((stepsFor steps' g.category).map Step.outline) := by
    rw [outlines_stepsFor, outlines_stepsFor]
    exact hperm.filter _
  -- A step of the group has its like among the other steps, and that one has a group.
  obtain ⟨s, hs, -⟩ := hpicks.best
  have hs := List.mem_map_of_mem (f := Step.outline) (hsteps ▸ List.mem_of_getElem? hs)
  obtain ⟨s', hs', -⟩ := List.mem_map.mp (hfor.mem_iff.mp hs)
  obtain ⟨hs', hcategory⟩ := mem_stepsFor.mp hs'
  obtain ⟨g', hg', he⟩ := h'.covers s' hs'
  obtain ⟨hsteps', hpicks'⟩ := steps_of_gathered h' ha' hg'
  have hsame : g.category = g'.category := (he.trans hcategory).symm
  refine ⟨g', hg', Group.outline_eq_of_perm hpicks hpicks' hsame ?_⟩
  rw [hsteps, hsteps', ← hsame]
  exact hfor

/-- The groups of the same steps have the same outlines, in whatever order the steps came. -/
theorem perm_outlines_of_gathered (h : Gathered .packed firstId span steps gs)
    (h' : Gathered .packed firstId' span' steps' gs') (ha : Apart steps) (ha' : Apart steps')
    (hperm : (steps.map Step.outline).Perm (steps'.map Step.outline)) :
    (gs.map Group.outline).Perm (gs'.map Group.outline) := by
  have hnodup {firstId : Nat} {span : Span} {steps : List (Step σ (Group σ))} {gs : List (Group σ)}
      (h : Gathered .packed firstId span steps gs) : (gs.map Group.outline).Nodup := by
    refine List.Nodup.of_map Outline.category ?_
    rw [List.map_map]
    exact h.nodup rfl
  refine (List.perm_ext_iff_of_nodup (hnodup h) (hnodup h')).mpr fun o => ?_
  rw [List.mem_map, List.mem_map]
  constructor
  · rintro ⟨g, hg, rfl⟩
    obtain ⟨g', hg', he⟩ := exists_outline_eq h h' ha ha' hperm hg
    exact ⟨g', hg', he.symm⟩
  · rintro ⟨g', hg', rfl⟩
    obtain ⟨g, hg, he⟩ := exists_outline_eq h' h ha' ha hperm.symm hg'
    exact ⟨g, hg, he.symm⟩

end Gathered

/-! ## Ranking -/

/-- Cells are ranked by outlines, and no two groups of a cell are tied. -/
theorem kept_outlines_eq (limit : Option Nat) {gs gs' : List (Group σ)}
    (hnodup : (gs.map Group.category).Nodup)
    (hperm : (gs.map Group.outline).Perm (gs'.map Group.outline)) :
    (kept limit gs).map Group.outline = (kept limit gs').map Group.outline := by
  have hsort (gs : List (Group σ)) :
      (gs.mergeSort fun g h => (Draft.rank g h).isLE).map Group.outline =
        (gs.map Group.outline).mergeSort fun a b => (a.standing.cmp b.standing).isLE :=
    List.map_mergeSort fun _ _ _ _ => rfl
  have hclasses : SameClasses Outline.category (gs.map Group.outline) (gs'.map Group.outline) :=
    sameClasses_of_perm hperm (List.pairwise_map.mpr (List.pairwise_map.mp hnodup))
  have hsorted : (gs.mergeSort fun g h => (Draft.rank g h).isLE).map Group.outline =
      (gs'.mergeSort fun g h => (Draft.rank g h).isLE).map Group.outline := by
    rw [hsort, hsort]
    refine hclasses.mergeSort_eq (fun a b c => Std.TransCmp.isLE_trans)
      (fun a b => isLE_total Standing.cmp _ _) fun a _ b _ hab hba => ?_
    have htied := Std.OrientedCmp.isLE_antisymm hab hba
    exact congrArg Standing.category (Standing.eq_of_cmp_eq htied)
  cases limit with
  | none => exact hsorted
  | some k =>
    have htake := congrArg (List.take k) hsorted
    rwa [← List.map_take, ← List.map_take] at htake

/-! ## Steps -/

/-- The outlines of the steps that join two groups. -/
def joinOutlines (t : Task σ) (span : Span) (l r : Outline σ) : List (Action × σ × Bool) :=
  (t.grammar.rules.binaryResults t.grammar.sig l.category r.category).map fun x =>
    (ruleAction span x,
      Score.add (t.score (ruleAction span x)) (Score.add l.score r.score), false)

/-- The outlines of the steps that turn a group. -/
def turnOutlines (t : Task σ) (span : Span) (o : Outline σ) : List (Action × σ × Bool) :=
  match o.base with
  | some base =>
    (t.grammar.rules.unaryResults t.grammar.sig o.category).map fun x =>
      (ruleAction span x, Score.add (t.score (ruleAction span x)) base, true)
  | none => []

variable {t : Task σ} {span : Span} {cell cell' : Span → List (Group σ)}

omit [AddCommMonoid σ] [LinearOrder σ] in
theorem outlines_allowed (t : Task σ) (steps : List (Step σ (Group σ))) :
    (allowed t steps).map Step.outline =
      (steps.map Step.outline).filter fun o => t.accept o.1 := by
  rw [List.filter_map]
  rfl

theorem outlines_joinSteps (t : Task σ) (span : Span) (l r : Group σ) :
    (joinSteps t span l r).map Step.outline = joinOutlines t span l.outline r.outline :=
  List.map_map

theorem outlines_turnSteps (t : Task σ) (span : Span) (g : Group σ) :
    (turnSteps t span g).map Step.outline = turnOutlines t span g.outline := by
  unfold turnSteps turnOutlines Group.outline
  cases g.base with
  | none => rfl
  | some base => exact List.map_map

/-- The outlines of the binary steps of a cell depend on those of the cells of shorter spans. -/
theorem outlines_binarySteps (h : ∀ s : Span, s.length < span.length →
      (cell s).map Group.outline = (cell' s).map Group.outline) :
    (binarySteps t cell span).map Step.outline = (binarySteps t cell' span).map Step.outline := by
  have hjoin (ls rs : List (Group σ)) :
      (ls.flatMap fun l => rs.flatMap fun r => joinSteps t span l r).map Step.outline =
        (ls.map Group.outline).flatMap fun l => (rs.map Group.outline).flatMap fun r =>
          joinOutlines t span l r := by
    simp only [List.map_flatMap, List.flatMap_map, outlines_joinSteps]
  unfold binarySteps
  rw [List.map_flatMap, List.map_flatMap]
  refine List.flatMap_congr fun i hi => ?_
  have hi := List.mem_range.mp hi
  simp only [Span.length] at hi h
  rw [hjoin, hjoin, h ⟨span.start, span.start + 1 + i⟩ (by simp only; omega),
    h ⟨span.start + 1 + i, span.stop⟩ (by simp only; omega)]

theorem outlines_unarySteps (t : Task σ) (span : Span) (gs : List (Group σ)) :
    (unarySteps t span gs).map Step.outline =
      (gs.map Group.outline).flatMap (turnOutlines t span) := by
  simp only [unarySteps, List.map_flatMap, List.flatMap_map, outlines_turnSteps]

variable {p p' : Provider} (hp : p.Rearranged p')

include hp

omit [AddCommMonoid σ] [LinearOrder σ] in
theorem perm_lexicalSteps : (lexicalSteps t p span).Perm (lexicalSteps t p' span) := by
  unfold lexicalSteps
  rw [hp.maxLength]
  split_ifs
  · exact (hp.perm _).map _
  · exact .refl _

variable (h : ∀ s : Span, s.length < span.length →
    (cell s).map Group.outline = (cell' s).map Group.outline)
  (hcell : OwnIds cell) (hcell' : OwnIds cell')

include h

theorem perm_outlines_baseSteps :
    ((baseSteps t p cell span).map Step.outline).Perm
      ((baseSteps t p' cell' span).map Step.outline) := by
  unfold baseSteps
  rw [List.map_append, List.map_append, outlines_allowed t (binarySteps t cell span),
    outlines_binarySteps h, ← outlines_allowed]
  exact (((perm_lexicalSteps hp).filter _).map _).append_right _

include hcell hcell'

theorem perm_outlines_cellSteps (firstId firstId' : Nat) :
    ((cellSteps t p .packed cell firstId span).map Step.outline).Perm
      ((cellSteps t p' .packed cell' firstId' span).map Step.outline) := by
  have hbase := perm_outlines_baseSteps (t := t) hp h
  have hgroups := perm_outlines_of_gathered (gathered_baseGroups .packed cell firstId span)
    (gathered_baseGroups .packed cell' firstId' span) (apart_baseSteps hp.distinct hcell)
    (apart_baseSteps hp.symm.distinct hcell') hbase
  unfold cellSteps
  rw [List.map_append, List.map_append, outlines_allowed, outlines_allowed, outlines_unarySteps,
    outlines_unarySteps]
  exact hbase.append ((hgroups.flatMap_right _).filter _)

/-- The groups of a cell have the same outlines, if those of shorter spans have. -/
theorem perm_outlines_cellGroups (firstId firstId' : Nat) :
    ((cellGroups t p .packed cell firstId span).map Group.outline).Perm
      ((cellGroups t p' .packed cell' firstId' span).map Group.outline) :=
  perm_outlines_of_gathered (gathered_cellGroups .packed cell firstId span)
    (gathered_cellGroups .packed cell' firstId' span) (apart_cellSteps hp.distinct hcell firstId)
    (apart_cellSteps hp.symm.distinct hcell' firstId')
    (perm_outlines_cellSteps hp h hcell hcell' firstId firstId')

omit hp h hcell hcell' in
/-- **The cells of a chart have the same outlines in the same order**, whatever the order of the
entries. -/
theorem cell_rearranged {t : Task σ} {l : Lexicon}
    (hl : (t.grammar.provider t.lexicon).Rearranged (t.grammar.provider l)) (limit : Option Nat)
    (span : Span) :
    ((parse t .packed limit).cell span).map Group.outline =
      ((parse { t with lexicon := l } .packed limit).cell span).map Group.outline := by
  induction hn : span.length using Nat.strong_induction_on generalizing span with
  | _ n ih =>
  by_cases hspan : span.start < span.stop ∧ span.stop ≤ t.sentence.length
  · obtain ⟨firstId, he⟩ := cell_parse t .packed limit hspan
    obtain ⟨firstId', he'⟩ := cell_parse { t with lexicon := l } .packed limit hspan
    rw [he, he']
    refine kept_outlines_eq limit ((gathered_cellGroups .packed _ firstId span).nodup rfl) ?_
    exact perm_outlines_cellGroups hl (fun s hs => ih s.length (hn ▸ hs) s rfl)
      (ownIds_parse t .packed limit) (ownIds_parse { t with lexicon := l } .packed limit) _ _
  · rw [cell_parse_eq_nil t .packed limit hspan,
      cell_parse_eq_nil { t with lexicon := l } .packed limit hspan]

end Chart

end Categorial
