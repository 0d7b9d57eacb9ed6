import Categorial.Proofs.Chart.Picks
import Categorial.Proofs.Chart.Roster

/-!
# Counting and listing the derivations of a group

A group counts its derivations as its steps are added, lists them all, finds the best one and
gathers the actions below it. All of this goes down the steps of the group, and every group below it
is seen in the same way. So the count is the length of the list, the best derivation is one of the
list, and the actions gathered are those of the derivations listed.

* `Derivation.unaryApart`: no unary rule is applied directly above another.
* `Chart.ListsStep`, `Chart.listsStep_of_ruleStep`: the derivations that end with a step.
* `Chart.Lists`, `Chart.lists_of_madeFrom`: those of a group.
* `Chart.count`, `Chart.count_eq`: counting from id to id; **`Chart.count_eq_parses`**: the same
  number.
* **`derivations_listed`**: the groups of every chart.
-/

namespace Categorial

/-- No unary rule is applied directly to what a unary rule has made. -/
def Derivation.unaryApart : Derivation → Bool
  | leaf _ _ => true
  | unary _ d => !d.isUnary && d.unaryApart
  | binary _ l r => l.unaryApart && r.unaryApart

theorem Grammatical.unaryApart {P : Span → Entry → Prop} {G : Grammar} {w : List String}
    {d : Derivation} (h : Grammatical P G w d) : d.unaryApart = true := by
  induction h with
  | leaf => rfl
  | unary _ hd _ ih => rw [Derivation.unaryApart, hd, ih]; rfl
  | binary _ _ _ _ ihl ihr => rw [Derivation.unaryApart, ihl, ihr]; rfl

variable {σ : Type}

namespace Chart

open Draft

/-- The step counts the derivations that end with it, they have the derivations of the groups that
it builds on as parts, and the best one is one of them. -/
structure ListsStep (w : List String) (s : Step σ (Group σ)) : Prop where
  parses : s.parses = min Count.cap (Group.treesOfStep w s).length
  below : ∀ p ∈ s.parts, ∀ d' ∈ p.2.trees w, ∃ d ∈ Group.treesOfStep w s, d'.actions ⊆ d.actions
  best : ∃ d ∈ Group.treesOfStep w s, Group.bestTreeOfStep? w s = some d

/-- The trees of the group are grammatical derivations. The group counts them, they have all actions
that the group uses, and the best ones are among them. -/
structure Lists (t : Task σ) (base : Bool) (span : Span) (g : Group σ) : Prop where
  yields : Yields t (fun _ _ => True) base span g
  parses : g.parses = min Count.cap (g.trees t.sentence).length
  used : ∀ a, g.Uses a → ∃ d ∈ g.trees t.sentence, a ∈ d.actions
  best : ∃ d ∈ g.trees t.sentence, g.bestTreeOf? t.sentence false = some d
  bestBase : ∀ p, g.base = some p → ∃ d ∈ g.trees t.sentence, g.bestTreeOf? t.sentence true = some d

variable [Score σ] {t : Task σ} {mode : Packing} {base : Bool} {span : Span} {g : Group σ}

omit [Score σ] in
theorem listsStep_lexicalStep (w : List String) (t : Task σ) (span : Span) (e : Entry) :
    ListsStep w (lexicalStep t span e) := by
  refine ⟨?_, nofun, ?_⟩ <;> rw [lexicalStep, Group.treesOfStep]
  · exact (by decide : 1 = min Count.cap 1)
  · rw [Group.bestTreeOfStep?]
    exact ⟨_, List.mem_singleton_self _, rfl⟩

theorem listsStep_of_ruleStep {s : Step σ (Group σ)} (h : RuleStep t (Lists t) base span s) :
    ListsStep t.sentence s := by
  cases h with
  | @binary k l r x _ _ hl hr =>
    obtain ⟨dl, hdl, hbestl⟩ := hl.best
    obtain ⟨dr, hdr, hbestr⟩ := hr.best
    refine ⟨?_, fun p hp d' hd' => ?_, ?_⟩ <;> rw [binaryStep]
    · rw [Group.treesOfStep]
      exact parses_binary hl.parses hr.parses _
    · -- either part goes with some derivation of the other
      rcases List.mem_cons.mp hp with rfl | hp
      · refine ⟨_, Group.mem_treesOfStep_binary.mpr ⟨d', hd', dr, hdr, rfl⟩, fun a ha => ?_⟩
        exact List.mem_append_left _ (List.mem_append_left _ ha)
      · rw [List.mem_singleton.mp hp] at hd'
        refine ⟨_, Group.mem_treesOfStep_binary.mpr ⟨dl, hdl, d', hd', rfl⟩, fun a ha => ?_⟩
        exact List.mem_append_left _ (List.mem_append_right _ ha)
    · refine ⟨_, Group.mem_treesOfStep_binary.mpr ⟨dl, hdl, dr, hdr, rfl⟩, ?_⟩
      rw [Group.bestTreeOfStep?, hbestl, hbestr]
      rfl
  | @unary c p x _ hc hp =>
    obtain ⟨d, hd, hbest⟩ := hc.bestBase p hp
    refine ⟨?_, fun q hq d' hd' => ?_, ?_⟩ <;> rw [unaryStep]
    · rw [Group.treesOfStep]
      exact parses_unary hc.parses _
    · rw [List.mem_singleton.mp hq] at hd'
      exact ⟨_, Group.mem_treesOfStep_unary.mpr ⟨d', hd', rfl⟩, fun a ha =>
        List.mem_append_left _ ha⟩
    · refine ⟨_, Group.mem_treesOfStep_unary.mpr ⟨d, hd, rfl⟩, ?_⟩
      rw [Group.bestTreeOfStep?, hbest]
      rfl

/-- A group lists its derivations if the groups it is made from do. -/
theorem lists_of_madeFrom (h₁ : span.start < span.stop) (h₂ : span.stop ≤ t.sentence.length)
    (hmade : MadeFrom t mode (Lists t) base span g) : Lists t base span g := by
  have hyields : Yields t (fun _ _ => True) base span g :=
    yields_of_madeFrom (fun _ _ _ _ _ _ _ _ _ => trivial) h₁ h₂
      (hmade.mono fun _ _ _ h => h.yields)
  have hstep : ∀ s ∈ g.steps, ListsStep t.sentence s := by
    intro s hs
    rcases (hmade.cases_step h₂ hs).2 with ⟨e, -, rfl⟩ | hrule
    · exact listsStep_lexicalStep _ t span e
    · exact listsStep_of_ruleStep hrule
  have hused : ∀ a, g.Uses a → ∃ d ∈ g.trees t.sentence, a ∈ d.actions := by
    intro a ha
    cases ha with
    | @step _ s hs =>
      obtain ⟨d, hd, -⟩ := (hstep s hs).best
      refine ⟨d, Group.mem_trees.mpr ⟨s, hs, hd⟩, ?_⟩
      rw [← (action_and_arity_of_mem hd).1]
      exact d.action_mem_actions
    | @part _ s p _ hs hp hu =>
      have hpart : ∃ base span, Lists t base span p.2 := by
        rcases (hmade.cases_step h₂ hs).2 with ⟨e, -, rfl⟩ | hrule
        · cases hp
        · obtain ⟨span', h⟩ := hrule.exists_of_mem_parts hp
          exact ⟨p.1, span', h⟩
      obtain ⟨base', span', h⟩ := hpart
      obtain ⟨d', hd', ha⟩ := h.used a hu
      obtain ⟨d, hd, hsub⟩ := (hstep s hs).below p hp d' hd'
      exact ⟨d, Group.mem_trees.mpr ⟨s, hs, hd⟩, hsub ha⟩
  -- a pick is the place of a step, and the best derivation that ends with it is found
  have hbest : ∀ {i : Nat}, (∃ s, g.steps[i]? = some s) → ∃ d ∈ g.trees t.sentence,
      g.steps[i]?.bind (Group.bestTreeOfStep? t.sentence) = some d := by
    rintro i ⟨s, hs⟩
    have hmem := List.mem_of_getElem? hs
    obtain ⟨d, hd, hbest⟩ := (hstep s hmem).best
    rw [hs]
    exact ⟨d, Group.mem_trees.mpr ⟨s, hmem, hd⟩, hbest⟩
  obtain ⟨more, hmadeOf, -⟩ := hmade
  obtain ⟨l, hkeeps, -⟩ := keeps_of_madeOf hmadeOf
  have hplaced : g.Placed := by
    obtain ⟨s, rest, hg, -⟩ := hmadeOf
    rw [hg]
    exact Group.placed_gather g.id span s rest
  refine ⟨hyields, hkeeps.parses_eq fun s hs => (hstep s hs).parses, hused, ?_, fun p hp => ?_⟩
  · rw [Group.bestTreeOf?_false]
    exact hbest hplaced.best
  · rw [Group.bestTreeOf?_true hp]
    exact hbest (hplaced.base p hp)

/-! ## Counting from id to id -/

/-- The number of derivations of the group with an id, or of those that do not end with a unary
rule. It is the sum over the steps that a walk goes through, and for each of them the product of the
numbers of the groups that it builds on. -/
def count (t : Task σ) (mode : Packing) (limit : Option Nat) (now : Nat × Bool) : Nat :=
  match _hg : (roster t mode limit)[now.1]? with
  | none => 0
  | some g =>
    (g.stepsSeen now.2).attach.foldl (fun total s => Count.add total
      (s.1.parts.attach.foldl (fun product p =>
        Count.mul product (count t mode limit (p.1.2.id, p.1.1))) 1)) 0
termination_by (wellFounded_visits t mode limit).wrap now
decreasing_by exact ⟨g, _hg, s.1, s.2, p.1, p.2, rfl⟩

theorem count_eq {now : Nat × Bool} (h : (roster t mode limit)[now.1]? = some g) :
    count t mode limit now = (g.stepsSeen now.2).foldl (fun total s => Count.add total
      (s.parts.foldl (fun product p =>
        Count.mul product (count t mode limit (p.2.id, p.1))) 1)) 0 := by
  rw [count]
  split
  · next hnone =>
    rw [h] at hnone
    cases hnone
  · next g' hg =>
    obtain rfl := Option.some_inj.mp (h.symm.trans hg)
    simp only [List.foldl_subtype, List.unattach_attach]

omit [Score σ] in
theorem foldl_parts (s : Step σ (Group σ)) {n : Nat × Bool → Nat}
    (h : ∀ p ∈ s.parts, n (p.2.id, p.1) = p.2.parses) :
    s.parts.foldl (fun product p => Count.mul product (n (p.2.id, p.1))) 1 = s.parses := by
  rw [List.foldl_ext _ (fun product p => Count.mul product p.2.parses) 1
    fun k p hp => by rw [h p hp]]
  cases s <;> rfl

omit [Score σ] in
theorem foldl_steps {steps : List (Step σ (Group σ))} {n : Nat × Bool → Nat}
    (h : ∀ s ∈ steps, ∀ p ∈ s.parts, n (p.2.id, p.1) = p.2.parses) :
    steps.foldl (fun total s => Count.add total
        (s.parts.foldl (fun product p => Count.mul product (n (p.2.id, p.1))) 1)) 0 =
      min Count.cap (steps.map Step.parses).sum := by
  rw [List.foldl_ext _ (fun total s => Count.add total s.parses) 0 fun k s hs => by
      rw [foldl_parts s (h s hs)], ← List.foldl_map, Count.foldl_add (Nat.zero_le _), Nat.zero_add]

/-- Counting a group as it is, or as it was before its unary steps. -/
theorem count_eq_parses_of_member {first : Span → Nat} (h : Listed t mode limit first)
    (hg : Member t mode limit first base span g) : count t mode limit (g.id, base) = g.parses := by
  induction hn : depth base span using Nat.strong_induction_on generalizing base span g with
  | _ n ih =>
  obtain ⟨whole, -, hget, hsteps, -⟩ := h.exists_seen hg
  have hmade := madeFrom_of_member h.filled hg
  have hpart : ∀ s ∈ g.steps, ∀ p ∈ s.parts, count t mode limit (p.2.id, p.1) = p.2.parses := by
    intro s hs p hp
    rcases (hmade.cases_step hg.1.2 hs).2 with ⟨e, -, rfl⟩ | hrule
    · cases hp
    · obtain ⟨span', hmember, hlt⟩ := hrule.exists_shallower hp
      exact ih _ (hn ▸ hlt) hmember rfl
  obtain ⟨more, hmadeOf, -⟩ := hmade
  obtain ⟨l, hkeeps, -⟩ := keeps_of_madeOf hmadeOf
  rw [count_eq hget, ← hsteps, foldl_steps hpart, hkeeps.parses]

/-- **The number that a group has got while its steps were added is what counting from id to id
gives**, for every grammar, lexicon, score, filter, packing and limit. -/
theorem count_eq_parses (t : Task σ) (mode : Packing) (limit : Option Nat) :
    ∀ g ∈ roster t mode limit, count t mode limit (g.id, false) = g.parses := by
  obtain ⟨first, h⟩ := exists_listed t mode limit
  intro g hg
  obtain ⟨span, hmember⟩ := (h.mem_iff g).mp hg
  exact count_eq_parses_of_member h hmember

end Chart

open Chart

/-- **Counting, listing and gathering agree, and they end.** For every grammar, lexicon, score,
filter, packing and limit, the groups of the chart are numbered by their ids and its cells are made
of them. A walk from groups to those that their steps build on ends, although they can name each
other in a circle, and what it sees below a group is the group itself. Every group has derivations
and counts them, up to the cap. In none of them a unary rule is applied directly above another. The
actions of the group are those of its derivations, and its best derivation, which has the best
actions, is one of them. -/
theorem derivations_listed [Score σ] (t : Task σ) (mode : Packing) (limit : Option Nat) :
    (roster t mode limit).map Group.id = List.range (parse t mode limit).groups ∧
    (∀ span, ∀ g ∈ (parse t mode limit).cell span, g ∈ roster t mode limit) ∧
    WellFounded (Visits (roster t mode limit)) ∧
    ∀ g ∈ roster t mode limit,
      Unfolds (roster t mode limit) false g ∧
      g.trees t.sentence ≠ [] ∧
      g.parses = min Count.cap (g.trees t.sentence).length ∧
      (∀ d ∈ g.trees t.sentence, d.unaryApart = true) ∧
      (∀ a, g.actions.has a = true ↔
        ∃ d ∈ g.trees t.sentence, ∃ b ∈ d.actions, a.same b = true) ∧
      ∃ d ∈ g.trees t.sentence, g.bestTree? t.sentence = some d ∧ g.bestActions = d.actions := by
  obtain ⟨first, h⟩ := exists_listed t mode limit
  refine ⟨h.ids, fun span g hg => ?_, wellFounded_visits t mode limit, fun g hg => ?_⟩
  · exact (h.mem_iff g).mpr ⟨span, member_of_mem_cell h.filled hg⟩
  obtain ⟨span, hmember⟩ := (h.mem_iff g).mp hg
  have hlists : Lists t false span g :=
    (forall_groups (fun _ _ _ h₁ h₂ => lists_of_madeFrom h₁ h₂) hmember.1 (first span)).2 g hmember.2
  obtain ⟨d, hd, hbest⟩ := hlists.best
  refine ⟨unfolds_of_member h hmember, List.ne_nil_of_mem hd, hlists.parses,
    fun d hd => (hlists.yields.makes d hd).1.unaryApart, fun a => ?_,
    d, hd, hbest, Group.bestActions_eq hbest⟩
  rw [has_actions_iff_of_member h.filled hmember]
  constructor
  · rintro ⟨b, hb, hsame⟩
    obtain ⟨d, hd, hbd⟩ := hlists.used b hb
    exact ⟨d, hd, b, hbd, hsame⟩
  · rintro ⟨d, hd, b, hb, hsame⟩
    exact ⟨b, Group.uses_of_mem_trees hd b hb, hsame⟩

/-- The word `dogs` is an `N` and an `NP`, and unary rules turn either one into the other. -/
def shiftedDogs : Task ℤ where
  grammar := { rules := ⟨[
    .unary (.typeShifting "bare" (.atom "N") (.atom "NP") (.var 0)),
    .unary (.typeShifting "kind" (.atom "NP") (.atom "N") (.var 0))]⟩ }
  lexicon := .ofList [
    ⟨["dogs"], ⟨.atom "N", none⟩, .fixed⟩,
    ⟨["dogs"], ⟨.atom "NP", none⟩, .fixed⟩]
  sentence := ["dogs"]
  score _ := 0

-- The two groups of `dogs` are built on each other, and each has two derivations.
example : (roster shiftedDogs .packed none).map (fun g =>
    (g.id, g.steps.flatMap fun s => s.children.map Group.id, g.parses)) =
      [(0, [1], 2), (1, [0], 2)] := by
  cbv

end Categorial
