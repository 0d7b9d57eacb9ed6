import Categorial.Proofs.Chart.Actions
import Categorial.Proofs.Chart.Optimal
import Categorial.Proofs.Constants
import Categorial.Proofs.Oracle.Constrained

/-!
# When an oracle is exact

An oracle looks for its target among the derivations whose actions mention no constant outside the
target. It is exact if and only if there is such a derivation of the target. A derivation of the target
may mention other constants: a meaning with an idle binder throws away what it is applied to. Then the
chart of the sentence has the target, and the oracle does not find it. If the lexicon and the rules are
plain, no constant is thrown away, and the oracle finds what the chart has.

* `Term.mem_constants`: the constants of a term, in order or not.
* `Oracle.accept_targetTask_iff`: the actions among which an oracle looks for its target.
* `Oracle.exists_exact_iff`: an exact oracle and the chart of the target.
* **`Oracle.exact_iff_derivation`**: when an oracle is exact.
* **`Oracle.misses_rain`**: a target that is not found.
-/

namespace Categorial

theorem mem_eraseRepsBy_loop {α : Type} [BEq α] [LawfulBEq α] {x a : α} {as acc : List α} :
    x ∈ List.eraseRepsBy.loop (· == ·) a as acc ↔ x = a ∨ x ∈ as ∨ x ∈ acc := by
  induction as generalizing a acc with
  | nil =>
    rw [List.eraseRepsBy.loop, List.mem_reverse, List.mem_cons]
    tauto
  | cons b as ih =>
    rw [List.eraseRepsBy.loop]
    split
    · next h =>
      rw [ih, ← eq_of_beq h, List.mem_cons]
      tauto
    · rw [ih, List.mem_cons, List.mem_cons]
      tauto

theorem Term.mem_constants {t : Term} {n : String} : n ∈ t.constants ↔ n ∈ t.constantNames := by
  have hsorted : n ∈ t.constantNames.mergeSort (fun a b => (compare a b).isLE) ↔
      n ∈ t.constantNames := List.mem_mergeSort
  rw [constants, List.eraseReps, ← hsorted]
  cases t.constantNames.mergeSort fun a b => (compare a b).isLE with
  | nil => exact Iff.rfl
  | cons a as =>
    rw [List.eraseRepsBy, mem_eraseRepsBy_loop, List.mem_cons]
    simp

namespace Oracle

open Chart

variable {σ : Type}

/-- The oracle looks for its target among actions that mention no other constants. -/
theorem accept_targetTask_iff {t : Task σ} (hid : t.grammar.underspecify = id) {target : Term}
    {a : Action} : (targetTask t target).accept a = true ↔
      ∀ p, a.category.sem = some p →
        ∀ n ∈ p.constantNames, n ∈ target.normalize.constantNames := by
  simp only [targetTask, mentionsOnly, meaning?, hid, Option.map_id, id_eq]
  cases a.category.sem with
  | none => simp
  | some p => simp [Term.mem_constants]

variable [Score σ]

/-- The oracle is exact if and only if a root group of its chart means the target. -/
theorem exists_exact_iff {t : Task σ} (hid : t.grammar.underspecify = id) {o : Options}
    {target : Term} : (∃ f, build t o target = .exact f) ↔
      ∃ g ∈ (parse (targetTask t target) .packed o.limit).derivations t.grammar,
        g.category.sem = some target.normalize := by
  have hmeaning : ∀ g : Group σ, (meaning? t.grammar g.category ==
      some (t.grammar.underspecify target.normalize)) = true ↔
        g.category.sem = some target.normalize := by
    intro g
    rw [beq_iff_eq, meaning?, hid, Option.map_id, id_eq, id_eq]
  simp only [← hmeaning, ← List.find?_isSome, Option.isSome_iff_exists]
  constructor
  · rintro ⟨f, hf⟩
    rcases build_cases t o target with ⟨f', -, hroot⟩ | ⟨fs, he, -⟩ | he | he
    · obtain ⟨g, hg, -⟩ := Option.map_eq_some_iff.mp hroot
      exact ⟨g, hg⟩
    all_goals
      rw [hf] at he
      cases he
  · rintro ⟨g, hg⟩
    exact ⟨_, build_eq_exact (Option.map_eq_some_iff.mpr ⟨g, hg, rfl⟩)⟩

/-- A root group has a derivation of its category. -/
theorem exists_tree {t : Task σ} (hu : t.Uniform) {mode : Packing} {g : Group σ}
    (hg : g ∈ (parse t mode none).derivations t.grammar) :
    ∃ d ∈ g.trees t.sentence, d.category = g.category := by
  have hrealizes := realizes_cell (keepsLookups_offers hu mode) (mem_derivations_iff.mp hg).1
  obtain ⟨d, hd⟩ := List.exists_mem_of_ne_nil _ hrealizes.nonempty
  exact ⟨d, hd, hrealizes.yields.category d hd⟩

/-- A chart has a root group with a category if and only if the sentence has such a derivation. -/
theorem exists_root_iff_derivation {t : Task σ} (mode : Packing) {c : Category} :
    (∃ g ∈ (parse t.unfiltered mode none).derivations t.grammar, g.category = c) ↔
      ∃ d, t.RootDerivation .packed d ∧ d.category = c := by
  rw [exists_root_iff mode, ← exists_root_iff .packed]
  constructor
  · rintro ⟨g, hg, rfl⟩
    obtain ⟨d, hd, hc⟩ := exists_tree t.uniform_unfiltered hg
    exact ⟨d, exists_mem_trees_iff.mpr ⟨g, hg, hd⟩, hc⟩
  · rintro ⟨d, hd, rfl⟩
    obtain ⟨g, hg, hd⟩ := exists_mem_trees_iff.mp hd
    exact ⟨g, hg, ((mem_trees_iff hg).mp hd).2.symm⟩

/-- The oracle finds the derivations of the target that mention no other constants. -/
theorem exists_exact_iff_derivation {t : Task σ} (hid : t.grammar.underspecify = id) {o : Options}
    (hlimit : o.limit = none) {target : Term} : (∃ f, build t o target = .exact f) ↔
      ∃ d, t.RootDerivation .packed d ∧ d.category.sem = some target.normalize ∧
        d.CoveredBy target.normalize := by
  have hu := uniform_targetTask t target
  have htrees : ∀ d, (t.RootDerivation .packed d ∧ d.CoveredBy target.normalize) ↔
      ∃ g ∈ (parse (targetTask t target) .packed none).derivations t.grammar,
        d ∈ g.trees t.sentence := fun d => by
    have hallowed : ((targetTask t target).RootDerivation .packed d ∧
        ∀ a ∈ d.actions, (targetTask t target).accept a = true) ↔ _ :=
      exists_mem_trees_iff_of_uniform hu
    simp only [accept_targetTask_iff hid] at hallowed
    exact hallowed
  rw [exists_exact_iff hid, hlimit]
  constructor
  · rintro ⟨g, hg, hsem⟩
    obtain ⟨d, hd, hc⟩ := exists_tree hu hg
    obtain ⟨hroot, hcovered⟩ := (htrees d).mpr ⟨g, hg, hd⟩
    exact ⟨d, hroot, hc ▸ hsem, hcovered⟩
  · rintro ⟨d, hroot, hsem, hcovered⟩
    obtain ⟨g, hg, hd⟩ := (htrees d).mp ⟨hroot, hcovered⟩
    have hyields := yields_cell (keepsLookups_offers hu .packed) (mem_derivations_iff.mp hg).1
    exact ⟨g, hg, hyields.category d hd ▸ hsem⟩

/-- **When an oracle is exact.** For every grammar that compares meanings as they are, every lexicon,
sentence, target and score, the oracle without pruning is exact if and only if the sentence has a
derivation that means the target and mentions no constant outside it. Then the unpruned chart of the
sentence, packed or not, has a root group that means the target. Conversely, if the lexicon and the
rules are plain, the oracle is exact whenever the chart has such a group. -/
theorem exact_iff_derivation (t : Task σ) (hid : t.grammar.underspecify = id) (o : Options)
    (hlimit : o.limit = none) (target : Term) (mode : Packing) :
    ((∃ f, build t o target = .exact f) ↔
      ∃ d, t.RootDerivation .packed d ∧ d.category.sem = some target.normalize ∧
        d.CoveredBy target.normalize) ∧
    ((∃ f, build t o target = .exact f) →
      ∃ g ∈ (parse t.unfiltered mode none).derivations t.grammar,
        g.category.sem = some target.normalize) ∧
    (t.isPlain = true →
      (∃ g ∈ (parse t.unfiltered mode none).derivations t.grammar,
        g.category.sem = some target.normalize) →
      ∃ f, build t o target = .exact f) := by
  have hiff : (∃ f, build t o target = .exact f) ↔ _ := exists_exact_iff_derivation hid hlimit
  refine ⟨hiff, fun h => ?_, fun hplain h => hiff.mpr ?_⟩
  · obtain ⟨d, hd, hsem, -⟩ := hiff.mp h
    obtain ⟨g, hg, hc⟩ := (exists_root_iff_derivation mode).mpr ⟨d, hd, rfl⟩
    exact ⟨g, hg, hc ▸ hsem⟩
  · obtain ⟨g, hg, hsem⟩ := h
    obtain ⟨d, hd, hc⟩ := (exists_root_iff_derivation mode).mp ⟨g, hg, rfl⟩
    rw [← hc] at hsem
    obtain ⟨hentries, hrules⟩ := Task.plain_of_isPlain hplain
    rcases hd.1.keepsConstants (fun _ e he => hentries _ e he.mem) hrules with ⟨hempty, -⟩ | ⟨-, hcovered⟩
    · rw [hempty] at hsem
      cases hsem
    · exact ⟨d, hd, hsem, (hcovered _ hsem).2⟩

/-- The lexicon and the rules of `dogs` are plain, and the chart has the noun phrase that means the
target; so the oracle is exact. -/
theorem exact_iff_derivation_dogs : dogs.isPlain = true ∧
    (∃ g ∈ (parse dogs.unfiltered .unpacked none).derivations dogs.grammar,
      g.category.sem = some theDogs.normalize) ∧ ∃ f, build dogs {} theDogs = .exact f := by
  have hplain : dogs.isPlain = true := by
    decide
  have hfound : ((parse dogs.unfiltered .unpacked none).derivations dogs.grammar).any
      (fun g => decide (g.category.sem = some theDogs.normalize)) = true := by
    cbv
  obtain ⟨g, hg, hsem⟩ := List.any_eq_true.mp hfound
  have hgroup : ∃ g ∈ (parse dogs.unfiltered .unpacked none).derivations dogs.grammar,
      g.category.sem = some theDogs.normalize := ⟨g, hg, of_decide_eq_true hsem⟩
  exact ⟨hplain, hgroup, (exact_iff_derivation dogs rfl {} rfl theDogs .unpacked).2.2 hplain hgroup⟩

/-- The words `it rains`. The verb means `λx:e.rain`: it ignores its subject. -/
def itRains : Task ℤ where
  grammar := {
    sig := { constants := .ofList [("it", .entity), ("rain", .truth)] }
    rules := .standard 1 }
  lexicon := .ofList [⟨["it"], ⟨.atom "NP", some (.const "it" .entity)⟩, .fixed⟩,
    ⟨["rains"], ⟨.complex (.atom "S") .backward (.atom "NP"),
      some (.lam .entity (.const "rain" .truth))⟩, .fixed⟩]
  sentence := ["it", "rains"]
  score _ := 0

/-- **The oracle of `it rains` misses its target.** The sentence means `rain`, and the target is
`rain`, which has a type. But the subject mentions a constant that the target does not have, and so the
oracle does not look at it. -/
theorem misses_rain : itRains.grammar.underspecify = id ∧
    ∃ rain : Term, rain.infer itRains.grammar.sig = some .truth ∧
    (∃ g ∈ (parse itRains.unfiltered .packed none).derivations itRains.grammar,
      g.category.sem = some rain.normalize) ∧
    build itRains {} rain = .unreachable := by
  refine ⟨rfl, .const "rain" .truth, rfl, ?_, by cbv⟩
  have hfound : ((parse itRains.unfiltered .packed none).derivations itRains.grammar).any
      (fun g => decide (g.category.sem = some (Term.const "rain" .truth).normalize)) = true := by
    cbv
  obtain ⟨g, hg, hsem⟩ := List.any_eq_true.mp hfound
  exact ⟨g, hg, of_decide_eq_true hsem⟩

end Oracle

end Categorial
