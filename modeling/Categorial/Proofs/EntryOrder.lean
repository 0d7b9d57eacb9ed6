import Categorial.Proofs.Beam.EntryOrder
import Categorial.Proofs.Chart.EntryOrder

/-!
# The order of entries

Both parsers cut their lists and let equals stand in order of arrival, and the order in which a lexicon
lists its entries is the order in which they arrive. It decides nothing all the same.

* **`entry_order_irrelevant`**: the same search, and a chart with the same outlines.
-/

namespace Categorial

/-- **Parsing does not depend on the order in which a lexicon lists its entries.** With entries that
differ in tokens or category, added in one order or another, the beam search is the same to the last
state, for any scores that are totally ordered, in any window, with any width, packed or not, and
under any filter; and with exact scores the cells of the packed chart have the same categories in the
same order, with equal best scores and numbers of steps, whatever the limit. -/
theorem entry_order_irrelevant {σ ρ : Type} [Score σ] [Std.TransCmp (Score.cmp : σ → σ → Ordering)]
    [AddCommMonoid ρ] [LinearOrder ρ] (G : Grammar) (es es' : List Entry) (hperm : es.Perm es')
    (hdistinct : es.Pairwise fun e e' => ¬ (e.tokens = e'.tokens ∧ e.category = e'.category))
    (sentence : List String) :
    (∀ (score : Action → σ) (accept : Action → Bool) (window : Span) (mode : Packing) (width : Nat),
      Beam.parse ⟨G, .ofList es, sentence, score, accept⟩ window mode width =
        Beam.parse ⟨G, .ofList es', sentence, score, accept⟩ window mode width) ∧
    ∀ (score : Action → ρ) (accept : Action → Bool) (limit : Option Nat) (span : Span),
      ((Chart.parse ⟨G, .ofList es, sentence, score, accept⟩ .packed limit).cell span).map
          (fun g => (g.category, g.best.score, g.steps.length)) =
        ((Chart.parse ⟨G, .ofList es', sentence, score, accept⟩ .packed limit).cell span).map
          fun g => (g.category, g.best.score, g.steps.length) := by
  have hL : (Lexicon.ofList es).Distinct := Lexicon.distinct_ofList es
  have hentries : (Lexicon.ofList es).entries.Perm (Lexicon.ofList es').entries := by
    have hdistinct' := hperm.pairwise hdistinct fun hne he => hne ⟨he.1.symm, he.2.symm⟩
    rw [Lexicon.ofList_of_distinct hdistinct, Lexicon.ofList_of_distinct hdistinct']
    exact hperm
  have hprovider := G.rearranged_provider hL hentries
  refine ⟨fun score accept window mode width => ?_, fun score accept limit span => ?_⟩
  · exact Beam.parse_rearranged (t := ⟨G, .ofList es, sentence, score, accept⟩) hprovider window mode
      width
  · have houtlines := Chart.cell_rearranged (t := ⟨G, .ofList es, sentence, score, accept⟩) hprovider
      limit span
    have h := congrArg (List.map fun o => (o.category, o.score, o.steps)) houtlines
    rwa [List.map_map, List.map_map] at h

/-- A name, and a word that is a verb or a noun. -/
def barkEntries : List Entry :=
  [⟨["rex"], ⟨.atom "NP", some (.const "rex" .entity)⟩, .fixed⟩,
    ⟨["barks"], ⟨.complex (.atom "S") .backward (.atom "NP"),
      some (.const "bark" (.arrow .entity .truth))⟩, .fixed⟩,
    ⟨["barks"], ⟨.atom "N", some (.const "bark" (.arrow .entity .truth))⟩, .learned⟩]

/-- The entries backwards: floating-point scores in the beam search, whole numbers in the chart. -/
theorem entry_order_irrelevant_barkEntries :
    Beam.parseAll (σ := FloatScore) ⟨{ rules := .standard 1 }, .ofList barkEntries, ["rex", "barks"],
        fun _ => FloatScore.ofFloat 0.5, fun _ => true⟩ .unpacked 1 =
      Beam.parseAll ⟨{ rules := .standard 1 }, .ofList barkEntries.reverse, ["rex", "barks"],
        fun _ => FloatScore.ofFloat 0.5, fun _ => true⟩ .unpacked 1 ∧
    ((Chart.parse (σ := ℤ) ⟨{ rules := .standard 1 }, .ofList barkEntries, ["rex", "barks"],
        fun _ => 1, fun _ => true⟩ .packed (some 1)).cell ⟨1, 2⟩).map
        (fun g => (g.category, g.best.score, g.steps.length)) =
      ((Chart.parse ⟨{ rules := .standard 1 }, .ofList barkEntries.reverse, ["rex", "barks"],
        fun _ => 1, fun _ => true⟩ .packed (some 1)).cell ⟨1, 2⟩).map
        fun g => (g.category, g.best.score, g.steps.length) := by
  obtain ⟨hbeam, hchart⟩ := entry_order_irrelevant (σ := FloatScore) (ρ := ℤ)
    { rules := .standard 1 } barkEntries barkEntries.reverse (List.reverse_perm barkEntries).symm
    (by decide) ["rex", "barks"]
  exact ⟨hbeam _ _ _ _ _, hchart _ _ _ _⟩

end Categorial
