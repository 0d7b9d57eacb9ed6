import Categorial.Proofs.Beam.Derivations
import Categorial.Proofs.Beam.Unpruned

/-!
# Completed states

A completed state of a search stands for derivations of the window: licensed ones over the window,
made of allowed actions, with a root category if the window is the whole sentence. A search that cuts
nothing completes all of them.

* `Window.Parses`: the derivations of a window.
* `Beam.Reached.exists_parses`: what the paths of a completed state are.
* **`Beam.Enumerates.mem_paths_statesFor`**: the paths of all completed states with a category.
* `Beam.parsesFor`, `Beam.Enumerates.parsesFor_eq`: their number.
-/

namespace Categorial

variable {σ : Type}

namespace Window

/-- The derivation is licensed over the window and made of allowed actions; over the whole sentence it
has a root category. -/
structure Parses (w : Window σ) (d : Derivation) : Prop where
  licensed : Licensed w.grammar w.lexicon w.sentence d
  span : d.span = w.span
  allowed : ∀ a ∈ d.actions, w.accept a = true
  root : w.span = ⟨0, w.sentence.length⟩ → w.grammar.isRoot d.category.syn = true

variable {w : Window σ}

theorem isComplete_iff {s : State σ} : w.isComplete s = true ↔ ∃ x, s.stack = [x] ∧
    s.cursor = w.span.stop ∧
      (w.span = ⟨0, w.sentence.length⟩ → w.grammar.isRoot x.category.syn = true) := by
  have hwhole : w.span = ⟨0, w.sentence.length⟩ ↔
      w.span.start = 0 ∧ w.span.stop = w.sentence.length := by
    obtain ⟨start, stop⟩ := w.span
    rw [Span.mk.injEq]
  rw [hwhole]
  unfold isComplete State.top?
  rw [s.depth_eq]
  rcases hs : s.stack with _ | ⟨x, _ | ⟨y, below⟩⟩
  · simp
  · simp only [List.length_singleton, List.head?_cons, List.cons.injEq, and_true, exists_eq_left',
      Bool.and_eq_true, beq_iff_eq, Bool.or_eq_true, Bool.not_eq_true', Bool.and_eq_false_iff,
      beq_eq_false_iff_ne]
    tauto
  · simp

end Window

namespace Beam

variable {w : Window σ}

/-- The paths of a completed state are the actions of derivations of the window. -/
theorem Reached.exists_parses {k : Nat} {s : State σ} (h : Reached w k s)
    (hp : w.provider = w.grammar.provider w.lexicon) (hw : w.span.stop ≤ w.sentence.length)
    (hc : w.isComplete s = true) {as : List Action} (has : as ∈ s.paths) :
    ∃ d, w.Parses d ∧ s.category? = some d.category ∧ as = d.actions.reverse := by
  obtain ⟨x, hx, hcursor, hroot⟩ := Window.isComplete_iff.mp hc
  have hl := h.leads as has
  rw [hx, hcursor] at hl
  obtain ⟨d, hd, hspan, rfl, rfl⟩ := (Window.leads_singleton_iff hp hw).mp hl
  refine ⟨d, ⟨hd, hspan, fun a ha => ?_, hroot⟩, ?_, rfl⟩
  · exact h.allowed _ has a (List.mem_reverse.mpr ha)
  · rw [State.category?, State.top?, hx]
    rfl

/-- The actions of a derivation of the window finish it. -/
theorem finishes_of_parses (hp : w.provider = w.grammar.provider w.lexicon)
    (hw : w.span.stop ≤ w.sentence.length) {d : Derivation} (hd : w.Parses d) :
    w.Leads d.actions.reverse [d.item] w.span.stop ∧ w.Finishes d.actions.reverse := by
  have hl := (Window.leads_singleton_iff hp hw).mpr ⟨d, hd.licensed, hd.span, rfl, rfl⟩
  refine ⟨hl, fun a ha => hd.allowed a (List.mem_reverse.mp ha),
    w.stateAt [d.item] w.span.stop, hl, ?_⟩
  exact Window.isComplete_iff.mpr ⟨d.item, rfl, rfl, hd.root⟩

/-- The number of derivations that the states with a category stand for, up to the cap. -/
def parsesFor (l : List (State σ)) (c : Category) : Nat :=
  min Count.cap ((statesFor l c).map State.parses).sum

namespace Enumerates

variable {l : List (State σ)}

/-- **The paths of the completed states with a category are the actions of the derivations with it.** -/
theorem mem_paths_statesFor (h : Enumerates w (maxSteps w.span) l)
    (hp : w.provider = w.grammar.provider w.lexicon) (hw : w.span.stop ≤ w.sentence.length)
    {c : Category} {as : List Action} : as ∈ (statesFor l c).flatMap State.paths ↔
      ∃ d, w.Parses d ∧ d.category = c ∧ as = d.actions.reverse := by
  simp only [List.mem_flatMap, statesFor, List.mem_filter, decide_eq_true_eq]
  constructor
  · rintro ⟨s, ⟨hs, hc⟩, has⟩
    obtain ⟨k, -, hreached⟩ := h.reached s hs
    obtain ⟨d, hd, hcat, rfl⟩ := hreached.exists_parses hp hw (h.complete s hs) has
    exact ⟨d, hd, Option.some_inj.mp (hcat.symm.trans hc), rfl⟩
  · rintro ⟨d, hd, rfl, rfl⟩
    obtain ⟨hl, hf⟩ := finishes_of_parses hp hw hd
    have hspan : w.span.start ≤ w.span.stop := by
      have := hd.licensed.inside
      rw [hd.span] at this
      exact this.1.le
    obtain ⟨s, hs, has⟩ :=
      List.mem_flatMap.mp (h.covers _ hf (hl.length_lt_maxSteps hspan).le)
    obtain ⟨k, -, hreached⟩ := h.reached s hs
    have hstack : s.stack = [d.item] := ((hreached.leads _ has).unique hl).1
    refine ⟨s, ⟨hs, ?_⟩, has⟩
    rw [State.category?, State.top?, hstack]
    rfl

/-- The completed states with a category count its derivations. -/
theorem parsesFor_eq {k : Nat} (h : Enumerates w k l) (c : Category) :
    parsesFor l c = min Count.cap ((statesFor l c).flatMap State.paths).length := by
  have hmap : (statesFor l c).map State.parses =
      ((statesFor l c).map fun s => s.paths.length).map (min Count.cap) := by
    rw [List.map_map]
    refine List.map_congr_left fun s hs => ?_
    obtain ⟨n, -, hreached⟩ := h.reached s (List.mem_of_mem_filter hs)
    exact hreached.parses
  rw [parsesFor, hmap, Count.sum_cap, List.length_flatMap]

end Enumerates

end Beam

end Categorial
