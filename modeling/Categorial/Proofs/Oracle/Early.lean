import Categorial.Proofs.Beam.Histories
import Categorial.Proofs.Beam.Violations
import Categorial.Proofs.Training.Golds

/-!
# Early states

A gold filter is shown the beam after every step of a search, the first one and the empty one at the end
included, and keeps what it saw in the last beam that was not empty. A search goes on while there is a
state to expand, so that beam is the one before its last step: its sequences have one action to a step,
and nothing that the filter allows can follow any of them.

* `GoldFilter.searchIn`: a search of any window under a filter.
* `Beam.accept_eq_false_of_advance`: why a step leads nowhere.
* `Beam.exists_beams_parse`: the beams of a search, with the deepest one before the empty one.
* `GoldFilter.observe_concat`, `GoldFilter.observe_deepest`: what a filter keeps of a row of beams.
* **`GoldFilter.early_states_deepest`**: what a filter knows after a search.
-/

namespace Categorial

variable {σ : Type} [Score σ]

/-! ## The beams of a search -/

namespace Beam

/-- If a step leads nowhere, no state of the beam has an allowed move. -/
theorem accept_eq_false_of_advance {w : Window σ} {mode : Packing} {width : Nat} (hwidth : 1 ≤ width)
    {r : Run σ} (h : (advance w mode width r).beam = []) :
    ∀ s ∈ r.beam, ∀ m ∈ w.moves s, w.accept m.action = false := by
  intro s hs m hm
  refine Bool.eq_false_iff.mpr fun hacc => ?_
  have hmem : w.apply s m ∈ candidates w r.beam := mem_candidates.mpr ⟨s, hs, m, hm, hacc, rfl⟩
  rw [beam_advance, List.take_eq_nil_iff] at h
  have hsorted := h.resolve_left (by omega)
  have hmerged : merged mode (candidates w r.beam) = [] := by
    refine List.eq_nil_iff_forall_not_mem.mpr fun x hx => ?_
    rw [← mem_byRank, hsorted] at hx
    exact List.not_mem_nil hx
  -- merging loses no path, so there was nothing to merge
  have hhistories : ∀ t ∈ candidates w r.beam, t.histories ≠ [] := histories_candidates
  have hperm := perm_paths_merged mode hhistories
  rw [hmerged, List.flatMap_nil] at hperm
  have hpath := List.mem_flatMap.mpr ⟨_, hmem, (w.apply s m).actionsRev_mem_paths⟩
  exact List.not_mem_nil (hperm.mem_iff.mpr hpath)

/-- A search takes at least one step. Its last beam is empty, and the one before it is not. -/
theorem exists_beams_parse (t : Task σ) (window : Span) (mode : Packing) (width : Nat) :
    ∃ k earlier, earlier.length = k ∧
      (parse t window mode width).beams = earlier ++ [(runAt
        (.ofTask t (clip t.sentence.length window)) mode (widthOf width) k).beam, []] ∧
      (runAt (.ofTask t (clip t.sentence.length window)) mode (widthOf width) k).beam ≠ [] ∧
      (runAt (.ofTask t (clip t.sentence.length window)) mode (widthOf width) (k + 1)).beam = [] := by
  set w := Window.ofTask t (clip t.sentence.length window)
  obtain ⟨n, heq, hbefore, hlast⟩ := exists_runFor_maxSteps w mode (widthOf width)
  cases n with
  | zero => exact absurd hlast (List.cons_ne_nil _ _)
  | succ k =>
    refine ⟨k, (List.range k).map fun j => (runAt w mode (widthOf width) j).beam, by simp, ?_,
      hbefore k k.lt_succ_self, hlast⟩
    have hbeams : (parse t window mode width).beams = (runAt w mode (widthOf width) (k + 1)).beams :=
      congrArg Run.beams heq
    rw [hbeams, beams_runAt, List.range_succ, List.range_succ, List.map_append, List.map_append,
      List.append_assoc, List.map_singleton, List.map_singleton, hlast]
    rfl

end Beam

/-! ## What a filter keeps -/

namespace GoldFilter

/-- Search any window under a filter; the filter keeps what it was shown. -/
def searchIn (f : GoldFilter) (t : Task σ) (window : Span) (mode : Packing) (width : Nat) :
    Beam.Parse σ × GoldFilter :=
  let p := Beam.parse { t with accept := f.accept } window mode width
  (p, f.observe p.beams)

theorem search_eq_searchIn (f : GoldFilter) (t : Task σ) (mode : Packing) (width : Nat) :
    f.search t mode width = f.searchIn t f.window mode width := rfl

omit [Score σ] in
/-- The last beam is looked at last. -/
theorem observe_concat (f : GoldFilter) (beams : List (List (State σ))) (b : List (State σ)) :
    f.observe (beams ++ [b]) = (f.observe beams).observeBeam beams.length b := by
  simp [observe, List.zipIdx_append]

omit [Score σ] in
/-- Of a row of beams that ends with an empty one, a filter keeps the one before it. -/
theorem observe_deepest (f : GoldFilter) (beams : List (List (State σ))) {b : List (State σ)}
    (hb : b ≠ []) : f.observe (beams ++ [b, []]) =
      { f with cursor := beams.length, earlyStates := b.map State.actions } := by
  have hrest := congrArg (fun f' : GoldFilter =>
    { f' with cursor := beams.length, earlyStates := b.map State.actions }) (f.reset_observe beams)
  have hne : ¬ b.isEmpty = true := mt List.isEmpty_iff.mp hb
  rw [List.append_cons, observe_concat, observe_concat, observeBeam, observeBeam, if_neg hne]
  exact hrest

/-- **The early states are the deepest beam.** For every filter, whatever an earlier search left in it,
every grammar, lexicon, score, width, packing and window: after a search under the filter its early
states are the actions of the states in the last beam that was not empty, in order, and its cursor is
the number of the step that led there, one less than the number of steps. Each early state is a legal
sequence with as many actions, all of them gold and inside the filter's window, and none of the states
has a legal move that the filter accepts. Nothing else about the filter has changed. -/
theorem early_states_deepest (f : GoldFilter) (t : Task σ) (window : Span) (mode : Packing)
    (width : Nat) :
    let p := (f.searchIn t window mode width).1
    let f' := (f.searchIn t window mode width).2
    let w := Window.ofTask { t with accept := f.accept } p.window
    f'.earlyStates = p.lastBeam.map State.actions ∧ f'.earlyStates ≠ [] ∧
    f'.cursor + 1 = p.steps ∧ p.beams[f'.cursor]? = some p.lastBeam ∧
    (∀ as ∈ f'.earlyStates, as.length = f'.cursor ∧
      (∀ a ∈ as, f'.gold.has a = true ∧ f'.window.contains a.span = true) ∧
      ∃ s ∈ p.lastBeam, w.Leads as.reverse s.stack s.cursor) ∧
    (∀ s ∈ p.lastBeam, ∀ m ∈ w.moves s, f'.accept m.action = false) ∧
    f'.reset = f.reset := by
  intro p f' w
  obtain ⟨k, earlier, rfl, hbeams, hne, hlast⟩ := Beam.exists_beams_parse
    { t with accept := f.accept } window mode width
  set b := (Beam.runAt (.ofTask { t with accept := f.accept } (Beam.clip t.sentence.length window))
    mode (Beam.widthOf width) earlier.length).beam with hb
  change p.beams = earlier ++ [b, []] at hbeams
  have hf' : f' = { f with cursor := earlier.length, earlyStates := b.map State.actions } := by
    rw [← f.observe_deepest earlier hne, ← hbeams]
    rfl
  have hdeepest : p.lastBeam = b := by
    have hnonempty : b.isEmpty = false := Bool.eq_false_iff.mpr (mt List.isEmpty_iff.mp hne)
    simp [Beam.Parse.lastBeam, hbeams, hnonempty]
  rw [hdeepest, hf']
  refine ⟨rfl, mt List.map_eq_nil_iff.mp hne, ?_, ?_, fun as has => ?_, fun s hs m hm => ?_, rfl⟩
  · rw [Beam.Parse.steps, hbeams, List.length_append]
    rfl
  · simp [hbeams]
  · obtain ⟨s, hs, rfl⟩ := List.mem_map.mp has
    have hreached := Beam.reached_runAt hs
    refine ⟨hreached.length_actions, fun a ha => ?_, s, hs, hreached.leads_actions⟩
    have hacc : f.accept a = true :=
      hreached.allowed _ s.actionsRev_mem_paths a (List.mem_reverse.mp ha)
    exact (Bool.and_eq_true_iff.mp hacc).symm
  · rw [Beam.runAt_succ] at hlast
    exact Beam.accept_eq_false_of_advance (Nat.le_max_right width 1) hlast s hs m hm

end GoldFilter

end Categorial
