import Categorial.Proofs.Beam.Widths

/-!
# The search ends

Moves do not only read tokens: a unary rule changes neither the cursor nor the height of the stack. But
an item that a unary rule made takes no other one, so every action of a legal sequence is paid for by
the tokens read, and what is left on the stack has still to be paid for. A sequence over `n` tokens has
therefore at most `4 * n - 2` actions. All states of a beam have taken as many actions as the search has
taken steps, so the beam runs empty, and the limit on the number of steps never ends a search.

* `Window.Leads.length_le`: the length of a legal sequence.
* `Beam.beam_runAt_eq_nil`: from then on the beam is empty.
* `Beam.runFor_eq_iterate`: a limited search stops at the first empty beam, or at its limit.
* `Beam.exists_runFor_maxSteps`: the limit of a search is high enough.
* **`search_ends`**: the number of steps of a search.
-/

namespace Categorial

namespace Window

variable {σ : Type} {w : Window σ} {as : List Action} {stack : List Item} {cursor : Nat}

/-- The length of a legal sequence over a window; none has an action if the window is empty. -/
theorem Leads.length_le (h : Leads w as stack cursor) : as.length ≤ 4 * w.span.length - 2 := by
  have hpaid := h.length_add_weight_le
  have hcursor := h.cursor_le_max
  cases as with
  | nil => exact Nat.zero_le _
  | cons a as =>
    -- the last action has left an item on the stack, which is not used up
    obtain ⟨s, m, -, -, -, hstack, -⟩ := h.tail
    have hitem := two_le_weight (w.itemOf a)
    rw [hstack, List.map_cons, List.sum_cons] at hpaid
    unfold Span.length
    omega

end Window

namespace Beam

variable {σ : Type} [Score σ] {w : Window σ} {mode : Packing} {width : Nat}

theorem length_earlier_runAt (w : Window σ) (mode : Packing) (width k : Nat) :
    (runAt w mode width k).earlier.length = k := by
  induction k with
  | zero => rfl
  | succ k ih => rw [runAt_succ, earlier_advance, List.length_cons, ih]

/-- A beam that is not empty has states that have taken all the steps so far. -/
theorem exists_leads_of_beam_ne_nil {k : Nat} (h : (runAt w mode width k).beam ≠ []) :
    ∃ as stack cursor, w.Leads as stack cursor ∧ as.length = k := by
  obtain ⟨s, hs⟩ := List.exists_mem_of_ne_nil _ h
  have hreached := (legalRun_runAt w mode width k).beam s hs
  rw [length_earlier_runAt] at hreached
  exact ⟨_, _, _, hreached.leads_actionsRev, hreached.length _ s.actionsRev_mem_paths⟩

/-- When no legal sequence is left, the beam is empty. -/
theorem beam_runAt_eq_nil {k : Nat} (h : 4 * w.span.length - 2 < k) :
    (runAt w mode width k).beam = [] := by
  by_contra hne
  obtain ⟨as, stack, cursor, hleads, hlen⟩ := exists_leads_of_beam_ne_nil hne
  have hle := hleads.length_le
  omega

/-- An empty beam stays empty. -/
theorem beam_runAt_of_le {j k : Nat} (hjk : j ≤ k) (h : (runAt w mode width j).beam = []) :
    (runAt w mode width k).beam = [] := by
  obtain ⟨i, rfl⟩ := Nat.exists_eq_add_of_le' hjk
  rw [runAt, Function.iterate_add_apply]
  exact (iterate_of_nil i h).1

/-- A limited search is the search up to the first empty beam, or up to its limit. -/
theorem runFor_eq_iterate (w : Window σ) (mode : Packing) (width fuel : Nat) (r : Run σ) :
    ∃ k ≤ fuel, runFor w mode width fuel r = (advance w mode width)^[k] r ∧
      (∀ j < k, ((advance w mode width)^[j] r).beam ≠ []) ∧
      (k < fuel → ((advance w mode width)^[k] r).beam = []) := by
  induction fuel generalizing r with
  | zero => exact ⟨0, le_rfl, rfl, fun j hj => absurd hj j.not_lt_zero, fun h => absurd h (by omega)⟩
  | succ fuel ih =>
    rw [runFor]
    split_ifs with hempty
    · exact ⟨0, Nat.zero_le _, rfl, fun j hj => absurd hj j.not_lt_zero,
        fun _ => List.isEmpty_iff.mp hempty⟩
    · obtain ⟨k, hk, heq, hbefore, hafter⟩ := ih (advance w mode width r)
      refine ⟨k + 1, by omega, heq, fun j hj => ?_, fun h => hafter (by omega)⟩
      cases j with
      | zero => simpa using hempty
      | succ j => exact hbefore j (by omega)

/-- The limit on the number of steps does not end a search: it stops at the first empty beam. -/
theorem exists_runFor_maxSteps (w : Window σ) (mode : Packing) (width : Nat) :
    ∃ k, runFor w mode width (maxSteps w.span) { beam := [State.initial w.span.start] } =
        runAt w mode width k ∧
      (∀ j < k, (runAt w mode width j).beam ≠ []) ∧ (runAt w mode width k).beam = [] := by
  obtain ⟨k, -, heq, hbefore, hafter⟩ := runFor_eq_iterate w mode width (maxSteps w.span)
    { beam := [State.initial w.span.start] }
  refine ⟨k, heq, hbefore, ?_⟩
  by_cases hlt : k < maxSteps w.span
  · exact hafter hlt
  · refine beam_runAt_eq_nil ?_
    unfold maxSteps at hlt
    omega

theorem beams_runAt (w : Window σ) (mode : Packing) (width k : Nat) :
    (runAt w mode width k).beams =
      (List.range (k + 1)).map fun j => (runAt w mode width j).beam := by
  induction k with
  | zero => rfl
  | succ k ih =>
    rw [List.range_succ, List.map_append, ← ih, List.map_singleton, runAt_succ, Run.beams,
      earlier_advance, List.reverse_cons]
    rfl

end Beam

open Beam

/-- **The search ends.** For every grammar, lexicon, score, filter, packing, width and window, let `n` be
the number of tokens of the window. No legal sequence of actions is longer than `4 * n - 2`. The beams
of a search are those of its steps up to the first empty one, which comes after `4 * n - 1` steps at the
latest, and after the first step if the window is empty or inverted. -/
theorem search_ends {σ : Type} [Score σ] (t : Task σ) (window : Span) (mode : Packing)
    (width : Nat) :
    (∀ as stack cursor, (Window.ofTask t (clip t.sentence.length window)).Leads as stack cursor →
      as.length ≤ 4 * (clip t.sentence.length window).length - 2) ∧
    (parse t window mode width).beams = (List.range ((parse t window mode width).steps + 1)).map
      (fun k => (runAt (.ofTask t (clip t.sentence.length window)) mode (widthOf width) k).beam) ∧
    (∀ k, (runAt (.ofTask t (clip t.sentence.length window)) mode (widthOf width) k).beam = [] ↔
      (parse t window mode width).steps ≤ k) ∧
    (0 < (clip t.sentence.length window).length →
      (parse t window mode width).steps ≤ 4 * (clip t.sentence.length window).length - 1) ∧
    ((clip t.sentence.length window).length = 0 → (parse t window mode width).steps = 1) := by
  set w := Window.ofTask t (clip t.sentence.length window) with hw
  set n := (clip t.sentence.length window).length with hn
  have hempty : ∀ k, 4 * n - 2 < k → (runAt w mode (widthOf width) k).beam = [] := fun k hk =>
    beam_runAt_eq_nil hk
  obtain ⟨k, hk, heq, hbefore, hafter⟩ := runFor_eq_iterate w mode (widthOf width)
    (maxSteps w.span) { beam := [State.initial w.span.start] }
  have hmax : maxSteps w.span = 4 * n + 1 := rfl
  have hbeams : (parse t window mode width).beams =
      (List.range (k + 1)).map fun j => (runAt w mode (widthOf width) j).beam := by
    rw [← beams_runAt, runAt, ← heq]
    rfl
  have hsteps : (parse t window mode width).steps = k := by
    rw [Parse.steps, hbeams, List.length_map, List.length_range, Nat.add_sub_cancel]
  -- the limit is not reached, so the last beam is empty
  have hlast : (runAt w mode (widthOf width) k).beam = [] := by
    by_cases hlt : k < maxSteps w.span
    · exact hafter hlt
    · exact hempty k (by omega)
  have hfirst : ∀ j, (runAt w mode (widthOf width) j).beam = [] ↔ k ≤ j := by
    refine fun j => ⟨fun hj => ?_, fun hj => beam_runAt_of_le hj hlast⟩
    by_contra hlt
    exact hbefore j (by omega) hj
  rw [hsteps]
  refine ⟨fun as stack cursor h => h.length_le, hbeams, hfirst, fun hpos => ?_, fun hzero => ?_⟩
  · exact (hfirst _).mp (hempty _ (by omega))
  · have hone : k ≤ 1 := (hfirst 1).mp (hempty 1 (by omega))
    have hzero : ¬ k ≤ 0 := fun h => List.cons_ne_nil _ _ ((hfirst 0).mpr h)
    omega

end Categorial
