import Categorial.Proofs.Agreement

/-!
# Wider beams

A wider beam keeps more states of a step, but the states it keeps lead to more states in the next
step, and there they may push out what a narrower beam would have kept. So the best derivation of a
search can get worse when its beam is widened. It cannot get worse if the wider search cuts nothing
after the first step at which the narrower one cuts: up to that step both searches are the same, there
the narrow beam is the beginning of the wide one, and from then on every path of the narrow beam is
found in the wide one too.

* `Beam.runAt`: a search after a number of steps.
* `Beam.Cuts`: the search drops states at a step.
* `Beam.Covers`: one run has all paths of another.
* `Beam.Covers.advance`, `Beam.covers_runAt`: one step, and all steps.
* **`wider_beam_no_worse`**: when a wider beam is at least as good.
* **`wider_beam_worse`**: a sentence on which it is not.
-/

namespace Categorial

namespace Beam

variable {σ : Type} [Score σ]

/-! ## A search step by step -/

/-- The search after `k` steps, also past the one that empties the beam. -/
def runAt (w : Window σ) (mode : Packing) (width k : Nat) : Run σ :=
  (advance w mode width)^[k] { beam := [State.initial w.span.start] }

variable {w : Window σ} {mode : Packing} {width width' : Nat}

theorem runAt_succ (w : Window σ) (mode : Packing) (width k : Nat) :
    runAt w mode width (k + 1) = advance w mode width (runAt w mode width k) :=
  Function.iterate_succ_apply' _ _ _

theorem legalRun_runAt (w : Window σ) (mode : Packing) (width k : Nat) :
    LegalRun w (runAt w mode width k) := by
  induction k with
  | zero => exact legalRun_runFor w mode width 0
  | succ k ih =>
    rw [runAt_succ]
    exact ih.advance

/-- Nothing happens to an empty beam. -/
theorem advance_of_nil {r : Run σ} (h : r.beam = []) :
    (advance w mode width r).beam = [] ∧ (advance w mode width r).completed = r.completed := by
  have hbeam : (advance w mode width r).beam = [] := by
    refine List.eq_nil_iff_forall_not_mem.mpr fun s hs => ?_
    have hmem := mem_merged_of_mem_advance hs
    rw [h] at hmem
    cases mode <;> cases hmem
  refine ⟨hbeam, ?_⟩
  rw [completed_advance, hbeam, List.filter_nil, List.append_nil]

theorem iterate_of_nil (k : Nat) {r : Run σ} (h : r.beam = []) :
    ((advance w mode width)^[k] r).beam = [] ∧
      ((advance w mode width)^[k] r).completed = r.completed := by
  induction k with
  | zero => exact ⟨h, rfl⟩
  | succ k ih =>
    rw [Function.iterate_succ_apply']
    exact (advance_of_nil ih.1).imp_right fun h => h.trans ih.2

/-- A search that stops early has completed what it would have completed by going on. -/
theorem completed_runFor (fuel : Nat) (r : Run σ) :
    (runFor w mode width fuel r).completed = ((advance w mode width)^[fuel] r).completed := by
  induction fuel generalizing r with
  | zero => rfl
  | succ fuel ih =>
    rw [runFor]
    split_ifs with hempty
    · exact (iterate_of_nil (fuel + 1) (List.isEmpty_iff.mp hempty)).2.symm
    · rw [ih, Function.iterate_succ_apply]

/-- The beams of a run, oldest first. -/
def Run.beams (r : Run σ) : List (List (State σ)) := (r.beam :: r.earlier).reverse

/-- A run goes on from the beams it has. -/
theorem beams_prefix_runFor (fuel : Nat) (r : Run σ) :
    r.beams <+: (runFor w mode width fuel r).beams := by
  refine runFor_induct (motive := fun r' => r.beams <+: r'.beams) (fun r' h => h.trans ?_) fuel r
    (List.prefix_refl _)
  refine ⟨[(advance w mode width r').beam], ?_⟩
  rw [Run.beams, Run.beams, earlier_advance, List.reverse_cons (a := (advance w mode width r').beam)]

/-- The beams of a run are those of its steps, up to the one that is empty. -/
theorem getElem?_beams_runFor {fuel j : Nat} (hj : j ≤ fuel) (r : Run σ) :
    ((runFor w mode width fuel r).beams[r.earlier.length + j]?).getD [] =
      ((advance w mode width)^[j] r).beam := by
  have hlast : ∀ r : Run σ, r.beams[r.earlier.length]? = some r.beam := fun r => by
    simp [Run.beams]
  induction fuel generalizing j r with
  | zero =>
    obtain rfl : j = 0 := Nat.le_zero.mp hj
    rw [runFor, Nat.add_zero, hlast]
    rfl
  | succ fuel ih =>
    cases j with
    | zero =>
      obtain ⟨later, hlater⟩ : r.beams <+: (runFor w mode width (fuel + 1) r).beams :=
        beams_prefix_runFor (fuel + 1) r
      rw [← hlater, List.getElem?_append_left (by simp [Run.beams]), Nat.add_zero, hlast]
      rfl
    | succ j =>
      rw [runFor]
      split_ifs with hempty
      · have hnil : r.beam = [] := List.isEmpty_iff.mp hempty
        have hnone : r.beams[r.earlier.length + (j + 1)]? = none := by
          refine List.getElem?_eq_none ?_
          simp [Run.beams]
        rw [hnone, (iterate_of_nil (j + 1) hnil).1]
        rfl
      · have h := ih (j := j) (by omega) (advance w mode width r)
        rw [earlier_advance, List.length_cons] at h
        rw [Function.iterate_succ_apply, ← h]
        congr 2
        omega

/-- The search drops states at step `k`, counted from zero: the beam before it leads to more states than
it may hold. -/
def Cuts (t : Task σ) (window : Span) (mode : Packing) (width k : Nat) : Prop :=
  ∃ b, (parse t window mode width).beams[k]? = some b ∧
    ¬ Fits (.ofTask t (clip t.sentence.length window)) mode (widthOf width) b

theorem fits_nil (w : Window σ) (mode : Packing) (width : Nat) : Fits w mode width [] := by
  cases mode <;> exact Nat.zero_le width

theorem cuts_iff {t : Task σ} {window : Span} {k : Nat}
    (hk : k ≤ maxSteps (clip t.sentence.length window)) :
    Cuts t window mode width k ↔ ¬ Fits (.ofTask t (clip t.sentence.length window)) mode
      (widthOf width) (runAt (.ofTask t (clip t.sentence.length window)) mode (widthOf width) k).beam := by
  set w := Window.ofTask t (clip t.sentence.length window)
  have hbeam : ((parse t window mode width).beams[0 + k]?).getD [] =
      (runAt w mode (widthOf width) k).beam := getElem?_beams_runFor hk _
  rw [Nat.zero_add] at hbeam
  rw [Cuts, ← hbeam]
  cases (parse t window mode width).beams[k]? with
  | none => simp [fits_nil]
  | some b => simp [w]

/-! ## Runs that cover others -/

/-- Every path of the first run is a path of the second one. -/
structure Covers (r r' : Run σ) : Prop where
  beam : r.beam.flatMap State.paths ⊆ r'.beam.flatMap State.paths
  completed : r.completed.flatMap State.paths ⊆ r'.completed.flatMap State.paths

omit [Score σ] in
theorem Covers.refl (r : Run σ) : Covers r r := ⟨List.Subset.refl _, List.Subset.refl _⟩

omit [Score σ] in
theorem paths_subset {l l' : List (State σ)} (h : l ⊆ l') :
    l.flatMap State.paths ⊆ l'.flatMap State.paths := by
  intro as has
  obtain ⟨s, hs, has⟩ := List.mem_flatMap.mp has
  exact List.mem_flatMap.mpr ⟨s, h hs, has⟩

/-- From the same beam, a wider one keeps what a narrower one keeps. -/
theorem covers_advance (r : Run σ) (hle : width ≤ width') :
    Covers (advance w mode width r) (advance w mode width' r) := by
  have hbeam : (advance w mode width r).beam ⊆ (advance w mode width' r).beam := by
    rw [beam_advance, beam_advance]
    exact (List.take_prefix_take_left hle).subset
  refine ⟨paths_subset hbeam, paths_subset fun s hs => ?_⟩
  rw [completed_advance] at hs ⊢
  refine (List.mem_append.mp hs).elim (List.mem_append_left _) fun hs => ?_
  obtain ⟨hs, hc⟩ := List.mem_filter.mp hs
  exact List.mem_append_right _ (List.mem_filter.mpr ⟨hbeam hs, hc⟩)

namespace Covers

variable {r r' : Run σ}

/-- A path of the covered beam that goes on legally goes on from the covering beam, too. -/
theorem candidates (h : Covers r r') (hr : LegalRun w r) (hr' : LegalRun w r') :
    (candidates w r.beam).flatMap State.paths ⊆ (candidates w r'.beam).flatMap State.paths := by
  intro as has
  obtain ⟨s', hs', has⟩ := List.mem_flatMap.mp has
  obtain ⟨s, hs, m, hm, hacc, rfl⟩ := mem_candidates.mp hs'
  rw [Window.paths_apply, List.mem_map] at has
  obtain ⟨bs, hbs, rfl⟩ := has
  obtain ⟨t, ht, hbt⟩ := List.mem_flatMap.mp (h.beam (List.mem_flatMap.mpr ⟨s, hs, hbs⟩))
  -- both states are where the same actions lead, so they have the same moves
  obtain ⟨hstack, hcursor⟩ := ((hr.beam s hs).leads bs hbs).unique ((hr'.beam t ht).leads bs hbt)
  rw [Window.moves_congr hstack hcursor] at hm
  refine List.mem_flatMap.mpr ⟨w.apply t m, mem_candidates.mpr ⟨t, ht, m, hm, hacc, rfl⟩, ?_⟩
  rw [Window.paths_apply]
  exact List.mem_map_of_mem hbt

/-- A run stays covered if the covering one cuts nothing. -/
theorem advance (h : Covers r r') (hr : LegalRun w r) (hr' : LegalRun w r')
    (hfit : Fits w mode width' r'.beam) :
    Covers (advance w mode width r) (advance w mode width' r') := by
  have hbeam : (Beam.advance w mode width r).beam.flatMap State.paths ⊆
      (Beam.advance w mode width' r').beam.flatMap State.paths := by
    intro as has
    obtain ⟨s, hs, has⟩ := List.mem_flatMap.mp has
    have has := List.mem_flatMap.mpr ⟨s, mem_merged_of_mem_advance hs, has⟩
    rw [(perm_paths_merged mode histories_candidates).mem_iff] at has
    rw [((perm_beam_advance hfit).flatMap_right _).mem_iff,
      (perm_paths_merged mode histories_candidates).mem_iff]
    exact h.candidates hr hr' has
  refine ⟨hbeam, fun as has => ?_⟩
  rw [completed_advance, List.flatMap_append, List.mem_append] at has ⊢
  refine has.imp (fun has => h.completed has) fun has => ?_
  obtain ⟨s, hs, has⟩ := List.mem_flatMap.mp has
  obtain ⟨hs, hc⟩ := List.mem_filter.mp hs
  obtain ⟨t, ht, hat⟩ := List.mem_flatMap.mp (hbeam (List.mem_flatMap.mpr ⟨s, hs, has⟩))
  -- the same actions complete both states
  obtain ⟨hstack, hcursor⟩ := ((hr.advance.beam s hs).leads as has).unique
    ((hr'.advance.beam t ht).leads as hat)
  rw [Window.isComplete_congr hstack hcursor] at hc
  exact List.mem_flatMap.mpr ⟨t, List.mem_filter.mpr ⟨ht, hc⟩, hat⟩

end Covers

/-- A wider search covers a narrower one if it cuts nothing after the first cut of the narrower one. -/
theorem covers_runAt (hle : width ≤ width') {n : Nat}
    (hcut : ∀ i j, i < j → j ≤ n → ¬ Fits w mode width (runAt w mode width i).beam →
      Fits w mode width' (runAt w mode width' j).beam) :
    Covers (runAt w mode width (n + 1)) (runAt w mode width' (n + 1)) := by
  -- before the first cut of the narrower search the two are the same
  have hstep : ∀ k ≤ n + 1, runAt w mode width k = runAt w mode width' k ∨
      Covers (runAt w mode width k) (runAt w mode width' k) ∧
        ∃ i < k, ¬ Fits w mode width (runAt w mode width i).beam := by
    intro k
    induction k with
    | zero => exact fun _ => Or.inl rfl
    | succ k ih =>
      intro hk
      rw [runAt_succ, runAt_succ]
      rcases ih (by omega) with heq | ⟨hcovers, i, hi, hfit⟩
      · rw [← heq]
        by_cases hfit : Fits w mode width (runAt w mode width k).beam
        · exact Or.inl (advance_eq_of_fits hfit hle).symm
        · exact Or.inr ⟨covers_advance _ hle, k, Nat.lt_succ_self k, hfit⟩
      · refine Or.inr ⟨?_, i, by omega, hfit⟩
        exact hcovers.advance (legalRun_runAt w mode width k) (legalRun_runAt w mode width' k)
          (hcut i k hi (by omega) hfit)
  rcases hstep (n + 1) le_rfl with heq | ⟨hcovers, -⟩
  · rw [heq]
    exact .refl _
  · exact hcovers

/-- The completed states of a wider search have the paths of those of a narrower one, if it cuts nothing
after the first cut of the narrower one. -/
theorem completed_subset {t : Task σ} {window : Span} {narrow wide : Nat} (hle : narrow ≤ wide)
    (hcut : ∀ i j, i < j → Cuts t window mode narrow i → ¬ Cuts t window mode wide j) :
    (parse t window mode narrow).completed.flatMap State.paths ⊆
      (parse t window mode wide).completed.flatMap State.paths := by
  set w := Window.ofTask t (clip t.sentence.length window)
  have hsteps : maxSteps w.span = 4 * w.span.length + 1 := rfl
  have hcompleted : ∀ width, (parse t window mode width).completed.flatMap State.paths |>.Perm
      ((runAt w mode (widthOf width) (maxSteps w.span)).completed.flatMap State.paths) := fun width => by
    rw [runAt, ← completed_runFor]
    exact (List.mergeSort_perm _ _).flatMap_right _
  have hcovers : Covers (runAt w mode (widthOf narrow) (maxSteps w.span))
      (runAt w mode (widthOf wide) (maxSteps w.span)) := by
    refine covers_runAt (max_le_max_right 1 hle) fun i j hij hj hfit => ?_
    have hi : Cuts t window mode narrow i := (cuts_iff (show i ≤ maxSteps w.span by omega)).mpr hfit
    have hj := mt (cuts_iff (show j ≤ maxSteps w.span by omega)).mpr (hcut i j hij hi)
    exact not_not.mp hj
  intro as has
  exact (hcompleted wide).mem_iff.mpr (hcovers.completed ((hcompleted narrow).mem_iff.mp has))

theorem head?_readings (t : Task σ) (window : Span) (mode : Packing) (width : Nat) :
    (parse t window mode width).readings.head?.map Reading.best =
      (parse t window mode width).completed.head? := by
  refine (read_readings _).head fun s hs => ?_
  obtain ⟨x, hx, -⟩ := Window.isComplete_iff.mp (reached_of_mem_completed hs).2
  rw [State.category?, State.top?, hx]
  rfl

end Beam

open Beam

/-- **When a wider beam is at least as good.** With exact scores, if the wider of two searches cuts
nothing after the first step at which the narrower one cuts, and the narrower one finds a derivation,
then the wider one finds one too, and its best score is at least as high. -/
theorem wider_beam_no_worse {σ : Type} [AddCommMonoid σ] [LinearOrder σ] [IsOrderedAddMonoid σ]
    (t : Task σ) (window : Span) (mode : Packing) (narrow wide : Nat) (hle : narrow ≤ wide)
    (hcut : ∀ i j, i < j → Cuts t window mode narrow i → ¬ Cuts t window mode wide j)
    (r : Reading σ) (hr : (parse t window mode narrow).readings.head? = some r) :
    ∃ r', (parse t window mode wide).readings.head? = some r' ∧ r.best.score ≤ r'.best.score := by
  have hbest : r.best ∈ (parse t window mode narrow).completed := by
    refine List.mem_of_mem_head? ?_
    rw [← head?_readings, hr]
    rfl
  -- the best path of the narrow search is one of a state that the wide search has completed
  obtain ⟨as, has, hstanding⟩ := (State.scored_of_mem_completed hbest).1.attained
  obtain ⟨s, hs, has⟩ := List.mem_flatMap.mp
    (completed_subset hle hcut (List.mem_flatMap.mpr ⟨r.best, hbest, has⟩))
  have hle := (State.scored_of_mem_completed hs).1.least as has
  obtain ⟨s', hs'⟩ : ∃ s', (parse t window mode wide).completed.head? = some s' :=
    Option.isSome_iff_exists.mp (List.isSome_head?.mpr (List.ne_nil_of_mem hs))
  rw [← head?_readings] at hs'
  obtain ⟨r', hr', rfl⟩ := Option.map_eq_some_iff.mp hs'
  refine ⟨r', hr', ?_⟩
  rw [head?_readings] at hs'
  have hfirst := le_of_head?_eq_some (pairwise_completed t window mode wide) hs' s hs
  rw [hstanding] at hle
  rw [← State.score_standing r.best, ← State.score_standing r'.best]
  exact Standing.score_le (hfirst.trans hle)

/-- The words `long island sound`: a `long` `island sound`, or something that the `long island` does. The
first reading looks bad until its last step. -/
def longIslandSound : Task ℤ where
  grammar := { rules := .standard 1 }
  lexicon := .ofList [
    ⟨["long"], ⟨.complex (.atom "NP") .forward (.atom "N"), none⟩, .fixed⟩,
    ⟨["long", "island"], ⟨.atom "NP", none⟩, .fixed⟩,
    ⟨["island", "sound"], ⟨.atom "N", none⟩, .fixed⟩,
    ⟨["sound"], ⟨.complex (.atom "S") .backward (.atom "NP"), none⟩, .fixed⟩,
    ⟨["sound"], ⟨.atom "N", none⟩, .fixed⟩]
  sentence := ["long", "island", "sound"]
  score a := match a.rule, a.span.start, a.span.stop with
    | .lexical, 0, 1 => 2
    | .lexical, 0, 2 => 1
    | .lexical, 1, 3 => -6
    | .lexical, 2, 3 => 6
    | .rule 0, _, _ => 20
    | _, _, _ => 0

/-- A beam of three states cuts nothing on `long island sound`, so it is no worse than one of two, which
finds a derivation of score 7. -/
theorem wider_beam_no_worse_longIslandSound :
    (∀ j, ¬ Cuts longIslandSound ⟨0, 3⟩ .packed 3 j) ∧
    ∃ r r', (parse longIslandSound ⟨0, 3⟩ .packed 2).readings.head? = some r ∧ r.best.score = 7 ∧
      (parse longIslandSound ⟨0, 3⟩ .packed 3).readings.head? = some r' ∧
      r.best.score ≤ r'.best.score := by
  have hall : ((parse longIslandSound ⟨0, 3⟩ .packed 3).beams.all fun b => decide
      (Fits (.ofTask longIslandSound (clip 3 ⟨0, 3⟩)) .packed (widthOf 3) b)) = true := by
    cbv
  have hcut : ∀ j, ¬ Cuts longIslandSound ⟨0, 3⟩ .packed 3 j := by
    rintro j ⟨b, hb, hfit⟩
    exact hfit (of_decide_eq_true (List.all_eq_true.mp hall b (List.mem_of_getElem? hb)))
  have hseven : (parse longIslandSound ⟨0, 3⟩ .packed 2).readings.head?.map
      (fun r => r.best.score) = some 7 := by
    cbv
  obtain ⟨r, hr, hscore⟩ := Option.map_eq_some_iff.mp hseven
  obtain ⟨r', hr', hle⟩ := wider_beam_no_worse longIslandSound ⟨0, 3⟩ .packed 2 3 (by decide)
    (fun _ j _ _ => hcut j) r hr
  exact ⟨hcut, r, r', hr, hscore, hr', hle⟩

/-- **A wider beam can be worse.** Whether states are merged or not, the search for `long island sound`
with a beam of one state finds a derivation of score 16. A beam of two keeps the `long island` too; what
it leads to fills the next beam, and the best derivation that is left has the score 7. -/
theorem wider_beam_worse :
    ([Packing.packed, .unpacked].map fun mode =>
      ((parseAll longIslandSound mode 1).readings.head?.map fun r => r.best.score,
        (parseAll longIslandSound mode 2).readings.head?.map fun r => r.best.score)) =
      [(some 16, some 7), (some 16, some 7)] := by
  cbv

end Categorial
