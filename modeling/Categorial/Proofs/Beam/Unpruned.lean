import Categorial.Proofs.Beam.Paths

/-!
# Searches that cut nothing

If the beam is always wide enough for the states of a step, then after `k` steps the states of the
beam have all legal sequences of `k` allowed actions as paths, each one once, whether states are
merged or not. The completed states have all such sequences that finish a derivation. Some width is
always enough.

* `Beam.Fits`: the beam is wide enough for the states of the next step.
* `Beam.AllPaths`: the states of a beam have all allowed sequences of a length as paths.
* `Beam.Enumerates`: completed states have all sequences that finish, up to a length.
* **`Beam.enumerates_parse`**: the completed states of a search that cuts nothing.
* **`Beam.exists_fits`**: no search with a wide beam cuts anything.
-/

namespace Categorial

variable {σ : Type}

/-- The sequence of actions, last one first, is allowed and finishes a derivation of the window. -/
def Window.Finishes (w : Window σ) (as : List Action) : Prop :=
  (∀ a ∈ as, w.accept a = true) ∧
    ∃ s : State σ, w.Leads as s.stack s.cursor ∧ w.isComplete s = true

namespace Beam

variable [Score σ]

/-! ## Paths of merged states -/

theorem perm_paths_mergeInto {s : State σ} {l : List (State σ)} (hs : s.histories ≠ [])
    (hl : ∀ t ∈ l, t.histories ≠ []) :
    ((mergeInto s l).flatMap State.paths).Perm (l.flatMap State.paths ++ s.paths) := by
  rcases mergeInto_cases s l with ⟨pre, t, post, rfl, -, he⟩ | ⟨-, he⟩
  · have ht : t.histories ≠ [] := hl t (by simp)
    rw [he]
    simp only [List.flatMap_append, List.flatMap_cons, List.append_assoc]
    refine List.Perm.append_left _ ?_
    refine ((State.paths_merge ht hs).append_right _).trans ?_
    rw [List.append_assoc]
    exact List.Perm.append_left _ List.perm_append_comm
  · rw [he, List.flatMap_append]
    simp

theorem histories_mergeAll {l : List (State σ)} (hl : ∀ t ∈ l, t.histories ≠ []) :
    ∀ t ∈ mergeAll l, t.histories ≠ [] :=
  forall_mem_mergeAll hl fun _ t hs _ _ _ => State.histories_merge_ne_nil hs t

theorem perm_paths_mergeAll {l : List (State σ)} (hl : ∀ t ∈ l, t.histories ≠ []) :
    ((mergeAll l).flatMap State.paths).Perm (l.flatMap State.paths) := by
  induction l using List.reverseRecOn with
  | nil => exact .refl _
  | append_singleton l s ih =>
    have hl' : ∀ t ∈ l, t.histories ≠ [] := fun t ht => hl t (List.mem_append_left _ ht)
    have hstep := perm_paths_mergeInto (hl s (by simp)) (histories_mergeAll hl')
    rw [mergeAll, List.foldl_append]
    refine hstep.trans ?_
    rw [List.flatMap_append, List.flatMap_singleton]
    exact (ih hl').append_right _

/-- Merging loses no path and adds none. -/
theorem perm_paths_merged (mode : Packing) {l : List (State σ)} (hl : ∀ t ∈ l, t.histories ≠ []) :
    ((merged mode l).flatMap State.paths).Perm (l.flatMap State.paths) := by
  cases mode with
  | packed => exact perm_paths_mergeAll hl
  | unpacked => exact .refl _

theorem histories_candidates {w : Window σ} {beam : List (State σ)} :
    ∀ t ∈ candidates w beam, t.histories ≠ [] := by
  intro t ht
  obtain ⟨s, -, m, -, -, rfl⟩ := mem_candidates.mp ht
  simp [Window.apply]

/-! ## One step -/

/-- The states have all legal sequences of `k` allowed actions as paths, each one once. -/
structure AllPaths (w : Window σ) (k : Nat) (beam : List (State σ)) : Prop where
  reached : ∀ s ∈ beam, Reached w k s
  nodup : (beam.flatMap State.paths).Nodup
  covers : ∀ as stack cursor, w.Leads as stack cursor → (∀ a ∈ as, w.accept a = true) →
    as.length = k → as ∈ beam.flatMap State.paths

variable {w : Window σ} {k : Nat} {beam : List (State σ)}

theorem allPaths_initial (w : Window σ) : AllPaths w 0 [State.initial w.span.start] where
  reached s hs := by
    rw [List.mem_singleton.mp hs]
    exact reached_initial w
  nodup := by simp
  covers as stack cursor _ _ hlen := by
    rw [List.length_eq_zero_iff.mp hlen]
    simp

/-- The states that moves lead to have different paths if the states before them have. -/
theorem nodup_paths_candidates (h : (beam.flatMap State.paths).Nodup) :
    ((candidates w beam).flatMap State.paths).Nodup := by
  obtain ⟨hpaths, hdisj⟩ := List.nodup_flatMap.mp h
  rw [candidates, List.flatMap_assoc, List.nodup_flatMap]
  refine ⟨fun s hs => ?_, hdisj.imp fun {s s'} hss' as has has' => ?_⟩
  · rw [List.flatMap_map, List.nodup_flatMap]
    refine ⟨fun m _ => ?_, ((w.pairwise_moves s).filter _).imp fun {m n} hmn as has has' => ?_⟩
    · rw [Window.paths_apply]
      exact (hpaths s hs).map (List.cons_injective)
    · simp only [Window.paths_apply, List.mem_map] at has has'
      obtain ⟨bs, -, rfl⟩ := has
      obtain ⟨bs', -, he⟩ := has'
      rw [(List.cons.inj he).1, Action.same_self] at hmn
      cases hmn
  · simp only [List.flatMap_map, List.mem_flatMap, Window.paths_apply, List.mem_map] at has has'
    obtain ⟨m, -, bs, hbs, rfl⟩ := has
    obtain ⟨m', -, bs', hbs', he⟩ := has'
    obtain ⟨-, rfl⟩ := List.cons.inj he
    exact hss' hbs hbs'

theorem AllPaths.covers_candidates (h : AllPaths w k beam) {as : List Action} {stack : List Item}
    {cursor : Nat} (hl : w.Leads as stack cursor) (hacc : ∀ a ∈ as, w.accept a = true)
    (hlen : as.length = k + 1) : as ∈ (candidates w beam).flatMap State.paths := by
  cases hl with
  | start => cases hlen
  | @move as s m hs hm =>
    obtain ⟨hm', hacc⟩ := List.forall_mem_cons.mp hacc
    have has := h.covers as _ _ hs hacc (by simpa using hlen)
    obtain ⟨s', hs', has⟩ := List.mem_flatMap.mp has
    -- the state of the beam is where the same actions lead, so it has the same moves
    obtain ⟨hstack, hcursor⟩ := hs.unique ((h.reached s' hs').leads as has)
    rw [Window.moves_congr hstack hcursor] at hm
    refine List.mem_flatMap.mpr ⟨w.apply s' m, mem_candidates.mpr
      ⟨s', hs', m, hm, hm', rfl⟩, ?_⟩
    rw [Window.paths_apply]
    exact List.mem_map_of_mem has

theorem AllPaths.merged (h : AllPaths w k beam) (mode : Packing) :
    AllPaths w (k + 1) (merged mode (candidates w beam)) where
  reached := Reached.of_mem_merged h.reached
  nodup := (perm_paths_merged mode histories_candidates).nodup_iff.mpr
    (nodup_paths_candidates h.nodup)
  covers _ _ _ hl hacc hlen := (perm_paths_merged mode histories_candidates).mem_iff.mpr
    (h.covers_candidates hl hacc hlen)

omit [Score σ] in
theorem AllPaths.perm {beam' : List (State σ)} (h : AllPaths w k beam) (hp : beam'.Perm beam) :
    AllPaths w k beam' where
  reached s hs := h.reached s (hp.mem_iff.mp hs)
  nodup := (hp.flatMap_right _).nodup_iff.mpr h.nodup
  covers as stack cursor hl hacc hlen :=
    (hp.flatMap_right _).mem_iff.mpr (h.covers as stack cursor hl hacc hlen)

/-- The beam is wide enough for the states of the next step. -/
def Fits (w : Window σ) (mode : Packing) (width : Nat) (beam : List (State σ)) : Prop :=
  (merged mode (candidates w beam)).length ≤ width

instance (w : Window σ) (mode : Packing) (width : Nat) (beam : List (State σ)) :
    Decidable (Fits w mode width beam) := Nat.decLe _ _

theorem perm_beam_advance {mode : Packing} {width : Nat} {r : Run σ}
    (h : Fits w mode width r.beam) :
    (advance w mode width r).beam.Perm (merged mode (candidates w r.beam)) := by
  have hperm : (byRank (merged mode (candidates w r.beam))).Perm
      (merged mode (candidates w r.beam)) := List.mergeSort_perm _ _
  rw [beam_advance, List.take_of_length_le (hperm.length_eq.trans_le h)]
  exact hperm

/-! ## Completed states -/

/-- The states are complete, and their paths are the sequences of at most `k` actions that finish a
derivation, each one once. -/
structure Enumerates (w : Window σ) (k : Nat) (l : List (State σ)) : Prop where
  complete : ∀ s ∈ l, w.isComplete s = true
  reached : ∀ s ∈ l, ∃ n ≤ k, Reached w n s
  nodup : (l.flatMap State.paths).Nodup
  covers : ∀ as, w.Finishes as → as.length ≤ k → as ∈ l.flatMap State.paths

namespace Enumerates

variable {l : List (State σ)}

omit [Score σ] in
theorem nil (w : Window σ) : Enumerates w 0 [] := by
  refine ⟨by simp, by simp, by simp, fun as hf hlen => ?_⟩
  obtain ⟨-, s, hs, hc⟩ := hf
  rw [List.length_eq_zero_iff.mp (Nat.le_zero.mp hlen)] at hs
  have hstack : s.stack = [] := (hs.unique .start).1
  simp [Window.isComplete, s.depth_eq, hstack] at hc

omit [Score σ] in
theorem perm {l' : List (State σ)} (h : Enumerates w k l) (hp : l'.Perm l) : Enumerates w k l' where
  complete s hs := h.complete s (hp.mem_iff.mp hs)
  reached s hs := h.reached s (hp.mem_iff.mp hs)
  nodup := (hp.flatMap_right _).nodup_iff.mpr h.nodup
  covers as hf hlen := (hp.flatMap_right _).mem_iff.mpr (h.covers as hf hlen)

omit [Score σ] in
/-- The states completed in one more step have the longer sequences. -/
theorem append {next : List (State σ)} (h : Enumerates w k l) (hnext : AllPaths w (k + 1) next) :
    Enumerates w (k + 1) (l ++ next.filter w.isComplete) := by
  have hmem : ∀ s ∈ l ++ next.filter w.isComplete, s ∈ l ∨ s ∈ next ∧ w.isComplete s = true :=
    fun s hs => (List.mem_append.mp hs).imp_right List.mem_filter.mp
  refine ⟨fun s hs => ?_, fun s hs => ?_, ?_, fun as hf hlen => ?_⟩
  · exact (hmem s hs).elim (h.complete s) fun hs => hs.2
  · rcases hmem s hs with hs | hs
    · obtain ⟨n, hn, hreached⟩ := h.reached s hs
      exact ⟨n, hn.trans (Nat.le_succ k), hreached⟩
    · exact ⟨k + 1, le_rfl, hnext.reached s hs.1⟩
  · rw [List.flatMap_append, List.nodup_append']
    refine ⟨h.nodup, (List.filter_sublist.flatMap _).nodup hnext.nodup, fun as has has' => ?_⟩
    obtain ⟨s, hs, has⟩ := List.mem_flatMap.mp has
    obtain ⟨s', hs', has'⟩ := List.mem_flatMap.mp has'
    obtain ⟨n, hn, hreached⟩ := h.reached s hs
    have hold := hreached.length as has
    have hnew := (hnext.reached s' (List.mem_of_mem_filter hs')).length as has'
    omega
  · rw [List.flatMap_append]
    rcases Nat.le_succ_iff.mp hlen with hlen | hlen
    · exact List.mem_append_left _ (h.covers as hf hlen)
    · obtain ⟨hacc, s, hs, hc⟩ := hf
      obtain ⟨s', hs', has⟩ := List.mem_flatMap.mp (hnext.covers as _ _ hs hacc hlen)
      obtain ⟨hstack, hcursor⟩ := hs.unique ((hnext.reached s' hs').leads as has)
      rw [Window.isComplete_congr hstack hcursor] at hc
      exact List.mem_append_right _
        (List.mem_flatMap.mpr ⟨s', List.mem_filter.mpr ⟨hs', hc⟩, has⟩)

end Enumerates

/-! ## Runs -/

/-- Nothing was cut so far. -/
structure Uncut (w : Window σ) (r : Run σ) : Prop where
  beam : AllPaths w r.earlier.length r.beam
  completed : Enumerates w r.earlier.length r.completed

variable {mode : Packing} {width : Nat}

/-- A search remembers its beams. -/
theorem mem_beams_runFor (fuel : Nat) {r : Run σ} {b : List (State σ)}
    (hb : b ∈ r.beam :: r.earlier) :
    b ∈ (runFor w mode width fuel r).beam :: (runFor w mode width fuel r).earlier := by
  refine runFor_induct (motive := fun r => b ∈ r.beam :: r.earlier) (fun r hr => ?_) fuel r hb
  rw [earlier_advance]
  exact List.mem_cons_of_mem _ hr

omit [Score σ] in
/-- If no legal sequence of `k` allowed actions is left, none is longer. -/
theorem length_lt_of_allPaths_nil (h : AllPaths w k []) {as : List Action} {stack : List Item}
    {cursor : Nat} (hl : w.Leads as stack cursor) (hacc : ∀ a ∈ as, w.accept a = true) :
    as.length < k := by
  by_contra hlen
  have hsplit : as = as.take (as.length - k) ++ as.drop (as.length - k) :=
    (List.take_append_drop _ _).symm
  rw [hsplit] at hl
  obtain ⟨s, hs⟩ := hl.of_append
  have hmem := h.covers _ _ _ hs (fun a ha => hacc a (List.mem_of_mem_drop ha))
    (by rw [List.length_drop]; omega)
  simp at hmem

theorem Uncut.advance {r : Run σ} (h : Uncut w r) (hfit : Fits w mode width r.beam) :
    Uncut w (advance w mode width r) := by
  have hnext : AllPaths w (r.earlier.length + 1) (Beam.advance w mode width r).beam :=
    (h.beam.merged mode).perm (perm_beam_advance hfit)
  exact ⟨hnext, h.completed.append hnext⟩

/-- A search that cuts nothing ends with an empty beam or with its last step. -/
theorem Uncut.runFor (fuel : Nat) {r : Run σ} (h : Uncut w r)
    (hfit : ∀ b ∈ (runFor w mode width fuel r).beam :: (runFor w mode width fuel r).earlier,
      Fits w mode width b) :
    Uncut w (runFor w mode width fuel r) ∧ ((runFor w mode width fuel r).beam = [] ∨
      (runFor w mode width fuel r).earlier.length = r.earlier.length + fuel) := by
  induction fuel generalizing r with
  | zero => exact ⟨h, Or.inr rfl⟩
  | succ fuel ih =>
    have hr : Fits w mode width r.beam :=
      hfit _ (mem_beams_runFor (fuel + 1) List.mem_cons_self)
    rw [Beam.runFor] at hfit ⊢
    split_ifs at hfit ⊢ with hempty
    · exact ⟨h, Or.inl (List.isEmpty_iff.mp hempty)⟩
    · obtain ⟨h₁, h₂⟩ := ih (h.advance hr) hfit
      refine ⟨h₁, h₂.imp_right fun he => ?_⟩
      rw [he, earlier_advance, List.length_cons]
      omega

/-- **A search that cuts nothing completes all allowed sequences that finish a derivation.** -/
theorem enumerates_parse {t : Task σ} {window : Span}
    (hspan : (clip t.sentence.length window).start ≤ (clip t.sentence.length window).stop)
    (hfit : ∀ b ∈ (parse t window mode width).beams,
      Fits (.ofTask t (clip t.sentence.length window)) mode (widthOf width) b) :
    Enumerates (.ofTask t (clip t.sentence.length window))
      (maxSteps (clip t.sentence.length window)) (parse t window mode width).completed := by
  set w := Window.ofTask t (clip t.sentence.length window) with hw
  set r := runFor w mode (widthOf width) (maxSteps w.span)
    { beam := [State.initial w.span.start] } with hr
  have hlast : Uncut w r ∧ (r.beam = [] ∨ r.earlier.length = 0 + maxSteps w.span) :=
    Uncut.runFor (maxSteps w.span) ⟨allPaths_initial w, .nil w⟩ fun b hb =>
      hfit b (List.mem_reverse.mpr hb)
  obtain ⟨⟨hbeam, hcompleted⟩, hend⟩ := hlast
  refine Enumerates.perm ?_ (List.mergeSort_perm r.completed _)
  refine ⟨hcompleted.complete, fun s hs => ?_, hcompleted.nodup, fun as hf _ => ?_⟩
  · obtain ⟨n, -, hreached⟩ := hcompleted.reached s hs
    refine ⟨n, ?_, hreached⟩
    rw [← hreached.length _ s.actionsRev_mem_paths]
    exact (hreached.leads_actionsRev.length_lt_maxSteps hspan).le
  · refine hcompleted.covers as hf ?_
    obtain ⟨hacc, s, hs, -⟩ := hf
    rcases hend with hend | hend
    · rw [hend] at hbeam
      exact (length_lt_of_allPaths_nil hbeam hs hacc).le
    · rw [hend, Nat.zero_add]
      exact (hs.length_lt_maxSteps hspan).le

/-! ## Wide beams -/

theorem select_eq_of_le {width' : Nat} {l : List (State σ)} (h : (merged mode l).length ≤ width)
    (hle : width ≤ width') : select mode width' l = select mode width l := by
  have hlen : (byRank (merged mode l)).length ≤ width :=
    (List.mergeSort_perm _ _).length_eq.trans_le h
  exact (List.take_of_length_le (hlen.trans hle)).trans (List.take_of_length_le hlen).symm

/-- How wide a beam is does not matter if it is wide enough. -/
theorem advance_eq_of_fits {width' : Nat} {r : Run σ} (h : Fits w mode width r.beam)
    (hle : width ≤ width') : advance w mode width' r = advance w mode width r := by
  have hselect := select_eq_of_le h hle
  simp only [candidates] at hselect
  simp only [advance, List.flatMap_map, hselect]

theorem mem_earlier_or_fits {r : Run σ} (h : Fits w mode width r.beam) {b : List (State σ)}
    (hb : b ∈ r.beam :: r.earlier) : b ∈ r.earlier ∨ Fits w mode width b := by
  rcases List.mem_cons.mp hb with rfl | hb
  · exact Or.inr h
  · exact Or.inl hb

/-- From some width on the beams that a run adds are wide enough. -/
theorem exists_fits_runFor (w : Window σ) (mode : Packing) (fuel : Nat) (r : Run σ) :
    ∃ least, ∀ width, least ≤ width →
      ∀ b ∈ (runFor w mode width fuel r).beam :: (runFor w mode width fuel r).earlier,
        b ∈ r.earlier ∨ Fits w mode width b := by
  induction fuel generalizing r with
  | zero =>
    exact ⟨(merged mode (candidates w r.beam)).length, fun _ hle _ => mem_earlier_or_fits hle⟩
  | succ fuel ih =>
    set own := (merged mode (candidates w r.beam)).length with hown
    obtain ⟨least, hleast⟩ := ih (advance w mode own r)
    refine ⟨max own least, fun width hle b hb => ?_⟩
    have hfit : Fits w mode width r.beam := (le_max_left _ _).trans hle
    rw [runFor] at hb
    split_ifs at hb with hempty
    · exact mem_earlier_or_fits hfit hb
    · rw [advance_eq_of_fits hown.ge ((le_max_left _ _).trans hle)] at hb
      rcases hleast width ((le_max_right _ _).trans hle) b hb with hb | hb
      · exact mem_earlier_or_fits hfit hb
      · exact Or.inr hb

/-- **No search with a wide beam cuts anything.** -/
theorem exists_fits (t : Task σ) (window : Span) (mode : Packing) :
    ∃ least, ∀ width, least ≤ width → ∀ b ∈ (parse t window mode width).beams,
      Fits (.ofTask t (clip t.sentence.length window)) mode (widthOf width) b := by
  set w := Window.ofTask t (clip t.sentence.length window)
  obtain ⟨least, hleast⟩ := exists_fits_runFor w mode (maxSteps w.span)
    { beam := [State.initial w.span.start] }
  refine ⟨least, fun width hle b hb => ?_⟩
  have hb := hleast (widthOf width) (hle.trans (le_max_left _ _)) b (List.mem_reverse.mp hb)
  exact hb.resolve_left List.not_mem_nil

end Beam

end Categorial
