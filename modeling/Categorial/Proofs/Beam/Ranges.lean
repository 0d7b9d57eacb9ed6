import Categorial.Proofs.Beam.Violations

/-!
# Ranges

A list has members and parts only in its range, and what a search reads of the sentence, of the gold
sequence and of its beams it reads by position. Here every such access is checked: the searches are
written once more, with no result as soon as one access is out of range, or if they do not end. A search
for derivations clips its window to the sentence, so all its accesses are in range. The search for a
violation does not: over a window that reaches behind the end of the sentence it can ask for tokens that
are not there. That is the only way in which it can go wrong.

* `Span.tokens?`, `Window.moves?`: the legal moves of a state, if all tokens asked for are there.
* `Beam.parse?`, `Beam.findViolation?`: the two searches with checked accesses.
* `Window.moves?_eq`, `Beam.advance?_eq`: one step with checked accesses.
* `Beam.runFor?_eq`, `Beam.followGold?_eq`: whole runs.
* `Beam.Fails`, `Beam.fails_of_findViolation`: how a search for a violation can fail.
* **`Beam.accesses_in_range`**: what the two searches do for every window.
-/

namespace Categorial

variable {σ : Type}

/-! ## Checked accesses -/

/-- Checked values, all of them or none. -/
theorem mapM_ite {α β : Type} (p : α → Prop) [DecidablePred p] (f : α → β) (l : List α) :
    (l.mapM fun a => if p a then some (f a) else none) =
      if ∀ a ∈ l, p a then some (l.map f) else none := by
  induction l with
  | nil => rfl
  | cons a l ih =>
    rw [List.mapM_cons, ih]
    by_cases ha : p a
    · by_cases hl : ∀ b ∈ l, p b
      · rw [if_pos ha, if_pos hl, if_pos (List.forall_mem_cons.mpr ⟨ha, hl⟩)]
        rfl
      · rw [if_pos ha, if_neg hl, if_neg fun h => hl (List.forall_mem_cons.mp h).2]
        rfl
    · rw [if_neg ha, if_neg fun h => ha (List.forall_mem_cons.mp h).1]
      rfl

/-- The tokens of a span, if it is a range of the sentence. -/
def Span.tokens? (s : Span) (sentence : List String) : Option (List String) :=
  if s.start ≤ s.stop ∧ s.stop ≤ sentence.length then some (s.tokens sentence) else none

namespace Window

/-- Shift the entries of a span, if it is a range of the sentence. -/
def shiftsOver? (w : Window σ) (s : State σ) (span : Span) : Option (List Move) :=
  (span.tokens? w.sentence).map fun tokens =>
    (w.provider.lookup tokens).map fun e =>
      ⟨Action.lookup span e, s.stack, s.depth + 1, span.stop, s.depth_add_one⟩

/-- The legal moves of a state, if all tokens asked for are there. -/
def moves? (w : Window σ) (s : State σ) : Option (List Move) := do
  let shifts ← (List.range (w.maxShift s.cursor)).mapM fun i =>
    w.shiftsOver? s ⟨s.cursor, s.cursor + (i + 1)⟩
  some (dropSame (shifts.flatten ++ w.unaryMoves s ++ w.binaryMoves s))

end Window

namespace Beam

/-- The states have a last action, which their order looks at. -/
def HaveActions (l : List (State σ)) : Prop := ∀ s ∈ l, s.histories ≠ []

instance (l : List (State σ)) : Decidable (HaveActions l) :=
  inferInstanceAs (Decidable (∀ s ∈ l, s.histories ≠ []))

variable [Score σ]

/-- Order states best first, if they have actions. -/
def byRank? (l : List (State σ)) : Option (List (State σ)) :=
  if HaveActions l then some (byRank l) else none

/-- One step with checked accesses. -/
def advance? (w : Window σ) (mode : Packing) (width : Nat) (r : Run σ) : Option (Run σ) := do
  let proposed ← r.beam.mapM fun s => (w.moves? s).map fun ms => (s, ms)
  let candidates := proposed.flatMap fun (s, ms) =>
    (ms.filter fun (m : Move) => w.accept m.action).map (w.apply s)
  let sorted ← byRank? (merged mode candidates)
  let next := sorted.take width
  let proposals := (proposed.flatMap fun p => p.2).length
  some
    { beam := next
      earlier := r.beam :: r.earlier
      completed := r.completed ++ next.filter w.isComplete
      accepted := r.accepted + candidates.length
      rejected := r.rejected + (proposals - candidates.length) }

/-- Take steps with checked accesses until the beam is empty. There is no result if it is not empty
after `fuel` steps. -/
def runFor? (w : Window σ) (mode : Packing) (width : Nat) : (fuel : Nat) → Run σ → Option (Run σ)
  | 0, r => if r.beam.isEmpty then some r else none
  | fuel + 1, r =>
    if r.beam.isEmpty then some r
    else (advance? w mode width r).bind (runFor? w mode width fuel)

/-- Search a window of the sentence with checked accesses. -/
def parse? (t : Task σ) (window : Span) (mode : Packing) (width : Nat) : Option (Parse σ) := do
  let span := clip t.sentence.length window
  let r ← runFor? (.ofTask t span) mode (widthOf width) (maxSteps span)
    { beam := [State.initial span.start] }
  let completed ← byRank? r.completed
  some
    { sentence := t.sentence
      window := span
      completed
      beams := (r.beam :: r.earlier).reverse
      accepted := r.accepted
      rejected := r.rejected }

/-- The successors of a marked state, if all tokens asked for are there. -/
def markedMoves? (w : Window σ) (gold : Option Action) (m : Marked σ) : Option (List (Marked σ)) :=
  (w.moves? m.state).map fun ms => ms.map fun mv =>
    ⟨w.apply m.state mv, m.isGold && gold.any fun a => a.same mv.action⟩

/-- Compare the gold with the best completed state, if the completed states have actions. -/
def finalViolation? (gold : List Action) (completed : List (State σ)) :
    Option (Except TrainError (Option Violation)) :=
  if HaveActions completed then some (finalViolation gold completed) else none

/-- Search on with a marked beam and checked accesses. The gold sequence is read by position. -/
def followGold? (w : Window σ) (width : Nat) (gold : List Action) (complete : Bool) :
    (fuel step : Nat) → (beam : List (Marked σ)) → (completed : List (State σ)) →
    Option (Except TrainError (Option Violation))
  | 0, _, beam, completed => if beam.isEmpty then finalViolation? gold completed else none
  | fuel + 1, step, beam, completed =>
    if beam.isEmpty then finalViolation? gold completed
    else do
      let successors ← beam.mapM (markedMoves? w gold[step]?)
      let candidates := successors.flatten
      if HaveActions (candidates.map Marked.state) then
        let next := (candidates.mergeSort fun s t => (s.rank t).isLE).take width
        let completed := completed ++ (next.map Marked.state).filter w.isComplete
        if gold[step]?.isNone then followGold? w width gold complete fuel (step + 1) next completed
        else if !candidates.any Marked.isGold then do
          let a ← gold[step]?
          some (.error (.goldIllegal a (step + 1)))
        else do
          let first ← next.head?
          if !next.any Marked.isGold then
            if step + 1 ≤ gold.length then
              some (.ok (some ⟨step + 1, true, gold.take (step + 1), first.state.actions⟩))
            else none
          else if step + 1 == gold.length && !complete then
            if first.isGold then some (.ok none)
            else some (.ok (some ⟨step + 1, true, gold, first.state.actions⟩))
          else followGold? w width gold complete fuel (step + 1) next completed
      else none

/-- The first violation of a gold sequence, with checked accesses. -/
def findViolation? (t : Task σ) (window : Span) (width : Nat) (gold : List Action)
    (complete : Bool) : Option (Except TrainError (Option Violation)) :=
  if gold.isEmpty then some (.ok none)
  else match gold.find? fun a => !window.contains a.span with
  | some a => some (.error (.goldOutsideWindow a window))
  | none =>
    followGold? (Window.ofTask { t with accept := fun _ => true } window) (widthOf width) gold complete
      (maxSteps window) 0 [⟨State.initial window.start, true⟩] []

/-- What the search for a violation answers, unless it asked for tokens that are not there. -/
def inRange? : Except TrainError (Option Violation) → Option (Except TrainError (Option Violation))
  | .error (.pastEnd _ _) => none
  | r => some r

end Beam

/-! ## One step -/

theorem Window.shiftsOver?_eq (w : Window σ) (s : State σ) (span : Span) :
    w.shiftsOver? s span = if span.start ≤ span.stop ∧ span.stop ≤ w.sentence.length then
      some (w.shiftsOver s span) else none := by
  unfold shiftsOver? Span.tokens?
  split_ifs <;> rfl

namespace Beam

theorem overrun?_eq_none_iff (w : Window σ) (s : State σ) : overrun? w s = none ↔
    ∀ i ∈ List.range (w.maxShift s.cursor), s.cursor ≤ s.cursor + (i + 1) ∧
      s.cursor + (i + 1) ≤ w.sentence.length := by
  unfold overrun?
  simp only [Bool.and_eq_true, decide_eq_true_eq, ite_eq_right_iff, reduceCtorEq, imp_false, not_and,
    not_lt, List.mem_range]
  constructor
  · intro h i hi
    have hlast := h (by omega)
    omega
  · intro h hpos
    have hlast := h (w.maxShift s.cursor - 1) (by omega)
    omega

end Beam

/-- The moves of a state can be found if and only if it does not ask for tokens behind the end. -/
theorem Window.moves?_eq (w : Window σ) (s : State σ) :
    w.moves? s = if Beam.overrun? w s = none then some (w.moves s) else none := by
  unfold moves?
  simp only [shiftsOver?_eq, mapM_ite, Beam.overrun?_eq_none_iff]
  split_ifs
  · rw [moves, shifts, List.flatMap_def]
    rfl
  · rfl

namespace Beam

variable [Score σ] {w : Window σ} {mode : Packing} {width : Nat}

/-- A step in which no state asks for tokens behind the end succeeds. -/
theorem advance?_eq {r : Run σ} (h : ∀ s ∈ r.beam, overrun? w s = none) :
    advance? w mode width r = some (advance w mode width r) := by
  have hmoves : (r.beam.mapM fun s => (w.moves? s).map fun ms => (s, ms)) =
      some (r.beam.map fun s => (s, w.moves s)) := by
    have hmove : ∀ s : State σ, ((w.moves? s).map fun ms => (s, ms)) =
        if overrun? w s = none then some (s, w.moves s) else none := by
      intro s
      rw [Window.moves?_eq]
      split_ifs <;> rfl
    simp only [hmove, mapM_ite, if_pos h]
  have hcandidates : HaveActions (merged mode (candidates w r.beam)) :=
    forall_mem_merged histories_candidates fun _ t hs _ _ _ => State.histories_merge_ne_nil hs t
  simp only [advance?, hmoves, Option.bind_eq_bind, Option.bind_some, List.flatMap_map]
  change (byRank? (merged mode (candidates w r.beam))).bind _ = _
  rw [byRank?, if_pos hcandidates, advance, List.flatMap_map, List.flatMap_map]
  rfl

/-- A search that ends over a window inside the sentence succeeds. -/
theorem runFor?_eq (hw : w.span.stop ≤ w.sentence.length) (fuel : Nat) (r : Run σ)
    (hend : (runFor w mode width fuel r).beam = []) :
    runFor? w mode width fuel r = some (runFor w mode width fuel r) := by
  induction fuel generalizing r with
  | zero => exact if_pos (List.isEmpty_iff.mpr hend)
  | succ fuel ih =>
    rw [runFor] at hend ⊢
    rw [runFor?]
    by_cases hempty : r.beam.isEmpty
    · rw [if_pos hempty, if_pos hempty]
    · rw [if_neg hempty] at hend
      rw [if_neg hempty, if_neg hempty, advance?_eq fun s _ => overrun?_eq_none hw s]
      exact ih _ hend

omit [Score σ] in
theorem Reached.histories_ne_nil {k : Nat} {s : State σ} (h : Reached w (k + 1) s) :
    s.histories ≠ [] :=
  fun he => absurd (h.histories he) k.succ_ne_zero

/-- A search for derivations succeeds, whatever its window. -/
theorem parse?_eq (t : Task σ) (window : Span) (mode : Packing) (width : Nat) :
    parse? t window mode width = some (parse t window mode width) := by
  set w := Window.ofTask t (clip t.sentence.length window)
  obtain ⟨k, heq, -, hlast⟩ := exists_runFor_maxSteps w mode (widthOf width)
  have hstop : w.span.stop ≤ w.sentence.length := Nat.min_le_right _ _
  have hrun := runFor?_eq hstop (maxSteps w.span) { beam := [State.initial w.span.start] }
    ((congrArg Run.beam heq).trans hlast)
  have hcompleted : HaveActions (runFor w mode (widthOf width) (maxSteps w.span)
      { beam := [State.initial w.span.start] }).completed := by
    intro s hs
    rw [heq] at hs
    obtain ⟨j, -, hs, -⟩ := mem_completed_runAt.mp hs
    exact (reached_runAt hs).histories_ne_nil
  change (runFor? w mode (widthOf width) (maxSteps w.span)
    { beam := [State.initial w.span.start] }).bind _ = _
  rw [hrun, Option.bind_some, byRank?, if_pos hcompleted]
  rfl

/-! ## Following the gold -/

theorem mapM_markedMoves? (gold : Option Action) (beam : List (Marked σ)) :
    beam.mapM (markedMoves? w gold) = if ∀ m ∈ beam, overrun? w m.state = none then
      some (beam.map (markedMoves w gold)) else none := by
  have hmoves : markedMoves? w gold = fun m =>
      if overrun? w m.state = none then some (markedMoves w gold m) else none := by
    funext m
    rw [markedMoves?, Window.moves?_eq]
    split_ifs <;> rfl
  rw [hmoves, mapM_ite]

variable {gold : List Action} {complete : Bool} {step : Nat} {beam : List (Marked σ)}
  {completed : List (State σ)}

/-- The successors of the states of a marked beam have taken one more action. -/
theorem reached_markedMoves (haccept : ∀ a, w.accept a = true)
    (hbeam : ∀ m ∈ beam, Reached w step m.state) (a : Option Action) :
    ∀ m ∈ beam.flatMap (markedMoves w a), Reached w (step + 1) m.state := by
  intro m' hm'
  obtain ⟨m, hm, hm'⟩ := List.mem_flatMap.mp hm'
  obtain ⟨mv, hmv, rfl⟩ := List.mem_map.mp hm'
  exact (hbeam m hm).apply hmv (haccept _)

theorem reached_next (haccept : ∀ a, w.accept a = true) (hbeam : ∀ m ∈ beam, Reached w step m.state)
    (a : Option Action) :
    ∀ m ∈ ((beam.flatMap (markedMoves w a)).mergeSort fun s t => (s.rank t).isLE).take width,
      Reached w (step + 1) m.state :=
  fun m hm => reached_markedMoves haccept hbeam a m (List.mem_mergeSort.mp (List.mem_of_mem_take hm))

omit [Score σ] in
/-- States that have taken a step have actions. -/
theorem haveActions_of_reached (h : ∀ m ∈ beam, Reached w (step + 1) m.state) :
    HaveActions (beam.map Marked.state) := by
  intro s hs
  obtain ⟨m, hm, rfl⟩ := List.mem_map.mp hs
  exact (h m hm).histories_ne_nil

omit [Score σ] in
theorem HaveActions.append_filter {l : List (State σ)} (h : HaveActions completed) (hl : HaveActions l)
    (p : State σ → Bool) : HaveActions (completed ++ l.filter p) := by
  intro s hs
  rcases List.mem_append.mp hs with hs | hs
  · exact h s hs
  · exact hl s (List.mem_filter.mp hs).1

theorem reached_start (w : Window σ) :
    ∀ m ∈ ([⟨State.initial w.span.start, true⟩] : List (Marked σ)), Reached w 0 m.state := by
  intro m hm
  rw [List.mem_singleton.mp hm]
  exact reached_initial w

omit [Score σ] in
/-- After as many steps as a search can take, no state is left. -/
theorem eq_nil_of_maxSteps_le (hbeam : ∀ m ∈ beam, Reached w step m.state)
    (hstep : maxSteps w.span ≤ step) : beam = [] := by
  refine List.eq_nil_iff_forall_not_mem.mpr fun m hm => ?_
  have hlength := (hbeam m hm).leads_actions.length_le
  rw [List.length_reverse, (hbeam m hm).length_actions] at hlength
  unfold maxSteps at hstep
  omega

omit [Score σ] in
/-- A beam of positive width is empty only if there is nothing to put into it. -/
theorem exists_next_eq_cons {le : Marked σ → Marked σ → Bool} {candidates : List (Marked σ)}
    (hwidth : 1 ≤ width) (h : candidates.any Marked.isGold = true) :
    ∃ first others, (candidates.mergeSort le).take width = first :: others := by
  obtain ⟨m, hm, -⟩ := List.any_eq_true.mp h
  refine List.exists_cons_of_ne_nil fun hnil => ?_
  rcases List.take_eq_nil_iff.mp hnil with hzero | hnil
  · omega
  · exact List.not_mem_nil (hnil ▸ List.mem_mergeSort.mpr hm)

theorem inRange?_finalViolation (gold : List Action) (completed : List (State σ)) :
    inRange? (finalViolation gold completed) = some (finalViolation gold completed) := by
  rw [finalViolation]
  split
  · rfl
  · dsimp only
    split_ifs <;> rfl

theorem finalViolation?_eq (h : HaveActions completed) :
    finalViolation? gold completed = inRange? (finalViolation gold completed) := by
  rw [finalViolation?, if_pos h, inRange?_finalViolation]

/-- The search goes on with checked accesses as it does without, until tokens behind the end are asked
for. -/
theorem followGold?_eq (haccept : ∀ a, w.accept a = true) (hwidth : 1 ≤ width) (fuel : Nat)
    (hbeam : ∀ m ∈ beam, Reached w step m.state) (hcompleted : HaveActions completed)
    (hfuel : maxSteps w.span ≤ step + fuel) :
    followGold? w width gold complete fuel step beam completed =
      inRange? (followGold w width gold complete fuel step (gold.drop step) beam completed) := by
  induction fuel generalizing step beam completed with
  | zero =>
    -- the steps are used up, and no legal sequence has as many actions
    rw [eq_nil_of_maxSteps_le hbeam hfuel]
    exact finalViolation?_eq hcompleted
  | succ fuel ih =>
    rw [followGold?, followGold]
    by_cases hempty : beam.isEmpty
    · rw [if_pos hempty, if_pos hempty]
      exact finalViolation?_eq hcompleted
    rw [if_neg hempty, if_neg hempty, mapM_markedMoves?]
    by_cases hover : ∀ m ∈ beam, overrun? w m.state = none
    · rw [if_pos hover, List.findSome?_eq_none_iff.mpr hover, ← List.head?_drop]
      simp only [Option.bind_eq_bind, Option.bind_some, ← List.flatMap_def]
      set candidates := beam.flatMap (markedMoves w (gold.drop step).head?)
      set next := (candidates.mergeSort fun s t => (s.rank t).isLE).take width with hnext
      have hactions : HaveActions (candidates.map Marked.state) :=
        haveActions_of_reached (reached_markedMoves haccept hbeam _)
      have hbeam' : ∀ m ∈ next, Reached w (step + 1) m.state := reached_next haccept hbeam _
      have hcompleted' := hcompleted.append_filter (haveActions_of_reached hbeam') w.isComplete
      have hgo := ih hbeam' hcompleted' (by omega)
      have hlength := List.length_drop (i := step) (l := gold)
      rw [if_pos hactions]
      rw [← List.drop_drop] at hgo
      cases hrest : gold.drop step with
      | nil =>
        rw [hrest] at hgo
        exact hgo
      | cons a rest =>
        rw [hrest] at hgo hlength
        rw [List.length_cons] at hlength
        simp only [List.head?_cons, Option.isNone_some, Bool.false_eq_true, if_false,
          Option.bind_some]
        by_cases hgold : candidates.any Marked.isGold
        · obtain ⟨first, others, hcons⟩ := exists_next_eq_cons hwidth hgold
          rw [← hnext] at hcons
          -- the place in the gold and what is left of it tell the end alike
          have hend : (step + 1 == gold.length) = rest.isEmpty := by
            rw [Bool.eq_iff_iff, beq_iff_eq, List.isEmpty_iff, ← List.length_eq_zero_iff]
            omega
          rw [hcons] at hgo ⊢
          simp only [hgold, hend, List.head?_cons, Option.bind_some, Bool.not_true,
            Bool.false_eq_true, if_false, if_pos (show step + 1 ≤ gold.length by omega)]
          split_ifs
          · rfl
          · rfl
          · rfl
          · exact hgo
        · simp only [hgold, Bool.not_false, if_true]
          rfl
    · obtain ⟨stop, hstop⟩ : ∃ stop, (beam.findSome? fun m => overrun? w m.state) = some stop :=
        Option.ne_none_iff_exists'.mp fun h => hover (List.findSome?_eq_none_iff.mp h)
      rw [if_neg hover, hstop]
      rfl

omit [Score σ] in
/-- Only in a window that reaches behind the end are tokens behind the end asked for. -/
theorem lt_stop_of_overrun? {s : State σ} {stop : Nat} (h : overrun? w s = some stop) :
    w.sentence.length < w.span.stop ∧ s.cursor < w.span.stop := by
  unfold overrun? Window.maxShift at h
  simp only [Bool.and_eq_true, decide_eq_true_eq, Option.ite_none_right_eq_some] at h
  omega

/-- How the search for a violation can fail. It asks for tokens behind the end only over a window that
reaches there and is not empty. -/
inductive Fails (w : Window σ) : TrainError → Prop
  | outside (a : Action) : Fails w (.goldOutsideWindow a w.span)
  | illegal (a : Action) (step : Nat) : Fails w (.goldIllegal a step)
  | unfinished (length : Nat) : Fails w (.goldNeverCompleted length)
  | pastEnd (stop : Nat) : w.sentence.length < w.span.stop → w.span.start < w.span.stop →
      Fails w (.pastEnd stop w.sentence.length)

theorem fails_of_finalViolation {e : TrainError} (h : finalViolation gold completed = .error e) :
    Fails w e := by
  rw [finalViolation] at h
  split at h
  · cases h
    exact .unfinished _
  · dsimp only at h
    split_ifs at h

theorem fails_of_followGold (haccept : ∀ a, w.accept a = true) (fuel : Nat) (rest : List Action)
    (hbeam : ∀ m ∈ beam, Reached w step m.state) {e : TrainError}
    (h : followGold w width gold complete fuel step rest beam completed = .error e) : Fails w e := by
  induction fuel generalizing step rest beam completed with
  | zero => exact fails_of_finalViolation h
  | succ fuel ih =>
    rw [followGold] at h
    split_ifs at h with hempty
    · exact fails_of_finalViolation h
    split at h
    · next stop hstop =>
      cases h
      obtain ⟨m, hm, hover⟩ := List.exists_of_findSome?_eq_some hstop
      obtain ⟨hlength, hcursor⟩ := lt_stop_of_overrun? hover
      exact .pastEnd stop hlength ((hbeam m hm).leads_actions.inside.1.trans_lt hcursor)
    cases rest with
    | nil => exact ih [] (reached_next haccept hbeam none) h
    | cons a rest =>
      dsimp only at h
      by_cases hgold : (beam.flatMap (markedMoves w (a :: rest).head?)).any Marked.isGold
      · rw [hgold, Bool.not_true, if_neg Bool.false_ne_true] at h
        split at h
        · exact fails_of_finalViolation h
        · split_ifs at h
          exact ih rest (reached_next haccept hbeam (some a)) h
      · rw [if_pos (by simpa using hgold)] at h
        cases h
        exact .illegal a (step + 1)

/-- The search for a violation fails in one of four ways. -/
theorem fails_of_findViolation {t : Task σ} {window : Span} {e : TrainError}
    (h : findViolation t window width gold complete = .error e) :
    Fails (.ofTask t.unfiltered window) e := by
  unfold findViolation at h
  split_ifs at h with hempty
  cases hfind : gold.find? fun a => !window.contains a.span with
  | some a =>
    rw [hfind] at h
    cases h
    exact .outside a
  | none =>
    rw [hfind] at h
    exact fails_of_followGold (fun _ => rfl) _ _ (reached_start (.ofTask t.unfiltered window)) h

theorem findViolation?_eq (t : Task σ) (window : Span) (width : Nat) (gold : List Action)
    (complete : Bool) : findViolation? t window width gold complete =
      inRange? (findViolation t window width gold complete) := by
  unfold findViolation? findViolation
  split_ifs with hempty
  · rfl
  cases gold.find? fun a => !window.contains a.span with
  | some a => rfl
  | none =>
    exact followGold?_eq (w := .ofTask t.unfiltered window) (fun _ => rfl) (Nat.le_max_right width 1) _
      (reached_start (.ofTask t.unfiltered window)) (fun s hs => absurd hs List.not_mem_nil)
      (Nat.le_add_left _ _)

/-- **All accesses are in range, but for tokens behind the end.** For every grammar, lexicon, score,
width and window, whether or not it reaches behind the end of the sentence or is inverted: a search for
derivations ends, and it never reads outside the sentence or looks for the last action of a state that
has none. For every gold sequence, complete or not, the search for a violation ends, never reads the gold
sequence out of range or the first state of an empty beam, and it never reads outside the sentence unless
it finds that tokens behind the end are asked for. That can only be so if the window reaches behind the
end of the sentence, and it cannot if the window is empty or inverted. -/
theorem accesses_in_range (t : Task σ) (window : Span) (width : Nat) :
    (∀ mode, parse? t window mode width = some (parse t window mode width)) ∧
    (∀ gold complete, findViolation? t window width gold complete =
      inRange? (findViolation t window width gold complete)) ∧
    (window.stop ≤ t.sentence.length ∨ window.stop ≤ window.start → ∀ gold complete,
      findViolation? t window width gold complete =
        some (findViolation t window width gold complete)) := by
  refine ⟨fun mode => parse?_eq t window mode width,
    fun gold complete => findViolation?_eq t window width gold complete, fun hwindow gold complete => ?_⟩
  rw [findViolation?_eq, inRange?.eq_def]
  split
  · next stop n h =>
    -- such a window does not reach behind the end, or it is empty
    cases fails_of_findViolation h with
    | pastEnd _ hlength hstart =>
      change t.sentence.length < window.stop at hlength
      change window.start < window.stop at hstart
      omega
  · rfl

/-- A sentence of one word, which has one entry. -/
def justDogs : Task ℤ where
  grammar := { rules := .standard 1 }
  lexicon := .ofList [⟨["dogs"], ⟨.atom "N", none⟩, .fixed⟩]
  sentence := ["dogs"]
  score _ := 0

/-- Over a window of two tokens, the search for a violation of the look-up of `dogs` reads behind the end
of the sentence. The search for derivations does not. -/
theorem reads_behind_end :
    findViolation? justDogs ⟨0, 2⟩ 1 [.lookup ⟨0, 1⟩ ⟨["dogs"], ⟨.atom "N", none⟩, .fixed⟩] true = none ∧
      (parse? justDogs ⟨0, 2⟩ .unpacked 1).isSome = true := by
  constructor
  · cbv
  · cbv

end Beam

end Categorial
