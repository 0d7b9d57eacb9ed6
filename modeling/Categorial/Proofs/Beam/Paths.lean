import Categorial.Proofs.Beam.Legal
import Categorial.Proofs.Beam.Readings

/-!
# The paths of a state

A state stands for all sequences of actions that lead to it. Merging joins them, so each state of a
beam stands for legal sequences of allowed actions that end in its stack and cursor, and counts them.

* `State.paths`: the sequences of actions that lead to a state.
* `State.paths_merge`: merged states have the paths of both.
* `Beam.candidates`, `Beam.merged`: the states of a step, before they are cut to the width.
* **`Beam.reached_of_mem_beams`**, `Beam.reached_of_mem_completed`: the states of a search.
-/

namespace Categorial

variable {σ : Type}

namespace State

mutual

/-- The sequences of actions that lead to a state, last action first. -/
def paths : State σ → List (List Action)
  | ⟨_, _, _, _, histories, _, _, _⟩ => if histories.isEmpty then [[]] else pathsOf histories

/-- The sequences of actions of some histories. -/
def pathsOf : List (History σ (State σ)) → List (List Action)
  | [] => []
  | ⟨prev, a, _, _⟩ :: rest => (paths prev).map (a :: ·) ++ pathsOf rest

end

theorem pathsOf_eq_flatMap (l : List (History σ (State σ))) :
    pathsOf l = l.flatMap fun h => h.prev.paths.map (h.action :: ·) := by
  induction l with
  | nil => rfl
  | cons h l ih => rw [pathsOf, ih, List.flatMap_cons]

theorem paths_of_histories_eq_nil {s : State σ} (h : s.histories = []) : s.paths = [[]] := by
  obtain ⟨_, _, _, _, histories, _, _, _⟩ := s
  change histories = [] at h
  rw [paths, h]
  rfl

theorem paths_of_histories_ne_nil {s : State σ} (h : s.histories ≠ []) :
    s.paths = s.histories.flatMap fun h => h.prev.paths.map (h.action :: ·) := by
  obtain ⟨_, _, _, _, histories, _, _, _⟩ := s
  change histories ≠ [] at h
  rw [paths, if_neg (by simpa using h), pathsOf_eq_flatMap]

/-- The actions of the best history are one of the paths. -/
theorem actionsRev_mem_paths : (s : State σ) → s.actionsRev ∈ s.paths
  | ⟨_, _, _, _, [], _, _, _⟩ => by simp [paths, actionsRev]
  | ⟨_, _, _, _, ⟨prev, a, _, _⟩ :: rest, _, _, _⟩ => by
    have ih := actionsRev_mem_paths prev
    rw [paths, actionsRev]
    exact List.mem_append_left _ (List.mem_map_of_mem ih)

theorem sameStack_iff {l l' : List Item} : sameStack l l' = true ↔ l = l' := by
  induction l generalizing l' with
  | nil => cases l' <;> simp [sameStack]
  | cons x l ih =>
    cases l' with
    | nil => simp [sameStack]
    | cons y l' =>
      obtain ⟨c, sp, u⟩ := x
      obtain ⟨c', sp', u'⟩ := y
      simp only [sameStack, Bool.and_eq_true, beq_iff_eq, ih, List.cons.injEq, Item.mk.injEq]
      tauto

theorem sameSituation_iff {s t : State σ} :
    s.sameSituation t = true ↔ s.cursor = t.cursor ∧ s.stack = t.stack := by
  simp [sameSituation, sameStack_iff]

variable [Score σ]

@[simp] theorem paths_initial (cursor : Nat) : (initial cursor : State σ).paths = [[]] := by
  rw [paths_of_histories_eq_nil rfl]

theorem perm_insertHistory (h : History σ (State σ)) (l : List (History σ (State σ))) :
    (insertHistory h l).Perm (h :: l) := by
  induction l with
  | nil => exact .refl _
  | cons k l ih =>
    rw [insertHistory]
    split_ifs
    · exact .refl _
    · exact (ih.cons k).trans (.swap h k l)

theorem perm_histories_merge (s t : State σ) :
    (s.merge t).histories.Perm (s.histories ++ t.histories) := by
  change (t.histories.foldl (fun hs h => insertHistory h hs) s.histories).Perm _
  generalize s.histories = l
  induction t.histories generalizing l with
  | nil => rw [List.append_nil]; exact .refl _
  | cons h rest ih =>
    rw [List.foldl_cons]
    refine (ih _).trans (((perm_insertHistory h l).append_right rest).trans ?_)
    exact List.perm_middle.symm

theorem histories_merge_ne_nil {s : State σ} (hs : s.histories ≠ []) (t : State σ) :
    (s.merge t).histories ≠ [] := by
  intro h
  have hperm := perm_histories_merge s t
  rw [h] at hperm
  exact hs (List.append_eq_nil_iff.mp hperm.nil_eq.symm).1

/-- Merged states have the paths of both. -/
theorem paths_merge {s t : State σ} (hs : s.histories ≠ []) (ht : t.histories ≠ []) :
    (s.merge t).paths.Perm (s.paths ++ t.paths) := by
  rw [paths_of_histories_ne_nil (histories_merge_ne_nil hs t), paths_of_histories_ne_nil hs,
    paths_of_histories_ne_nil ht, ← List.flatMap_append]
  exact (perm_histories_merge s t).flatMap_right _

end State

namespace Window

variable [Score σ]

theorem paths_apply (w : Window σ) (s : State σ) (m : Move) :
    (w.apply s m).paths = s.paths.map (m.action :: ·) := by
  rw [State.paths_of_histories_ne_nil (by simp [apply])]
  simp [apply]

end Window

namespace Beam

variable [Score σ]

/-! ## The states of a step -/

/-- The states that allowed moves lead to. -/
def candidates (w : Window σ) (beam : List (State σ)) : List (State σ) :=
  beam.flatMap fun s => ((w.moves s).filter fun (m : Move) => w.accept m.action).map (w.apply s)

/-- The states of a step before they are ordered and cut. -/
def merged (mode : Packing) (l : List (State σ)) : List (State σ) :=
  match mode with
  | .packed => mergeAll l
  | .unpacked => l

theorem beam_advance (w : Window σ) (mode : Packing) (width : Nat) (r : Run σ) :
    (advance w mode width r).beam = (byRank (merged mode (candidates w r.beam))).take width := by
  simp only [advance, List.flatMap_map]
  rfl

theorem earlier_advance (w : Window σ) (mode : Packing) (width : Nat) (r : Run σ) :
    (advance w mode width r).earlier = r.beam :: r.earlier := rfl

theorem completed_advance (w : Window σ) (mode : Packing) (width : Nat) (r : Run σ) :
    (advance w mode width r).completed =
      r.completed ++ (advance w mode width r).beam.filter w.isComplete := rfl

theorem mem_candidates {w : Window σ} {beam : List (State σ)} {s' : State σ} :
    s' ∈ candidates w beam ↔
      ∃ s ∈ beam, ∃ m ∈ w.moves s, w.accept m.action = true ∧ s' = w.apply s m := by
  simp only [candidates, List.mem_flatMap, List.mem_map, List.mem_filter, and_assoc, eq_comm]

/-- A state goes to the first one in the same situation, or last. -/
theorem mergeInto_cases (s : State σ) (l : List (State σ)) :
    (∃ pre t post, l = pre ++ t :: post ∧ t.sameSituation s = true ∧
      mergeInto s l = pre ++ t.merge s :: post) ∨
    (∀ t ∈ l, t.sameSituation s = false) ∧ mergeInto s l = l ++ [s] := by
  induction l with
  | nil => exact Or.inr ⟨by simp, rfl⟩
  | cons t l ih =>
    rw [mergeInto]
    split_ifs with ht
    · exact Or.inl ⟨[], t, l, rfl, ht, rfl⟩
    · rcases ih with ⟨pre, t', post, rfl, ht', he⟩ | ⟨hne, he⟩
      · exact Or.inl ⟨t :: pre, t', post, rfl, ht', by rw [he]; rfl⟩
      · refine Or.inr ⟨fun t' ht' => ?_, by rw [he]; rfl⟩
        rcases List.mem_cons.mp ht' with rfl | ht'
        · simpa using ht
        · exact hne t' ht'

/-- What merging two states in one situation keeps, merging all keeps. -/
theorem forall_mem_mergeAll {P : State σ → Prop} {l : List (State σ)} (h : ∀ s ∈ l, P s)
    (hmerge : ∀ s t : State σ, P s → P t → s.cursor = t.cursor → s.stack = t.stack →
      P (s.merge t)) : ∀ s ∈ mergeAll l, P s := by
  induction l using List.reverseRecOn with
  | nil => simp [mergeAll]
  | append_singleton l s ih =>
    have ih := ih fun t ht => h t (List.mem_append_left _ ht)
    have hs := h s (by simp)
    rw [mergeAll, List.foldl_append]
    change ∀ x ∈ mergeInto s (mergeAll l), P x
    rcases mergeInto_cases s (mergeAll l) with ⟨pre, t, post, hl, ht, he⟩ | ⟨-, he⟩
    · rw [he]
      rw [hl] at ih
      obtain ⟨hcursor, hstack⟩ := State.sameSituation_iff.mp ht
      intro x hx
      rcases List.mem_append.mp hx with hx | hx
      · exact ih x (List.mem_append_left _ hx)
      · rcases List.mem_cons.mp hx with rfl | hx
        · exact hmerge t s (ih t (by simp)) hs hcursor hstack
        · exact ih x (by simp [hx])
    · rw [he]
      intro x hx
      rcases List.mem_append.mp hx with hx | hx
      · exact ih x hx
      · rw [List.mem_singleton.mp hx]
        exact hs

theorem forall_mem_merged {P : State σ → Prop} {mode : Packing} {l : List (State σ)}
    (h : ∀ s ∈ l, P s) (hmerge : ∀ s t : State σ, P s → P t → s.cursor = t.cursor →
      s.stack = t.stack → P (s.merge t)) : ∀ s ∈ merged mode l, P s := by
  cases mode with
  | packed => exact forall_mem_mergeAll h hmerge
  | unpacked => exact h

theorem mem_byRank {l : List (State σ)} {s : State σ} : s ∈ byRank l ↔ s ∈ l :=
  (List.mergeSort_perm l _).mem_iff

theorem mem_merged_of_mem_advance {w : Window σ} {mode : Packing} {width : Nat} {r : Run σ}
    {s : State σ} (h : s ∈ (advance w mode width r).beam) :
    s ∈ merged mode (candidates w r.beam) := by
  rw [beam_advance] at h
  exact mem_byRank.mp (List.mem_of_mem_take h)

/-! ## Legal states -/

/-- All paths of the state are legal, have `k` allowed actions and lead to its stack and cursor, and
the state counts them. -/
structure Reached (w : Window σ) (k : Nat) (s : State σ) : Prop where
  leads : ∀ as ∈ s.paths, w.Leads as s.stack s.cursor
  length : ∀ as ∈ s.paths, as.length = k
  allowed : ∀ as ∈ s.paths, ∀ a ∈ as, w.accept a = true
  parses : s.parses = min Count.cap s.paths.length
  histories : s.histories = [] → k = 0

variable {w : Window σ} {k : Nat}

theorem reached_initial (w : Window σ) : Reached w 0 (State.initial w.span.start) where
  leads := by
    intro as has
    rw [State.paths_initial, List.mem_singleton] at has
    rw [has]
    exact .start
  length := by
    intro as has
    rw [State.paths_initial, List.mem_singleton] at has
    rw [has]
    rfl
  allowed := by
    intro as has a ha
    rw [State.paths_initial, List.mem_singleton] at has
    rw [has] at ha
    cases ha
  parses := by
    rw [State.paths_initial]
    exact (by decide : 1 = min Count.cap 1)
  histories := fun _ => rfl

theorem Reached.apply {s : State σ} {m : Move} (h : Reached w k s) (hm : m ∈ w.moves s)
    (hacc : w.accept m.action = true) : Reached w (k + 1) (w.apply s m) where
  leads := by
    intro as has
    rw [Window.paths_apply, List.mem_map] at has
    obtain ⟨as, has, rfl⟩ := has
    exact .move (h.leads as has) hm
  length := by
    intro as has
    rw [Window.paths_apply, List.mem_map] at has
    obtain ⟨as, has, rfl⟩ := has
    rw [List.length_cons, h.length as has]
  allowed := by
    intro as has
    rw [Window.paths_apply, List.mem_map] at has
    obtain ⟨as, has, rfl⟩ := has
    exact List.forall_mem_cons.mpr ⟨hacc, h.allowed as has⟩
  parses := by
    rw [Window.paths_apply, List.length_map]
    exact h.parses
  histories := by simp [Window.apply]

theorem Reached.merge {s t : State σ} (hs : Reached w (k + 1) s) (ht : Reached w (k + 1) t)
    (hcursor : s.cursor = t.cursor) (hstack : s.stack = t.stack) :
    Reached w (k + 1) (s.merge t) := by
  have hsne : s.histories ≠ [] := fun h => absurd (hs.histories h) (Nat.succ_ne_zero k)
  have htne : t.histories ≠ [] := fun h => absurd (ht.histories h) (Nat.succ_ne_zero k)
  have hperm := State.paths_merge hsne htne
  have hmem : ∀ as ∈ (s.merge t).paths, as ∈ s.paths ∨ as ∈ t.paths := fun as has =>
    List.mem_append.mp (hperm.mem_iff.mp has)
  refine ⟨fun as has => ?_, fun as has => ?_, fun as has => ?_, ?_, fun h => ?_⟩
  · rcases hmem as has with has | has
    · exact hs.leads as has
    · change w.Leads as s.stack s.cursor
      rw [hstack, hcursor]
      exact ht.leads as has
  · exact (hmem as has).elim (hs.length as) (ht.length as)
  · exact (hmem as has).elim (hs.allowed as) (ht.allowed as)
  · change Count.add s.parses t.parses = _
    rw [hs.parses, ht.parses, Count.add_cap, hperm.length_eq, List.length_append]
  · exact absurd h (State.histories_merge_ne_nil hsne t)

omit [Score σ] in
theorem Reached.leads_actionsRev {s : State σ} (h : Reached w k s) :
    w.Leads s.actionsRev s.stack s.cursor :=
  h.leads _ s.actionsRev_mem_paths

theorem Reached.of_mem_merged {mode : Packing} {beam : List (State σ)}
    (h : ∀ s ∈ beam, Reached w k s) :
    ∀ s ∈ merged mode (candidates w beam), Reached w (k + 1) s := by
  refine forall_mem_merged (fun s' hs' => ?_) fun s t hs ht hcursor hstack =>
    hs.merge ht hcursor hstack
  obtain ⟨s, hs, m, hm, hacc, rfl⟩ := mem_candidates.mp hs'
  exact (h s hs).apply hm hacc

/-! ## Runs -/

/-- What a step of a search keeps, the whole search keeps. -/
theorem runFor_induct {motive : Run σ → Prop} {w : Window σ} {mode : Packing} {width : Nat}
    (hstep : ∀ r, motive r → motive (advance w mode width r)) (fuel : Nat) (r : Run σ)
    (h : motive r) : motive (runFor w mode width fuel r) := by
  induction fuel generalizing r with
  | zero => exact h
  | succ fuel ih =>
    rw [runFor]
    split_ifs
    · exact h
    · exact ih _ (hstep r h)

/-- The states of a run are legal. -/
structure LegalRun (w : Window σ) (r : Run σ) : Prop where
  beam : ∀ s ∈ r.beam, Reached w r.earlier.length s
  earlier : ∀ b ∈ r.earlier, ∀ s ∈ b, ∃ k, Reached w k s
  completed : ∀ s ∈ r.completed, (∃ k, Reached w k s) ∧ w.isComplete s = true

theorem LegalRun.advance {mode : Packing} {width : Nat} {r : Run σ} (h : LegalRun w r) :
    LegalRun w (advance w mode width r) := by
  have hbeam : ∀ s ∈ (Beam.advance w mode width r).beam, Reached w (r.earlier.length + 1) s :=
    fun s hs => Reached.of_mem_merged h.beam s (mem_merged_of_mem_advance hs)
  refine ⟨hbeam, fun b hb s hs => ?_, fun s hs => ?_⟩
  · rw [earlier_advance] at hb
    rcases List.mem_cons.mp hb with rfl | hb
    · exact ⟨_, h.beam s hs⟩
    · exact h.earlier b hb s hs
  · rw [completed_advance, List.mem_append, List.mem_filter] at hs
    rcases hs with hs | ⟨hs, hc⟩
    · exact h.completed s hs
    · exact ⟨⟨_, hbeam s hs⟩, hc⟩

theorem legalRun_runFor (w : Window σ) (mode : Packing) (width fuel : Nat) :
    LegalRun w (runFor w mode width fuel { beam := [State.initial w.span.start] }) := by
  refine runFor_induct (fun r h => h.advance) fuel _ ⟨fun s hs => ?_, by simp, by simp⟩
  rw [List.mem_singleton.mp hs]
  exact reached_initial w

/-- **Every state in the beams of a search is legal.** -/
theorem reached_of_mem_beams {t : Task σ} {window : Span} {mode : Packing} {width : Nat}
    {b : List (State σ)} {s : State σ} (hb : b ∈ (parse t window mode width).beams) (hs : s ∈ b) :
    ∃ k, Reached (.ofTask t (clip t.sentence.length window)) k s := by
  have h := legalRun_runFor (Window.ofTask t (clip t.sentence.length window)) mode (widthOf width)
    (maxSteps (clip t.sentence.length window))
  rw [parse, List.mem_reverse] at hb
  rcases List.mem_cons.mp hb with rfl | hb
  · exact ⟨_, h.beam s hs⟩
  · exact h.earlier b hb s hs

/-- The completed states of a search are legal and complete. -/
theorem reached_of_mem_completed {t : Task σ} {window : Span} {mode : Packing} {width : Nat}
    {s : State σ} (hs : s ∈ (parse t window mode width).completed) :
    (∃ k, Reached (.ofTask t (clip t.sentence.length window)) k s) ∧
      (Window.ofTask t (clip t.sentence.length window)).isComplete s = true :=
  (legalRun_runFor (Window.ofTask t (clip t.sentence.length window)) mode (widthOf width)
    (maxSteps (clip t.sentence.length window))).completed s (mem_byRank.mp hs)

end Beam

end Categorial
