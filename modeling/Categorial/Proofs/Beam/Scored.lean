import Categorial.Proofs.Beam.Paths
import Categorial.Proofs.Beam.Readings
import Categorial.Proofs.Licensed

/-!
# The scores of states

A state has the standing of the best of its paths, the histories being kept with the best one first.
Moves and merging keep this up.

* `History.standing`: what histories are ranked by.
* `State.Ranked.merge`: a merged state has the better of the two standings.
* `State.Scored`: the best standing of the paths.
* `State.scored_of_mem_merged`: the states of a step.
* **`State.scored_of_mem_completed`**: the completed states of a search.
-/

namespace Categorial

variable {σ : Type} [AddCommMonoid σ] [LinearOrder σ]

/-- What a history is ranked by. -/
def History.standing (h : History σ (State σ)) : Standing σ :=
  ⟨h.score, h.action.rule, h.action.category⟩

namespace State

/-! ## Histories -/

omit [AddCommMonoid σ] [LinearOrder σ] in
theorem score_standing (s : State σ) : s.standing.score = s.score := by
  unfold standing
  split <;> rfl

/-- The first history of a list is the best one. -/
def BestFirst (l : List (History σ (State σ))) : Prop :=
  ∀ h, l.head? = some h → ∀ k ∈ l, h.standing ≤ k.standing

theorem BestFirst.insertHistory {h : History σ (State σ)} {l : List (History σ (State σ))}
    (hl : BestFirst l) (hc : ∀ k ∈ l, k.action.category = h.action.category) :
    BestFirst (insertHistory h l) := by
  cases l with
  | nil =>
    intro x hx k hk
    rw [State.insertHistory, List.head?_cons, Option.some_inj] at hx
    rw [State.insertHistory, List.mem_singleton] at hk
    rw [hk, hx]
  | cons y rest =>
    have hy : ∀ k ∈ y :: rest, y.standing ≤ k.standing := hl y rfl
    have hcmp : historyOrder h y = h.standing.cmp y.standing := by
      rw [Standing.cmp_of_category_eq (hc y List.mem_cons_self).symm]
      rfl
    rw [State.insertHistory, hcmp]
    split_ifs with hlt
    · have hle : h.standing ≤ y.standing := Standing.le_of_isLT hlt
      intro x hx
      obtain rfl := Option.some_inj.mp hx
      exact List.forall_mem_cons.mpr ⟨le_rfl, fun k hk => hle.trans (hy k hk)⟩
    · have hle : y.standing ≤ h.standing := Standing.le_of_not_isLT hlt
      intro x hx
      obtain rfl := Option.some_inj.mp hx
      refine List.forall_mem_cons.mpr ⟨le_rfl, fun k hk => ?_⟩
      rcases List.mem_cons.mp ((perm_insertHistory h rest).mem_iff.mp hk) with rfl | hk
      · exact hle
      · exact hy k (List.mem_cons_of_mem y hk)

/-- The histories of a state end with its category, and the best one comes first and gives the state
its score. -/
structure Ranked (s : State σ) : Prop where
  ne_nil : s.histories ≠ []
  category : ∀ h ∈ s.histories, s.category? = some h.action.category
  score : ∀ h, s.histories.head? = some h → h.score = s.score
  best : BestFirst s.histories

namespace Ranked

variable {s t : State σ}

theorem exists_head (h : Ranked s) : ∃ k rest, s.histories = k :: rest ∧ s.standing = k.standing := by
  obtain ⟨k, rest, hk⟩ := List.exists_cons_of_ne_nil h.ne_nil
  refine ⟨k, rest, hk, ?_⟩
  have hscore := h.score k (by rw [hk]; rfl)
  simp only [standing, hk, History.standing, hscore]

theorem standing_le (h : Ranked s) : ∀ k ∈ s.histories, s.standing ≤ k.standing := by
  obtain ⟨k, rest, hk, he⟩ := h.exists_head
  rw [he]
  exact h.best k (by rw [hk]; rfl)

/-- Merging inserts the histories of one state into those of the other. -/
theorem bestFirst_merge (hs : Ranked s) (ht : Ranked t) (hstack : s.stack = t.stack) :
    BestFirst (s.merge t).histories := by
  have hcat : s.category? = t.category? := by rw [category?, category?, top?, top?, hstack]
  have hrun : ∀ (l hist : List (History σ (State σ))), BestFirst hist →
      (∀ k ∈ hist, s.category? = some k.action.category) →
      (∀ k ∈ l, s.category? = some k.action.category) →
      BestFirst (l.foldl (fun hs h => State.insertHistory h hs) hist) := by
    intro l
    induction l with
    | nil => exact fun _ h _ _ => h
    | cons x l ih =>
      intro hist hbest hhist hl
      obtain ⟨hx, hl⟩ := List.forall_mem_cons.mp hl
      refine ih _ (hbest.insertHistory fun k hk => ?_) (fun k hk => ?_) hl
      · exact Option.some_inj.mp ((hhist k hk).symm.trans hx)
      · rcases List.mem_cons.mp ((perm_insertHistory x hist).mem_iff.mp hk) with rfl | hk
        · exact hx
        · exact hhist k hk
  exact hrun _ _ hs.best hs.category fun k hk => hcat.trans (ht.category k hk)

/-- A merged state has the better of the two standings. -/
theorem merge (hs : Ranked s) (ht : Ranked t) (hstack : s.stack = t.stack) :
    Ranked (s.merge t) ∧
      ((s.merge t).standing = s.standing ∨ (s.merge t).standing = t.standing) ∧
      (s.merge t).standing ≤ s.standing ∧ (s.merge t).standing ≤ t.standing := by
  have hcat : s.category? = t.category? := by rw [category?, category?, top?, top?, hstack]
  have hmem : ∀ k, k ∈ (s.merge t).histories ↔ k ∈ s.histories ∨ k ∈ t.histories := fun k =>
    (perm_histories_merge s t).mem_iff.trans List.mem_append
  obtain ⟨x, restx, hx, hsx⟩ := hs.exists_head
  obtain ⟨y, resty, hy, hty⟩ := ht.exists_head
  have hne : (s.merge t).histories ≠ [] := histories_merge_ne_nil hs.ne_nil t
  obtain ⟨z, restz, hz⟩ := List.exists_cons_of_ne_nil hne
  have hbest := hs.bestFirst_merge ht hstack z (by rw [hz]; rfl)
  have hzx : z.standing ≤ s.standing := hsx ▸ hbest x ((hmem x).mpr (Or.inl (by simp [hx])))
  have hzy : z.standing ≤ t.standing := hty ▸ hbest y ((hmem y).mpr (Or.inr (by simp [hy])))
  -- the first history comes from one of the states, and there it was the best one
  have heq : z.standing = s.standing ∨ z.standing = t.standing := by
    refine ((hmem z).mp (by simp [hz])).imp (fun h => ?_) fun h => ?_
    · exact le_antisymm hzx (hs.standing_le z h)
    · exact le_antisymm hzy (ht.standing_le z h)
  have hscore : z.score = max s.score t.score := by
    have h₁ : s.score ≤ z.score := s.score_standing ▸ Standing.score_le hzx
    have h₂ : t.score ≤ z.score := t.score_standing ▸ Standing.score_le hzy
    refine le_antisymm ?_ (max_le h₁ h₂)
    rcases heq with h | h
    · exact ((congrArg Standing.score h).trans s.score_standing).le.trans (le_max_left _ _)
    · exact ((congrArg Standing.score h).trans t.score_standing).le.trans (le_max_right _ _)
  have hranked : Ranked (s.merge t) := by
    refine ⟨hne, fun k hk => ?_, fun k hk => ?_, hs.bestFirst_merge ht hstack⟩
    · exact ((hmem k).mp hk).elim (hs.category k) fun hk => hcat.trans (ht.category k hk)
    · rw [hz, List.head?_cons, Option.some_inj] at hk
      rw [← hk]
      exact hscore
  obtain ⟨z', restz', hz', hst⟩ := hranked.exists_head
  obtain rfl : z' = z := (List.cons.inj (hz'.symm.trans hz)).1
  rw [hst]
  exact ⟨hranked, heq, hzx, hzy⟩

end Ranked

/-! ## Paths -/

/-- The state has the best standing of its paths. -/
structure Scored (score : Action → σ) (s : State σ) : Prop where
  attained : ∃ as ∈ s.paths, pathStanding score as = s.standing
  least : ∀ as ∈ s.paths, s.standing ≤ pathStanding score as

theorem scored_initial (score : Action → σ) (cursor : Nat) :
    Scored score (initial cursor : State σ) := by
  refine ⟨?_, ?_⟩ <;> rw [paths_initial]
  · exact ⟨[], List.mem_singleton_self _, rfl⟩
  · intro as has
    rw [List.mem_singleton.mp has]
    exact le_rfl

variable {score : Action → σ} {s t : State σ}

theorem Scored.merge (hs : Scored score s) (ht : Scored score t) (hsr : Ranked s) (htr : Ranked t)
    (hstack : s.stack = t.stack) : Scored score (s.merge t) := by
  have hperm := paths_merge hsr.ne_nil htr.ne_nil
  obtain ⟨-, heq, hle, hle'⟩ := hsr.merge htr hstack
  refine ⟨?_, fun as has => ?_⟩
  · rcases heq with h | h <;> rw [h]
    · obtain ⟨as, has, he⟩ := hs.attained
      exact ⟨as, hperm.mem_iff.mpr (List.mem_append_left _ has), he⟩
    · obtain ⟨as, has, he⟩ := ht.attained
      exact ⟨as, hperm.mem_iff.mpr (List.mem_append_right _ has), he⟩
  · rcases List.mem_append.mp (hperm.mem_iff.mp has) with has | has
    · exact hle.trans (hs.least as has)
    · exact hle'.trans (ht.least as has)

theorem ranked_apply (w : Window σ) (s : State σ) (m : Move) : Ranked (w.apply s m) where
  ne_nil := by simp [Window.apply]
  category h hh := by
    rw [Window.apply, List.mem_singleton] at hh
    rw [hh]
    rfl
  score h hh := by
    rw [Window.apply, List.head?_cons, Option.some_inj] at hh
    rw [← hh]
    rfl
  best h hh k hk := by
    rw [Window.apply, List.head?_cons, Option.some_inj] at hh
    rw [Window.apply, List.mem_singleton] at hk
    rw [hk, hh]

theorem Scored.apply [IsOrderedAddMonoid σ] {w : Window σ} (h : Scored w.score s) (m : Move) :
    Scored w.score (w.apply s m) := by
  have hstanding : (w.apply s m).standing =
      ⟨s.score + w.score m.action, m.action.rule, m.action.category⟩ := rfl
  have hpath : ∀ as, pathStanding w.score (m.action :: as) =
      ⟨(pathStanding w.score as).score + w.score m.action, m.action.rule, m.action.category⟩ := by
    intro as
    rw [score_pathStanding, pathStanding, List.map_cons, List.sum_cons, add_comm]
  refine ⟨?_, fun as has => ?_⟩
  · obtain ⟨as, has, he⟩ := h.attained
    refine ⟨m.action :: as, ?_, ?_⟩
    · rw [Window.paths_apply]
      exact List.mem_map_of_mem has
    · rw [hstanding, hpath, he, score_standing]
  · rw [Window.paths_apply, List.mem_map] at has
    obtain ⟨as, has, rfl⟩ := has
    have hscore := Standing.score_le (h.least as has)
    rw [score_standing] at hscore
    rw [hstanding, hpath, Standing.mk_le_mk]
    exact add_le_add_left hscore _

/-- The states of a step are scored if those before it are. -/
theorem scored_of_mem_merged [IsOrderedAddMonoid σ] {w : Window σ} {mode : Packing}
    {beam : List (State σ)} (h : ∀ s ∈ beam, Scored w.score s) :
    ∀ s ∈ Beam.merged mode (Beam.candidates w beam), Scored w.score s ∧ Ranked s := by
  refine Beam.forall_mem_merged (fun s' hs' => ?_) fun s t hs ht _ hstack => ?_
  · obtain ⟨s, hs, m, -, -, rfl⟩ := Beam.mem_candidates.mp hs'
    exact ⟨(h s hs).apply m, ranked_apply w s m⟩
  · exact ⟨hs.1.merge ht.1 hs.2 ht.2 hstack, (hs.2.merge ht.2 hstack).1⟩

/-- **The completed states of a search are scored.** -/
theorem scored_of_mem_completed [IsOrderedAddMonoid σ] {t : Task σ} {window : Span} {mode : Packing}
    {width : Nat} {s : State σ} (hs : s ∈ (Beam.parse t window mode width).completed) :
    Scored t.score s ∧ Ranked s := by
  set w := Window.ofTask t (Beam.clip t.sentence.length window)
  set n := Beam.widthOf width
  have hstep : ∀ r : Beam.Run σ, (∀ s ∈ r.beam, Scored t.score s) →
      ∀ s ∈ (Beam.advance w mode n r).beam, Scored t.score s ∧ Ranked s := fun r hr s hs =>
    scored_of_mem_merged hr s (Beam.mem_merged_of_mem_advance hs)
  refine (Beam.runFor_induct (motive := fun r => (∀ s ∈ r.beam, Scored t.score s) ∧
    ∀ s ∈ r.completed, Scored t.score s ∧ Ranked s)
    (fun r hr => ⟨fun s hs => (hstep r hr.1 s hs).1, fun s hs => ?_⟩) _ _
    ⟨fun s hs => ?_, by simp⟩).2 s (Beam.mem_byRank.mp hs)
  · rw [Beam.completed_advance, List.mem_append, List.mem_filter] at hs
    exact hs.elim (hr.2 s) fun hs => hstep r hr.1 s hs.1
  · rw [List.mem_singleton.mp hs]
    exact scored_initial _ _

end State

end Categorial
