import Categorial.Beam.Violation
import Categorial.Proofs.Beam.Paths

/-!
# Following a gold sequence

A gold sequence that is legal in a window can be followed in an unpacked search of that window until
it falls out of the beam, or to its end. The search never fails, and where the gold falls out it is
compared with a sequence of the same length.

* `Window.Admits`: the gold is legal, and complete if it is said to be.
* `Beam.Tracks`: the marked states of a beam are where the gold leads.
* **`Beam.fair_findViolation`**: the search for a violation of a legal gold sequence.
-/

namespace Categorial

variable {σ : Type}

namespace Window

variable {w : Window σ} {as : List Action}

/-- The sequence of actions is legal, and if it is said to be complete it finishes a derivation. -/
def Admits (w : Window σ) (gold : List Action) (complete : Bool) : Prop :=
  ∃ s : State σ, w.Leads gold.reverse s.stack s.cursor ∧
    (complete = true → w.isComplete s = true)

end Window

namespace Beam

variable [Score σ]

/-! ## Fair comparisons -/

/-- A violation was looked for without failure; if the gold fell out of the beam, the sequences
compared are equally long. -/
def Fair (r : Except TrainError (Option Violation)) : Prop :=
  ∃ v, r = .ok v ∧ ∀ x, v = some x → x.pruned = true → x.gold.length = x.predicted.length

theorem fair_ok_none : Fair (.ok none) := ⟨none, rfl, by simp⟩

theorem fair_ok_some {x : Violation} (h : x.gold.length = x.predicted.length) :
    Fair (.ok (some x)) := by
  refine ⟨some x, rfl, fun y hy _ => ?_⟩
  rw [← Option.some_inj.mp hy]
  exact h

theorem fair_finalViolation (gold : List Action) {completed : List (State σ)}
    (h : completed ≠ []) : Fair (finalViolation gold completed) := by
  unfold finalViolation
  split
  · next he =>
    have hlen := (List.mergeSort_perm completed fun s t => (s.rank t).isLE).length_eq
    rw [byRank] at he
    rw [he] at hlen
    exact absurd (List.length_eq_zero_iff.mp hlen.symm) h
  · dsimp only
    split_ifs
    · exact fair_ok_none
    · refine ⟨_, rfl, fun x hx hp => ?_⟩
      rw [← Option.some_inj.mp hx] at hp
      cases hp

/-! ## Marked beams -/

omit [Score σ] in
/-- A window inside the sentence never asks for tokens behind its end. -/
theorem overrun?_eq_none {w : Window σ} (h : w.span.stop ≤ w.sentence.length) (s : State σ) :
    overrun? w s = none := by
  unfold overrun? Window.maxShift
  simp only [Bool.and_eq_true, decide_eq_true_eq, ite_eq_right_iff, reduceCtorEq, imp_false,
    not_and, not_lt]
  omega

omit [Score σ] in
theorem findSome?_overrun? {w : Window σ} (h : w.span.stop ≤ w.sentence.length)
    (beam : List (Marked σ)) : (beam.findSome? fun m => overrun? w m.state) = none :=
  List.findSome?_eq_none_iff.mpr fun m _ => overrun?_eq_none h m.state

/-- The marked states are where `k` actions of the gold lead, and all states have taken `k`
actions. -/
structure Tracks (w : Window σ) (gold : List Action) (k : Nat) (beam : List (Marked σ)) : Prop where
  leads : ∀ m ∈ beam, m.isGold = true →
    w.Leads (gold.take k).reverse m.state.stack m.state.cursor
  length : ∀ m ∈ beam, m.state.actions.length = k

variable {w : Window σ} {gold : List Action} {k : Nat} {beam : List (Marked σ)}

omit [Score σ] in
theorem Tracks.of_subset {next : List (Marked σ)} (h : Tracks w gold k beam)
    (hsub : ∀ m ∈ next, m ∈ beam) : Tracks w gold k next :=
  ⟨fun m hm => h.leads m (hsub m hm), fun m hm => h.length m (hsub m hm)⟩

theorem mem_markedMoves {a : Action} {m m' : Marked σ} :
    m' ∈ markedMoves w (some a) m ↔ ∃ mv ∈ w.moves m.state,
      m' = ⟨w.apply m.state mv, m.isGold && a.same mv.action⟩ := by
  simp only [markedMoves, List.mem_map, Option.any_some, eq_comm]

theorem actions_apply (w : Window σ) (s : State σ) (m : Move) :
    (w.apply s m).actions = s.actions ++ [m.action] := by
  simp [State.actions, Window.apply, State.actionsRev]

omit [Score σ] in
/-- The move that the gold makes next. -/
theorem exists_goldMove {a : Action} {rest : List Action} {s : State σ}
    (hlegal : w.Leads gold.reverse s.stack s.cursor) (hrest : gold.drop k = a :: rest) :
    ∃ s' : State σ, ∃ mv ∈ w.moves s', mv.action = a ∧
      w.Leads (gold.take k).reverse s'.stack s'.cursor := by
  have hsplit : gold.reverse = rest.reverse ++ (a :: (gold.take k).reverse) := by
    conv_lhs => rw [← List.take_append_drop k gold, hrest]
    simp
  rw [hsplit] at hlegal
  obtain ⟨s₁, h₁⟩ := Window.Leads.of_append hlegal
  obtain ⟨s', mv, hmv, hs', ha, -⟩ := Window.Leads.tail h₁
  exact ⟨s', mv, hmv, ha, hs'⟩

theorem take_succ_of_drop {a : Action} {rest : List Action} (hrest : gold.drop k = a :: rest) :
    gold.take (k + 1) = gold.take k ++ [a] := by
  rw [List.take_add_one, ← List.head?_drop, hrest]
  rfl

theorem reverse_take_succ {a : Action} {rest : List Action} (hrest : gold.drop k = a :: rest) :
    (gold.take (k + 1)).reverse = a :: (gold.take k).reverse := by
  rw [take_succ_of_drop hrest, List.reverse_concat]

/-- One step keeps track of the gold. -/
theorem Tracks.step {a : Action} {rest : List Action} {s : State σ}
    (h : Tracks w gold k beam) (hlegal : w.Leads gold.reverse s.stack s.cursor)
    (hrest : gold.drop k = a :: rest) :
    Tracks w gold (k + 1) (beam.flatMap (markedMoves w (some a))) := by
  obtain ⟨s₀, mv₀, hmv₀, ha, hs₀⟩ := exists_goldMove hlegal hrest
  refine ⟨fun m' hm' hgold => ?_, fun m' hm' => ?_⟩
  · obtain ⟨m, hm, hm'⟩ := List.mem_flatMap.mp hm'
    obtain ⟨mv, hmv, rfl⟩ := mem_markedMoves.mp hm'
    rw [Bool.and_eq_true] at hgold
    have hs := h.leads m hm hgold.1
    obtain ⟨hstack, hcursor⟩ := hs.unique hs₀
    rw [Window.moves_congr hstack hcursor] at hmv
    have he : mv₀ = mv := Window.eq_of_same_of_mem_moves hmv₀ hmv (ha ▸ hgold.2)
    rw [reverse_take_succ hrest, ← ha, he]
    exact .move hs (Window.moves_congr hstack hcursor ▸ hmv)
  · obtain ⟨m, hm, hm'⟩ := List.mem_flatMap.mp hm'
    obtain ⟨mv, -, rfl⟩ := mem_markedMoves.mp hm'
    rw [actions_apply, List.length_append, h.length m hm]
    rfl

/-- The gold is still there after one step, before the beam is cut. -/
theorem any_isGold_step {a : Action} {rest : List Action} {s : State σ}
    (h : Tracks w gold k beam) (hgold : beam.any Marked.isGold = true)
    (hlegal : w.Leads gold.reverse s.stack s.cursor) (hrest : gold.drop k = a :: rest) :
    (beam.flatMap (markedMoves w (some a))).any Marked.isGold = true := by
  obtain ⟨s₀, mv₀, hmv₀, ha, hs₀⟩ := exists_goldMove hlegal hrest
  obtain ⟨m, hm, hmg⟩ := List.any_eq_true.mp hgold
  obtain ⟨hstack, hcursor⟩ := (h.leads m hm hmg).unique hs₀
  rw [← Window.moves_congr hstack hcursor] at hmv₀
  refine List.any_eq_true.mpr ⟨_, List.mem_flatMap.mpr
    ⟨m, hm, mem_markedMoves.mpr ⟨mv₀, hmv₀, rfl⟩⟩, ?_⟩
  rw [hmg, ha, Action.same_self]
  rfl

/-! ## The search for a violation -/

variable {width : Nat} {complete : Bool}

/-- Once the gold is completed, nothing can fail. -/
theorem fair_followGold_nil (hw : w.span.stop ≤ w.sentence.length) (fuel step : Nat)
    (beam : List (Marked σ)) {completed : List (State σ)} (h : completed ≠ []) :
    Fair (followGold w width gold complete fuel step [] beam completed) := by
  induction fuel generalizing step beam completed with
  | zero => exact fair_finalViolation gold h
  | succ fuel ih =>
    rw [followGold]
    split_ifs
    · exact fair_finalViolation gold h
    · rw [findSome?_overrun? hw]
      exact ih _ _ (by simp [h])

/-- The search follows the gold to its end, or to where it falls out of the beam. -/
theorem fair_followGold (hw : w.span.stop ≤ w.sentence.length) (hwidth : 1 ≤ width) {s : State σ}
    (hlegal : w.Leads gold.reverse s.stack s.cursor)
    (hcomplete : complete = true → w.isComplete s = true) (fuel : Nat) {beam : List (Marked σ)}
    {completed : List (State σ)} (htracks : Tracks w gold k beam)
    (hgold : beam.any Marked.isGold = true) (hk : k < gold.length)
    (hfuel : gold.length ≤ k + fuel) :
    Fair (followGold w width gold complete fuel k (gold.drop k) beam completed) := by
  induction fuel generalizing k beam completed with
  | zero => omega
  | succ fuel ih =>
    obtain ⟨a, rest, hrest⟩ := List.exists_cons_of_ne_nil
      (List.ne_nil_of_length_pos (by rw [List.length_drop]; omega : 0 < (gold.drop k).length))
    have hdrop : gold.drop (k + 1) = rest := by
      rw [← List.drop_drop, hrest]
      rfl
    have hstep : Tracks w gold (k + 1) (beam.flatMap (markedMoves w (a :: rest).head?)) :=
      htracks.step hlegal hrest
    have hany : (beam.flatMap (markedMoves w (a :: rest).head?)).any Marked.isGold = true :=
      any_isGold_step htracks hgold hlegal hrest
    have hne : ¬ beam.isEmpty = true := by
      intro he
      rw [List.isEmpty_iff.mp he] at hgold
      cases hgold
    rw [followGold, if_neg hne, findSome?_overrun? hw, hrest]
    dsimp only
    rw [hany, Bool.not_true, if_neg Bool.false_ne_true]
    set candidates := beam.flatMap (markedMoves w (a :: rest).head?)
    set sorted := candidates.mergeSort fun s t => (s.rank t).isLE with hsorted
    have hperm : sorted.Perm candidates := List.mergeSort_perm _ _
    have hnext : Tracks w gold (k + 1) (sorted.take width) :=
      hstep.of_subset fun m hm => hperm.mem_iff.mp (List.mem_of_mem_take hm)
    split
    · next he =>
      -- a beam of positive width is empty only if there are no candidates
      obtain ⟨m, hm, -⟩ := List.any_eq_true.mp hany
      have hpos := List.length_pos_of_mem (hperm.mem_iff.mpr hm)
      have hzero := congrArg List.length he
      rw [List.length_take, List.length_nil] at hzero
      omega
    · next first others he =>
      have hfirst : first.state.actions.length = k + 1 :=
        hnext.length first (by rw [he]; exact List.mem_cons_self)
      split_ifs with hlost hend hwin
      · refine fair_ok_some ?_
        rw [hfirst, List.length_take]
        omega
      · exact fair_ok_none
      · refine fair_ok_some ?_
        have hlen := congrArg List.length hdrop
        rw [Bool.and_eq_true, List.isEmpty_iff] at hend
        rw [List.length_drop, hend.1, List.length_nil] at hlen
        change gold.length = first.state.actions.length
        omega
      · have hkept : (sorted.take width).any Marked.isGold = true := by simpa using hlost
        by_cases hlast : k + 1 < gold.length
        · rw [← hdrop]
          exact ih hnext hkept hlast (by omega)
        · -- the gold is at its end, and the marked state is complete
          have hnil : rest = [] := by
            rw [← hdrop]
            exact List.drop_eq_nil_of_le (by omega)
          have hcompl : complete = true := by simpa [hnil] using hend
          obtain ⟨m, hm, hmg⟩ := List.any_eq_true.mp hkept
          have hm' := hnext.leads m hm hmg
          rw [List.take_of_length_le (by omega)] at hm'
          obtain ⟨hstack, hcursor⟩ := hlegal.unique hm'
          have hdone := hcomplete hcompl
          rw [Window.isComplete_congr hstack hcursor] at hdone
          rw [hnil]
          refine fair_followGold_nil hw _ _ _ ?_
          refine List.append_ne_nil_of_right_ne_nil _ (List.ne_nil_of_mem (a := m.state) ?_)
          exact List.mem_filter.mpr ⟨List.mem_map_of_mem hm, hdone⟩

/-- **A legal gold sequence is followed without failure.** -/
theorem fair_findViolation (t : Task σ) {window : Span} (width : Nat) {gold : List Action}
    {complete : Bool} (hw : window.start ≤ window.stop) (hstop : window.stop ≤ t.sentence.length)
    (h : (Window.ofTask { t with accept := fun _ => true } window).Admits gold complete) :
    Fair (findViolation t window width gold complete) := by
  obtain ⟨s, hlegal, hcomplete⟩ := h
  unfold findViolation
  split_ifs with hempty
  · exact fair_ok_none
  · have hinside : (gold.find? fun a => !window.contains a.span) = none := by
      refine List.find?_eq_none.mpr fun a ha => ?_
      have hcontains : window.contains a.span = true :=
        hlegal.inside.2.2 a (List.mem_reverse.mpr ha)
      simp [hcontains]
    have hlen : gold.length < maxSteps window := by
      have := hlegal.length_lt_maxSteps hw
      rwa [List.length_reverse] at this
    have hpos : 0 < gold.length := by
      rw [List.length_pos_iff]
      simpa using hempty
    rw [hinside]
    refine fair_followGold (k := 0) hstop (Nat.le_max_right width 1) hlegal hcomplete _ ?_ rfl hpos
      (by omega)
    refine ⟨fun m hm _ => ?_, fun m hm => ?_⟩
    · rw [List.mem_singleton.mp hm]
      exact .start
    · rw [List.mem_singleton.mp hm]
      rfl

end Beam

end Categorial
