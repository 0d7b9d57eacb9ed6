import Categorial.Proofs.Beam.Moves

/-!
# Legal sequences of actions

A sequence of legal moves from the start of a window determines the stack and the cursor it leads to.
Its actions stay inside the window, and it is shorter than the number of steps a search may take.

* `Action.bare`, `sameActions_iff`: what the same actions have in common.
* `Window.Leads`: what a sequence of legal moves leads to.
* `Window.Leads.unique`: the actions determine stack and cursor.
* `Window.Leads.eq_of_bare`: legal sequences of the same actions look up the same entries.
* `Window.Leads.inside`, **`Window.Leads.length_lt_maxSteps`**.
-/

namespace Categorial

/-- The action without its entry. -/
def Action.bare (a : Action) : Action := { a with entry := none }

theorem Action.same_iff_bare {a b : Action} : a.same b = true ↔ a.bare = b.bare := by
  rw [same_iff, bare, bare, Action.mk.injEq]
  tauto

theorem sameActions_iff {as bs : List Action} :
    sameActions as bs = true ↔ as.map Action.bare = bs.map Action.bare := by
  induction as generalizing bs with
  | nil => cases bs <;> simp [sameActions]
  | cons a as ih =>
    cases bs with
    | nil => simp [sameActions]
    | cons b bs =>
      rw [sameActions, Bool.and_eq_true, ih, Action.same_iff_bare, List.map_cons, List.map_cons,
        List.cons.injEq]

/-- The state with another score, and without the ways in which it was reached. -/
def State.rescored {σ τ : Type} (s : State σ) (score : τ) : State τ :=
  { s with score, histories := [] }

namespace Window

variable {σ : Type}

/-- The item that an action puts on the stack. -/
def itemOf (w : Window σ) (a : Action) : Item := ⟨a.category, a.span, w.madeByUnary a⟩

/-- Legal moves with the given actions, last one first, lead to the stack and the cursor. -/
inductive Leads (w : Window σ) : List Action → List Item → Nat → Prop
  | start : Leads w [] [] w.span.start
  | move {as : List Action} {s : State σ} {m : Move} : Leads w as s.stack s.cursor →
      m ∈ w.moves s → Leads w (m.action :: as) (w.itemOf m.action :: m.below) m.cursor

variable {w w' : Window σ} {as : List Action} {stack stack' : List Item} {cursor cursor' : Nat}

/-- Windows with the same moves have the same legal sequences, whatever their scores are. -/
theorem Leads.transfer {τ : Type} {w' : Window τ}
    (hmoves : ∀ (s : State σ) (s' : State τ), s.stack = s'.stack → s.cursor = s'.cursor →
      w.moves s = w'.moves s')
    (hmade : ∀ a, w.madeByUnary a = w'.madeByUnary a) (hspan : w.span = w'.span)
    (h : Leads w as stack cursor) : Leads w' as stack cursor := by
  induction h with
  | start => exact hspan ▸ .start
  | @move as s m _ hm ih =>
    have hitem : w.itemOf m.action = w'.itemOf m.action := by simp only [itemOf, hmade]
    have hm' : m ∈ w'.moves (s.rescored (w'.score default)) :=
      hmoves s (s.rescored (w'.score default)) rfl rfl ▸ hm
    rw [hitem]
    exact .move ih hm'

/-- The actions determine the stack and the cursor. -/
theorem Leads.unique (h : Leads w as stack cursor) (h' : Leads w as stack' cursor') :
    stack = stack' ∧ cursor = cursor' := by
  induction h generalizing stack' cursor' with
  | start =>
    cases h'
    exact ⟨rfl, rfl⟩
  | @move as s m _ hm ih =>
    generalize hl : m.action :: as = l at h'
    cases h' with
    | start => cases hl
    | @move _ s' m' hs' hm' =>
      obtain ⟨ha, rfl⟩ := List.cons.inj hl
      obtain ⟨hstack, hcursor⟩ := ih hs'
      rw [← moves_congr hstack hcursor] at hm'
      have he : m = m' := eq_of_same_of_mem_moves hm hm' (by rw [ha, Action.same_self])
      rw [he]
      exact ⟨rfl, rfl⟩

/-- Of the moves with one action but for its entry only one is legal, so the entries of a legal sequence
are determined. -/
theorem Leads.eq_of_bare {bs : List Action} (h : Leads w as stack cursor)
    (h' : Leads w bs stack' cursor') (hbare : as.map Action.bare = bs.map Action.bare) : as = bs := by
  induction h generalizing bs stack' cursor' with
  | start => exact (List.map_eq_nil_iff.mp hbare.symm).symm
  | @move as s m hs hm ih =>
    cases h' with
    | start => cases hbare
    | @move bs s' m' hs' hm' =>
      obtain ⟨ha, hbare⟩ := List.cons.inj hbare
      obtain rfl := ih hs' hbare
      obtain ⟨hstack, hcursor⟩ := hs.unique hs'
      rw [← moves_congr hstack hcursor] at hm'
      rw [eq_of_same_of_mem_moves hm hm' (Action.same_iff_bare.mpr ha)]

/-- The beginning of a legal sequence is legal. -/
theorem Leads.tail {a : Action} (h : Leads w (a :: as) stack cursor) :
    ∃ s : State σ, ∃ m ∈ w.moves s, Leads w as s.stack s.cursor ∧ m.action = a ∧
      stack = w.itemOf a :: m.below ∧ cursor = m.cursor := by
  generalize hl : a :: as = l at h
  cases h with
  | start => cases hl
  | @move _ s m hs hm =>
    obtain ⟨rfl, rfl⟩ := List.cons.inj hl
    exact ⟨s, m, hm, hs, rfl, rfl, rfl⟩

theorem Leads.of_append {bs : List Action} {stack : List Item} {cursor : Nat}
    (h : w.Leads (bs ++ as) stack cursor) : ∃ s : State σ, w.Leads as s.stack s.cursor := by
  induction bs generalizing stack cursor with
  | nil =>
    cases h with
    | start => exact ⟨⟨[], 0, w.span.start, w.score default, [], 0, 0, rfl⟩, .start⟩
    | @move _ s m hs hm =>
      exact ⟨⟨_, _, _, w.score default, [], 0, 0, rfl⟩, .move hs hm⟩
  | cons b bs ih =>
    obtain ⟨s, m, -, hs, -⟩ := Leads.tail h
    exact ih hs

theorem isComplete_congr {s s' : State σ} (hstack : s.stack = s'.stack)
    (hcursor : s.cursor = s'.cursor) : w.isComplete s = w.isComplete s' := by
  have hdepth : s.depth = s'.depth := by rw [s.depth_eq, s'.depth_eq, hstack]
  unfold isComplete State.top?
  rw [hstack, hcursor, hdepth]

/-! ## Inside the window -/

theorem contains_iff {s t : Span} : s.contains t = true ↔ s.start ≤ t.start ∧ t.stop ≤ s.stop := by
  simp [Span.contains]

theorem le_stop_of_lt_maxShift {i : Nat} (h : i < w.maxShift cursor) :
    cursor + (i + 1) ≤ w.span.stop := by
  unfold maxShift at h
  omega

/-- What a legal sequence touches lies inside the window. -/
theorem Leads.inside (h : Leads w as stack cursor) :
    w.span.start ≤ cursor ∧ (∀ x ∈ stack, w.span.contains x.span = true) ∧
      ∀ a ∈ as, w.span.contains a.span = true := by
  induction h with
  | start => exact ⟨le_rfl, by simp, by simp⟩
  | @move as s m _ hm ih =>
    obtain ⟨hc, hstack, has⟩ := ih
    have hnew : w.span.start ≤ m.cursor ∧ w.span.contains m.action.span = true ∧
        ∀ x ∈ m.below, x ∈ s.stack := by
      rcases mem_moves.mp hm with ⟨i, e, hi, -, rfl⟩ | hm | hm
      · exact ⟨Nat.le_add_right_of_le hc, contains_iff.mpr ⟨hc, le_stop_of_lt_maxShift hi⟩,
          fun x hx => hx⟩
      · obtain ⟨top, below, id, c, hs, -, -, rfl⟩ := mem_unaryMoves.mp hm
        rw [hs] at hstack ⊢
        exact ⟨hc, hstack top List.mem_cons_self, fun x hx => List.mem_cons_of_mem top hx⟩
      · obtain ⟨top, second, below, id, c, hs, -, rfl⟩ := mem_binaryMoves.mp hm
        rw [hs] at hstack ⊢
        have htop := contains_iff.mp (hstack top (by simp))
        have hsecond := contains_iff.mp (hstack second (by simp))
        refine ⟨hc, contains_iff.mpr ⟨hsecond.1, htop.2⟩, fun x hx => ?_⟩
        exact List.mem_cons_of_mem top (List.mem_cons_of_mem second hx)
    obtain ⟨hcursor, hspan, hbelow⟩ := hnew
    refine ⟨hcursor, fun x hx => ?_, fun a ha => ?_⟩
    · rcases List.mem_cons.mp hx with rfl | hx
      · exact hspan
      · exact hstack x (hbelow x hx)
    · rcases List.mem_cons.mp ha with rfl | ha
      · exact hspan
      · exact has a ha

/-- The cursor of an inverted window never moves. -/
theorem Leads.cursor_le_max (h : Leads w as stack cursor) :
    cursor ≤ max w.span.start w.span.stop := by
  induction h with
  | start => exact le_max_left _ _
  | @move as s m _ hm ih =>
    rcases mem_moves.mp hm with ⟨i, e, hi, -, rfl⟩ | hm | hm
    · exact (le_stop_of_lt_maxShift hi).trans (le_max_right _ _)
    · obtain ⟨top, below, id, c, -, -, -, rfl⟩ := mem_unaryMoves.mp hm
      exact ih
    · obtain ⟨top, second, below, id, c, -, -, rfl⟩ := mem_binaryMoves.mp hm
      exact ih

/-! ## The number of moves -/

theorem madeByUnary_of_get? {a : Action} {r : UnaryRule}
    (h : w.grammar.rules.get? a.rule = some (.unary r)) : w.madeByUnary a = true := by
  have hlex : a.rule ≠ .lexical := fun he => by rw [he] at h; cases h
  simp [madeByUnary, Action.isLexical, hlex, h, Rule.isUnary, Rule.arity]

/-- What an item is still good for: it can be raised once, if no unary rule made it, and it is used
up when it is joined with another one. -/
def weight (x : Item) : Nat := if x.unaryApplied then 2 else 3

theorem two_le_weight (x : Item) : 2 ≤ weight x := by unfold weight; split_ifs <;> omega

theorem weight_le_three (x : Item) : weight x ≤ 3 := by unfold weight; split_ifs <;> omega

/-- Every move pays for itself with tokens read or with the weight of the stack. -/
theorem Leads.length_add_weight_le (h : Leads w as stack cursor) :
    as.length + (stack.map weight).sum ≤ 4 * (cursor - w.span.start) := by
  induction h with
  | start => simp
  | @move as s m hs hm ih =>
    have hnew := weight_le_three (w.itemOf m.action)
    rw [List.length_cons, List.map_cons, List.sum_cons]
    rcases mem_moves.mp hm with ⟨i, e, -, -, rfl⟩ | hm | hm
    · have := hs.inside.1
      simp only at hnew ⊢
      omega
    · have hraised : weight (w.itemOf m.action) = 2 := by
        obtain ⟨r, hr⟩ := get?_of_mem_unaryMoves hm
        simp [weight, itemOf, madeByUnary_of_get? hr]
      obtain ⟨top, below, id, c, hstack, hu, -, rfl⟩ := mem_unaryMoves.mp hm
      have htop : weight top = 3 := by simp [weight, hu]
      rw [hstack, List.map_cons, List.sum_cons] at ih
      simp only at hraised ⊢
      omega
    · obtain ⟨top, second, below, id, c, hstack, -, rfl⟩ := mem_binaryMoves.mp hm
      have htop := two_le_weight top
      have hsecond := two_le_weight second
      rw [hstack, List.map_cons, List.map_cons, List.sum_cons, List.sum_cons] at ih
      simp only at hnew ⊢
      omega

/-- **A search may take more steps than any legal sequence has.** -/
theorem Leads.length_lt_maxSteps (h : Leads w as stack cursor)
    (hw : w.span.start ≤ w.span.stop) : as.length < Beam.maxSteps w.span := by
  have h₁ := h.length_add_weight_le
  have h₂ := h.cursor_le_max
  unfold Beam.maxSteps Span.length
  omega

end Window

end Categorial
