import Categorial.Proofs.Beam.Completed

/-!
# The states of a search

What every state of a search has in common, merged or not: its stack is a row of items without gaps
from the start of the window to the cursor, and each of its paths, when it is replayed, builds that
stack. Look-ups make the stack higher by one, binary rules lower by one, and a unary rule is never
applied to what a unary rule has just made.

* `StackTiles`: the items of a stack cover the tokens up to the cursor.
* `State.PathSound`: what holds of a path of a state.
* `Window.Leads.countP_lexical`, `Window.Leads.isChain`: legal sequences, one move at a time.
* `Grammatical.words_eq`: the words of a derivation are those of its span.
* **`search_states_sound`**: the states and the completed states of a search.
-/

namespace Categorial

variable {σ : Type}

/-- The items, top first, have spans that are not empty and lie next to each other, from `start` up to
`stop`. -/
def StackTiles (start : Nat) : List Item → (stop : Nat) → Prop
  | [], stop => stop = start
  | x :: below, stop =>
    x.span.start < x.span.stop ∧ x.span.stop = stop ∧ StackTiles start below x.span.start

/-- A unary rule made the action. -/
def RuleSet.isUnaryAction (rules : RuleSet) (a : Action) : Bool := (rules.get? a.rule).any Rule.isUnary

/-- A binary rule made the action. -/
def RuleSet.isBinaryAction (rules : RuleSet) (a : Action) : Bool :=
  (rules.get? a.rule).any fun r => !r.isUnary

/-- A sequence of actions, last one first, leads to the state: it has as many actions as steps were
taken, all of them allowed; no unary rule is applied to what a unary rule has just made; look-ups and
binary rules account for the height of the stack; and replaying it builds the stack out of derivations
that the grammar licenses. -/
structure State.PathSound (t : Task σ) (s : State σ) (as : List Action) : Prop where
  length : as.length = s.step
  allowed : ∀ a ∈ as, t.accept a = true
  unaryOnce : as.IsChain fun a before =>
    ¬ (t.grammar.rules.isUnaryAction a = true ∧ t.grammar.rules.isUnaryAction before = true)
  depth : as.countP Action.isLexical = s.depth + as.countP t.grammar.rules.isBinaryAction
  replay : ∃ ds, Derivation.replayAll t.sentence t.grammar.rules as.reverse = some ds ∧
    ds.map Derivation.item = s.stack ∧ ∀ d ∈ ds, Licensed t.grammar t.lexicon t.sentence d

/-! ## Rows of derivations -/

/-- The words of a derivation are those of its span. -/
theorem Grammatical.words_eq {P : Span → Entry → Prop} {G : Grammar} {w : List String}
    {d : Derivation} (h : Grammatical P G w d) : d.words = d.span.tokens w := by
  induction h with
  | leaf => rfl
  | unary _ _ _ ih => exact ih
  | @binary l r id c hl hr hadj _ ihl ihr =>
    have hl := hl.inside.1.le
    have hr := hr.inside.1.le
    rw [hadj] at hl
    have hleft : l.span = ⟨l.span.start, r.span.start⟩ := by rw [← hadj]
    rw [Derivation.words, ihl, ihr, hleft]
    exact Span.tokens_append hl hr w

namespace Window

variable {w : Window σ} {as : List Action} {cursor : Nat} {ds : List Derivation}

theorem stackTiles_of_tiles {start : Nat} (hd : ∀ d ∈ ds, d.span.start < d.span.stop)
    (h : Tiles start ds cursor) : StackTiles start (ds.map Derivation.item) cursor := by
  induction ds generalizing cursor with
  | nil => exact h
  | cons d ds ih =>
    obtain ⟨hd, hds⟩ := List.forall_mem_cons.mp hd
    exact ⟨hd, h.1, ih hds h.2⟩

/-- Replaying the actions of a row builds it. -/
theorem Row.replayAll (h : w.Row as cursor ds) :
    Derivation.replayAll w.sentence w.grammar.rules as.reverse = some ds := by
  have hrun : ∀ ds : List Derivation, (∀ d ∈ ds, Licensed w.grammar w.lexicon w.sentence d) →
      (ds.flatMap fun d => d.actions.reverse).reverse.foldlM
        (Derivation.replayStep w.sentence w.grammar.rules) [] = some ds := by
    intro ds hds
    induction ds with
    | nil => rfl
    | cons d ds ih =>
      obtain ⟨hd, hds⟩ := List.forall_mem_cons.mp hds
      rw [List.flatMap_cons, List.reverse_append, List.reverse_reverse, List.foldlM_append, ih hds,
        Option.bind_eq_bind, Option.bind_some, hd.foldlM_replayStep]
  rw [h.actions]
  exact hrun ds h.licensed

/-! ## Legal sequences, one move at a time -/

/-- What a move does to the stack, and what made its action. -/
theorem move_cases {s : State σ} {m : Move} (h : m ∈ w.moves s) :
    (m.below = s.stack ∧ m.action.rule = .lexical) ∨
    (∃ top, s.stack = top :: m.below ∧ top.unaryApplied = false ∧
      ∃ r, w.grammar.rules.get? m.action.rule = some (.unary r)) ∨
    (∃ top second, s.stack = top :: second :: m.below ∧
      ∃ r, w.grammar.rules.get? m.action.rule = some (.binary r)) := by
  rcases mem_moves.mp h with ⟨i, e, -, -, rfl⟩ | hm | hm
  · exact Or.inl ⟨rfl, rfl⟩
  · have hr := get?_of_mem_unaryMoves hm
    obtain ⟨top, below, id, c, hstack, hu, -, rfl⟩ := mem_unaryMoves.mp hm
    exact Or.inr (Or.inl ⟨top, hstack, hu, hr⟩)
  · have hr := get?_of_mem_binaryMoves hm
    obtain ⟨top, second, below, id, c, hstack, -, rfl⟩ := mem_binaryMoves.mp hm
    exact Or.inr (Or.inr ⟨top, second, hstack, hr⟩)

theorem unaryApplied_itemOf (w : Window σ) (a : Action) :
    (w.itemOf a).unaryApplied = w.grammar.rules.isUnaryAction a := by
  cases hr : a.rule <;> simp [itemOf, madeByUnary, RuleSet.isUnaryAction, Action.isLexical, hr,
    RuleSet.get?]

variable {stack : List Item}

/-- No unary rule is applied to what a unary rule has just made: that is still on top. -/
theorem Leads.isChain (h : w.Leads as stack cursor) :
    as.IsChain fun a before => ¬ (w.grammar.rules.isUnaryAction a = true ∧
      w.grammar.rules.isUnaryAction before = true) := by
  induction h with
  | start => exact .nil
  | @move as s m hs hm ih =>
    cases as with
    | nil => exact .singleton _
    | cons b bs =>
      refine .cons_cons ?_ ih
      rintro ⟨hm', hb⟩
      obtain ⟨_, _, _, _, _, hstack, _⟩ := hs.tail
      rcases move_cases hm with ⟨-, hlex⟩ | ⟨top, htop, hu, -⟩ | ⟨-, -, -, r, hr⟩
      · simp [RuleSet.isUnaryAction, hlex, RuleSet.get?] at hm'
      · rw [← unaryApplied_itemOf, ← (List.cons.inj (htop.symm.trans hstack)).1, hu] at hb
        cases hb
      · simp [RuleSet.isUnaryAction, hr, Rule.isUnary, Rule.arity] at hm'

/-- A look-up puts an item on the stack, and a binary rule takes one away. -/
theorem Leads.countP_lexical (h : w.Leads as stack cursor) :
    as.countP Action.isLexical =
      stack.length + as.countP w.grammar.rules.isBinaryAction := by
  induction h with
  | start => rfl
  | @move as s m hs hm ih =>
    rw [List.countP_cons, List.countP_cons, List.length_cons, ih]
    rcases move_cases hm with ⟨hbelow, hlex⟩ | ⟨top, htop, -, r, hr⟩ | ⟨top, second, htop, r, hr⟩
    · simp [hbelow, Action.isLexical, RuleSet.isBinaryAction, hlex, RuleSet.get?]
      omega
    · have hlex : m.action.rule ≠ .lexical := fun he => by rw [he] at hr; cases hr
      simp [htop, Action.isLexical, RuleSet.isBinaryAction, hlex, hr, Rule.isUnary, Rule.arity]
    · have hlex : m.action.rule ≠ .lexical := fun he => by rw [he] at hr; cases hr
      simp [htop, Action.isLexical, RuleSet.isBinaryAction, hlex, hr, Rule.isUnary, Rule.arity]
      omega

end Window

/-! ## The states of a search -/

namespace Beam

variable [Score σ]

/-- The states of a run count the steps of their paths. -/
structure CountedRun (w : Window σ) (r : Run σ) : Prop where
  steps : ∀ s ∈ r.beam, s.step = r.earlier.length
  reached : ∀ b ∈ r.beam :: r.earlier, ∀ s ∈ b, Reached w s.step s

theorem CountedRun.advance {w : Window σ} {mode : Packing} {width : Nat} {r : Run σ}
    (h : CountedRun w r) : CountedRun w (advance w mode width r) := by
  have hnext : ∀ s ∈ (Beam.advance w mode width r).beam,
      s.step = r.earlier.length + 1 ∧ Reached w (r.earlier.length + 1) s := by
    intro s hs
    refine forall_mem_merged (P := fun s => s.step = r.earlier.length + 1 ∧
      Reached w (r.earlier.length + 1) s) (fun s' hs' => ?_)
      (fun s t hs ht hcursor hstack => ⟨hs.1, hs.2.merge ht.2 hcursor hstack⟩) s
      (mem_merged_of_mem_advance hs)
    obtain ⟨s, hs, m, hm, hacc, rfl⟩ := mem_candidates.mp hs'
    have hreached := h.reached r.beam List.mem_cons_self s hs
    rw [h.steps s hs] at hreached
    exact ⟨congrArg (· + 1) (h.steps s hs), hreached.apply hm hacc⟩
  refine ⟨fun s hs => (hnext s hs).1, fun b hb s hs => ?_⟩
  rcases List.mem_cons.mp hb with rfl | hb
  · rw [(hnext s hs).1]
    exact (hnext s hs).2
  · exact h.reached b hb s hs

/-- A state of a search has as many actions on each of its paths as it counts steps. -/
theorem reached_step_of_mem_beams {t : Task σ} {window : Span} {mode : Packing} {width : Nat}
    {b : List (State σ)} {s : State σ} (hb : b ∈ (parse t window mode width).beams) (hs : s ∈ b) :
    Reached (.ofTask t (clip t.sentence.length window)) s.step s := by
  set w := Window.ofTask t (clip t.sentence.length window)
  have hrun : CountedRun w (runFor w mode (widthOf width) (maxSteps w.span)
      { beam := [State.initial w.span.start] }) := by
    refine runFor_induct (fun _ h => h.advance) _ _ ⟨fun s hs => ?_, fun b hb s hs => ?_⟩
    · rw [List.mem_singleton.mp hs]
      rfl
    · rw [List.mem_singleton.mp hb, List.mem_singleton] at hs
      rw [hs]
      exact reached_initial w
  exact hrun.reached b (List.mem_reverse.mp hb) s hs

end Beam

open Beam

/-- **The states of a search.** Whatever the grammar, the lexicon, the scores, the filter, the window, the
packing and the width: the stack of every state covers the window up to the cursor, and each path of
the state is sound. Every completed state stands for a derivation of the window with the category on
its stack and the words of the window, and with a root category if the window is the whole sentence.
A window inside the sentence is searched as it is. -/
theorem search_states_sound [Score σ] (t : Task σ) (window : Span) (mode : Packing) (width : Nat) :
    (∀ b ∈ (parse t window mode width).beams, ∀ s ∈ b,
      StackTiles (parse t window mode width).window.start s.stack s.cursor ∧
        ∀ as ∈ s.paths, s.PathSound t as) ∧
    (∀ s ∈ (parse t window mode width).completed,
      ∃ d, (parse t window mode width).tree? t.grammar.rules s = some d ∧
        d.span = (parse t window mode width).window ∧ s.stack = [d.item] ∧
        d.words = (parse t window mode width).window.tokens t.sentence ∧
        ((parse t window mode width).window = ⟨0, t.sentence.length⟩ →
          t.grammar.isRoot d.category.syn = true)) ∧
    (window.start ≤ t.sentence.length → window.stop ≤ t.sentence.length →
      (parse t window mode width).window = window) := by
  set w := Window.ofTask t (clip t.sentence.length window)
  have hw : w.span.stop ≤ w.sentence.length := min_le_right _ _
  refine ⟨fun b hb s hs => ?_, fun s hs => ?_, fun hstart hstop => ?_⟩
  · have hreached := reached_step_of_mem_beams hb hs
    obtain ⟨ds, hrow, hstack⟩ := hreached.leads_actionsRev.exists_row rfl hw
    refine ⟨?_, fun as has => ?_⟩
    · rw [hstack]
      exact Window.stackTiles_of_tiles (fun d hd => (hrow.licensed d hd).inside.1) hrow.tiles
    · have hleads := hreached.leads as has
      obtain ⟨ds, hrow, hstack⟩ := hleads.exists_row rfl hw
      refine ⟨hreached.length as has, hreached.allowed as has, hleads.isChain, ?_,
        ds, hrow.replayAll, hstack.symm, hrow.licensed⟩
      rw [s.depth_eq]
      exact hleads.countP_lexical
  · obtain ⟨⟨k, hreached⟩, hcomplete⟩ := reached_of_mem_completed hs
    obtain ⟨x, hx, hcursor, hroot⟩ := Window.isComplete_iff.mp hcomplete
    have hleads := hreached.leads_actionsRev
    rw [hx, hcursor] at hleads
    obtain ⟨d, hd, hspan, rfl, hactions⟩ := (Window.leads_singleton_iff rfl hw).mp hleads
    refine ⟨d, ?_, hspan, hx, ?_, hroot⟩
    · rw [Parse.tree?, State.actions, hactions, List.reverse_reverse]
      exact hd.replay_actions
    · rw [hd.words_eq, hspan]
      rfl
  · change clip t.sentence.length window = window
    simp [clip, hstart, hstop]

end Categorial
