import Categorial.Proofs.Beam.Legal
import Categorial.Proofs.Licensed

/-!
# Legal sequences and licensed derivations

The stack that a legal sequence leads to is a row of licensed derivations next to each other, and the
sequence consists of their actions. So the legal sequences that cover a window with one item are the
actions of the licensed derivations over it, children before parents.

* `Derivation.item`, `Tiles`: derivations on a stack.
* `Window.Leads.exists_row`: the derivations that a legal sequence builds.
* `Window.leads_actions`: the actions of a licensed derivation are legal.
* **`Window.leads_singleton_iff`**: legal sequences over a window.
-/

namespace Categorial

/-- The item that stands for a derivation on a stack. -/
def Derivation.item (d : Derivation) : Item := ⟨d.category, d.span, d.isUnary⟩

/-- The derivations, last one first, cover the tokens from `start` up to `stop`. -/
def Tiles (start : Nat) : List Derivation → (stop : Nat) → Prop
  | [], stop => stop = start
  | d :: ds, stop => d.span.stop = stop ∧ Tiles start ds d.span.start

namespace Window

variable {σ : Type} {w : Window σ}

theorem madeByUnary_of_lexical {a : Action} (h : a.rule = .lexical) : w.madeByUnary a = false := by
  simp [madeByUnary, Action.isLexical, h]

theorem madeByUnary_of_binary {a : Action} {r : BinaryRule}
    (h : w.grammar.rules.get? a.rule = some (.binary r)) : w.madeByUnary a = false := by
  simp [madeByUnary, h, Rule.isUnary, Rule.arity]

/-- The last action of a derivation puts its item on the stack. -/
theorem itemOf_action {L : Lexicon} {ws : List String} {d : Derivation}
    (h : Licensed w.grammar L ws d) : w.itemOf d.action = d.item := by
  have hmade : w.madeByUnary d.action = d.isUnary := by
    cases h with
    | leaf => exact madeByUnary_of_lexical rfl
    | unary _ _ hx =>
      obtain ⟨r, hr⟩ := RuleSet.get?_of_mem_unaryResults hx
      exact madeByUnary_of_get? hr
    | binary _ _ _ hx =>
      obtain ⟨r, hr⟩ := RuleSet.get?_of_mem_binaryResults hx
      exact madeByUnary_of_binary hr
  rw [itemOf, hmade]
  rfl

/-- The derivations are licensed, lie next to each other and have the given actions. -/
structure Row (w : Window σ) (as : List Action) (cursor : Nat) (ds : List Derivation) : Prop where
  licensed : ∀ d ∈ ds, Licensed w.grammar w.lexicon w.sentence d
  tiles : Tiles w.span.start ds cursor
  actions : as = ds.flatMap fun d => d.actions.reverse

variable {as : List Action} {stack : List Item} {cursor : Nat}

/-- A legal sequence builds a row of licensed derivations. -/
theorem Leads.exists_row (hp : w.provider = w.grammar.provider w.lexicon)
    (hw : w.span.stop ≤ w.sentence.length) (h : w.Leads as stack cursor) :
    ∃ ds, w.Row as cursor ds ∧ stack = ds.map Derivation.item := by
  induction h with
  | start => exact ⟨[], ⟨by simp, rfl, rfl⟩, rfl⟩
  | @move as s m _ hm ih =>
    obtain ⟨ds, ⟨hl, ht, ha⟩, hs⟩ := ih
    rcases mem_moves.mp hm with ⟨i, e, hi, he, rfl⟩ | hm | hm
    · have hstop := (le_stop_of_lt_maxShift hi).trans hw
      have hnew : Licensed w.grammar w.lexicon w.sentence (.leaf
          (.lookup ⟨s.cursor, s.cursor + (i + 1)⟩ e)
          (Span.tokens ⟨s.cursor, s.cursor + (i + 1)⟩ w.sentence)) :=
        .leaf (by simp only; omega) hstop (hp ▸ he)
      refine ⟨_ :: ds, ⟨List.forall_mem_cons.mpr ⟨hnew, hl⟩, ⟨rfl, ht⟩, ?_⟩, ?_⟩
      · rw [List.flatMap_cons, ← ha]
        rfl
      · rw [List.map_cons, ← hs, ← itemOf_action hnew]
        rfl
    · obtain ⟨top, below, id, c, hstack, hu, hx, rfl⟩ := mem_unaryMoves.mp hm
      obtain ⟨d, ds, rfl, rfl, rfl⟩ := List.map_eq_cons_iff.mp (hs.symm.trans hstack)
      obtain ⟨hd, hl⟩ := List.forall_mem_cons.mp hl
      have hnew : Licensed w.grammar w.lexicon w.sentence
          (.unary { span := d.span, rule := id, category := c } d) := .unary hd hu hx
      refine ⟨_ :: ds, ⟨List.forall_mem_cons.mpr ⟨hnew, hl⟩, ht, ?_⟩, ?_⟩
      · rw [ha, List.flatMap_cons, List.flatMap_cons, Derivation.actions, List.reverse_append]
        rfl
      · rw [List.map_cons, ← itemOf_action hnew]
        rfl
    · obtain ⟨top, second, below, id, c, hstack, hx, rfl⟩ := mem_binaryMoves.mp hm
      obtain ⟨r, ds, rfl, rfl, hrest⟩ := List.map_eq_cons_iff.mp (hs.symm.trans hstack)
      obtain ⟨l, ds, rfl, rfl, rfl⟩ := List.map_eq_cons_iff.mp hrest
      obtain ⟨hr, hl⟩ := List.forall_mem_cons.mp hl
      obtain ⟨hl, hds⟩ := List.forall_mem_cons.mp hl
      obtain ⟨hrt, hlt, ht⟩ := ht
      have hnew : Licensed w.grammar w.lexicon w.sentence
          (.binary { span := ⟨l.span.start, r.span.stop⟩, rule := id, category := c } l r) :=
        .binary hl hr hlt hx
      refine ⟨_ :: ds, ⟨List.forall_mem_cons.mpr ⟨hnew, hds⟩, ⟨hrt, ht⟩, ?_⟩, ?_⟩
      · rw [ha]
        simp [Derivation.actions, Derivation.item]
      · rw [List.map_cons, ← itemOf_action hnew]
        rfl

/-- A state with the given stack and cursor. -/
def stateAt (w : Window σ) (stack : List Item) (cursor : Nat) : State σ :=
  ⟨stack, stack.length, cursor, w.score default, [], 0, 0, rfl⟩

/-- The actions of a licensed derivation can follow any legal sequence that ends where it starts. -/
theorem leads_actions (hp : w.provider = w.grammar.provider w.lexicon) {d : Derivation}
    (hd : Licensed w.grammar w.lexicon w.sentence d) (hstop : d.span.stop ≤ w.span.stop)
    (h : w.Leads as stack d.span.start) :
    w.Leads (d.actions.reverse ++ as) (d.item :: stack) d.span.stop := by
  induction hd generalizing as stack with
  | @leaf span e h₁ h₂ he =>
    have hnew : Licensed w.grammar w.lexicon w.sentence
        (.leaf (.lookup span e) (span.tokens w.sentence)) := .leaf h₁ h₂ he
    obtain ⟨i, hi⟩ : ∃ i, span.stop = span.start + (i + 1) :=
      ⟨span.stop - span.start - 1, by omega⟩
    have hspan : span = ⟨span.start, span.start + (i + 1)⟩ := by rw [← hi]
    have hmax : i < w.maxShift span.start := by
      have hlen := w.grammar.length_le_maxLength w.lexicon he.mem
      rw [Span.length_tokens h₂, Span.length, ← hp] at hlen
      have hstop : span.stop ≤ w.span.stop := hstop
      unfold maxShift
      omega
    have hmove : (⟨.lookup span e, stack, stack.length + 1, span.stop, rfl⟩ : Move) ∈
        w.moves (w.stateAt stack span.start) := by
      refine mem_moves.mpr (Or.inl ⟨i, e, hmax, ?_, ?_⟩)
      · change w.provider.IsFirst w.sentence ⟨span.start, span.start + (i + 1)⟩ e
        rw [← hspan, hp]
        exact he
      · change _ = (⟨.lookup ⟨span.start, span.start + (i + 1)⟩ e, stack,
          stack.length + 1, span.start + (i + 1), rfl⟩ : Move)
        rw [← hspan, ← hi]
    rw [← itemOf_action hnew]
    exact .move (s := w.stateAt stack span.start) h hmove
  | @unary d id c hd hu hx ih =>
    have hnew : Licensed w.grammar w.lexicon w.sentence
        (.unary { span := d.span, rule := id, category := c } d) := .unary hd hu hx
    have hmove : (⟨{ span := d.span, rule := id, category := c }, stack, stack.length + 1,
          d.span.stop, rfl⟩ : Move) ∈
        w.moves (w.stateAt (d.item :: stack) d.span.stop) :=
      mem_moves.mpr (Or.inr (Or.inl (mem_unaryMoves.mpr
        ⟨d.item, stack, id, c, rfl, hu, hx, rfl⟩)))
    rw [← itemOf_action hnew, Derivation.actions, List.reverse_append]
    exact .move (s := w.stateAt (d.item :: stack) d.span.stop) (ih hstop h) hmove
  | @binary l r id c hl hr hadj hx ihl ihr =>
    set a : Action := { span := ⟨l.span.start, r.span.stop⟩, rule := id, category := c } with ha
    have hnew : Licensed w.grammar w.lexicon w.sentence (.binary a l r) := .binary hl hr hadj hx
    have hstop : r.span.stop ≤ w.span.stop := hstop
    have hri := hr.inside.1
    have hleft := ihl (by omega) h
    rw [hadj] at hleft
    have hmove : (⟨a, stack, stack.length + 1, r.span.stop, rfl⟩ : Move) ∈
        w.moves (w.stateAt (r.item :: l.item :: stack) r.span.stop) :=
      mem_moves.mpr (Or.inr (Or.inr (mem_binaryMoves.mpr
        ⟨r.item, l.item, stack, id, c, rfl, hx, rfl⟩)))
    have hactions : (Derivation.binary a l r).actions.reverse ++ as =
        a :: (r.actions.reverse ++ (l.actions.reverse ++ as)) := by
      simp [Derivation.actions]
    rw [← itemOf_action hnew, hactions]
    exact .move (s := w.stateAt (r.item :: l.item :: stack) r.span.stop) (ihr hstop hleft) hmove

/-- **The legal sequences that cover a window with one item are the actions of the licensed
derivations over it.** -/
theorem leads_singleton_iff (hp : w.provider = w.grammar.provider w.lexicon)
    (hw : w.span.stop ≤ w.sentence.length) {x : Item} :
    w.Leads as [x] w.span.stop ↔ ∃ d, Licensed w.grammar w.lexicon w.sentence d ∧
      d.span = w.span ∧ d.item = x ∧ as = d.actions.reverse := by
  constructor
  · intro h
    obtain ⟨ds, ⟨hl, ht, ha⟩, hs⟩ := h.exists_row hp hw
    obtain ⟨d, ds, rfl, hx, hnil⟩ := List.map_eq_cons_iff.mp hs.symm
    obtain rfl := List.map_eq_nil_iff.mp hnil
    obtain ⟨hstop, hstart⟩ := ht
    refine ⟨d, hl d List.mem_cons_self, ?_, hx, by simpa using ha⟩
    change d.span = ⟨w.span.start, w.span.stop⟩
    rw [← hstop, ← show d.span.start = w.span.start from hstart]
  · rintro ⟨d, hd, hspan, rfl, rfl⟩
    have hstart : w.Leads [] [] d.span.start := hspan ▸ .start
    have := leads_actions hp hd (by rw [hspan]) hstart
    rwa [List.append_nil, hspan] at this

end Window

end Categorial
