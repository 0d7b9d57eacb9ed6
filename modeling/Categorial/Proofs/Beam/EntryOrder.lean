import Categorial.Proofs.Beam.Paths
import Categorial.Proofs.Beam.Readings
import Categorial.Proofs.ClassOrder
import Categorial.Proofs.Order

/-!
# The beam search and the order of entries

A lexicon with its entries in another order offers the same moves, and only look-ups over one span
change places. They differ in category, and the category of the last action stays on top of the stack,
so nothing that the search does compares two of them by their order of arrival: merging keeps to one
stack, and ranking ends with the category. Every beam is therefore the same.

* `Window.sameClasses_moves`, `Beam.sameClasses_candidates`: what changes places.
* `Beam.sameClasses_merged`: merging keeps to the categories on top of the stack.
* Floating-point scores are in a total order, as exact ones are.
* `State.Ends`: the category on top is that of the last action.
* `Beam.advance_rearranged`, **`Beam.parse_rearranged`**: one step, and the whole search.
-/

namespace Categorial

variable {σ : Type}

/-! ## Moves -/

namespace Window

/-- The window with other entries. -/
def withEntries (w : Window σ) (l : Lexicon) (p : Provider) : Window σ :=
  { w with lexicon := l, provider := p }

variable {w : Window σ} {l : Lexicon} {p : Provider}

theorem sameClasses_shifts (h : w.provider.Rearranged p) (s : State σ) :
    SameClasses (fun m : Move => some m.action.category) (w.shifts s)
      ((w.withEntries l p).shifts s) := by
  have hmax : (w.withEntries l p).maxShift s.cursor = w.maxShift s.cursor := by
    rw [maxShift, maxShift, h.maxLength]
    rfl
  unfold shifts
  rw [hmax]
  refine SameClasses.flatMap _ fun i _ => sameClasses_of_perm ((h.perm _).map _) ?_
  refine List.pairwise_map.mpr ((h.distinct _).imp fun hne he => hne ?_)
  exact Option.some_inj.mp he

theorem filter_dropSame (c : Option Category) (l : List Move) :
    ((dropSame l).filter fun m => decide (some m.action.category = c)) =
      dropSame (l.filter fun m => decide (some m.action.category = c)) := by
  induction l with
  | nil => rfl
  | cons m l ih =>
    rw [dropSame, List.filter_cons, List.filter_cons]
    split_ifs with hm
    · rw [dropSame, List.filter_comm, ih]
    · -- A move of another category repeats none of these.
      rw [List.filter_comm, ih]
      refine List.filter_eq_self.mpr fun n hn => ?_
      have hn := of_decide_eq_true (List.mem_filter.mp (mem_of_mem_dropSame hn)).2
      rw [Bool.not_eq_true']
      refine Bool.eq_false_iff.mpr fun hsame => hm (decide_eq_true ?_)
      rw [(Action.same_iff.mp hsame).2.2, hn]

/-- The moves agree within categories. -/
theorem sameClasses_moves (h : w.provider.Rearranged p) (s : State σ) :
    SameClasses (fun m : Move => some m.action.category) (w.moves s)
      ((w.withEntries l p).moves s) := by
  have hall := ((sameClasses_shifts (l := l) h s).append (.refl _ (w.unaryMoves s))).append
    (.refl _ (w.binaryMoves s))
  intro c
  rw [moves, moves, filter_dropSame, filter_dropSame]
  exact congrArg dropSame (hall c)

end Window

namespace Beam

variable [Score σ]

/-- The states of a step agree within the categories on top of the stack. -/
theorem sameClasses_candidates {w : Window σ} {l : Lexicon} {p : Provider}
    (h : w.provider.Rearranged p) (beam : List (State σ)) :
    SameClasses State.category? (candidates w beam) (candidates (w.withEntries l p) beam) := by
  refine SameClasses.flatMap beam fun s _ => ?_
  exact ((w.sameClasses_moves h s).filter fun m => w.accept m.action).map fun _ => rfl

/-! ## Merging -/

theorem filter_mergeInto (c : Option Category) (s : State σ) (l : List (State σ)) :
    ((mergeInto s l).filter fun t => decide (t.category? = c)) =
      if s.category? = c then mergeInto s (l.filter fun t => decide (t.category? = c))
      else l.filter fun t => decide (t.category? = c) := by
  induction l with
  | nil =>
    rw [mergeInto, List.filter_singleton]
    split_ifs <;> simp_all [mergeInto]
  | cons t l ih =>
    rw [mergeInto]
    by_cases hsame : t.sameSituation s = true
    · have hmerge : (t.merge s).category? = t.category? := rfl
      have hcat : s.category? = t.category? := by
        rw [State.category?, State.category?, State.top?, State.top?,
          (State.sameSituation_iff.mp hsame).2]
      rw [if_pos hsame, List.filter_cons, List.filter_cons, hmerge, hcat]
      by_cases hc : t.category? = c
      · simp [hc, mergeInto, hsame]
      · simp [hc]
    · rw [if_neg hsame, List.filter_cons, List.filter_cons, ih]
      by_cases hc : t.category? = c <;> by_cases hs : s.category? = c <;>
        simp [hc, hs, mergeInto, hsame]

theorem filter_mergeAll (c : Option Category) (l : List (State σ)) :
    ((mergeAll l).filter fun t => decide (t.category? = c)) =
      mergeAll (l.filter fun t => decide (t.category? = c)) := by
  induction l using List.reverseRecOn with
  | nil => rfl
  | append_singleton l s ih =>
    rw [mergeAll, List.foldl_append]
    change (mergeInto s (mergeAll l)).filter _ = _
    rw [filter_mergeInto, ih, List.filter_append, List.filter_singleton]
    by_cases hs : s.category? = c
    · simp [hs, mergeAll]
    · simp [hs]

theorem sameClasses_merged (mode : Packing) {l l' : List (State σ)}
    (h : SameClasses State.category? l l') :
    SameClasses State.category? (merged mode l) (merged mode l') := by
  cases mode with
  | unpacked => exact h
  | packed =>
    intro c
    rw [merged, merged, filter_mergeAll, filter_mergeAll, h c]

end Beam

/-! ## Ranking -/

instance : Std.TransCmp (Score.cmp : FloatScore → FloatScore → Ordering) where
  eq_swap {x y} := Std.OrientedOrd.eq_swap (a := x.rank) (b := y.rank)
  isLE_trans {x y z} := Std.TransOrd.isLE_trans (a := x.rank) (b := y.rank) (c := z.rank)

namespace State

variable [Score σ]

/-- The category on top of the stack is that of the last action, in every history. -/
structure Ends (s : State σ) : Prop where
  ne_nil : s.histories ≠ []
  category : ∀ h ∈ s.histories, s.category? = some h.action.category

theorem ends_apply (w : Window σ) (s : State σ) (m : Move) : (w.apply s m).Ends :=
  ⟨List.cons_ne_nil _ _, fun h hh => by rw [List.mem_singleton.mp hh]; rfl⟩

theorem Ends.merge {s t : State σ} (hs : s.Ends) (ht : t.Ends) (hstack : s.stack = t.stack) :
    (s.merge t).Ends := by
  refine ⟨histories_merge_ne_nil hs.ne_nil t, fun h hh => ?_⟩
  rcases List.mem_append.mp ((perm_histories_merge s t).mem_iff.mp hh) with hh | hh
  · exact hs.category h hh
  · have hcat : (s.merge t).category? = t.category? := by
      rw [category?, category?, top?, top?, ← hstack]
      rfl
    rw [hcat, ht.category h hh]

/-- States that are tied have the same category on top of the stack. -/
theorem Ends.category_eq {s t : State σ} (hs : s.Ends) (ht : t.Ends) (h : s.rank t = .eq) :
    s.category? = t.category? := by
  obtain ⟨x, xs, hx⟩ := List.exists_cons_of_ne_nil hs.ne_nil
  obtain ⟨y, ys, hy⟩ := List.exists_cons_of_ne_nil ht.ne_nil
  rw [rank, Ordering.then_eq_eq, hx, hy, lastOrder, Ordering.then_eq_eq] at h
  rw [hs.category x (by simp [hx]), ht.category y (by simp [hy]),
    Std.LawfulEqCmp.eq_of_compare h.2.2]

omit [Score σ] in
theorem lastOrder_swap (h k : List (History σ (State σ))) :
    lastOrder h k = (lastOrder k h).swap := by
  cases h with
  | nil => cases k <;> rfl
  | cons x _ =>
    cases k with
    | nil => rfl
    | cons y _ =>
      have hrule : x.action.rule.cmp y.action.rule = (y.action.rule.cmp x.action.rule).swap :=
        Std.OrientedCmp.eq_swap
      have hcategory : x.action.category.cmp y.action.category =
          (y.action.category.cmp x.action.category).swap := Std.OrientedCmp.eq_swap
      rw [lastOrder, lastOrder, hrule, hcategory, Ordering.swap_then]

omit [Score σ] in
theorem chained_lastOrder (h k m : List (History σ (State σ))) :
    Chained (lastOrder h k) (lastOrder k m) (lastOrder h m) := by
  cases h <;> cases k <;> cases m <;> first
    | exact (RuleId.chained_cmp _ _ _).lex (Category.chained_cmp _ _ _)
    | exact ⟨by simp [lastOrder], by simp [lastOrder], by simp [lastOrder]⟩

/-- States are ranked by a total order if scores are. -/
instance [Std.TransCmp (Score.cmp : σ → σ → Ordering)] :
    Std.TransCmp (rank : State σ → State σ → Ordering) := by
  refine transCmp_of_chained (fun s t => ?_) fun s t u => Chained.lex ?_ (chained_lastOrder _ _ _)
  · have hscore : Score.cmp t.score s.score = (Score.cmp s.score t.score).swap :=
      Std.OrientedCmp.eq_swap
    rw [rank, rank, Score.byDesc, Score.byDesc, hscore, lastOrder_swap, Ordering.swap_then]
  · exact Chained.of_trans (fun a b : σ => Score.cmp b a) _ _ _

end State

namespace Beam

variable [Score σ] [Std.TransCmp (Score.cmp : σ → σ → Ordering)]

theorem byRank_eq {l l' : List (State σ)} (h : SameClasses State.category? l l')
    (hends : ∀ s ∈ l, s.Ends) : byRank l = byRank l' := by
  refine h.mergeSort_eq (fun a b c => Std.TransCmp.isLE_trans) (isLE_total State.rank)
    fun s hs t ht hst hts => (hends s hs).category_eq (hends t ht) ?_
  exact Std.OrientedCmp.isLE_antisymm hst hts

/-! ## The search -/

omit [Std.TransCmp (Score.cmp : σ → σ → Ordering)] in
theorem advance_eq (w : Window σ) (mode : Packing) (width : Nat) (r : Run σ) :
    advance w mode width r =
      { beam := (byRank (merged mode (candidates w r.beam))).take width
        earlier := r.beam :: r.earlier
        completed := r.completed ++
          ((byRank (merged mode (candidates w r.beam))).take width).filter w.isComplete
        accepted := r.accepted + (candidates w r.beam).length
        rejected := r.rejected +
          ((r.beam.flatMap w.moves).length - (candidates w r.beam).length) } := by
  simp only [advance, List.flatMap_map]
  rfl

variable {w : Window σ} {l : Lexicon} {p : Provider} (h : w.provider.Rearranged p)

include h

/-- One step does not depend on the order of the entries. -/
theorem advance_rearranged (mode : Packing) (width : Nat) (r : Run σ) :
    advance w mode width r = advance (w.withEntries l p) mode width r := by
  have hcandidates := sameClasses_candidates (l := l) h r.beam
  have hends : ∀ s ∈ merged mode (candidates w r.beam), s.Ends := by
    refine forall_mem_merged (fun s hs => ?_) fun s t hs ht _ hstack => hs.merge ht hstack
    obtain ⟨s, -, m, -, -, rfl⟩ := mem_candidates.mp hs
    exact State.ends_apply w s m
  have hmoves := SameClasses.flatMap r.beam fun s _ => w.sameClasses_moves (l := l) h s
  rw [advance_eq, advance_eq, byRank_eq (sameClasses_merged mode hcandidates) hends,
    hcandidates.perm.length_eq, hmoves.perm.length_eq]
  rfl

theorem runFor_rearranged (mode : Packing) (width fuel : Nat) (r : Run σ) :
    runFor w mode width fuel r = runFor (w.withEntries l p) mode width fuel r := by
  induction fuel generalizing r with
  | zero => rfl
  | succ fuel ih => rw [runFor, runFor, ← advance_rearranged h, ih]

omit h in
/-- **The search does not depend on the order of the entries**: the beams, the completed states and
all that belongs to them are the same. -/
theorem parse_rearranged {t : Task σ} {l : Lexicon}
    (h : (t.grammar.provider t.lexicon).Rearranged (t.grammar.provider l)) (window : Span)
    (mode : Packing) (width : Nat) :
    parse t window mode width = parse { t with lexicon := l } window mode width := by
  have hrun := runFor_rearranged (w := Window.ofTask t (clip t.sentence.length window)) (l := l) h
    mode (widthOf width) (maxSteps (clip t.sentence.length window))
    { beam := [State.initial (clip t.sentence.length window).start] }
  unfold parse
  dsimp only
  rw [hrun]
  rfl

end Beam

end Categorial
