import Categorial.Beam.Search
import Categorial.Proofs.Entries

/-!
# Moves

The legal moves of a state depend on its stack and its cursor only, and no two of them have the same
action. Of several entries with one category over one span only the first can be shifted.

* `Provider.IsFirst`: the entry is the first of its category.
* `Window.mem_moves`: the legal moves of a state.
* `Window.pairwise_moves`: their actions differ.
-/

namespace Categorial

namespace Action

theorem same_iff {a b : Action} :
    a.same b = true ↔ a.span = b.span ∧ a.rule = b.rule ∧ a.category = b.category := by
  simp [same, and_assoc]

@[simp] theorem same_self (a : Action) : a.same a = true := same_iff.mpr ⟨rfl, rfl, rfl⟩

end Action

/-- The entry is the first of its category for the tokens of a span. -/
def Provider.IsFirst (p : Provider) (sentence : List String) (span : Span) (e : Entry) : Prop :=
  (p.lookup (span.tokens sentence)).find? (fun e' => decide (e'.category = e.category)) = some e

theorem Provider.IsFirst.mem {p : Provider} {sentence : List String} {span : Span} {e : Entry}
    (h : p.IsFirst sentence span e) : e ∈ p.lookup (span.tokens sentence) :=
  List.mem_of_find?_eq_some h

/-- Every category of an entry has a first entry. -/
theorem Provider.exists_isFirst {p : Provider} {sentence : List String} {span : Span} {e : Entry}
    (h : e ∈ p.lookup (span.tokens sentence)) :
    ∃ e', p.IsFirst sentence span e' ∧ e'.category = e.category := by
  have hsome : ((p.lookup (span.tokens sentence)).find?
      fun e' => decide (e'.category = e.category)).isSome = true :=
    List.find?_isSome.mpr ⟨e, h, by simp⟩
  obtain ⟨e', he'⟩ := Option.isSome_iff_exists.mp hsome
  have hc : e'.category = e.category := by simpa using List.find?_some he'
  exact ⟨e', by rw [IsFirst, hc]; exact he', hc⟩

theorem Provider.IsFirst.eq {p : Provider} {sentence : List String} {span : Span} {e e' : Entry}
    (h : p.IsFirst sentence span e) (h' : p.IsFirst sentence span e')
    (hc : e.category = e'.category) : e = e' := by
  rw [IsFirst, hc] at h
  exact Option.some_inj.mp (h.symm.trans h')

/-- If no category has two entries, every entry is the first of its category. -/
theorem Provider.isFirst_of_mem {p : Provider} {sentence : List String} {span : Span} {e : Entry}
    (h : (p.lookup (span.tokens sentence)).Pairwise fun e e' => e.category ≠ e'.category)
    (he : e ∈ p.lookup (span.tokens sentence)) : p.IsFirst sentence span e := by
  obtain ⟨e', hfirst, hc⟩ := exists_isFirst he
  rwa [← List.inj_on_of_nodup_map (List.pairwise_map.mpr h) hfirst.mem he hc]

namespace Window

/-! ## Dropping repeated actions -/

theorem mem_dropSame {l : List Move} {m : Move} :
    m ∈ dropSame l ↔ l.find? (fun n => n.action.same m.action) = some m := by
  induction l with
  | nil => simp [dropSame]
  | cons x l ih =>
    rw [dropSame, List.mem_cons, List.mem_filter, ih, List.find?_cons]
    by_cases hx : x.action.same m.action = true
    · simp [hx, eq_comm]
    · have hne : m ≠ x := by rintro rfl; simp at hx
      simp [hx, hne]

theorem mem_of_mem_dropSame {l : List Move} {m : Move} (h : m ∈ dropSame l) : m ∈ l :=
  List.mem_of_find?_eq_some (mem_dropSame.mp h)

theorem pairwise_dropSame (l : List Move) :
    (dropSame l).Pairwise fun m n => m.action.same n.action = false := by
  induction l with
  | nil => exact List.Pairwise.nil
  | cons x l ih =>
    refine List.pairwise_cons.mpr ⟨fun n hn => ?_, ih.filter _⟩
    simpa using (List.mem_filter.mp hn).2

/-- A move that no other one repeats is not dropped. -/
theorem mem_dropSame_iff_mem {l : List Move} {m : Move}
    (h : ∀ n ∈ l, n.action.same m.action = true → n = m) : m ∈ dropSame l ↔ m ∈ l := by
  refine ⟨mem_of_mem_dropSame, fun hm => mem_dropSame.mpr ?_⟩
  have hsome : (l.find? fun n => n.action.same m.action).isSome = true :=
    List.find?_isSome.mpr ⟨m, hm, by simp⟩
  obtain ⟨n, hn⟩ := Option.isSome_iff_exists.mp hsome
  have hsame : n.action.same m.action = true := by simpa using List.find?_some hn
  rw [hn, h n (List.mem_of_find?_eq_some hn) hsame]

theorem dropSame_append {l₁ l₂ : List Move}
    (h : ∀ m ∈ l₁, ∀ n ∈ l₂, m.action.same n.action = false) :
    dropSame (l₁ ++ l₂) = dropSame l₁ ++ dropSame l₂ := by
  induction l₁ with
  | nil => rfl
  | cons x l ih =>
    have hx : (dropSame l₂).filter (fun n => !x.action.same n.action) = dropSame l₂ :=
      List.filter_eq_self.mpr fun n hn => by
        simp [h x List.mem_cons_self n (mem_of_mem_dropSame hn)]
    rw [List.cons_append, dropSame, dropSame,
      ih fun m hm => h m (List.mem_cons_of_mem x hm), List.filter_append, hx, List.cons_append]

theorem dropSame_flatMap {β : Type} {f : β → List Move} {xs : List β}
    (h : xs.Pairwise fun x y => ∀ m ∈ f x, ∀ n ∈ f y, m.action.same n.action = false) :
    dropSame (xs.flatMap f) = xs.flatMap fun x => dropSame (f x) := by
  induction xs with
  | nil => rfl
  | cons x xs ih =>
    obtain ⟨hx, hxs⟩ := List.pairwise_cons.mp h
    rw [List.flatMap_cons, List.flatMap_cons, dropSame_append, ih hxs]
    intro m hm n hn
    obtain ⟨y, hy, hn⟩ := List.mem_flatMap.mp hn
    exact hx y hy m hm n hn

/-! ## The legal moves of a state -/

variable {σ : Type} {w : Window σ} {s s' : State σ} {m : Move}

/-- Moves do not depend on scores. -/
theorem moves_eq_of_situation {τ : Type} {w' : Window τ} {s' : State τ}
    (hgrammar : w.grammar = w'.grammar) (hsentence : w.sentence = w'.sentence)
    (hspan : w.span = w'.span) (hprovider : w.provider = w'.provider) (hstack : s.stack = s'.stack)
    (hcursor : s.cursor = s'.cursor) : w.moves s = w'.moves s' := by
  -- the depth of a state is the height of its stack
  obtain ⟨stack, _, cursor, _, _, _, _, rfl⟩ := s
  obtain ⟨stack', _, cursor', _, _, _, _, rfl⟩ := s'
  dsimp only at hstack hcursor
  subst hstack hcursor
  rcases stack with _ | ⟨top, _ | ⟨second, below⟩⟩ <;>
    simp only [moves, shifts, shiftsOver, maxShift, unaryMoves, binaryMoves, hgrammar, hsentence, hspan,
      hprovider]

/-- Moves depend on the stack and the cursor only. -/
theorem moves_congr (hstack : s.stack = s'.stack) (hcursor : s.cursor = s'.cursor) :
    w.moves s = w.moves s' :=
  moves_eq_of_situation rfl rfl rfl rfl hstack hcursor

theorem mem_shiftsOver {span : Span} :
    m ∈ w.shiftsOver s span ↔ ∃ e ∈ w.provider.lookup (span.tokens w.sentence),
      m = ⟨.lookup span e, s.stack, s.stack.length + 1, span.stop, rfl⟩ := by
  simp only [shiftsOver, List.mem_map, s.depth_eq, eq_comm]

theorem mem_dropSame_shiftsOver {span : Span} :
    m ∈ dropSame (w.shiftsOver s span) ↔ ∃ e, w.provider.IsFirst w.sentence span e ∧
      m = ⟨.lookup span e, s.stack, s.stack.length + 1, span.stop, rfl⟩ := by
  have hsame : ∀ e e' : Entry, (Action.lookup span e').same (.lookup span e) =
      decide (e'.category = e.category) := by
    intro e e'
    rw [Bool.eq_iff_iff, Action.same_iff, decide_eq_true_eq]
    simp [Action.lookup]
  simp only [mem_dropSame, shiftsOver, s.depth_eq, List.find?_map, Option.map_eq_some_iff]
  constructor
  · rintro ⟨e, he, rfl⟩
    simp only [Function.comp_def, hsame] at he
    exact ⟨e, he, rfl⟩
  · rintro ⟨e, he, rfl⟩
    refine ⟨e, ?_, rfl⟩
    simp only [Function.comp_def, hsame]
    exact he

theorem mem_unaryMoves :
    m ∈ w.unaryMoves s ↔ ∃ top below id c, s.stack = top :: below ∧ top.unaryApplied = false ∧
      (id, c) ∈ w.grammar.rules.unaryResults w.grammar.sig top.category ∧
      m = ⟨{ span := top.span, rule := id, category := c }, below, below.length + 1, s.cursor,
        rfl⟩ := by
  obtain ⟨stack, _, cursor, _, _, _, _, rfl⟩ := s
  unfold unaryMoves
  cases stack with
  | nil => simp
  | cons top below =>
    cases hu : top.unaryApplied with
    | true => simp [hu]
    | false =>
      simp only [hu, Bool.false_eq_true, if_false, List.mem_map, List.length_cons, List.cons.injEq]
      constructor
      · rintro ⟨⟨id, c⟩, hx, rfl⟩
        exact ⟨top, below, id, c, ⟨rfl, rfl⟩, hu, hx, rfl⟩
      · rintro ⟨_, _, id, c, ⟨rfl, rfl⟩, -, hx, rfl⟩
        exact ⟨(id, c), hx, rfl⟩

theorem mem_binaryMoves :
    m ∈ w.binaryMoves s ↔ ∃ top second below id c, s.stack = top :: second :: below ∧
      (id, c) ∈ w.grammar.rules.binaryResults w.grammar.sig second.category top.category ∧
      m = ⟨{ span := ⟨second.span.start, top.span.stop⟩, rule := id, category := c }, below,
        below.length + 1, s.cursor, rfl⟩ := by
  obtain ⟨stack, _, cursor, _, _, _, _, rfl⟩ := s
  unfold binaryMoves
  rcases stack with _ | ⟨top, _ | ⟨second, below⟩⟩
  · simp
  · simp
  · simp only [List.mem_map, List.length_cons, List.cons.injEq]
    constructor
    · rintro ⟨⟨id, c⟩, hx, rfl⟩
      exact ⟨top, second, below, id, c, ⟨rfl, rfl, rfl⟩, hx, rfl⟩
    · rintro ⟨_, _, _, id, c, ⟨rfl, rfl, rfl⟩, hx, rfl⟩
      exact ⟨(id, c), hx, rfl⟩

theorem isLexical_of_mem_shifts (h : m ∈ w.shifts s) : m.action.rule = .lexical := by
  obtain ⟨i, -, h⟩ := List.mem_flatMap.mp h
  obtain ⟨e, -, rfl⟩ := mem_shiftsOver.mp h
  rfl

theorem get?_of_mem_unaryMoves (h : m ∈ w.unaryMoves s) :
    ∃ r, w.grammar.rules.get? m.action.rule = some (.unary r) := by
  obtain ⟨top, below, id, c, -, -, hx, rfl⟩ := mem_unaryMoves.mp h
  exact RuleSet.get?_of_mem_unaryResults hx

theorem get?_of_mem_binaryMoves (h : m ∈ w.binaryMoves s) :
    ∃ r, w.grammar.rules.get? m.action.rule = some (.binary r) := by
  obtain ⟨top, second, below, id, c, -, hx, rfl⟩ := mem_binaryMoves.mp h
  exact RuleSet.get?_of_mem_binaryResults hx

theorem eq_of_same_of_mem_unaryMoves {n : Move} (hn : n ∈ w.unaryMoves s)
    (hm : m ∈ w.unaryMoves s) (h : n.action.same m.action = true) : n = m := by
  obtain ⟨top, below, id, c, hs, -, -, rfl⟩ := mem_unaryMoves.mp hn
  obtain ⟨top', below', id', c', hs', -, -, rfl⟩ := mem_unaryMoves.mp hm
  obtain ⟨rfl, rfl⟩ := List.cons.inj (hs.symm.trans hs')
  obtain ⟨-, rfl, rfl⟩ := Action.same_iff.mp h
  rfl

theorem eq_of_same_of_mem_binaryMoves {n : Move} (hn : n ∈ w.binaryMoves s)
    (hm : m ∈ w.binaryMoves s) (h : n.action.same m.action = true) : n = m := by
  obtain ⟨top, second, below, id, c, hs, -, rfl⟩ := mem_binaryMoves.mp hn
  obtain ⟨top', second', below', id', c', hs', -, rfl⟩ := mem_binaryMoves.mp hm
  obtain ⟨rfl, hs⟩ := List.cons.inj (hs.symm.trans hs')
  obtain ⟨rfl, rfl⟩ := List.cons.inj hs
  obtain ⟨-, rfl, rfl⟩ := Action.same_iff.mp h
  rfl

/-- The legal moves: shifts of first entries, and all results of rules. -/
theorem mem_moves :
    m ∈ w.moves s ↔
      (∃ i e, i < w.maxShift s.cursor ∧
        w.provider.IsFirst w.sentence ⟨s.cursor, s.cursor + (i + 1)⟩ e ∧
        m = ⟨.lookup ⟨s.cursor, s.cursor + (i + 1)⟩ e, s.stack, s.stack.length + 1,
          s.cursor + (i + 1), rfl⟩) ∨
      m ∈ w.unaryMoves s ∨ m ∈ w.binaryMoves s := by
  have hshift : dropSame (w.shifts s) = (List.range (w.maxShift s.cursor)).flatMap fun i =>
      dropSame (w.shiftsOver s ⟨s.cursor, s.cursor + (i + 1)⟩) := by
    refine dropSame_flatMap (List.pairwise_lt_range.imp fun {i j} hij m hm n hn => ?_)
    obtain ⟨e, -, rfl⟩ := mem_shiftsOver.mp hm
    obtain ⟨e', -, rfl⟩ := mem_shiftsOver.mp hn
    refine Bool.eq_false_iff.mpr fun h => ?_
    have := congrArg Span.stop (Action.same_iff.mp h).1
    simp only [Action.lookup] at this
    omega
  have hsplit : w.moves s =
      dropSame (w.shifts s) ++ dropSame (w.unaryMoves s) ++ dropSame (w.binaryMoves s) := by
    rw [moves, dropSame_append, dropSame_append]
    · intro m hm n hn
      obtain ⟨r, hr⟩ := get?_of_mem_unaryMoves hn
      refine Bool.eq_false_iff.mpr fun h => ?_
      rw [← (Action.same_iff.mp h).2.1, isLexical_of_mem_shifts hm] at hr
      cases hr
    · intro m hm n hn
      obtain ⟨r, hr⟩ := get?_of_mem_binaryMoves hn
      refine Bool.eq_false_iff.mpr fun h => ?_
      rw [← (Action.same_iff.mp h).2.1] at hr
      rcases List.mem_append.mp hm with hm | hm
      · rw [isLexical_of_mem_shifts hm] at hr
        cases hr
      · obtain ⟨r', hr'⟩ := get?_of_mem_unaryMoves hm
        rw [hr'] at hr
        cases hr
  have hunary : m ∈ dropSame (w.unaryMoves s) ↔ m ∈ w.unaryMoves s :=
    ⟨mem_of_mem_dropSame, fun hm =>
      (mem_dropSame_iff_mem fun n hn => eq_of_same_of_mem_unaryMoves hn hm).mpr hm⟩
  have hbinary : m ∈ dropSame (w.binaryMoves s) ↔ m ∈ w.binaryMoves s :=
    ⟨mem_of_mem_dropSame, fun hm =>
      (mem_dropSame_iff_mem fun n hn => eq_of_same_of_mem_binaryMoves hn hm).mpr hm⟩
  rw [hsplit, hshift, List.mem_append, List.mem_append, hunary, hbinary, or_assoc]
  simp only [List.mem_flatMap, List.mem_range, mem_dropSame_shiftsOver, exists_and_left]

/-- No two legal moves have the same action. -/
theorem pairwise_moves (w : Window σ) (s : State σ) :
    (w.moves s).Pairwise fun m n => m.action.same n.action = false :=
  pairwise_dropSame _

theorem eq_of_same_of_mem_moves {n : Move} (hm : m ∈ w.moves s) (hn : n ∈ w.moves s)
    (h : m.action.same n.action = true) : m = n := by
  have hm := mem_dropSame.mp hm
  have hn := mem_dropSame.mp hn
  obtain ⟨hspan, hrule, hcat⟩ := Action.same_iff.mp h
  have hfun : (fun x : Move => x.action.same m.action) = fun x => x.action.same n.action := by
    funext x
    simp only [Action.same, hspan, hrule, hcat]
  rw [hfun] at hm
  exact Option.some_inj.mp (hm.symm.trans hn)

end Window

end Categorial
