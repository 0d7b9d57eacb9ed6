import Categorial.Proofs.Oracle.Windows
import Categorial.Proofs.Standing

/-!
# The windows of an oracle are taken greedily

Candidates are gone through from the longest to the shortest, and from left to right among equally long
ones. One that overlaps a window taken before it is left out, so the windows are disjoint, and whatever
is left out overlaps a window that comes before it in this order.

* `Term.PartOf`, `Term.contains_iff`: the parts of a term.
* `Oracle.pairwise_takeDisjoint`: what is taken is disjoint.
* `Oracle.taken_or_overlapped`: what is not taken overlaps something taken before it.
* `Oracle.candidates_complete`: every span that means a part of the target is a candidate.
* **`Oracle.windows_maximal`**: the windows are a maximal choice of disjoint candidates.
-/

namespace Categorial

/-! ## Parts of terms -/

/-- The first term occurs in the second, as it stands. -/
inductive Term.PartOf : Term → Term → Prop
  | refl (t : Term) : PartOf t t
  | function {s f : Term} (a : Term) : PartOf s f → PartOf s (.app f a)
  | argument {s a : Term} (f : Term) : PartOf s a → PartOf s (.app f a)
  | body {s b : Term} (ty : Ty) : PartOf s b → PartOf s (.lam ty b)

theorem Term.contains_iff {t s : Term} : t.contains s = true ↔ s.PartOf t := by
  induction t with
  | const n ty =>
    simp only [contains, beq_iff_eq]
    exact ⟨fun h => h ▸ .refl _, fun h => by cases h; rfl⟩
  | var k =>
    simp only [contains, beq_iff_eq]
    exact ⟨fun h => h ▸ .refl _, fun h => by cases h; rfl⟩
  | app f a ihf iha =>
    simp only [contains, Bool.or_eq_true, beq_iff_eq, ihf, iha]
    constructor
    · rintro ((rfl | h) | h)
      · exact .refl _
      · exact .function a h
      · exact .argument f h
    · intro h
      cases h with
      | refl => exact Or.inl (Or.inl rfl)
      | function _ h => exact Or.inl (Or.inr h)
      | argument _ h => exact Or.inr h
  | lam ty b ih =>
    simp only [contains, Bool.or_eq_true, beq_iff_eq, ih]
    constructor
    · rintro (rfl | h)
      · exact .refl _
      · exact .body ty h
    · intro h
      cases h with
      | refl => exact Or.inl rfl
      | body _ h => exact Or.inr h

/-! ## Spans -/

theorem Span.overlaps_iff {s t : Span} :
    s.overlaps t = true ↔ s.start < t.stop ∧ t.start < s.stop := by
  simp [overlaps]

theorem Span.overlaps_comm (s t : Span) : s.overlaps t = t.overlaps s := by
  rw [Bool.eq_iff_iff, overlaps_iff, overlaps_iff, and_comm]

/-- Spans that are not empty are told apart by their starts and lengths. -/
theorem Span.eq_of_length_eq {s t : Span} (hs : s.start < s.stop) (ht : t.start < t.stop)
    (hlength : s.length = t.length) (hstart : s.start = t.start) : s = t := by
  obtain ⟨i, j⟩ := s
  obtain ⟨i', j'⟩ := t
  simp only [Span.length, Span.mk.injEq] at *
  omega

namespace Oracle

theorem isLE_windowOrder {s t : Span} : (windowOrder s t).isLE = true ↔
    t.length < s.length ∨ s.length = t.length ∧ s.start ≤ t.start := by
  rw [windowOrder, Ordering.isLE_then_iff_or, Nat.compare_eq_lt, Nat.compare_eq_eq, Nat.isLE_compare,
    eq_comm]

/-! ## Taking disjoint candidates -/

section Greedy

variable {taken : List Span} {l : List (Span × GoldFilter)} {f : GoldFilter}

/-- Nothing that is taken overlaps what was taken before. -/
theorem not_overlaps_of_mem_takeDisjoint (hl : ∀ x ∈ l, x.2.window = x.1)
    (h : f ∈ takeDisjoint taken l) : ∀ t ∈ taken, t.overlaps f.window = false := by
  induction l generalizing taken with
  | nil => cases h
  | cons x l ih =>
    obtain ⟨hx, hl⟩ := List.forall_mem_cons.mp hl
    rw [takeDisjoint] at h
    split_ifs at h with hany
    · exact ih hl h
    · rcases List.mem_cons.mp h with rfl | h
      · intro t ht
        rw [hx, Bool.eq_false_iff]
        exact fun hover => hany (List.any_eq_true.mpr ⟨t, ht, hover⟩)
      · exact fun t ht => ih hl h t (List.mem_append_left _ ht)

theorem pairwise_takeDisjoint (hl : ∀ x ∈ l, x.2.window = x.1) (taken : List Span) :
    (takeDisjoint taken l).Pairwise fun f f' => f.window.overlaps f'.window = false := by
  induction l generalizing taken with
  | nil => exact List.Pairwise.nil
  | cons x l ih =>
    obtain ⟨hx, hl⟩ := List.forall_mem_cons.mp hl
    rw [takeDisjoint]
    split_ifs
    · exact ih hl taken
    · refine List.pairwise_cons.mpr ⟨fun f hf => ?_, ih hl _⟩
      rw [hx]
      exact not_overlaps_of_mem_takeDisjoint hl hf x.1
        (List.mem_append_right _ (List.mem_singleton_self x.1))

/-- A candidate is taken, or it overlaps what was taken before, or a candidate that comes before it and
is taken. -/
theorem taken_or_overlapped {R : Span × GoldFilter → Span × GoldFilter → Prop} (hR : l.Pairwise R)
    (taken : List Span) {x : Span × GoldFilter} (hx : x ∈ l) :
    x.2 ∈ takeDisjoint taken l ∨ (∃ t ∈ taken, t.overlaps x.1 = true) ∨
      ∃ y ∈ l, y.2 ∈ takeDisjoint taken l ∧ y.1.overlaps x.1 = true ∧ R y x := by
  induction l generalizing taken with
  | nil => cases hx
  | cons z l ih =>
    obtain ⟨hz, hR⟩ := List.pairwise_cons.mp hR
    rw [takeDisjoint]
    split_ifs with hany
    · rcases List.mem_cons.mp hx with rfl | hx
      · exact Or.inr (Or.inl (List.any_eq_true.mp hany))
      · refine (ih hR taken hx).imp_right (Or.imp_right ?_)
        rintro ⟨y, hy, h⟩
        exact ⟨y, List.mem_cons_of_mem z hy, h⟩
    · rcases List.mem_cons.mp hx with rfl | hx
      · exact Or.inl List.mem_cons_self
      · rcases ih hR (taken ++ [z.1]) hx with h | ⟨t, ht, hover⟩ | ⟨y, hy, h, hover⟩
        · exact Or.inl (List.mem_cons_of_mem _ h)
        · -- the span that overlaps was taken before, or just now
          rcases List.mem_append.mp ht with ht | ht
          · exact Or.inr (Or.inl ⟨t, ht, hover⟩)
          · rw [List.mem_singleton.mp ht] at hover
            exact Or.inr (Or.inr ⟨z, List.mem_cons_self, List.mem_cons_self, hover, hz x hx⟩)
        · exact Or.inr (Or.inr ⟨y, List.mem_cons_of_mem z hy, List.mem_cons_of_mem _ h, hover⟩)

end Greedy

/-- Disjoint windows in the order of their starts follow one another. -/
theorem pairwise_stop_le_start {fs : List GoldFilter}
    (hproper : ∀ f ∈ fs, f.window.start < f.window.stop)
    (hdisjoint : fs.Pairwise fun f f' => f.window.overlaps f'.window = false)
    (hsorted : fs.Pairwise fun f f' => f.window.start ≤ f'.window.start) :
    fs.Pairwise fun f f' => f.window.stop ≤ f'.window.start := by
  refine (hdisjoint.and hsorted).imp_of_mem fun {f f'} hf hf' ⟨hdisjoint, hle⟩ => ?_
  have hf' := hproper f' hf'
  rw [Bool.eq_false_iff, ne_eq, Span.overlaps_iff] at hdisjoint
  omega

/-! ## The candidates of a chart -/

variable {σ : Type} [Score σ] {t : Task σ} {mode : Packing} {limit : Option Nat} {G : Grammar}
  {target : Term}

omit [Score σ] in
theorem exists_partOf? {groups : List (Group σ)} {g : Group σ} {sem : Term} (hg : g ∈ groups)
    (hsem : meaning? G g.category = some sem) (hpart : target.contains sem = true) :
    ∃ r, partOf? G target groups = some r := by
  refine Option.isSome_iff_exists.mp (List.findSome?_isSome_iff.mpr ⟨g, hg, ?_⟩)
  simp [hsem, hpart]

omit [Score σ] in
/-- Every smaller span that means a part of the target is a candidate. -/
theorem candidates_complete {c : Chart σ} {span : Span} {g : Group σ} {sem : Term}
    (hne : span ≠ c.full) (hg : g ∈ c.cell span) (hsem : meaning? G g.category = some sem)
    (hpart : target.contains sem = true) : ∃ f, (span, f) ∈ candidates G c target := by
  obtain ⟨⟨d, sem'⟩, hd⟩ := exists_partOf? hg hsem hpart
  have hfilled : (span, c.cell span) ∈ c.filled := by
    unfold Chart.cell at hg ⊢
    split at hg
    · next e he =>
      have hspan := List.find?_some he
      obtain rfl : e.1 = span := eq_of_beq hspan
      exact List.mem_of_find?_eq_some he
    · cases hg
  refine ⟨exactFilter sem' d, List.mem_filterMap.mpr ⟨(span, c.cell span), ?_, ?_⟩⟩
  · exact (List.mergeSort_perm _ _).mem_iff.mpr hfilled
  · dsimp only
    rw [if_neg hne, hd]
    rfl

/-- The candidates in the order in which they are gone through. -/
def ranked (G : Grammar) (c : Chart σ) (target : Term) : List (Span × GoldFilter) :=
  (candidates G c target).mergeSort fun a b => (windowOrder a.1 b.1).isLE

omit [Score σ] in
theorem pairwise_ranked (G : Grammar) (c : Chart σ) (target : Term) :
    (ranked G c target).Pairwise fun a b => (windowOrder a.1 b.1).isLE = true := by
  refine List.pairwise_mergeSort (fun a b c => ?_) (fun a b => ?_) _
  · simp only [isLE_windowOrder]
    omega
  · simp only [Bool.or_eq_true, isLE_windowOrder]
    omega

omit [Score σ] in
theorem mem_ranked {c : Chart σ} {x : Span × GoldFilter} :
    x ∈ ranked G c target ↔ x ∈ candidates G c target :=
  (List.mergeSort_perm _ _).mem_iff

omit [Score σ] in
theorem mem_windows {c : Chart σ} {f : GoldFilter} :
    f ∈ windows G c target ↔ f ∈ takeDisjoint [] (ranked G c target) :=
  (List.mergeSort_perm _ _).mem_iff

theorem window_of_mem_ranked {x : Span × GoldFilter}
    (h : x ∈ ranked G (Chart.parse t mode limit) target) : x.2.window = x.1 := by
  obtain ⟨-, g, hg, sem, -, -, hfilter⟩ := exists_of_mem_candidates (mem_ranked.mp h)
  rw [hfilter]
  exact (Chart.span_of_mem_cell hg).1

/-- A window lies in the sentence and is the span of a group whose meaning the filter asks for. -/
theorem exists_of_mem_windows {f : GoldFilter}
    (h : f ∈ windows G (Chart.parse t mode limit) target) :
    f.window ≠ (Chart.parse t mode limit).full ∧ target.contains f.target = true ∧
      ∃ g ∈ (Chart.parse t mode limit).cell f.window, f.category = some g.category ∧
        meaning? G g.category = some f.target := by
  obtain ⟨x, hx, rfl⟩ := exists_mem_candidates_of_mem_windows h
  have hwindow := window_of_mem_ranked (mem_ranked.mpr hx)
  obtain ⟨hne, g, hg, sem, hsem, hpart, hfilter⟩ := exists_of_mem_candidates hx
  rw [← hwindow] at hne hg
  refine ⟨hne, ?_, g, hg, ?_, ?_⟩ <;> rw [hfilter]
  · exact hpart
  · rfl
  · exact hsem

theorem pairwise_windows (t : Task σ) (mode : Packing) (limit : Option Nat) (G : Grammar)
    (target : Term) : (windows G (Chart.parse t mode limit) target).Pairwise fun f f' =>
      f.window.stop ≤ f'.window.start := by
  refine pairwise_stop_le_start (fun f hf => ?_) ?_ ?_
  · obtain ⟨-, -, g, hg, -⟩ := exists_of_mem_windows hf
    exact (Chart.span_of_mem_cell hg).2.1
  · refine (List.mergeSort_perm _ _).symm.pairwise
      (pairwise_takeDisjoint (fun x hx => window_of_mem_ranked hx) []) fun {f f'} h => ?_
    rwa [Span.overlaps_comm]
  · have hsorted : (windows G (Chart.parse t mode limit) target).Pairwise fun f f' =>
        decide (f.window.start ≤ f'.window.start) = true :=
      List.pairwise_mergeSort (fun a b c => by simpa using le_trans)
        (fun a b => by simpa using le_total _ _) _
    exact hsorted.imp of_decide_eq_true

/-- A span that means a part of the target is a window, or overlaps one that comes before it. -/
theorem window_or_overlapped {span : Span} {g : Group σ} {sem : Term}
    (hne : span ≠ (Chart.parse t mode limit).full) (hg : g ∈ (Chart.parse t mode limit).cell span)
    (hsem : meaning? G g.category = some sem) (hpart : target.contains sem = true) :
    (∃ f ∈ windows G (Chart.parse t mode limit) target, f.window = span) ∨
      ∃ f ∈ windows G (Chart.parse t mode limit) target, f.window.overlaps span = true ∧
        (span.length < f.window.length ∨
          f.window.length = span.length ∧ f.window.start < span.start) := by
  obtain ⟨f, hf⟩ := candidates_complete hne hg hsem hpart
  have hf := mem_ranked.mpr hf
  rcases taken_or_overlapped (pairwise_ranked G _ target) [] hf with h | ⟨_, ht, -⟩ |
    ⟨y, hy, h, hover, hle⟩
  · exact Or.inl ⟨f, mem_windows.mpr h, window_of_mem_ranked hf⟩
  · cases ht
  · have hwindow := window_of_mem_ranked hy
    have hy := mem_windows.mpr h
    obtain ⟨-, -, g', hg', -⟩ := exists_of_mem_windows hy
    have hinside := (Chart.span_of_mem_cell hg).2.1
    have hinside' := (Chart.span_of_mem_cell hg').2.1
    rw [← hwindow] at hover hle
    rcases isLE_windowOrder.mp hle with hlonger | ⟨hlength, hstart⟩
    · exact Or.inr ⟨y.2, hy, hover, Or.inl hlonger⟩
    · rcases hstart.lt_or_eq with hlt | heq
      · exact Or.inr ⟨y.2, hy, hover, Or.inr ⟨hlength, hlt⟩⟩
      · -- equally long and with the same start: the same span
        exact Or.inl ⟨y.2, hy, Span.eq_of_length_eq hinside' hinside hlength heq⟩

/-! ## The windows of an oracle -/

/-- **The windows of an oracle are a maximal greedy choice.** For every grammar, lexicon, sentence,
score, limit and target, the windows that mean parts of the target, details apart, are proper parts of
the sentence, not empty, and follow one another from left to right. Each filter asks for a part of the
target that is the meaning of its category, and a group over the window has this category. Any other
proper part of the sentence with a group that means a part of the target overlaps a window that is
longer, or equally long and starts further left. A discontiguous oracle has these filters. -/
theorem windows_maximal (t : Task σ) (limit : Option Nat) (target : Term) :
    let goal := t.grammar.underspecify target.normalize
    let chart := targetChart t limit goal
    let filters := windows t.grammar chart goal
    (∀ f ∈ filters, f.window.start < f.window.stop ∧ f.window.stop ≤ t.sentence.length ∧
      f.window ≠ ⟨0, t.sentence.length⟩) ∧
    filters.Pairwise (fun f f' => f.window.stop ≤ f'.window.start) ∧
    (∀ f ∈ filters, f.target.PartOf goal ∧ ∃ g ∈ chart.cell f.window,
      f.category = some g.category ∧ meaning? t.grammar g.category = some f.target) ∧
    (∀ span ≠ ⟨0, t.sentence.length⟩, ∀ g ∈ chart.cell span, ∀ sem,
      meaning? t.grammar g.category = some sem → sem.PartOf goal →
        (∃ f ∈ filters, f.window = span) ∨
        ∃ f ∈ filters, f.window.overlaps span = true ∧ (span.length < f.window.length ∨
          f.window.length = span.length ∧ f.window.start < span.start)) ∧
    ∀ o : Options, o.limit = limit → ∀ fs, build t o target = .discontiguous fs → fs = filters := by
  intro goal chart filters
  have hchart : chart = Chart.parse (targetTask t target) .packed limit := rfl
  have hfull : chart.full = ⟨0, t.sentence.length⟩ := by
    rw [hchart, Chart.full, Chart.sentence_parse]
    rfl
  refine ⟨fun f hf => ?_, pairwise_windows _ _ _ _ _, fun f hf => ?_,
    fun span hne g hg sem hsem hpart => ?_, fun o ho fs hfs => ?_⟩
  · obtain ⟨hne, -, g, hg, -⟩ := exists_of_mem_windows hf
    obtain ⟨-, hlt, hle⟩ := Chart.span_of_mem_cell hg
    exact ⟨hlt, hle, hfull ▸ hne⟩
  · obtain ⟨-, hpart, hgroup⟩ := exists_of_mem_windows hf
    exact ⟨Term.contains_iff.mp hpart, hgroup⟩
  · exact window_or_overlapped (hfull ▸ hne) hg hsem (Term.contains_iff.mpr hpart)
  · subst ho
    rcases build_cases t o target with ⟨f, he, -⟩ | ⟨fs', he, h⟩ | he | he <;> rw [hfs] at he <;>
      cases he
    exact h

/-- The meaning of `red book`. -/
def redBook : Term :=
  .app (.const "red" (.arrow (.arrow .entity .truth) (.arrow .entity .truth)))
    (.const "book" (.arrow .entity .truth))

/-- The words `book red book`, which no rule puts together as a whole. -/
def bookRedBook : Task ℤ where
  grammar := { rules := ⟨[.binary .forwardApplication]⟩ }
  lexicon := .ofList [
    ⟨["book"], ⟨.atom "N", some (.const "book" (.arrow .entity .truth))⟩, .fixed⟩,
    ⟨["red"], ⟨.complex (.atom "N") .forward (.atom "N"),
      some (.const "red" (.arrow (.arrow .entity .truth) (.arrow .entity .truth)))⟩, .fixed⟩]
  sentence := ["book", "red", "book"]
  score _ := 0

-- The longest part comes first, and only the word outside of it is left as a window.
example : (windows bookRedBook.grammar (targetChart bookRedBook none redBook) redBook).map
    (fun f => (f.window, f.target)) =
      [(⟨0, 1⟩, .const "book" (.arrow .entity .truth)), (⟨1, 3⟩, redBook)] := by
  cbv

end Oracle

end Categorial
