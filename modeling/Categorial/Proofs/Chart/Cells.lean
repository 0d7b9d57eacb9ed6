import Categorial.Proofs.Chart.Steps

/-!
# The cells of a chart

The cells of a finished chart are determined by the cells of shorter spans.

* `Chart.cellGroups`: the groups of a cell, given those of shorter spans.
* `Chart.Filled`: the cells filled so far hold what they should, and ids tell groups apart.
* `Chart.built`: the groups built for some cells; `Chart.ids_built`: their ids.
* **`Chart.filled_parse`**, `Chart.cell_parse`: so do all cells of a chart.
-/

namespace Categorial

variable {σ : Type} [Score σ]

/-! ## Cells -/

namespace Chart

/-- The steps of a cell that are not unary. -/
def baseSteps (t : Task σ) (p : Provider) (cell : Span → List (Group σ)) (span : Span) :
    List (Step σ (Group σ)) :=
  Draft.allowed t (Draft.lexicalSteps t p span) ++ Draft.allowed t (Draft.binarySteps t cell span)

/-- The groups of a cell before the unary rules are applied. -/
def baseGroups (t : Task σ) (p : Provider) (mode : Packing) (cell : Span → List (Group σ))
    (firstId : Nat) (span : Span) : List (Group σ) :=
  Draft.insertSteps mode firstId span [] (baseSteps t p cell span)

/-- All steps of a cell. -/
def cellSteps (t : Task σ) (p : Provider) (mode : Packing) (cell : Span → List (Group σ))
    (firstId : Nat) (span : Span) : List (Step σ (Group σ)) :=
  baseSteps t p cell span ++
    Draft.allowed t (Draft.unarySteps t span (baseGroups t p mode cell firstId span))

/-- The groups of a cell. -/
def cellGroups (t : Task σ) (p : Provider) (mode : Packing) (cell : Span → List (Group σ))
    (firstId : Nat) (span : Span) : List (Group σ) :=
  Draft.insertSteps mode firstId span [] (cellSteps t p mode cell firstId span)

/-- The groups that a finished cell keeps, best first. -/
def kept (limit : Option Nat) (gs : List (Group σ)) : List (Group σ) :=
  ({ span := ⟨0, 0⟩, firstId := 0, groups := gs } : Draft σ).finish limit

theorem kept_none_perm (gs : List (Group σ)) : (kept none gs).Perm gs :=
  List.mergeSort_perm gs _

theorem kept_sublist_perm (limit : Option Nat) (gs : List (Group σ)) :
    ∃ l, (kept limit gs).Sublist l ∧ l.Perm gs := by
  refine ⟨gs.mergeSort fun g h => (Draft.rank g h).isLE, ?_, List.mergeSort_perm gs _⟩
  cases limit with
  | none => exact List.Sublist.refl _
  | some k => exact List.take_sublist k _

theorem mem_of_mem_kept {limit : Option Nat} {gs : List (Group σ)} {g : Group σ}
    (h : g ∈ kept limit gs) : g ∈ gs := by
  obtain ⟨l, hsub, hperm⟩ := kept_sublist_perm limit gs
  exact hperm.mem_iff.mp (hsub.subset h)

variable (t : Task σ) (p : Provider) (limit : Option Nat)

theorem groups_passes (mode : Packing) (cell : Span → List (Group σ)) (firstId : Nat)
    (span : Span) :
    (((({ span, firstId } : Draft σ).lexicalPass t p mode).binaryPass t mode cell).unaryPass t
      mode).groups = cellGroups t p mode cell firstId span := by
  set d : Draft σ := { span, firstId } with hd
  have h₁ := Draft.adds_lexicalPass t p mode d
  have h₂ := Draft.adds_binaryPass t mode cell (d.lexicalPass t p mode)
  rw [h₁.span] at h₂
  have h₁₂ := h₁.append h₂
  have h₃ := Draft.adds_unaryPass t mode ((d.lexicalPass t p mode).binaryPass t mode cell)
  have hbase : ((d.lexicalPass t p mode).binaryPass t mode cell).groups =
      baseGroups t p mode cell firstId span := h₁₂.groups
  rw [hbase, h₁₂.span] at h₃
  exact (h₁₂.append h₃).groups

theorem filled_fill (c : Chart σ) (span : Span) : (c.fill t p limit span).filled =
    if (kept limit (cellGroups t p c.mode c.cell c.groups span)).isEmpty then c.filled
    else (span, kept limit (cellGroups t p c.mode c.cell c.groups span)) :: c.filled := by
  rw [← groups_passes]
  rfl

theorem cell_fill_of_ne (c : Chart σ) {s span : Span} (h : s ≠ span) :
    (c.fill t p limit span).cell s = c.cell s := by
  rw [cell, filled_fill]
  split_ifs
  · rfl
  · rw [List.find?_cons_of_neg (by simpa using Ne.symm h)]
    rfl

theorem cell_fill_self (c : Chart σ) {span : Span} (h : c.cell span = []) :
    (c.fill t p limit span).cell span =
      kept limit (cellGroups t p c.mode c.cell c.groups span) := by
  rw [cell, filled_fill]
  split_ifs with he
  · rw [List.isEmpty_iff.mp he]
    exact h
  · simp

theorem groups_fill (c : Chart σ) (span : Span) : (c.fill t p limit span).groups =
    c.groups + (cellGroups t p c.mode c.cell c.groups span).length := by
  rw [← groups_passes]
  rfl

/-- The groups that are built when some cells are filled one after another, dropped ones included. -/
def built : List Span → Chart σ → List (Group σ)
  | [], _ => []
  | span :: todo, c =>
    (((({ span, firstId := c.groups } : Draft σ).lexicalPass t p c.mode).binaryPass t c.mode
      c.cell).unaryPass t c.mode).groups ++ built todo (c.fill t p limit span)

@[simp] theorem mode_fill (c : Chart σ) (span : Span) :
    (c.fill t p limit span).mode = c.mode := rfl

/-! ## The order of the spans -/

theorem mem_spans {n : Nat} {s : Span} : s ∈ spans n ↔ s.start < s.stop ∧ s.stop ≤ n := by
  obtain ⟨i, j⟩ := s
  simp only [spans, List.mem_flatMap, List.mem_range, List.mem_map, Span.mk.injEq]
  constructor
  · rintro ⟨l, hl, start, hstart, rfl, rfl⟩
    omega
  · rintro ⟨h₁, h₂⟩
    exact ⟨j - i - 1, by omega, i, by omega, rfl, by omega⟩

theorem pairwise_spans (n : Nat) :
    (spans n).Pairwise fun s s' => s ≠ s' ∧ s.length ≤ s'.length := by
  rw [spans, List.pairwise_flatMap]
  constructor
  · intro l _
    rw [List.pairwise_map]
    refine List.pairwise_lt_range.imp fun {a b} h => ⟨?_, ?_⟩
    · simp only [ne_eq, Span.mk.injEq]
      omega
    · simp only [Span.length]
      omega
  · refine List.pairwise_lt_range.imp fun {a b} h => ?_
    simp only [List.mem_map, Span.length]
    rintro _ ⟨i, _, rfl⟩ _ ⟨j, _, rfl⟩
    simp only [ne_eq, Span.mk.injEq]
    omega

/-! ## Finished charts -/

/-- A cell depends on the cells of shorter spans only. -/
theorem cellGroups_congr {cell cell' : Span → List (Group σ)} (mode : Packing) (firstId : Nat)
    (span : Span) (h : ∀ s : Span, s.length < span.length → cell s = cell' s) :
    cellGroups t p mode cell firstId span = cellGroups t p mode cell' firstId span := by
  have hb : Draft.binarySteps t cell span = Draft.binarySteps t cell' span := by
    refine List.flatMap_congr fun i hi => ?_
    have hi := List.mem_range.mp hi
    simp only [Span.length] at hi h
    rw [h ⟨span.start, span.start + 1 + i⟩ (by simp only; omega),
      h ⟨span.start + 1 + i, span.stop⟩ (by simp only; omega)]
  simp only [cellGroups, cellSteps, baseGroups, baseSteps, hb]

/-- The cells of the spans in `done` hold what they should, and no other cell holds anything. The ids
of the groups of a span start with `first` of it, and no two spans share any. -/
structure Filled (first : Span → Nat) (done : List Span) (c : Chart σ) : Prop where
  outside : ∀ s, s ∉ done → c.cell s = []
  mem_filled : ∀ e ∈ c.filled, e.1 ∈ done ∧ c.cell e.1 = e.2
  cell_eq : ∀ s ∈ done, c.cell s = kept limit (cellGroups t p c.mode c.cell (first s) s)
  id_lt : ∀ s ∈ done, first s + (cellGroups t p c.mode c.cell (first s) s).length ≤ c.groups
  apart : ∀ s ∈ done, ∀ s' ∈ done, s ≠ s' →
    first s + (cellGroups t p c.mode c.cell (first s) s).length ≤ first s' ∨
      first s' + (cellGroups t p c.mode c.cell (first s') s').length ≤ first s

variable {t p limit}

theorem gathered_baseGroups (mode : Packing) (cell : Span → List (Group σ)) (firstId : Nat)
    (span : Span) : Draft.Gathered mode firstId span (baseSteps t p cell span)
      (baseGroups t p mode cell firstId span) :=
  Draft.gathered_insertSteps mode firstId span _

theorem gathered_cellGroups (mode : Packing) (cell : Span → List (Group σ)) (firstId : Nat)
    (span : Span) : Draft.Gathered mode firstId span (cellSteps t p mode cell firstId span)
      (cellGroups t p mode cell firstId span) :=
  Draft.gathered_insertSteps mode firstId span _

theorem id_of_mem_cellGroups {mode : Packing} {cell : Span → List (Group σ)} {firstId : Nat}
    {span : Span} {g : Group σ} (h : g ∈ cellGroups t p mode cell firstId span) :
    firstId ≤ g.id ∧ g.id < firstId + (cellGroups t p mode cell firstId span).length := by
  have hid := List.mem_map_of_mem (f := Group.id) h
  rw [(gathered_cellGroups mode cell firstId span).ids, List.mem_range'_1] at hid
  exact hid

theorem eq_of_id_eq {mode : Packing} {cell : Span → List (Group σ)} {firstId : Nat}
    {span : Span} {g g' : Group σ} (h : g ∈ cellGroups t p mode cell firstId span)
    (h' : g' ∈ cellGroups t p mode cell firstId span) (hid : g.id = g'.id) : g = g' := by
  have hnd : ((cellGroups t p mode cell firstId span).map Group.id).Nodup := by
    rw [(gathered_cellGroups mode cell firstId span).ids]
    exact List.nodup_range'
  exact List.inj_on_of_nodup_map hnd h h' hid

/-- Ids tell the groups of all cells apart. -/
theorem Filled.id_inj {first : Span → Nat} {done : List Span} {c : Chart σ}
    (h : Filled t p limit first done c) {s s' : Span} {g g' : Group σ} (hg : g ∈ c.cell s)
    (hg' : g' ∈ c.cell s') (hid : g.id = g'.id) : s = s' ∧ g = g' := by
  have hdone : ∀ {s g}, g ∈ c.cell s → s ∈ done := by
    intro s g hg
    by_contra hs
    rw [h.outside s hs] at hg
    cases hg
  have hmem : ∀ {s g}, g ∈ c.cell s → g ∈ cellGroups t p c.mode c.cell (first s) s := by
    intro s g hg
    have hcell := h.cell_eq s (hdone hg)
    exact mem_of_mem_kept (hcell ▸ hg)
  by_cases hs : s = s'
  · subst hs
    exact ⟨rfl, eq_of_id_eq (hmem hg) (hmem hg') hid⟩
  · have h₁ := id_of_mem_cellGroups (hmem hg)
    have h₂ := id_of_mem_cellGroups (hmem hg')
    have := h.apart s (hdone hg) s' (hdone hg') hs
    omega

/-- One more cell. -/
theorem Filled.fill {n : Nat} {first : Span → Nat} {done todo : List Span} {span : Span}
    {c : Chart σ} (hn : spans n = done ++ span :: todo) (h : Filled t p limit first done c) :
    Filled t p limit (Function.update first span c.groups) (done ++ [span])
      (c.fill t p limit span) := by
  have hp := pairwise_spans n
  rw [hn, List.pairwise_append] at hp
  have hdone : ∀ s ∈ done, s ≠ span ∧ s.length ≤ span.length := fun s hs =>
    hp.2.2 s hs span List.mem_cons_self
  have hspan : span ∉ done := fun hs => (hdone span hs).1 rfl
  have hself := cell_fill_self t p limit c (h.outside span hspan)
  have hne : ∀ s, s ≠ span → (c.fill t p limit span).cell s = c.cell s := fun s hs =>
    cell_fill_of_ne t p limit c hs
  have hcongr : ∀ s : Span, s.length ≤ span.length → ∀ firstId,
      cellGroups t p c.mode (c.fill t p limit span).cell firstId s =
        cellGroups t p c.mode c.cell firstId s := by
    intro s hs firstId
    refine cellGroups_congr t p c.mode firstId s fun s' hs' => hne s' ?_
    rintro rfl
    omega
  -- the groups of a span are what they were, or those just made
  have hold : ∀ s ∈ done, cellGroups t p c.mode (c.fill t p limit span).cell
      (Function.update first span c.groups s) s = cellGroups t p c.mode c.cell (first s) s := by
    intro s hs
    rw [Function.update_of_ne (hdone s hs).1, hcongr s (hdone s hs).2]
  have hnew : cellGroups t p c.mode (c.fill t p limit span).cell
      (Function.update first span c.groups span) span =
        cellGroups t p c.mode c.cell c.groups span := by
    rw [Function.update_self, hcongr span le_rfl]
  have hmem : ∀ s ∈ done ++ [span], s ∈ done ∨ s = span := fun s hs =>
    (List.mem_append.mp hs).imp_right List.mem_singleton.mp
  refine ⟨fun s hs => ?_, fun e he => ?_, fun s hs => ?_, fun s hs => ?_,
    fun s hs s' hs' hss' => ?_⟩
  · rw [List.mem_append, List.mem_singleton, not_or] at hs
    rw [hne s hs.2]
    exact h.outside s hs.1
  · have hold : e ∈ c.filled → e.1 ∈ done ++ [span] ∧ (c.fill t p limit span).cell e.1 = e.2 := by
      intro he
      obtain ⟨hd, hcell⟩ := h.mem_filled e he
      exact ⟨List.mem_append_left _ hd, (hne e.1 (hdone e.1 hd).1).trans hcell⟩
    rw [filled_fill] at he
    split_ifs at he
    · exact hold he
    · rcases List.mem_cons.mp he with rfl | he
      · exact ⟨List.mem_append_right _ (List.mem_singleton_self span), hself⟩
      · exact hold he
  · rw [mode_fill]
    rcases hmem s hs with hs | rfl
    · rw [hne s (hdone s hs).1, hold s hs]
      exact h.cell_eq s hs
    · rw [hself, hnew]
  · rw [mode_fill, groups_fill]
    rcases hmem s hs with hs | rfl
    · rw [hold s hs, Function.update_of_ne (hdone s hs).1]
      exact (h.id_lt s hs).trans (Nat.le_add_right _ _)
    · rw [hnew, Function.update_self]
  · rw [mode_fill]
    rcases hmem s hs with hd | rfl <;> rcases hmem s' hs' with hd' | rfl
    · rw [hold s hd, hold s' hd', Function.update_of_ne (hdone s hd).1,
        Function.update_of_ne (hdone s' hd').1]
      exact h.apart s hd s' hd' hss'
    · rw [hold s hd, Function.update_of_ne (hdone s hd).1, Function.update_self]
      exact Or.inl (h.id_lt s hd)
    · rw [hold s' hd', Function.update_of_ne (hdone s' hd').1, Function.update_self]
      exact Or.inr (h.id_lt s' hd')
    · exact absurd rfl hss'

theorem cell_foldl_fill {todo : List Span} {s : Span} (h : s ∉ todo) (c : Chart σ) :
    (todo.foldl (Chart.fill t p limit) c).cell s = c.cell s := by
  induction todo generalizing c with
  | nil => rfl
  | cons span todo ih =>
    rw [List.mem_cons, not_or] at h
    rw [List.foldl_cons, ih h.2, cell_fill_of_ne t p limit c h.1]

/-- All cells hold what they should when the rest of them is filled, and the groups built on the way are
those of the cells. -/
theorem Filled.foldl {n : Nat} {first : Span → Nat} {done todo : List Span} {c : Chart σ}
    (hn : spans n = done ++ todo) (h : Filled t p limit first done c) :
    ∃ first', Filled t p limit first' (spans n) (todo.foldl (Chart.fill t p limit) c) ∧
      (∀ s ∈ done, first' s = first s) ∧ built t p limit todo c = todo.flatMap fun s =>
        cellGroups t p c.mode (todo.foldl (Chart.fill t p limit) c).cell (first' s) s := by
  induction todo generalizing done first c with
  | nil =>
    rw [hn, List.append_nil]
    exact ⟨first, h, fun _ _ => rfl, rfl⟩
  | cons span todo ih =>
    have hp := pairwise_spans n
    rw [hn, List.pairwise_append, List.pairwise_cons] at hp
    have hdone : ∀ s ∈ done, s ≠ span := fun s hs => (hp.2.2 s hs span List.mem_cons_self).1
    obtain ⟨first', hfilled, hfirst, hbuilt⟩ := ih (by rw [hn, List.append_assoc]; rfl) (h.fill hn)
    have hspan : first' span = c.groups := by
      rw [hfirst span (List.mem_append_right _ (List.mem_singleton_self span)), Function.update_self]
    refine ⟨first', hfilled, fun s hs => ?_, ?_⟩
    · rw [hfirst s (List.mem_append_left _ hs), Function.update_of_ne (hdone s hs)]
    · -- no later cell is shorter, so the cells that this one was made from stay as they are
      have hcell : ∀ s : Span, s.length < span.length →
          c.cell s = ((span :: todo).foldl (Chart.fill t p limit) c).cell s := by
        intro s hs
        refine (cell_foldl_fill (fun hmem => ?_) c).symm
        rcases List.mem_cons.mp hmem with rfl | hmem
        · exact lt_irrefl _ hs
        · exact hs.not_ge (hp.2.1.1 s hmem).2
      rw [built, groups_passes, hbuilt, List.flatMap_cons, hspan,
        cellGroups_congr t p c.mode c.groups span hcell]
      rfl

/-- The ids of the groups built for some cells follow those of the groups built before. -/
theorem ids_built (todo : List Span) (c : Chart σ) :
    (built t p limit todo c).map Group.id =
      List.range' c.groups (built t p limit todo c).length ∧
    (todo.foldl (Chart.fill t p limit) c).groups =
      c.groups + (built t p limit todo c).length := by
  induction todo generalizing c with
  | nil => exact ⟨rfl, rfl⟩
  | cons span todo ih =>
    obtain ⟨hids, hgroups⟩ := ih (c.fill t p limit span)
    rw [groups_fill] at hids hgroups
    rw [built, groups_passes, List.map_append, List.length_append, hids, List.foldl_cons, hgroups,
      (gathered_cellGroups c.mode c.cell c.groups span).ids, List.range'_append_1]
    exact ⟨rfl, Nat.add_assoc _ _ _⟩

theorem filled_empty (t : Task σ) (p : Provider) (mode : Packing) (limit : Option Nat) :
    Filled t p limit (fun _ => 0) [] { sentence := t.sentence, mode } :=
  ⟨fun _ _ => rfl, by simp, by simp, by simp, by simp⟩

/-- **Every cell of a chart holds the groups it should.** -/
theorem filled_parse (t : Task σ) (mode : Packing) (limit : Option Nat) :
    ∃ first, Filled t (t.grammar.provider t.lexicon) limit first (spans t.sentence.length)
      (parse t mode limit) := by
  obtain ⟨first, hfilled, -⟩ := (filled_empty t _ mode limit).foldl (List.nil_append _).symm
  exact ⟨first, hfilled⟩

theorem mode_parse (t : Task σ) (mode : Packing) (limit : Option Nat) :
    (parse t mode limit).mode = mode :=
  List.foldlRecOn (motive := fun c : Chart σ => c.mode = mode) _ _ rfl fun _ h _ _ => h

theorem sentence_parse (t : Task σ) (mode : Packing) (limit : Option Nat) :
    (parse t mode limit).sentence = t.sentence :=
  List.foldlRecOn (motive := fun c : Chart σ => c.sentence = t.sentence) _ _ rfl fun _ h _ _ => h

/-- The cell of a span in the sentence. -/
theorem cell_parse (t : Task σ) (mode : Packing) (limit : Option Nat) {span : Span}
    (h : span.start < span.stop ∧ span.stop ≤ t.sentence.length) :
    ∃ firstId, (parse t mode limit).cell span = kept limit
      (cellGroups t (t.grammar.provider t.lexicon) mode (parse t mode limit).cell firstId span) := by
  obtain ⟨first, hf⟩ := filled_parse t mode limit
  have hcell := hf.cell_eq span (mem_spans.mpr h)
  rw [mode_parse] at hcell
  exact ⟨first span, hcell⟩

/-- No other span has a cell. -/
theorem cell_parse_eq_nil (t : Task σ) (mode : Packing) (limit : Option Nat) {span : Span}
    (h : ¬ (span.start < span.stop ∧ span.stop ≤ t.sentence.length)) :
    (parse t mode limit).cell span = [] := by
  obtain ⟨first, hf⟩ := filled_parse t mode limit
  exact hf.outside span fun hs => h (mem_spans.mp hs)

/-- The groups of a cell have its span, which lies in the sentence. -/
theorem span_of_mem_cell {t : Task σ} {mode : Packing} {limit : Option Nat} {span : Span}
    {g : Group σ} (h : g ∈ (parse t mode limit).cell span) :
    g.span = span ∧ span.start < span.stop ∧ span.stop ≤ t.sentence.length := by
  by_cases hspan : span.start < span.stop ∧ span.stop ≤ t.sentence.length
  · obtain ⟨firstId, he⟩ := cell_parse t mode limit hspan
    rw [he] at h
    obtain ⟨s, rest, hg, -⟩ := (gathered_cellGroups mode _ firstId span).made g (mem_of_mem_kept h)
    exact ⟨by rw [hg, Group.span_gather], hspan⟩
  · rw [cell_parse_eq_nil t mode limit hspan] at h
    cases h

end Chart

end Categorial
