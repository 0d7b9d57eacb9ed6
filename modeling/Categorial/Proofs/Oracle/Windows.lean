import Categorial.Oracle.Build
import Categorial.Proofs.Chart.Cells

/-!
# Where the filters of an oracle come from

The filter of an exact oracle is that of a root group over the whole sentence, and the filters of a
discontiguous one are those of groups over parts of it. The windows of all filters lie in the sentence.

* `Oracle.build_cases`: the findings of an oracle.
* `Oracle.candidates`, `Oracle.exists_of_mem_candidates`: the spans that may serve as windows.
* `Oracle.FromGroup`: the filter is that of a group; `Oracle.fromGroup_of_exact`,
  `Oracle.fromGroup_of_discontiguous`.
* `GoldFilter.Inside`, `Oracle.Sound`: where the windows are; **`Oracle.sound_build`**.
-/

namespace Categorial

/-- The window lies in a sentence of `n` tokens. -/
def GoldFilter.Inside (n : Nat) (f : GoldFilter) : Prop :=
  f.window.start ≤ f.window.stop ∧ f.window.stop ≤ n

theorem GoldFilter.Inside.clip_window {n : Nat} {f : GoldFilter} (h : f.Inside n) :
    Beam.clip n f.window = f.window := by
  obtain ⟨h₁, h₂⟩ := h
  rw [Beam.clip, min_eq_left (h₁.trans h₂), min_eq_left h₂]

namespace Oracle

/-- The windows lie in a sentence of `n` tokens, and an exact one is all of it. -/
def Sound (n : Nat) : Oracle → Prop
  | exact f => f.window = ⟨0, n⟩
  | earlyUpdate f => f.Inside n
  | discontiguous fs => ∀ f ∈ fs, f.Inside n
  | unreachable => True

variable {σ : Type} [Score σ]

/-- The task in which an oracle looks for a target: no action mentions a constant outside it. -/
def targetTask (t : Task σ) (target : Term) : Task σ :=
  { t with accept := mentionsOnly t.grammar (t.grammar.underspecify target.normalize).constants }

/-- The findings of an oracle come from the chart of the target. -/
theorem build_cases (t : Task σ) (o : Options) (target : Term) :
    (∃ f, build t o target = .exact f ∧ rootFilter? t.grammar
      (Chart.parse (targetTask t target) .packed o.limit)
      (t.grammar.underspecify target.normalize) = some f) ∨
    (∃ fs, build t o target = .discontiguous fs ∧ fs = windows t.grammar
      (Chart.parse (targetTask t target) .packed o.limit)
      (t.grammar.underspecify target.normalize)) ∨
    (build t o target = .earlyUpdate (contributing t.grammar
      (Chart.parse (targetTask t target) .packed o.limit)
      (t.grammar.underspecify target.normalize))) ∨
    build t o target = .unreachable := by
  have hchart : targetChart t o.limit (t.grammar.underspecify target.normalize) =
      Chart.parse (targetTask t target) .packed o.limit := rfl
  unfold build
  dsimp only
  rw [hchart]
  split
  · next f hf => exact Or.inl ⟨f, rfl, hf⟩
  · have hparts : (if o.discontiguous = true then windows t.grammar
        (Chart.parse (targetTask t target) .packed o.limit)
        (t.grammar.underspecify target.normalize) else []).isEmpty = false →
        (if o.discontiguous = true then windows t.grammar
          (Chart.parse (targetTask t target) .packed o.limit)
          (t.grammar.underspecify target.normalize) else []) = windows t.grammar
            (Chart.parse (targetTask t target) .packed o.limit)
            (t.grammar.underspecify target.normalize) := by
      split_ifs
      · exact fun _ => rfl
      · exact nofun
    generalize (if o.discontiguous = true then _ else _) = parts at hparts
    split_ifs with hne
    · exact Or.inr (Or.inl ⟨parts, rfl, hparts (by simpa using hne)⟩)
    · exact Or.inr (Or.inr (Or.inl rfl))
    · exact Or.inr (Or.inr (Or.inr rfl))

/-- The oracle is exact if a root group means the target. -/
theorem build_eq_exact {t : Task σ} {o : Options} {target : Term} {f : GoldFilter}
    (h : rootFilter? t.grammar (Chart.parse (targetTask t target) .packed o.limit)
      (t.grammar.underspecify target.normalize) = some f) : build t o target = .exact f := by
  have hchart : targetChart t o.limit (t.grammar.underspecify target.normalize) =
      Chart.parse (targetTask t target) .packed o.limit := rfl
  unfold build
  dsimp only
  rw [hchart, h]

/-- The filter is that of a group of the chart; over the whole sentence the group has a root
category. -/
structure FromGroup (G : Grammar) (c : Chart σ) (f : GoldFilter) (g : Group σ) : Prop where
  mem : g ∈ c.cell g.span
  root : g.span = c.full → G.isRoot g.category.syn = true
  filter_eq : ∃ sem, f = exactFilter sem g

variable {t : Task σ} {mode : Packing} {limit : Option Nat} {G : Grammar} {target : Term}
  {f : GoldFilter}

theorem fromGroup_of_mem_derivations {g : Group σ}
    (hg : g ∈ (Chart.parse t mode limit).derivations G) (sem : Term) :
    FromGroup G (Chart.parse t mode limit) (exactFilter sem g) g ∧
      g.span = (Chart.parse t mode limit).full := by
  obtain ⟨hcell, hroot⟩ := List.mem_filter.mp hg
  have hspan := (Chart.span_of_mem_cell hcell).1
  exact ⟨⟨hspan ▸ hcell, fun _ => hroot, sem, rfl⟩, hspan⟩

theorem fromGroup_rootFilter? (h : rootFilter? G (Chart.parse t mode limit) target = some f) :
    ∃ g, FromGroup G (Chart.parse t mode limit) f g ∧ g.span = (Chart.parse t mode limit).full := by
  obtain ⟨g, hg, rfl⟩ := Option.map_eq_some_iff.mp h
  exact ⟨g, fromGroup_of_mem_derivations (List.mem_of_find?_eq_some hg) target⟩

omit [Score σ] in
theorem mem_of_mem_takeDisjoint {taken : List Span} {l : List (Span × GoldFilter)}
    (h : f ∈ takeDisjoint taken l) : ∃ x ∈ l, f = x.2 := by
  induction l generalizing taken with
  | nil => cases h
  | cons x l ih =>
    rw [takeDisjoint] at h
    split_ifs at h
    · obtain ⟨y, hy, hf⟩ := ih h
      exact ⟨y, List.mem_cons_of_mem x hy, hf⟩
    · rcases List.mem_cons.mp h with rfl | h
      · exact ⟨x, List.mem_cons_self, rfl⟩
      · obtain ⟨y, hy, hf⟩ := ih h
        exact ⟨y, List.mem_cons_of_mem x hy, hf⟩

omit [Score σ] in
theorem of_partOf?_eq_some {groups : List (Group σ)} {d : Group σ} {sem : Term}
    (h : partOf? G target groups = some (d, sem)) :
    d ∈ groups ∧ meaning? G d.category = some sem ∧ target.contains sem = true := by
  obtain ⟨d', hd', he⟩ := List.exists_of_findSome?_eq_some h
  split at he
  · next hsem =>
    split_ifs at he with hpart
    obtain ⟨rfl, rfl⟩ := Prod.mk.inj (Option.some_inj.mp he)
    exact ⟨hd', hsem, hpart⟩
  · cases he

/-- The spans smaller than the sentence that may serve as windows, with their filters. -/
def candidates (G : Grammar) (c : Chart σ) (target : Term) : List (Span × GoldFilter) :=
  c.cells.filterMap fun (span, groups) =>
    if span = c.full then none
    else (partOf? G target groups).map fun (d, sem) => (span, exactFilter sem d)

/-- The filter of a candidate is that of a group over its span whose meaning is part of the target. -/
theorem exists_of_mem_candidates {x : Span × GoldFilter}
    (h : x ∈ candidates G (Chart.parse t mode limit) target) :
    x.1 ≠ (Chart.parse t mode limit).full ∧ ∃ g ∈ (Chart.parse t mode limit).cell x.1, ∃ sem,
      meaning? G g.category = some sem ∧ target.contains sem = true ∧ x.2 = exactFilter sem g := by
  obtain ⟨⟨span, groups⟩, hcell, he⟩ := List.mem_filterMap.mp h
  dsimp only at he
  split_ifs at he with hne
  obtain ⟨⟨g, sem⟩, hg, rfl⟩ := Option.map_eq_some_iff.mp he
  obtain ⟨first, hf⟩ := Chart.filled_parse t mode limit
  have hgroups : (Chart.parse t mode limit).cell span = groups :=
    (hf.mem_filled _ ((List.mergeSort_perm _ _).mem_iff.mp hcell)).2
  obtain ⟨hmem, hsem, hpart⟩ := of_partOf?_eq_some hg
  exact ⟨hne, g, hgroups ▸ hmem, sem, hsem, hpart, rfl⟩

/-- A window was a candidate. -/
theorem exists_mem_candidates_of_mem_windows (h : f ∈ windows G (Chart.parse t mode limit) target) :
    ∃ x ∈ candidates G (Chart.parse t mode limit) target, f = x.2 := by
  obtain ⟨x, hx, hf⟩ := mem_of_mem_takeDisjoint ((List.mergeSort_perm _ _).mem_iff.mp h)
  exact ⟨x, (List.mergeSort_perm _ _).mem_iff.mp hx, hf⟩

theorem fromGroup_of_mem_windows (h : f ∈ windows G (Chart.parse t mode limit) target) :
    ∃ g, FromGroup G (Chart.parse t mode limit) f g := by
  obtain ⟨x, hx, rfl⟩ := exists_mem_candidates_of_mem_windows h
  obtain ⟨hne, g, hg, sem, -, -, hfilter⟩ := exists_of_mem_candidates hx
  have hspan := (Chart.span_of_mem_cell hg).1
  exact ⟨g, hspan ▸ hg, fun hfull => absurd (hspan ▸ hfull) hne, sem, hfilter⟩

/-- The filter of an exact oracle is that of a root group. -/
theorem fromGroup_of_exact {o : Options} (hf : build t o target = .exact f) :
    ∃ g, FromGroup (targetTask t target).grammar
        (Chart.parse (targetTask t target) .packed o.limit) f g ∧
      g.span = (Chart.parse (targetTask t target) .packed o.limit).full := by
  rcases build_cases t o target with ⟨f', he, h⟩ | ⟨fs, he, -⟩ | he | he <;> rw [hf] at he <;>
    cases he
  exact fromGroup_rootFilter? h

/-- The filters of a discontiguous oracle are those of groups. -/
theorem fromGroup_of_discontiguous {o : Options} {fs : List GoldFilter}
    (hfs : build t o target = .discontiguous fs) (hf : f ∈ fs) :
    ∃ g, FromGroup (targetTask t target).grammar
      (Chart.parse (targetTask t target) .packed o.limit) f g := by
  rcases build_cases t o target with ⟨f', he, -⟩ | ⟨fs', he, h⟩ | he | he <;> rw [hfs] at he <;>
    cases he
  exact fromGroup_of_mem_windows (h ▸ hf)

theorem FromGroup.inside {g : Group σ} (h : FromGroup G (Chart.parse t mode limit) f g) :
    f.window = g.span ∧ f.Inside t.sentence.length := by
  obtain ⟨sem, rfl⟩ := h.filter_eq
  obtain ⟨-, hlt, hle⟩ := Chart.span_of_mem_cell h.mem
  exact ⟨rfl, hlt.le, hle⟩

/-- **The windows of an oracle lie in its sentence.** -/
theorem sound_build (t : Task σ) (o : Options) (target : Term) :
    (build t o target).Sound t.sentence.length := by
  have hfull : (Chart.parse (targetTask t target) .packed o.limit).full =
      ⟨0, t.sentence.length⟩ := by
    rw [Chart.full, Chart.sentence_parse]
    rfl
  rcases build_cases t o target with ⟨f, he, h⟩ | ⟨fs, he, h⟩ | he | he <;> rw [he]
  · obtain ⟨g, hg, hspan⟩ := fromGroup_rootFilter? h
    exact hg.inside.1.trans (hspan.trans hfull)
  · intro f hf
    obtain ⟨g, hg⟩ := fromGroup_of_mem_windows (h ▸ hf)
    exact hg.inside.2
  · change (Chart.full _).start ≤ (Chart.full _).stop ∧ (Chart.full _).stop ≤ _
    rw [hfull]
    exact ⟨Nat.zero_le _, le_rfl⟩
  · trivial

end Oracle

end Categorial
