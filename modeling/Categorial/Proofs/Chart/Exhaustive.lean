import Categorial.Proofs.Chart.Forest

/-!
# Charts enumerate the licensed derivations

In a packed chart the trees of a group are licensed derivations of its category over its span, each
of them once, and the group counts them. In an unpruned chart, packed or not, every grammatical
derivation of allowed actions is a tree of some group; a packed chart looks up first entries only.

* `Chart.Holds`: some groups over a span hold licensed derivations and count them.
* `Chart.Exhausts`: some groups over a span have all derivations.
* **`Chart.holds_parse`**, **`Chart.exhausts_parse`**: the cells of a chart.
-/

namespace Categorial

variable {σ : Type} [Score σ]

namespace Chart

open Draft

/-- The groups hold licensed derivations over the span and count them, and categories tell the groups
apart; `base` tells that no unary rule was applied yet. -/
structure Holds (t : Task σ) (base : Bool) (span : Span) (gs : List (Group σ)) : Prop where
  counted : ∀ g ∈ gs, Counted (g.trees t.sentence) g.parses
  yields : ∀ g ∈ gs, Yields t ((t.grammar.provider t.lexicon).IsFirst t.sentence) base span g
  nodup : (gs.map Group.category).Nodup

variable {t : Task σ} {base : Bool} {span : Span} {gs : List (Group σ)}

omit [Score σ] in
/-- A derivation is in one group only. -/
theorem Holds.eq_of_mem_trees (h : Holds t base span gs) {g g' : Group σ} (hg : g ∈ gs)
    (hg' : g' ∈ gs) {d : Derivation} (hd : d ∈ g.trees t.sentence)
    (hd' : d ∈ g'.trees t.sentence) : g = g' := by
  have hc := (h.yields g hg).category d hd
  have hc' := (h.yields g' hg').category d hd'
  exact List.inj_on_of_nodup_map h.nodup hg hg' (hc.symm.trans hc')

omit [Score σ] in
/-- The derivations of a group are told apart by their actions. -/
theorem Holds.nodup_paths (h : Holds t base span gs) {g : Group σ} (hg : g ∈ gs) :
    ((g.trees t.sentence).map fun d => d.actions.reverse).Nodup := by
  have hgrammatical := fun d hd => ((h.yields g hg).makes d hd).1
  refine (h.counted g hg).nodup.map_on fun d hd d' hd' he => ?_
  exact (hgrammatical d hd).eq_of_actions_eq (hgrammatical d' hd') (List.reverse_injective he)

omit [Score σ] in
theorem Holds.sublist {gs' : List (Group σ)} (h : Holds t base span gs) {l : List (Group σ)}
    (hsub : gs'.Sublist l) (hperm : l.Perm gs) : Holds t base span gs' where
  counted g hg := h.counted g (hperm.mem_iff.mp (hsub.subset hg))
  yields g hg := h.yields g (hperm.mem_iff.mp (hsub.subset hg))
  nodup := (hsub.map Group.category).nodup ((hperm.map Group.category).nodup_iff.mpr h.nodup)

/-! ## Steps of different kinds -/

section Children

variable {cell : Span → List (Group σ)} {s : Step σ (Group σ)}

omit [Score σ] in
theorem children_of_mem_lexicalSteps {p : Provider} (hs : s ∈ lexicalSteps t p span) :
    s.children.length = 0 := by
  unfold lexicalSteps at hs
  split_ifs at hs
  · obtain ⟨e, -, rfl⟩ := List.mem_map.mp hs
    rfl
  · cases hs

theorem children_of_mem_binarySteps (hs : s ∈ binarySteps t cell span) : s.children.length = 2 := by
  obtain ⟨k, l, r, x, -, -, -, -, -, rfl⟩ := mem_binarySteps.mp hs
  rfl

theorem children_of_mem_unarySteps (hs : s ∈ unarySteps t span gs) : s.children.length = 1 := by
  obtain ⟨g, p, x, -, -, -, rfl⟩ := mem_unarySteps.mp hs
  rfl

end Children

/-! ## Different steps make different derivations -/

section Packed

variable {cell : Span → List (Group σ)}

/-- Ids tell the groups of all cells apart. -/
def Sharp (cell : Span → List (Group σ)) : Prop :=
  ∀ s s', ∀ g ∈ cell s, ∀ g' ∈ cell s', g.id = g'.id → g = g'

theorem sharp_parse (t : Task σ) (mode : Packing) (limit : Option Nat) :
    Sharp (parse t mode limit).cell := by
  intro s s' g hg g' hg' hid
  obtain ⟨first, hf⟩ := filled_parse t mode limit
  exact (hf.id_inj hg hg' hid).2

theorem distinct_binarySteps (hsharp : Sharp cell)
    (hcell : ∀ s : Span, s.length < span.length → Holds t false s (cell s)) :
    Distinct t.sentence (binarySteps t cell span) := by
  have hleft : ∀ k, span.start < k → k < span.stop →
      Holds t false ⟨span.start, k⟩ (cell ⟨span.start, k⟩) := fun k h₁ h₂ =>
    hcell _ (by simp only [Span.length]; omega)
  have hright : ∀ k, span.start < k → k < span.stop →
      Holds t false ⟨k, span.stop⟩ (cell ⟨k, span.stop⟩) := fun k h₁ h₂ =>
    hcell _ (by simp only [Span.length]; omega)
  refine ⟨fun s hs => ?_, fun s hs s' hs' d hd hd' => ?_, fun s hs s' hs' hsame _ => ?_⟩
  · obtain ⟨k, l, r, x, h₁, h₂, hl, hr, -, rfl⟩ := mem_binarySteps.mp hs
    rw [binaryStep, Group.treesOfStep]
    exact ((hleft k h₁ h₂).counted l hl).binary ((hright k h₁ h₂).counted r hr) _
  · obtain ⟨k, l, r, x, h₁, h₂, hl, hr, -, rfl⟩ := mem_binarySteps.mp hs
    obtain ⟨k', l', r', x', h₁', h₂', hl', hr', -, rfl⟩ := mem_binarySteps.mp hs'
    obtain ⟨dl, hdl, dr, hdr, rfl⟩ := Group.mem_treesOfStep_binary.mp hd
    obtain ⟨dl', hdl', dr', hdr', he⟩ := Group.mem_treesOfStep_binary.mp hd'
    obtain ⟨ha, rfl, rfl⟩ := Derivation.binary.inj he
    -- the left part ends where the right part begins, so both steps split the span alike
    have hk := ((hleft k h₁ h₂).yields l hl).span dl hdl
    have hk' := ((hleft k' h₁' h₂').yields l' hl').span dl hdl'
    obtain rfl : k = k' := congrArg Span.stop (hk.symm.trans hk')
    obtain rfl := (hleft k h₁ h₂).eq_of_mem_trees hl hl' hdl hdl'
    obtain rfl := (hright k h₁ h₂).eq_of_mem_trees hr hr' hdr hdr'
    refine Step.sameBuild_iff.mpr ⟨rfl, ?_⟩
    change (ruleAction span x').same (ruleAction span x) = true
    rw [ha, Action.same_self]
  · obtain ⟨k, l, r, x, h₁, h₂, hl, hr, -, rfl⟩ := mem_binarySteps.mp hs
    obtain ⟨k', l', r', x', h₁', h₂', hl', hr', -, rfl⟩ := mem_binarySteps.mp hs'
    obtain ⟨hids, ha⟩ := Step.sameBuild_iff.mp hsame
    obtain ⟨hid, hrest⟩ := List.cons.inj hids
    obtain rfl := hsharp _ _ l hl l' hl' hid
    obtain rfl := hsharp _ _ r hr r' hr' (List.cons.inj hrest).1
    obtain ⟨-, hrule, hcat⟩ := Action.same_iff.mp ha
    obtain rfl : x = x' := Prod.ext hrule hcat
    rfl

theorem distinct_unarySteps (h : Holds t true span gs) (hids : (gs.map Group.id).Nodup) :
    Distinct t.sentence (unarySteps t span gs) := by
  refine ⟨fun s hs => ?_, fun s hs s' hs' d hd hd' => ?_, fun s hs s' hs' hsame _ => ?_⟩
  · obtain ⟨g, p, x, hg, hp, -, rfl⟩ := mem_unarySteps.mp hs
    rw [unaryStep, Group.treesOfStep]
    exact (h.counted g hg).unary _
  · obtain ⟨g, p, x, hg, -, -, rfl⟩ := mem_unarySteps.mp hs
    obtain ⟨g', p', x', hg', -, -, rfl⟩ := mem_unarySteps.mp hs'
    obtain ⟨dc, hdc, rfl⟩ := Group.mem_treesOfStep_unary.mp hd
    obtain ⟨dc', hdc', he⟩ := Group.mem_treesOfStep_unary.mp hd'
    obtain ⟨ha, rfl⟩ := Derivation.unary.inj he
    obtain rfl := h.eq_of_mem_trees hg hg' hdc hdc'
    refine Step.sameBuild_iff.mpr ⟨rfl, ?_⟩
    change (ruleAction span x').same (ruleAction span x) = true
    rw [ha, Action.same_self]
  · obtain ⟨g, p, x, hg, hp, -, rfl⟩ := mem_unarySteps.mp hs
    obtain ⟨g', p', x', hg', hp', -, rfl⟩ := mem_unarySteps.mp hs'
    obtain ⟨hid, ha⟩ := Step.sameBuild_iff.mp hsame
    obtain rfl := List.inj_on_of_nodup_map hids hg hg' (List.cons.inj hid).1
    obtain rfl : p = p' := Option.some_inj.mp (hp.symm.trans hp')
    obtain ⟨-, hrule, hcat⟩ := Action.same_iff.mp ha
    obtain rfl : x = x' := Prod.ext hrule hcat
    rfl

theorem distinct_baseSteps (hspan : span.stop ≤ t.sentence.length) (hsharp : Sharp cell)
    (hcell : ∀ s : Span, s.length < span.length → Holds t false s (cell s)) :
    Distinct t.sentence (baseSteps t (t.grammar.provider t.lexicon) cell span) := by
  refine ((distinct_lexicalSteps hspan).mono fun s hs => (mem_allowed.mp hs).1).append
    ((distinct_binarySteps hsharp hcell).mono fun s hs => (mem_allowed.mp hs).1) fun s hs s' hs' => ?_
  rw [children_of_mem_lexicalSteps (mem_allowed.mp hs).1,
    children_of_mem_binarySteps (mem_allowed.mp hs').1]
  decide

theorem distinct_cellSteps (hspan : span.stop ≤ t.sentence.length) (hsharp : Sharp cell)
    (hcell : ∀ s : Span, s.length < span.length → Holds t false s (cell s)) {firstId : Nat}
    (hbase : Holds t true span
      (baseGroups t (t.grammar.provider t.lexicon) .packed cell firstId span)) :
    Distinct t.sentence
      (cellSteps t (t.grammar.provider t.lexicon) .packed cell firstId span) := by
  have hids : ((baseGroups t (t.grammar.provider t.lexicon) .packed cell firstId span).map
      Group.id).Nodup := by
    rw [(gathered_baseGroups .packed cell firstId span).ids]
    exact List.nodup_range'
  refine (distinct_baseSteps hspan hsharp hcell).append
    ((distinct_unarySteps hbase hids).mono fun s hs => (mem_allowed.mp hs).1) fun s hs s' hs' => ?_
  rw [children_of_mem_unarySteps (mem_allowed.mp hs').1]
  rcases List.mem_append.mp hs with hs | hs
  · rw [children_of_mem_lexicalSteps (mem_allowed.mp hs).1]
    decide
  · rw [children_of_mem_binarySteps (mem_allowed.mp hs).1]
    decide

variable {limit : Option Nat}

theorem holds_baseGroups (hu : t.Uniform) (firstId : Nat)
    (hspan : span.start < span.stop ∧ span.stop ≤ t.sentence.length)
    (hcell : ∀ s : Span, s.length < span.length →
      Holds t false s ((parse t .packed limit).cell s)) :
    Holds t true span (baseGroups t (t.grammar.provider t.lexicon) .packed
      (parse t .packed limit).cell firstId span) := by
  have hg := gathered_baseGroups (t := t) (p := t.grammar.provider t.lexicon) .packed
    (parse t .packed limit).cell firstId span
  have hd := distinct_baseSteps hspan.2 (sharp_parse t .packed limit) hcell
  exact ⟨fun g hmem => hd.counted_group (hg.made g hmem),
    (yields_groups (keepsLookups_isFirst hu) hspan firstId).1, hg.nodup rfl⟩

theorem holds_cellGroups (hu : t.Uniform) (firstId : Nat)
    (hspan : span.start < span.stop ∧ span.stop ≤ t.sentence.length)
    (hcell : ∀ s : Span, s.length < span.length →
      Holds t false s ((parse t .packed limit).cell s)) :
    Holds t false span (cellGroups t (t.grammar.provider t.lexicon) .packed
      (parse t .packed limit).cell firstId span) := by
  have hg := gathered_cellGroups (t := t) (p := t.grammar.provider t.lexicon) .packed
    (parse t .packed limit).cell firstId span
  have hd := distinct_cellSteps hspan.2 (sharp_parse t .packed limit) hcell
    (holds_baseGroups hu firstId hspan hcell)
  exact ⟨fun g hmem => hd.counted_group (hg.made g hmem),
    (yields_groups (keepsLookups_isFirst hu) hspan firstId).2, hg.nodup rfl⟩

/-- **The cells of a packed chart hold licensed derivations over their spans, each one once.** -/
theorem holds_parse (hu : t.Uniform) (limit : Option Nat) (span : Span) :
    Holds t false span ((parse t .packed limit).cell span) := by
  induction hn : span.length using Nat.strong_induction_on generalizing span with
  | _ n ih =>
  by_cases hspan : span.start < span.stop ∧ span.stop ≤ t.sentence.length
  · obtain ⟨firstId, he⟩ := cell_parse t .packed limit hspan
    have hcell := holds_cellGroups hu firstId hspan fun s hs => ih s.length (hn ▸ hs) s rfl
    obtain ⟨l, hsub, hperm⟩ := kept_sublist_perm limit (cellGroups t
      (t.grammar.provider t.lexicon) .packed (parse t .packed limit).cell firstId span)
    rw [he]
    exact hcell.sublist hsub hperm
  · rw [cell_parse_eq_nil t .packed limit hspan]
    exact ⟨by simp, by simp, List.nodup_nil⟩

end Packed

/-! ## Every derivation is found -/

/-- The groups have all derivations over the span that look up entries in `P`; `base` tells that those
that end with a unary rule are not among them. -/
def Exhausts (t : Task σ) (P : Span → Entry → Prop) (base : Bool) (span : Span)
    (gs : List (Group σ)) : Prop :=
  ∀ d, t.Makes P d → d.span = span → (base = true → d.isUnary = false) →
    ∃ g ∈ gs, d ∈ g.trees t.sentence

variable {mode : Packing} {firstId : Nat} {cell : Span → List (Group σ)} {P : Span → Entry → Prop}

/-- The steps of offered entries and of rules are kept by groups, so the groups have the derivations
that the steps make. -/
theorem Exhausts.of_gathered (hu : t.Uniform)
    (hspan : span.start < span.stop ∧ span.stop ≤ t.sentence.length)
    {more : List (Step σ (Group σ))}
    (hg : Gathered mode firstId span
      (allowed t (lexicalSteps t (t.grammar.provider t.lexicon) span) ++ more) gs)
    (hd : mode = .packed → Distinct t.sentence
      (allowed t (lexicalSteps t (t.grammar.provider t.lexicon) span) ++ more))
    (hmore : ∀ d, t.Makes (t.Offers mode) d → d.span = span → (base = true → d.isUnary = false) → arity d ≠ 0 →
      ∃ s ∈ more, s.children ≠ [] ∧ d ∈ Group.treesOfStep t.sentence s) :
    Exhausts t (t.Offers mode) base span gs := by
  intro d hl hs hb
  by_cases harity : arity d = 0
  · obtain ⟨hgr, hacc⟩ := hl
    cases hgr with
    | @leaf span' e _ _ he =>
      obtain rfl : span' = span := hs
      have hacc : t.accept (.lookup span' e) = true := hacc _ (List.mem_singleton_self _)
      have hmem : lexicalStep t span' e ∈
          allowed t (lexicalSteps t (t.grammar.provider t.lexicon) span') ++ more :=
        List.mem_append_left _
          (mem_allowed.mpr ⟨(mem_lexicalSteps hspan.2).mpr ⟨e, he.mem, rfl⟩, hacc⟩)
      have hkept : ∃ g ∈ gs, lexicalStep t span' e ∈ g.steps := by
        cases mode with
        | packed =>
          obtain ⟨g, hmem, hc⟩ := hg.covers _ hmem
          exact ⟨g, hmem, (lexicalStep_mem_steps hspan.2 hu hacc (hg.made g hmem) he.mem
            hc.symm).mpr he⟩
        | unpacked =>
          obtain ⟨g, hmem, he⟩ := hg.alone rfl _ hmem
          exact ⟨g, hmem, by rw [he]; exact List.mem_singleton_self _⟩
      obtain ⟨g, hmem, hs⟩ := hkept
      refine ⟨g, hmem, Group.mem_trees.mpr ⟨_, hs, ?_⟩⟩
      rw [lexicalStep, Group.treesOfStep]
      exact List.mem_singleton_self _
    | unary => cases harity
    | binary => cases harity
  · obtain ⟨s, hs, hne, hds⟩ := hmore d hl hs hb harity
    have hkept : ∃ g ∈ gs, s ∈ g.steps := by
      cases mode with
      | packed =>
        obtain ⟨g, hmem, hc⟩ := hg.covers s (List.mem_append_right _ hs)
        exact ⟨g, hmem, (hd rfl).mem_steps (hg.made g hmem) (List.mem_append_right _ hs) hc.symm hne⟩
      | unpacked =>
        obtain ⟨g, hmem, he⟩ := hg.alone rfl s (List.mem_append_right _ hs)
        exact ⟨g, hmem, by rw [he]; exact List.mem_singleton_self s⟩
    obtain ⟨g, hmem, hs⟩ := hkept
    exact ⟨g, hmem, Group.mem_trees.mpr ⟨s, hs, hds⟩⟩

/-- The parts of a derivation that ends with a binary rule are in the cells of shorter spans. -/
theorem exists_binaryStep
    (hcell : ∀ s : Span, s.length < span.length → Exhausts t P false s (cell s) ∧
      ∀ g ∈ cell s, ∀ d ∈ g.trees t.sentence, d.category = g.category) {a : Action}
    {dl dr : Derivation} (h : t.Makes P (.binary a dl dr)) (hspan : a.span = span) :
    ∃ s ∈ allowed t (binarySteps t cell span), s.children ≠ [] ∧
      .binary a dl dr ∈ Group.treesOfStep t.sentence s := by
  obtain ⟨hgr, hacc⟩ := h
  cases hgr with
  | @binary _ _ id c hl hr hadj hx =>
    obtain rfl : span = ⟨dl.span.start, dr.span.stop⟩ := hspan.symm
    have hli := hl.inside
    have hri := hr.inside
    simp only [Derivation.actions, List.mem_append, List.mem_singleton] at hacc
    obtain ⟨hleft, hlc⟩ := hcell dl.span (by simp only [Span.length]; omega)
    obtain ⟨hright, hrc⟩ := hcell dr.span (by simp only [Span.length]; omega)
    obtain ⟨gl, hgl, hdl⟩ :=
      hleft dl ⟨hl, fun a ha => hacc a (Or.inl (Or.inl ha))⟩ rfl (by simp)
    obtain ⟨gr, hgr, hdr⟩ :=
      hright dr ⟨hr, fun a ha => hacc a (Or.inl (Or.inr ha))⟩ rfl (by simp)
    rw [hlc gl hgl dl hdl, hrc gr hgr dr hdr] at hx
    refine ⟨binaryStep t _ gl gr (id, c), mem_allowed.mpr ⟨mem_binarySteps.mpr
      ⟨dl.span.stop, gl, gr, (id, c), hli.1, ?_, hgl, ?_, hx, rfl⟩, hacc _ (Or.inr rfl)⟩,
      List.cons_ne_nil _ _, Group.mem_treesOfStep_binary.mpr ⟨dl, hdl, dr, hdr, rfl⟩⟩
    · change dl.span.stop < dr.span.stop
      rw [hadj]
      exact hri.1
    · rw [hadj]
      exact hgr

/-- The part of a derivation that ends with a unary rule is in a group made before. -/
theorem exists_unaryStep (hgs : Exhausts t P true span gs)
    (hcat : ∀ g ∈ gs, ∀ d ∈ g.trees t.sentence, d.category = g.category)
    (hbase : ∀ g ∈ gs, g.base.isSome = true) {a : Action} {dc : Derivation}
    (h : t.Makes P (.unary a dc)) (hspan : a.span = span) :
    ∃ s ∈ allowed t (unarySteps t span gs), s.children ≠ [] ∧
      .unary a dc ∈ Group.treesOfStep t.sentence s := by
  obtain ⟨hgr, hacc⟩ := h
  cases hgr with
  | @unary _ rule c hl hu hx =>
    obtain rfl : dc.span = span := hspan
    simp only [Derivation.actions, List.mem_append, List.mem_singleton] at hacc
    obtain ⟨g, hg, hdc⟩ := hgs dc ⟨hl, fun a ha => hacc a (Or.inl ha)⟩ rfl fun _ => hu
    obtain ⟨p, hp⟩ := Option.isSome_iff_exists.mp (hbase g hg)
    rw [hcat g hg dc hdc] at hx
    exact ⟨unaryStep t _ g p (rule, c), mem_allowed.mpr ⟨mem_unarySteps.mpr
      ⟨g, p, (rule, c), hg, hp, hx, rfl⟩, hacc _ (Or.inr rfl)⟩, List.cons_ne_nil _ _,
      Group.mem_treesOfStep_unary.mpr ⟨dc, hdc, rfl⟩⟩

/-- **The cells of an unpruned chart have all derivations over their spans.** -/
theorem exhausts_parse (hu : t.Uniform) (mode : Packing) (span : Span) :
    Exhausts t (t.Offers mode) false span ((parse t mode none).cell span) := by
  induction hn : span.length using Nat.strong_induction_on generalizing span with
  | _ n ih =>
  by_cases hspan : span.start < span.stop ∧ span.stop ≤ t.sentence.length
  · obtain ⟨firstId, he⟩ := cell_parse t mode none hspan
    have hlookup := keepsLookups_offers hu mode
    have hcell : ∀ s : Span, s.length < span.length →
        Exhausts t (t.Offers mode) false s ((parse t mode none).cell s) ∧
          ∀ g ∈ (parse t mode none).cell s, ∀ d ∈ g.trees t.sentence, d.category = g.category :=
      fun s hs => ⟨ih s.length (hn ▸ hs) s rfl, fun g hg => (yields_cell hlookup hg).category⟩
    have hpacked : mode = .packed → ∀ s : Span, s.length < span.length →
        Holds t false s ((parse t mode none).cell s) := by
      rintro rfl s -
      exact holds_parse hu none s
    set bases := baseGroups t (t.grammar.provider t.lexicon) mode (parse t mode none).cell firstId
      span with hbases
    have hbase : Exhausts t (t.Offers mode) true span bases := by
      refine .of_gathered hu hspan (gathered_baseGroups mode _ firstId span) (fun hm => ?_)
        fun d hl hs hb harity => ?_
      · exact distinct_baseSteps hspan.2 (sharp_parse t mode none) (hpacked hm)
      · cases d with
        | leaf a ws => exact absurd rfl harity
        | unary a d => cases hb rfl
        | binary a l r => exact exists_binaryStep hcell hl hs
    have hwhole : Exhausts t (t.Offers mode) false span (cellGroups t (t.grammar.provider t.lexicon) mode
        (parse t mode none).cell firstId span) := by
      have hg := gathered_cellGroups (t := t) (p := t.grammar.provider t.lexicon) mode
        (parse t mode none).cell firstId span
      have hd : mode = .packed → Distinct t.sentence (cellSteps t (t.grammar.provider t.lexicon) mode
          (parse t mode none).cell firstId span) := by
        rintro rfl
        exact distinct_cellSteps hspan.2 (sharp_parse t .packed none) (hpacked rfl)
          (holds_baseGroups hu firstId hspan (hpacked rfl))
      rw [cellSteps, baseSteps, List.append_assoc] at hg hd
      refine .of_gathered hu hspan hg hd fun d hl hs _ harity => ?_
      cases d with
      | leaf a ws => exact absurd rfl harity
      | unary a d =>
        obtain ⟨s, hs, hd⟩ := exists_unaryStep hbase
          (fun g hg => ((yields_groups hlookup hspan firstId).1 g hg).category)
          (fun g hg => isSome_base_of_mem_baseGroups hg) hl hs
        exact ⟨s, List.mem_append_right _ hs, hd⟩
      | binary a l r =>
        obtain ⟨s, hs, hd⟩ := exists_binaryStep hcell hl hs
        exact ⟨s, List.mem_append_left _ hs, hd⟩
    intro d hl hs hb
    obtain ⟨g, hg, hd⟩ := hwhole d hl hs hb
    exact ⟨g, he ▸ (kept_none_perm _).mem_iff.mpr hg, hd⟩
  · intro d hl hs _
    rw [← hs] at hspan
    exact absurd hl.1.inside hspan

end Chart

end Categorial
