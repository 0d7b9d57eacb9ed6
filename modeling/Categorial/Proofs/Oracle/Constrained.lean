import Categorial.Proofs.Beam.Completed
import Categorial.Proofs.Chart.Actions
import Categorial.Proofs.Oracle.Windows
import Categorial.Proofs.Standing
import Mathlib

/-!
# Searches under a gold filter

The gold actions of an exact filter are those of all derivations of a group. A search that allows no
others can recombine them, but finds no other derivation of the category of the group; it may complete
derivations of another category if a unary rule turns that into the one of the group.

* `GoldFilter.goldWindow`: the window that is searched; `GoldFilter.enumerates_search`.
* `Oracle.FromGroup.accept_iff`: gold actions are those that the group uses.
* `Oracle.FromGroup.parses_of_mem_trees`, `Oracle.FromGroup.mem_trees_of_parses`: the derivations of
  the window and those of the group.
* `Oracle.FromGroup.parseTrees_le`, `Oracle.FromGroup.parseTrees_eq_parsesFor`: what the filter counts
  and what the completed states stand for.
* **`Oracle.exact_filter_counts`**: how many derivations a search under an exact filter finds.
* **`Oracle.exact_filter_completes`**: which ones it completes.
-/

namespace Categorial

/-- The task with another score and with all actions allowed. -/
def Task.rescored {σ τ : Type} (t : Task σ) (score : Action → τ) : Task τ :=
  { grammar := t.grammar, lexicon := t.lexicon, sentence := t.sentence, score }

/-! ## Searches -/

namespace GoldFilter

theorem accept_of_mem_gold {f : GoldFilter} {a : Action} (ha : a ∈ f.gold)
    (hspan : a.span = f.window) : f.accept a = true := by
  rw [accept, hspan, Bool.and_eq_true]
  exact ⟨Window.contains_iff.mpr ⟨le_rfl, le_rfl⟩, List.any_eq_true.mpr ⟨a, ha, a.same_self⟩⟩

theorem exists_mem_gold {f : GoldFilter} {a : Action} (ha : f.accept a = true) :
    ∃ x ∈ f.gold, a.same x = true := by
  rw [accept, Bool.and_eq_true] at ha
  exact List.any_eq_true.mp ha.2

variable {τ : Type}

/-- The window that is searched under a filter. -/
def goldWindow (f : GoldFilter) (t : Task τ) : Window τ :=
  .ofTask { t with accept := f.accept } f.window

variable [Score τ] {f : GoldFilter} {t : Task τ} {mode : Packing} {width : Nat}

omit [Score τ] in
theorem goldWindow_eq (h : f.Inside t.sentence.length) : Window.ofTask { t with accept := f.accept }
    (Beam.clip t.sentence.length f.window) = f.goldWindow t := by
  rw [h.clip_window, goldWindow]

theorem enumerates_search (h : f.Inside t.sentence.length)
    (hfit : ∀ b ∈ (f.search t mode width).1.beams,
      Beam.Fits (f.goldWindow t) mode (Beam.widthOf width) b) :
    Beam.Enumerates (f.goldWindow t) (Beam.maxSteps (f.goldWindow t).span)
      (f.search t mode width).1.completed := by
  rw [← goldWindow_eq h] at hfit ⊢
  refine Beam.enumerates_parse ?_ hfit
  change (Beam.clip t.sentence.length f.window).start ≤ (Beam.clip t.sentence.length f.window).stop
  rw [h.clip_window]
  exact h.1

theorem exists_fits_search (h : f.Inside t.sentence.length) (mode : Packing) :
    ∃ width, ∀ b ∈ (f.search t mode width).1.beams,
      Beam.Fits (f.goldWindow t) mode (Beam.widthOf width) b := by
  obtain ⟨least, hleast⟩ := Beam.exists_fits { t with accept := f.accept } f.window mode
  rw [← goldWindow_eq h]
  exact ⟨least, hleast least le_rfl⟩

/-- The completed states of a search replay to derivations of the window. -/
theorem parses_of_mem_completed (h : f.Inside t.sentence.length) {s : State τ}
    (hs : s ∈ (f.search t mode width).1.completed) : ∃ d, (f.goldWindow t).Parses d ∧
      s.category? = some d.category ∧
      (f.search t mode width).1.tree? t.grammar.rules s = some d := by
  obtain ⟨⟨k, hreached⟩, hcomplete⟩ := Beam.reached_of_mem_completed hs
  change Beam.Reached (.ofTask _ (Beam.clip t.sentence.length f.window)) k s at hreached
  change (Window.ofTask _ (Beam.clip t.sentence.length f.window)).isComplete s = true at hcomplete
  rw [goldWindow_eq h] at hreached hcomplete
  obtain ⟨d, hd, hc, he⟩ := hreached.exists_parses rfl h.2 hcomplete s.actionsRev_mem_paths
  have hreplay : Derivation.replay t.sentence t.grammar.rules d.actions = some d :=
    hd.licensed.replay_actions
  refine ⟨d, hd, hc, ?_⟩
  rw [Beam.Parse.tree?, State.actions, he, List.reverse_reverse]
  exact hreplay

/-- A search that cuts nothing completes every derivation of the window. -/
theorem exists_mem_completed (h : f.Inside t.sentence.length)
    (hfit : ∀ b ∈ (f.search t mode width).1.beams,
      Beam.Fits (f.goldWindow t) mode (Beam.widthOf width) b) {d : Derivation}
    (hd : (f.goldWindow t).Parses d) :
    ∃ s ∈ (f.search t mode width).1.completed, s.category? = some d.category := by
  have hmem := ((enumerates_search h hfit).mem_paths_statesFor rfl h.2).mpr ⟨d, hd, rfl, rfl⟩
  obtain ⟨s, hs, -⟩ := List.mem_flatMap.mp hmem
  obtain ⟨hs, hc⟩ := List.mem_filter.mp hs
  exact ⟨s, hs, of_decide_eq_true hc⟩

end GoldFilter

namespace Oracle

open Chart

variable {σ τ : Type} [Score σ]

/-! ## The derivations of a window -/

namespace FromGroup

variable {t : Task σ} {limit : Option Nat} {f : GoldFilter} {g : Group σ}
  (h : FromGroup t.grammar (parse t .packed limit) f g)

include h

/-- The gold actions are those that the group uses. -/
theorem accept_iff {a : Action} : f.accept a = true ↔ ∃ b, g.Uses b ∧ a.same b = true := by
  obtain ⟨sem, rfl⟩ := h.filter_eq
  rw [GoldFilter.accept, Bool.and_eq_true]
  change g.span.contains a.span = true ∧ g.actions.has a = true ↔ _
  rw [has_actions_iff h.mem]
  refine ⟨And.right, fun hb => ⟨?_, hb⟩⟩
  obtain ⟨b, hb, hsame⟩ := hb
  rw [(Action.same_iff.mp hsame).1]
  exact Window.contains_iff.mpr ((encloses_cell h.mem).inside b hb)

theorem accept_of_uses {a : Action} (ha : g.Uses a) : f.accept a = true :=
  h.accept_iff.mpr ⟨a, ha, a.same_self⟩

theorem root_of_whole (hwhole : g.span = ⟨0, t.sentence.length⟩) :
    t.grammar.isRoot g.category.syn = true := by
  refine h.root ?_
  rw [hwhole, full, sentence_parse]

variable (hu : t.Uniform) (score : Action → τ)

include hu

/-- The derivations of the group are derivations of the window. -/
theorem parses_of_mem_trees {d : Derivation} (hd : d ∈ g.trees t.sentence) :
    (f.goldWindow (t.rescored score)).Parses d ∧ d.category = g.category := by
  obtain ⟨hmakes, hspan, hcat, -⟩ := yields_cell (keepsLookups_isFirst hu) h.mem
  refine ⟨⟨(hmakes d hd).1, (hspan d hd).trans h.inside.1.symm, fun a ha => ?_, fun hwhole => ?_⟩,
    hcat d hd⟩
  · exact h.accept_of_uses (Group.uses_of_mem_trees hd a ha)
  · rw [hcat d hd]
    exact h.root_of_whole (h.inside.1.symm.trans hwhole)

/-- If the chart is not pruned, recombined gold actions make no other derivations of the category. -/
theorem mem_trees_of_parses (hlimit : limit = none) {d : Derivation}
    (hd : (f.goldWindow (t.rescored score)).Parses d) (hc : d.category = g.category) :
    d ∈ g.trees t.sentence := by
  subst hlimit
  have hspan : d.span = g.span := hd.span.trans h.inside.1
  have hallowed : ∀ a ∈ d.actions, t.accept a = true := by
    intro a ha
    obtain ⟨b, hb, hsame⟩ := h.accept_iff.mp (hd.allowed a ha)
    rw [hu a b hsame]
    exact (encloses_cell h.mem).allowed b hb
  obtain ⟨g', hg', hd'⟩ := exhausts_parse hu .packed g.span d ⟨hd.licensed, hallowed⟩ hspan nofun
  have hholds := holds_parse hu none g.span
  have hc' := (hholds.yields g' hg').category d hd'
  rwa [List.inj_on_of_nodup_map hholds.nodup h.mem hg' (hc.symm.trans hc')]

omit hu in
theorem category_eq : f.category = some g.category := by
  obtain ⟨sem, rfl⟩ := h.filter_eq
  rfl

/-- The filter counts the derivations of the group, and there are some. -/
theorem parseTrees_eq : f.parseTrees = min Count.cap (g.trees t.sentence).length ∧
    g.trees t.sentence ≠ [] := by
  refine ⟨?_, (realizes_cell (keepsLookups_isFirst hu) h.mem).nonempty⟩
  obtain ⟨sem, rfl⟩ := h.filter_eq
  exact ((holds_parse hu limit g.span).counted g h.mem).parses_eq

section Enumerated

variable {l : List (State τ)} (henum : Beam.Enumerates (f.goldWindow (t.rescored score))
  (Beam.maxSteps (f.goldWindow (t.rescored score)).span) l)

include henum

omit hu in
theorem mem_paths_iff {as : List Action} :
    as ∈ (Beam.statesFor l g.category).flatMap State.paths ↔
      ∃ d, (f.goldWindow (t.rescored score)).Parses d ∧ d.category = g.category ∧
        as = d.actions.reverse :=
  henum.mem_paths_statesFor rfl h.inside.2.2

/-- The paths of completed states include those of all derivations of the group. -/
theorem subset_paths : (g.trees t.sentence).map (fun d => d.actions.reverse) ⊆
    (Beam.statesFor l g.category).flatMap State.paths := by
  intro as has
  obtain ⟨d, hd, rfl⟩ := List.mem_map.mp has
  obtain ⟨hp, hc⟩ := h.parses_of_mem_trees hu score hd
  exact (h.mem_paths_iff score henum).mpr ⟨d, hp, hc, rfl⟩

theorem parseTrees_le : f.parseTrees ≤ Beam.parsesFor l g.category := by
  rw [(h.parseTrees_eq hu).1, henum.parsesFor_eq]
  have htrees := (holds_parse hu limit g.span).nodup_paths h.mem
  have hlen := (List.subperm_of_subset htrees (h.subset_paths hu score henum)).length_le
  rw [List.length_map] at hlen
  exact min_le_min_left _ hlen

theorem parseTrees_eq_parsesFor (hlimit : limit = none) :
    f.parseTrees = Beam.parsesFor l g.category := by
  have htrees := (holds_parse hu limit g.span).nodup_paths h.mem
  have hpaths : ((Beam.statesFor l g.category).flatMap State.paths).Nodup :=
    ((List.filter_sublist).flatMap _).nodup henum.nodup
  have hperm : ((g.trees t.sentence).map fun d => d.actions.reverse).Perm
      ((Beam.statesFor l g.category).flatMap State.paths) := by
    refine (List.perm_ext_iff_of_nodup htrees hpaths).mpr fun as =>
      ⟨fun has => h.subset_paths hu score henum has, fun has => ?_⟩
    obtain ⟨d, hp, hc, rfl⟩ := (h.mem_paths_iff score henum).mp has
    exact List.mem_map_of_mem (h.mem_trees_of_parses hu score hlimit hp hc)
  rw [(h.parseTrees_eq hu).1, henum.parsesFor_eq, ← hperm.length_eq, List.length_map]

end Enumerated

omit hu in
/-- A derivation of the window has the category of the group, or one that a unary rule turns into
it. -/
theorem category_of_parses {d : Derivation} (hd : (f.goldWindow (t.rescored score)).Parses d) :
    d.category = g.category ∨
      ∃ id, (id, g.category) ∈ t.grammar.rules.unaryResults t.grammar.sig d.category := by
  obtain ⟨b, hb, hsame⟩ := h.accept_iff.mp (hd.allowed _ d.action_mem_actions)
  obtain ⟨hspan, -, hcat⟩ := Action.same_iff.mp hsame
  have hwhole : b.span = g.span := hspan.symm.trans (hd.span.trans h.inside.1)
  rw [Derivation.category, hcat]
  exact ((encloses_cell h.mem).whole b hb hwhole).imp_right And.right

/-- Every gold action over the window that may end a derivation of it does. -/
theorem exists_parses_of_uses {a : Action} (ha : g.Uses a) (hspan : a.span = g.span)
    (hroot : g.span = ⟨0, t.sentence.length⟩ → t.grammar.isRoot a.category.syn = true) :
    ∃ d, (f.goldWindow (t.rescored score)).Parses d ∧ d.category = a.category := by
  obtain ⟨d, rfl, hmakes, hused⟩ := (realizes_cell (keepsLookups_isFirst hu) h.mem).used a ha
  refine ⟨d, ⟨hmakes.1, hspan.trans h.inside.1.symm, fun b hb => ?_, fun hwhole => ?_⟩, rfl⟩
  · exact h.accept_of_uses (hused b hb)
  · exact hroot (h.inside.1.symm.trans hwhole)

/-- A search with a wide beam completes a state for every gold action that may end a derivation. -/
theorem exists_completed_of_uses [Score τ] (mode : Packing) {a : Action} (ha : g.Uses a)
    (hspan : a.span = g.span)
    (hroot : g.span = ⟨0, t.sentence.length⟩ → t.grammar.isRoot a.category.syn = true) :
    ∃ width, ∃ s ∈ (f.search (t.rescored score) mode width).1.completed,
      s.category? = some a.category := by
  have hinside : f.Inside (t.rescored score).sentence.length := h.inside.2
  obtain ⟨d, hd, hc⟩ := h.exists_parses_of_uses hu score ha hspan hroot
  obtain ⟨width, hfit⟩ := GoldFilter.exists_fits_search hinside mode
  rw [← hc]
  exact ⟨width, GoldFilter.exists_mem_completed hinside hfit hd⟩

end FromGroup

/-! ## What a search under an exact filter finds -/

variable {t : Task σ} {o : Options} {target : Term} {f : GoldFilter}

omit [Score σ] in
theorem uniform_targetTask (t : Task σ) (target : Term) : (targetTask t target).Uniform := by
  intro a b hsame
  simp only [targetTask, mentionsOnly, (Action.same_iff.mp hsame).2.2]

omit [Score σ] in
theorem rescored_targetTask (t : Task σ) (target : Term) (score : Action → τ) :
    (targetTask t target).rescored score = t.rescored score := rfl

variable [Score τ]

/-- **Exact oracle and constrained search agree.** Under each filter of an exact or discontiguous
oracle, a search of the window that cuts nothing completes states of the category of the filter, and
they stand for at least as many derivations as the filter counts, and for as many if the chart of the
oracle was not pruned. -/
theorem exact_filter_counts (t : Task σ) (o : Options) (target : Term) (f : GoldFilter)
    (hf : build t o target = .exact f ∨ ∃ fs, build t o target = .discontiguous fs ∧ f ∈ fs)
    (score : Action → τ) (mode : Packing) (width : Nat)
    (hfit : ∀ b ∈ (f.search (t.rescored score) mode width).1.beams,
      Beam.Fits (f.goldWindow (t.rescored score)) mode (Beam.widthOf width) b) :
    ∃ c, f.category = some c ∧
      (∃ s ∈ (f.search (t.rescored score) mode width).1.completed, s.category? = some c) ∧
      1 ≤ f.parseTrees ∧
      f.parseTrees ≤ Beam.parsesFor (f.search (t.rescored score) mode width).1.completed c ∧
      (o.limit = none → f.parseTrees =
        Beam.parsesFor (f.search (t.rescored score) mode width).1.completed c) := by
  have hgroup : ∃ g, FromGroup (targetTask t target).grammar
      (parse (targetTask t target) .packed o.limit) f g := by
    rcases hf with hf | ⟨fs, hfs, hf⟩
    · exact (fromGroup_of_exact hf).imp fun g h => h.1
    · exact fromGroup_of_discontiguous hfs hf
  obtain ⟨g, h⟩ := hgroup
  have hu := uniform_targetTask t target
  rw [← rescored_targetTask t target] at hfit ⊢
  have hinside : f.Inside ((targetTask t target).rescored score).sentence.length := h.inside.2
  have henum := GoldFilter.enumerates_search hinside hfit
  obtain ⟨hparses, hne⟩ := h.parseTrees_eq hu
  refine ⟨g.category, h.category_eq, ?_, ?_, h.parseTrees_le hu score henum,
    h.parseTrees_eq_parsesFor hu score henum⟩
  · obtain ⟨d, hd⟩ := List.exists_mem_of_ne_nil _ hne
    obtain ⟨hp, hc⟩ := h.parses_of_mem_trees hu score hd
    rw [← hc]
    exact GoldFilter.exists_mem_completed hinside hfit hp
  · rw [hparses]
    exact le_min (by decide : 1 ≤ Count.cap) (List.length_pos_of_ne_nil hne)

/-- The word `dogs`, a noun that a unary rule makes a noun phrase; both may stand at the root. -/
def dogs : Task ℤ where
  grammar := {
    sig := { constants := .ofList [("dog", .arrow .entity .truth),
      ("the", .arrow (.arrow .entity .truth) .entity)] }
    rules := ⟨(RuleSet.standard 1).rules ++ [.unary (.typeShifting "bare" (.atom "N") (.atom "NP")
      (.const "the" (.arrow (.arrow .entity .truth) .entity)))]⟩ }
  lexicon := .ofList [⟨["dogs"], ⟨.atom "N", some (.const "dog" (.arrow .entity .truth))⟩, .fixed⟩]
  sentence := ["dogs"]
  score _ := 0

/-- The meaning of `dogs` as a noun phrase. -/
def theDogs : Term :=
  .app (.const "the" (.arrow (.arrow .entity .truth) .entity))
    (.const "dog" (.arrow .entity .truth))

/-- The oracle of `dogs` is exact: the noun phrase means the target, and its one step builds on a
noun. -/
theorem build_dogs : ∃ g ∈ (parse (targetTask dogs theDogs) .packed none).derivations dogs.grammar,
    build dogs {} theDogs = .exact (exactFilter theDogs g) ∧
      g.category = ⟨.atom "NP", some theDogs⟩ ∧ ∃ a, g.Uses a ∧ a.span = ⟨0, 1⟩ ∧
        a.category = ⟨.atom "N", some (.const "dog" (.arrow .entity .truth))⟩ := by
  have hfind : (((parse (targetTask dogs theDogs) .packed none).derivations dogs.grammar).find?
      fun d => meaning? dogs.grammar d.category == some theDogs).map
        (fun g => (g.category, (g.steps.flatMap fun s => s.parts.flatMap fun p =>
          p.2.steps.map Step.action).map fun a => (a.span, a.category))) =
      some (⟨.atom "NP", some theDogs⟩,
        [(⟨0, 1⟩, ⟨.atom "N", some (.const "dog" (.arrow .entity .truth))⟩)]) := by
    cbv
  have htarget : dogs.grammar.underspecify theDogs.normalize = theDogs := by
    cbv
  obtain ⟨g, hg, he⟩ := Option.map_eq_some_iff.mp hfind
  obtain ⟨hc, hbelow⟩ := Prod.mk.inj he
  refine ⟨g, List.mem_of_find?_eq_some hg, build_eq_exact ?_, hc, ?_⟩
  · rw [htarget, rootFilter?]
    exact Option.map_eq_some_iff.mpr ⟨g, hg, rfl⟩
  · obtain ⟨a, ha, hspan⟩ := List.mem_map.mp (hbelow ▸ List.mem_singleton_self _)
    obtain ⟨s, hs, ha⟩ := List.mem_flatMap.mp ha
    obtain ⟨p, hp, ha⟩ := List.mem_flatMap.mp ha
    obtain ⟨s', hs', rfl⟩ := List.mem_map.mp ha
    obtain ⟨hspan, hcat⟩ := Prod.mk.inj hspan
    exact ⟨s'.action, .part hs hp (.step hs'), hspan, hcat⟩

/-- With some beam, the search under the filter of `dogs` counts as many noun phrases as the filter. -/
theorem exact_filter_counts_dogs : ∃ f width, build dogs {} theDogs = .exact f ∧
    (∀ b ∈ (f.search (dogs.rescored dogs.score) .packed width).1.beams,
      Beam.Fits (f.goldWindow (dogs.rescored dogs.score)) .packed (Beam.widthOf width) b) ∧
    ∃ c, f.category = some c ∧ 1 ≤ f.parseTrees ∧ f.parseTrees =
      Beam.parsesFor (f.search (dogs.rescored dogs.score) .packed width).1.completed c := by
  obtain ⟨g, hg, hbuild, -⟩ := build_dogs
  have hinside := (fromGroup_of_mem_derivations hg theDogs).1.inside.2
  obtain ⟨width, hfit⟩ := GoldFilter.exists_fits_search (t := dogs.rescored dogs.score) hinside .packed
  obtain ⟨c, hc, -, hone, -, hall⟩ :=
    exact_filter_counts dogs {} theDogs _ (Or.inl hbuild) dogs.score .packed width hfit
  exact ⟨_, width, hbuild, hfit, c, hc, hone, hall rfl⟩

/-- **What a search under the filter of an exact oracle completes.** Whatever the width of the beam,
every completed state replays to a derivation of the whole sentence that has a root category: that of
the filter, or one that a unary rule turns into it. It is that of the filter, whatever the width, if
and only if no gold action over the whole sentence has another root category. -/
theorem exact_filter_completes (t : Task σ) (o : Options) (target : Term) (f : GoldFilter)
    (hf : build t o target = .exact f) (score : Action → τ) (mode : Packing) :
    ∃ c, f.category = some c ∧
      (∀ width, ∀ s ∈ (f.search (t.rescored score) mode width).1.completed,
        ∃ d, (f.search (t.rescored score) mode width).1.tree? t.grammar.rules s = some d ∧
          d.span = f.window ∧ t.grammar.isRoot d.category.syn = true ∧
          (d.category = c ∨
            ∃ id, (id, c) ∈ t.grammar.rules.unaryResults t.grammar.sig d.category)) ∧
      ((∀ width, ∀ s ∈ (f.search (t.rescored score) mode width).1.completed,
        ∃ d, (f.search (t.rescored score) mode width).1.tree? t.grammar.rules s = some d ∧
          d.category = c ∧ d.span = f.window) ↔
        ∀ a ∈ f.gold, a.span = f.window → t.grammar.isRoot a.category.syn = true →
          a.category = c) := by
  obtain ⟨g, h, hfull⟩ := fromGroup_of_exact hf
  have hu := uniform_targetTask t target
  have hwhole : f.window = ⟨0, t.sentence.length⟩ := by
    rw [h.inside.1, hfull, full, sentence_parse]
    rfl
  rw [← rescored_targetTask t target]
  have hinside : f.Inside ((targetTask t target).rescored score).sentence.length := h.inside.2
  have hreplay : ∀ width,
      ∀ s ∈ (f.search ((targetTask t target).rescored score) mode width).1.completed,
        ∃ d, (f.goldWindow ((targetTask t target).rescored score)).Parses d ∧
          s.category? = some d.category ∧
          (f.search ((targetTask t target).rescored score) mode width).1.tree? t.grammar.rules s =
            some d := fun width s hs => GoldFilter.parses_of_mem_completed hinside hs
  refine ⟨g.category, h.category_eq, fun width s hs => ?_, fun hall a ha hspan hroot => ?_,
    fun hgold width s hs => ?_⟩
  · obtain ⟨d, hd, -, htree⟩ := hreplay width s hs
    exact ⟨d, htree, hd.span, hd.root hwhole, h.category_of_parses score hd⟩
  · obtain ⟨b, hb, hsame⟩ := h.accept_iff.mp (GoldFilter.accept_of_mem_gold ha hspan)
    obtain ⟨hspan', -, hcat⟩ := Action.same_iff.mp hsame
    obtain ⟨width, s, hs, hsc⟩ := h.exists_completed_of_uses hu score mode hb
      (hspan'.symm.trans (hspan.trans h.inside.1)) fun _ => hcat ▸ hroot
    -- the state replays to a derivation of its own category
    obtain ⟨d, htree, hc, -⟩ := hall width s hs
    obtain ⟨d', -, hc', htree'⟩ := hreplay width s hs
    obtain rfl : d = d' := Option.some_inj.mp (htree.symm.trans htree')
    rw [hcat, ← hc]
    exact Option.some_inj.mp (hsc.symm.trans hc')
  · obtain ⟨d, hd, -, htree⟩ := hreplay width s hs
    obtain ⟨x, hx, hsame⟩ := GoldFilter.exists_mem_gold (hd.allowed _ d.action_mem_actions)
    obtain ⟨hspan, -, hcat⟩ := Action.same_iff.mp hsame
    refine ⟨d, htree, ?_, hd.span⟩
    rw [Derivation.category, hcat]
    exact hgold x hx (hspan.symm.trans hd.span) (hcat ▸ hd.root hwhole)

/-- Every state that is completed under the filter of `dogs` replays to a derivation of the word. -/
theorem exact_filter_completes_dogs : ∃ f, build dogs {} theDogs = .exact f ∧ ∀ width,
    ∀ s ∈ (f.search (dogs.rescored dogs.score) .packed width).1.completed,
      ∃ d, (f.search (dogs.rescored dogs.score) .packed width).1.tree? dogs.grammar.rules s =
        some d ∧ d.span = f.window := by
  obtain ⟨g, hg, hbuild, -⟩ := build_dogs
  obtain ⟨c, -, hcompleted, -⟩ :=
    exact_filter_completes dogs {} theDogs _ hbuild dogs.score .packed
  refine ⟨_, hbuild, fun width s hs => ?_⟩
  obtain ⟨d, htree, hspan, -⟩ := hcompleted width s hs
  exact ⟨d, htree, hspan⟩

/-- The search under the filter of `dogs` also completes the noun, which does not mean the target. -/
theorem exact_filter_completes_other : ∃ f, build dogs {} theDogs = .exact f ∧
    ∃ width, ∃ s ∈ (f.search dogs .packed width).1.completed,
      ∃ d, (f.search dogs .packed width).1.tree? dogs.grammar.rules s = some d ∧
        f.category ≠ some d.category := by
  obtain ⟨g, hg, hbuild, hc, a, ha, hspan, hcat⟩ := build_dogs
  obtain ⟨h, hfull⟩ := fromGroup_of_mem_derivations hg theDogs
  have hwhole : g.span = ⟨0, 1⟩ := by
    rw [hfull, full, sentence_parse]
    rfl
  have hroot : dogs.grammar.isRoot a.category.syn = true := by
    rw [hcat]
    decide
  obtain ⟨width, s, hs, hsc⟩ := h.exists_completed_of_uses (uniform_targetTask dogs theDogs)
    dogs.score .packed ha (hspan.trans hwhole.symm) fun _ => hroot
  obtain ⟨d, -, hc', htree⟩ := GoldFilter.parses_of_mem_completed h.inside.2 hs
  refine ⟨_, hbuild, width, s, hs, d, htree, ?_⟩
  have hnoun : d.category = a.category := Option.some_inj.mp (hc'.symm.trans hsc)
  rw [hnoun, hcat]
  change some g.category ≠ _
  rw [hc]
  decide

end Oracle

end Categorial
