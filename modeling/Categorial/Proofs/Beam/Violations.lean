import Categorial.Proofs.Beam.Ending
import Categorial.Proofs.Beam.EntryOrder
import Categorial.Proofs.Beam.Gold

/-!
# Violations are genuine

The search that follows a gold sequence is the unpacked search of the window; the marks change nothing
in it. Legal sequences are told apart by their actions, so the mark is on the state that the gold leads
to and on no other. Where the gold falls out of the beam, or is not the first at its end, the first
state of the beam has another legal sequence, and it ranks at least as high as the gold because the beam
is in order. A gold that survives to the end is compared with the best completed state in the same way.

* `accumulated`: scores added up from left to right, as unmerged states do.
* `Beam.Follows`, `Beam.Follows.step`: the marked beam is a beam of the search.
* `Beam.Genuine`: a violation by a legal sequence that ranks no lower.
* `Beam.Wins`: the gold is first where the search for a violation ends.
* `Beam.Settles`, `Beam.settles_followGold`: what the search for a violation finds.
* **`violation_genuine`**: the result for every legal gold sequence.
-/

namespace Categorial

variable {σ : Type}

/-- The scores of the actions, added up from left to right. -/
def accumulated [Score σ] (score : Action → σ) (as : List Action) : σ :=
  as.foldl (fun x a => Score.add x (score a)) Score.zero

/-- Legal sequences are told apart by a sequence with the same actions as one of them. -/
theorem Window.Leads.sameActions_iff {w : Window σ} {as bs gold : List Action}
    {stack stack' : List Item} {cursor cursor' : Nat} (has : w.Leads as.reverse stack cursor)
    (hbs : w.Leads bs.reverse stack' cursor') (hgold : sameActions gold bs = true) :
    sameActions as gold = true ↔ as = bs := by
  rw [Categorial.sameActions_iff] at hgold ⊢
  rw [hgold]
  refine ⟨fun h => ?_, fun h => h ▸ rfl⟩
  have hrev : as.reverse.map Action.bare = bs.reverse.map Action.bare := by
    rw [List.map_reverse, List.map_reverse, h]
  exact List.reverse_injective (has.eq_of_bare hbs hrev)

theorem sameActions_take {as bs : List Action} (h : sameActions as bs = true) (k : Nat) :
    sameActions (as.take k) (bs.take k) = true := by
  rw [sameActions_iff] at h ⊢
  rw [List.map_take, List.map_take, h]

theorem length_eq_of_sameActions {as bs : List Action} (h : sameActions as bs = true) :
    as.length = bs.length := by
  simpa using congrArg List.length (sameActions_iff.mp h)

/-- The next actions of sequences with the same actions. -/
theorem exists_drop_of_sameActions {as bs : List Action} (h : sameActions as bs = true) {k : Nat}
    (hk : k < bs.length) : ∃ a as' b bs', as.drop k = a :: as' ∧ bs.drop k = b :: bs' ∧
      a.same b = true := by
  have hlen := length_eq_of_sameActions h
  obtain ⟨b, bs', hb⟩ := List.exists_cons_of_ne_nil (mt List.drop_eq_nil_iff.mp hk.not_ge)
  obtain ⟨a, as', ha⟩ := List.exists_cons_of_ne_nil (mt List.drop_eq_nil_iff.mp (hlen ▸ hk.not_ge))
  have hdrop : (as.drop k).map Action.bare = (bs.drop k).map Action.bare := by
    rw [List.map_drop, List.map_drop, sameActions_iff.mp h]
  rw [ha, hb, List.map_cons, List.map_cons, List.cons.injEq, ← Action.same_iff_bare] at hdrop
  exact ⟨a, as', b, bs', ha, hb, hdrop.1⟩

namespace Beam

variable [Score σ] {w : Window σ} {width k : Nat}

/-! ## Unmerged states -/

omit [Score σ] in
theorem Reached.leads_actions {s : State σ} (h : Reached w k s) :
    w.Leads s.actions.reverse s.stack s.cursor := by
  rw [State.actions, List.reverse_reverse]
  exact h.leads_actionsRev

omit [Score σ] in
theorem Reached.length_actions {s : State σ} (h : Reached w k s) : s.actions.length = k := by
  rw [State.actions, List.length_reverse, h.length _ s.actionsRev_mem_paths]

theorem accumulated_apply {s : State σ} (h : s.score = accumulated w.score s.actions) (m : Move) :
    (w.apply s m).score = accumulated w.score (w.apply s m).actions := by
  rw [actions_apply, accumulated, List.foldl_append]
  change Score.add s.score _ = Score.add (accumulated w.score s.actions) _
  rw [h]

/-- The score of a state that is not merged is that of its actions. -/
theorem score_eq_accumulated {s : State σ} (hs : s ∈ (runAt w .unpacked width k).beam) :
    s.score = accumulated w.score s.actions := by
  induction k generalizing s with
  | zero =>
    rw [List.mem_singleton.mp hs]
    rfl
  | succ k ih =>
    rw [runAt_succ] at hs
    obtain ⟨s', hs', m, -, -, rfl⟩ := mem_candidates.mp (mem_merged_of_mem_advance hs)
    exact accumulated_apply (ih hs') m

theorem reached_runAt {mode : Packing} {s : State σ} (hs : s ∈ (runAt w mode width k).beam) :
    Reached w k s := by
  have h := (legalRun_runAt w mode width k).beam s hs
  rwa [length_earlier_runAt] at h

theorem mem_completed_runAt {mode : Packing} {n : Nat} {s : State σ} :
    s ∈ (runAt w mode width n).completed ↔
      ∃ k < n, s ∈ (runAt w mode width (k + 1)).beam ∧ w.isComplete s = true := by
  induction n with
  | zero => exact iff_of_false List.not_mem_nil fun ⟨k, hk, _⟩ => k.not_lt_zero hk
  | succ n ih =>
    rw [runAt_succ, completed_advance, List.mem_append, ih, List.mem_filter, ← runAt_succ]
    constructor
    · rintro (⟨k, hk, hs⟩ | hs)
      · exact ⟨k, hk.trans n.lt_succ_self, hs⟩
      · exact ⟨n, n.lt_succ_self, hs⟩
    · rintro ⟨k, hk, hs⟩
      rcases Nat.lt_succ_iff_lt_or_eq.mp hk with hk | rfl
      · exact .inl ⟨k, hk, hs⟩
      · exact .inr hs

/-- The state that a legal sequence leads to is met before the beam is cut. -/
theorem exists_candidate (haccept : ∀ a, w.accept a = true) {path : List Action} {a : Action}
    {rest : List Action} {x : State σ} (hlegal : w.Leads path.reverse x.stack x.cursor)
    (hrest : path.drop k = a :: rest) {s : State σ} (hs : s ∈ (runAt w .unpacked width k).beam)
    (hactions : s.actions = path.take k) :
    ∃ g ∈ candidates w (runAt w .unpacked width k).beam, g.actions = path.take (k + 1) ∧
      g.score = accumulated w.score g.actions := by
  obtain ⟨s₀, m, hm, ha, hs₀⟩ := exists_goldMove hlegal hrest
  have hleads := (reached_runAt hs).leads_actions
  rw [hactions] at hleads
  obtain ⟨hstack, hcursor⟩ := hs₀.unique hleads
  rw [Window.moves_congr hstack hcursor] at hm
  refine ⟨w.apply s m, mem_candidates.mpr ⟨s, hs, m, hm, haccept _, rfl⟩, ?_,
    accumulated_apply (score_eq_accumulated hs) m⟩
  rw [actions_apply, hactions, ha, take_succ_of_drop hrest]

/-! ## Ranking -/

section Ranking

variable [Std.TransCmp (Score.cmp : σ → σ → Ordering)]

/-- The first of the states in order is no worse than any of them. -/
theorem cmp_score_of_head? {l : List (State σ)} {s : State σ} (hs : (byRank l).head? = some s)
    {g : State σ} (hg : g ∈ l) : (Score.cmp g.score s.score).isLE = true := by
  have hsorted : (byRank l).Pairwise fun s t => (s.rank t).isLE = true :=
    List.pairwise_mergeSort (fun _ _ _ => Std.TransCmp.isLE_trans) (isLE_total State.rank) l
  obtain ⟨rest, hl⟩ := List.head?_eq_some_iff.mp hs
  have hmem := mem_byRank.mpr hg
  rw [hl] at hsorted hmem
  rcases List.mem_cons.mp hmem with rfl | hmem
  · have hself : Score.cmp g.score g.score = .eq := Std.ReflCmp.compare_self
    rw [hself]
    rfl
  · exact (Ordering.isLE_then_iff_and.mp ((List.pairwise_cons.mp hsorted).1 g hmem)).1

end Ranking

/-! ## Marked beams -/

/-- The states of the marked beam are those of the search after `k` steps, and the mark is on the one
that the path has led to. -/
structure Follows (w : Window σ) (width : Nat) (path : List Action) (k : Nat)
    (beam : List (Marked σ)) : Prop where
  states : beam.map Marked.state = (runAt w .unpacked width k).beam
  marks : ∀ m ∈ beam, m.isGold = true ↔ m.state.actions = path.take k

/-- The marks do not change what the states of a beam lead to. -/
theorem map_state_markedMoves (haccept : ∀ a, w.accept a = true) (gold : Option Action)
    (beam : List (Marked σ)) :
    (beam.flatMap (markedMoves w gold)).map Marked.state = candidates w (beam.map Marked.state) := by
  rw [List.map_flatMap, candidates, List.flatMap_map]
  refine List.flatMap_congr fun m _ => ?_
  rw [markedMoves, List.map_map, List.filter_eq_self.mpr fun m _ => haccept m.action]
  rfl

theorem map_state_next (haccept : ∀ a, w.accept a = true) (gold : Option Action)
    {beam : List (Marked σ)} (h : beam.map Marked.state = (runAt w .unpacked width k).beam) :
    (((beam.flatMap (markedMoves w gold)).mergeSort fun s t => (s.rank t).isLE).take width).map
      Marked.state = (runAt w .unpacked width (k + 1)).beam := by
  have hsort : ((beam.flatMap (markedMoves w gold)).mergeSort fun s t => (s.rank t).isLE).map
      Marked.state = byRank ((beam.flatMap (markedMoves w gold)).map Marked.state) :=
    List.map_mergeSort fun _ _ _ _ => rfl
  rw [runAt_succ, beam_advance, ← h, List.map_take, hsort, map_state_markedMoves haccept]
  rfl

/-- In one step the mark moves on to the state that the path leads to. -/
theorem Follows.marks_candidates {path : List Action} {x : State σ}
    (hlegal : w.Leads path.reverse x.stack x.cursor) {a b : Action} {rest : List Action}
    (hrest : path.drop k = b :: rest) (hsame : a.same b = true) {beam : List (Marked σ)}
    (h : Follows w width path k beam) :
    ∀ m ∈ beam.flatMap (markedMoves w (some a)),
      m.isGold = true ↔ m.state.actions = path.take (k + 1) := by
  intro m' hm'
  obtain ⟨m, hm, hm'⟩ := List.mem_flatMap.mp hm'
  obtain ⟨mv, hmv, rfl⟩ := mem_markedMoves.mp hm'
  rw [Bool.and_eq_true, h.marks m hm, actions_apply, take_succ_of_drop hrest,
    List.append_singleton_inj]
  refine and_congr_right fun hactions => ⟨fun hmark => ?_, fun hmark => hmark ▸ hsame⟩
  -- of the moves with this action only the one of the path is legal
  obtain ⟨s₀, mv₀, hmv₀, rfl, hs₀⟩ := exists_goldMove hlegal hrest
  have hleads := (reached_runAt (h.states ▸ List.mem_map_of_mem hm)).leads_actions
  rw [hactions] at hleads
  obtain ⟨hstack, hcursor⟩ := hleads.unique hs₀
  rw [Window.moves_congr hstack hcursor] at hmv
  have hbare : mv.action.same mv₀.action = true := by
    rw [Action.same_iff_bare] at hmark hsame ⊢
    rw [← hmark, hsame]
  rw [Window.eq_of_same_of_mem_moves hmv hmv₀ hbare]

/-- One step follows the path, whether or not the beam is cut before it. -/
theorem Follows.step (haccept : ∀ a, w.accept a = true) {path : List Action} {x : State σ}
    (hlegal : w.Leads path.reverse x.stack x.cursor) {a b : Action} {rest : List Action}
    (hrest : path.drop k = b :: rest) (hsame : a.same b = true) {beam : List (Marked σ)}
    (h : Follows w width path k beam) :
    Follows w width path (k + 1) (((beam.flatMap (markedMoves w (some a))).mergeSort
      fun s t => (s.rank t).isLE).take width) := by
  refine ⟨map_state_next haccept _ h.states, fun m hm => ?_⟩
  exact h.marks_candidates hlegal hrest hsame m
    (List.mem_mergeSort.mp (List.mem_of_mem_take hm))

/-- The marked state of a beam. -/
theorem Follows.exists_mem {path : List Action} {beam : List (Marked σ)}
    (h : Follows w width path k beam) (hgold : beam.any Marked.isGold = true) :
    ∃ s ∈ (runAt w .unpacked width k).beam, s.actions = path.take k := by
  obtain ⟨m, hm, hmg⟩ := List.any_eq_true.mp hgold
  exact ⟨m.state, h.states ▸ List.mem_map_of_mem hm, (h.marks m hm).mp hmg⟩

/-- The gold is among the candidates of a step. -/
theorem Follows.any_candidates (haccept : ∀ a, w.accept a = true) {path : List Action} {x : State σ}
    (hlegal : w.Leads path.reverse x.stack x.cursor) {a b : Action} {rest : List Action}
    (hrest : path.drop k = b :: rest) (hsame : a.same b = true) {beam : List (Marked σ)}
    (h : Follows w width path k beam) (hgold : beam.any Marked.isGold = true) :
    (beam.flatMap (markedMoves w (some a))).any Marked.isGold = true := by
  obtain ⟨s, hs, hactions⟩ := h.exists_mem hgold
  obtain ⟨g, hg, hgactions, -⟩ := exists_candidate haccept hlegal hrest hs hactions
  rw [← h.states, ← map_state_markedMoves haccept (some a)] at hg
  obtain ⟨m, hm, rfl⟩ := List.mem_map.mp hg
  exact List.any_eq_true.mpr ⟨m, hm, (h.marks_candidates hlegal hrest hsame m hm).mpr hgactions⟩

/-- A finished path that is still followed at its end is completed. -/
theorem Follows.exists_completed {path : List Action} {x : State σ} {beam : List (Marked σ)}
    (h : Follows w width path (k + 1) beam) (hgold : beam.any Marked.isGold = true)
    (hk : path.length = k + 1) (hlegal : w.Leads path.reverse x.stack x.cursor)
    (hcomplete : w.isComplete x = true) {n : Nat} (hn : k + 1 ≤ n) :
    ∃ s ∈ (runAt w .unpacked width n).completed, s.actions = path := by
  obtain ⟨s, hs, hactions⟩ := h.exists_mem hgold
  rw [List.take_of_length_le hk.le] at hactions
  have hleads := (reached_runAt hs).leads_actions
  rw [hactions] at hleads
  obtain ⟨hstack, hcursor⟩ := hlegal.unique hleads
  rw [Window.isComplete_congr hstack hcursor] at hcomplete
  exact ⟨s, mem_completed_runAt.mpr ⟨k, hn, hs, hcomplete⟩, hactions⟩

/-! ## What is found -/

/-- The violation compares the beginning of the gold, up to where it fails, with other actions. These
are legal, as many if the gold was pruned and a finished derivation otherwise, and their score is at
least that of the actions of the gold, which are those of the path. -/
structure Genuine (w : Window σ) (gold path : List Action) (v : Violation) : Prop where
  failAt_le : v.failAt ≤ gold.length
  gold_eq : v.gold = gold.take v.failAt
  differs : sameActions v.predicted v.gold = false
  legal : w.Admits v.predicted (!v.pruned)
  length : v.pruned = true → v.predicted.length = v.gold.length
  score : (Score.cmp (accumulated w.score (path.take v.failAt))
    (accumulated w.score v.predicted)).isLE = true

/-- The path is first: in the beam after its last action, or among the states that are completed in `n`
steps. -/
def Wins (w : Window σ) (width : Nat) (path : List Action) (complete : Bool) (n : Nat) : Prop :=
  ∃ s : State σ, s.actions = path ∧
    if complete then (byRank (runAt w .unpacked width n).completed).head? = some s
    else (runAt w .unpacked width path.length).beam.head? = some s

/-- A violation was looked for without failure. The one that was found is genuine, and if there is none
the path is first. -/
def Settles (w : Window σ) (width : Nat) (gold path : List Action) (complete : Bool) (n : Nat)
    (r : Except TrainError (Option Violation)) : Prop :=
  (∃ v, r = .ok (some v) ∧ Genuine w gold path v) ∨ r = .ok none ∧ Wins w width path complete n

variable [Std.TransCmp (Score.cmp : σ → σ → Ordering)] {gold path : List Action} {complete : Bool}
  {x : State σ}

/-- If the first state of a beam is not where the path leads, it is a violation of the gold. -/
theorem genuine_of_head? (haccept : ∀ a, w.accept a = true)
    (hlegal : w.Leads path.reverse x.stack x.cursor) (hsame : sameActions gold path = true)
    (hk : k < path.length) {s : State σ} (hs : s ∈ (runAt w .unpacked width k).beam)
    (hactions : s.actions = path.take k) {first : State σ}
    (hfirst : (runAt w .unpacked width (k + 1)).beam.head? = some first)
    (hne : first.actions ≠ path.take (k + 1)) :
    Genuine w gold path ⟨k + 1, true, gold.take (k + 1), first.actions⟩ := by
  have hlen := length_eq_of_sameActions hsame
  have hreached := reached_runAt (List.mem_of_mem_head? hfirst)
  have hscore := score_eq_accumulated (List.mem_of_mem_head? hfirst)
  obtain ⟨a, rest, hrest⟩ := List.exists_cons_of_ne_nil (mt List.drop_eq_nil_iff.mp hk.not_ge)
  obtain ⟨g, hg, hgactions, hgscore⟩ := exists_candidate haccept hlegal hrest hs hactions
  obtain ⟨y, hy⟩ : ∃ y : State σ, w.Leads (path.take (k + 1)).reverse y.stack y.cursor := by
    rw [← List.take_append_drop (k + 1) path, List.reverse_append] at hlegal
    exact hlegal.of_append
  refine ⟨hlen ▸ hk, rfl, ?_, ⟨first, hreached.leads_actions, by simp⟩, fun _ => ?_, ?_⟩
  · refine Bool.eq_false_iff.mpr fun h => hne ?_
    exact (hreached.leads_actions.sameActions_iff hy (sameActions_take hsame (k + 1))).mp h
  · rw [hreached.length_actions, List.length_take]
    omega
  · rw [runAt_succ, beam_advance] at hfirst
    have hhead : (byRank (merged .unpacked (candidates w (runAt w .unpacked width k).beam))).head? =
        some first := by
      rw [List.head?_take] at hfirst
      exact (ite_eq_iff.mp hfirst).elim (fun h => nomatch h.2) fun h => h.2
    have hle := cmp_score_of_head? hhead hg
    rwa [hgscore, hgactions, hscore] at hle

/-- A gold that is completed is compared with the best completed state. -/
theorem settles_finalViolation {n : Nat} (hlegal : w.Leads path.reverse x.stack x.cursor)
    (hsame : sameActions gold path = true) {s : State σ}
    (hs : s ∈ (runAt w .unpacked width n).completed) (hactions : s.actions = path) :
    Settles w width gold path true n
      (finalViolation gold (runAt w .unpacked width n).completed) := by
  have hlen := length_eq_of_sameActions hsame
  unfold finalViolation
  split
  · next he => exact absurd (mem_byRank.mpr hs) (he ▸ List.not_mem_nil)
  · next best _ he =>
    have hbest : (byRank (runAt w .unpacked width n).completed).head? = some best := by
      rw [he]
      rfl
    have hscored : ∀ s ∈ (runAt w .unpacked width n).completed,
        s.score = accumulated w.score s.actions := fun s hs => by
      obtain ⟨k, -, hs, -⟩ := mem_completed_runAt.mp hs
      exact score_eq_accumulated hs
    have hmem := mem_byRank.mp (List.mem_of_mem_head? hbest)
    obtain ⟨k, -, hbeam, hcomplete⟩ := mem_completed_runAt.mp hmem
    have hleads := (reached_runAt hbeam).leads_actions
    dsimp only
    split_ifs with hpredicted
    · exact .inr ⟨rfl, best, (hleads.sameActions_iff hlegal hsame).mp hpredicted, hbest⟩
    · refine .inl ⟨_, rfl, le_rfl, (List.take_length).symm, ?_, ⟨best, hleads, fun _ => hcomplete⟩,
        fun h => (Bool.false_ne_true h).elim, ?_⟩
      · exact Bool.eq_false_iff.mpr hpredicted
      · have hle := cmp_score_of_head? hbest hs
        rwa [hscored s hs, hscored best hmem, hactions, ← List.take_length (l := path), ← hlen] at hle

/-! ## The search for a violation -/

omit [Std.TransCmp (Score.cmp : σ → σ → Ordering)] in
/-- Behind the end of the gold the search goes on to its own end. -/
theorem followGold_nil (haccept : ∀ a, w.accept a = true) (hw : w.span.stop ≤ w.sentence.length)
    (fuel : Nat) {beam : List (Marked σ)}
    (hstates : beam.map Marked.state = (runAt w .unpacked width k).beam) :
    followGold w width gold complete fuel k [] beam (runAt w .unpacked width k).completed =
      finalViolation gold (runAt w .unpacked width (k + fuel)).completed := by
  induction fuel generalizing k beam with
  | zero => rfl
  | succ fuel ih =>
    rw [followGold]
    split_ifs with hempty
    · have hnil : (runAt w .unpacked width k).beam = [] := by
        rw [← hstates, List.isEmpty_iff.mp hempty]
        rfl
      have hend : (runAt w .unpacked width (fuel + 1 + k)).completed =
          (runAt w .unpacked width k).completed := by
        rw [runAt, Function.iterate_add_apply]
        exact (iterate_of_nil _ hnil).2
      rw [Nat.add_comm k, hend]
    · have hnext := map_state_next haccept none hstates
      rw [findSome?_overrun? hw, List.head?_nil]
      dsimp only
      rw [hnext, runAt_succ, ← completed_advance, ← runAt_succ, ih hnext, Nat.add_right_comm]
      rfl

/-- The search follows the gold to its end, or to where it falls out of the beam. -/
theorem settles_followGold (haccept : ∀ a, w.accept a = true)
    (hw : w.span.stop ≤ w.sentence.length) (hlegal : w.Leads path.reverse x.stack x.cursor)
    (hcomplete : complete = true → w.isComplete x = true) (hsame : sameActions gold path = true)
    (hwidth : 1 ≤ width) (fuel : Nat) {beam : List (Marked σ)} (h : Follows w width path k beam)
    (hgold : beam.any Marked.isGold = true) (hk : k < path.length)
    (hfuel : path.length ≤ k + fuel) :
    Settles w width gold path complete (k + fuel) (followGold w width gold complete fuel k
      (gold.drop k) beam (runAt w .unpacked width k).completed) := by
  induction fuel generalizing k beam with
  | zero => omega
  | succ fuel ih =>
    have hlen := length_eq_of_sameActions hsame
    obtain ⟨s, hs, hactions⟩ := h.exists_mem hgold
    obtain ⟨a, rest, b, rest', hrest, hrest', hab⟩ := exists_drop_of_sameActions hsame hk
    have hdrop : gold.drop (k + 1) = rest := by
      rw [← List.drop_drop, hrest]
      rfl
    have hlast : rest = [] ↔ path.length = k + 1 := by
      rw [← hdrop, List.drop_eq_nil_iff]
      omega
    have hne : ¬ beam.isEmpty = true := fun he => by
      rw [List.isEmpty_iff.mp he] at hgold
      cases hgold
    have hany := h.any_candidates haccept hlegal hrest' hab hgold
    have hstep := h.step haccept hlegal hrest' hab
    rw [followGold, if_neg hne, findSome?_overrun? hw, hrest, List.head?_cons]
    dsimp only
    rw [hany, Bool.not_true, if_neg Bool.false_ne_true, hstep.states, runAt_succ,
      ← completed_advance, ← runAt_succ]
    set sorted := (beam.flatMap (markedMoves w (some a))).mergeSort fun s t => (s.rank t).isLE
    split
    · next he =>
      -- a beam of positive width is empty only if there are no candidates
      obtain ⟨m, hm, -⟩ := List.any_eq_true.mp hany
      have hnil := (List.take_eq_nil_iff.mp he).resolve_left (by omega)
      exact absurd (List.mem_mergeSort.mpr hm) (hnil ▸ List.not_mem_nil)
    · next first others he =>
      have hmem : first ∈ sorted.take width := he ▸ List.mem_cons_self
      have hfirst : (runAt w .unpacked width (k + 1)).beam.head? = some first.state := by
        rw [← hstep.states, he]
        rfl
      have hgenuine : first.isGold = false →
          Genuine w gold path ⟨k + 1, true, gold.take (k + 1), first.state.actions⟩ := fun hmark =>
        genuine_of_head? haccept hlegal hsame hk hs hactions hfirst
          (mt (hstep.marks first hmem).mpr (Bool.eq_false_iff.mp hmark))
      split_ifs with hlost hend hwin
      · rw [Bool.not_eq_true', List.any_eq_false] at hlost
        exact .inl ⟨_, rfl, hgenuine (Bool.eq_false_iff.mpr (hlost first hmem))⟩
      · rw [Bool.and_eq_true, List.isEmpty_iff, hlast, Bool.not_eq_true'] at hend
        refine .inr ⟨rfl, first.state, ?_, ?_⟩
        · rw [(hstep.marks first hmem).mp hwin, List.take_of_length_le hend.1.le]
        · rw [if_neg (Bool.eq_false_iff.mp hend.2), hend.1, hfirst]
      · rw [Bool.and_eq_true, List.isEmpty_iff, hlast] at hend
        have hwhole := hgenuine (Bool.eq_false_iff.mpr hwin)
        rw [List.take_of_length_le (hlen.trans hend.1).le] at hwhole
        exact .inl ⟨_, rfl, hwhole⟩
      · have hkept : (sorted.take width).any Marked.isGold = true := by simpa using hlost
        have hsteps : k + (fuel + 1) = k + 1 + fuel := by omega
        rw [hsteps] at hfuel ⊢
        by_cases hk' : k + 1 < path.length
        · rw [← hdrop]
          exact ih hstep hkept hk' hfuel
        · -- the gold is at its end, and it is complete
          have hnil : rest = [] := hlast.mpr (by omega)
          obtain rfl : complete = true := by simpa [hnil] using hend
          obtain ⟨s', hs', hactions'⟩ := hstep.exists_completed hkept (hlast.mp hnil) hlegal
            (hcomplete rfl) (n := k + 1 + fuel) (by omega)
          rw [hnil, followGold_nil haccept hw fuel hstep.states]
          exact settles_finalViolation hlegal hsame hs' hactions'

omit [Std.TransCmp (Score.cmp : σ → σ → Ordering)] in
/-- What wins is first in the result of the unpacked search too. -/
theorem Wins.parse {t : Task σ} {window : Span} (hclip : clip t.sentence.length window = window)
    (hlength : path.length ≤ maxSteps window)
    (h : Wins (.ofTask t window) (widthOf width) path complete (maxSteps window)) :
    (complete = false ∧ ∃ b s, (parse t window .unpacked width).beams[path.length]? = some b ∧
      b.head? = some s ∧ s.actions = path) ∨
    (complete = true ∧ ∃ s, (parse t window .unpacked width).completed.head? = some s ∧
      s.actions = path) := by
  obtain ⟨s, hactions, hs⟩ := h
  cases complete with
  | false =>
    have hbeam : ((Beam.parse t window .unpacked width).beams[0 + path.length]?).getD [] =
        (runAt (.ofTask t window) .unpacked (widthOf width) path.length).beam := by
      rw [Beam.parse, hclip]
      exact getElem?_beams_runFor hlength _
    rw [Nat.zero_add] at hbeam
    rw [if_neg Bool.false_ne_true, ← hbeam] at hs
    obtain ⟨b, hb⟩ : ∃ b, (Beam.parse t window .unpacked width).beams[path.length]? = some b := by
      refine Option.ne_none_iff_exists'.mp fun hnone => ?_
      rw [hnone] at hs
      cases hs
    rw [hb] at hs
    exact .inl ⟨rfl, b, s, hb, hs, hactions⟩
  | true =>
    refine .inr ⟨rfl, s, ?_, hactions⟩
    rw [if_pos rfl] at hs
    rw [Beam.parse, hclip]
    change (byRank (runFor _ _ _ _ _).completed).head? = _
    rw [completed_runFor, ← hs]
    rfl

end Beam

open Beam

/-- **Violations are genuine.** For every grammar, lexicon and score with a total order, every window
inside the sentence and every width, let the gold be legal, and finish a derivation if it is said to be
complete: its actions are those of a legal `path`, which is the gold itself unless entries differ. Then
the search for a violation succeeds. If it finds one, that is the beginning of the gold up to where it
fails, against different legal actions, as many of them if the gold was pruned, whose score is at least
as high. If it finds none, the gold is empty, or it is the first state of the beam after its last
action, or it is the first completed state if it is complete. -/
theorem violation_genuine [Score σ] [Std.TransCmp (Score.cmp : σ → σ → Ordering)] (t : Task σ)
    (window : Span) (hwindow : window.stop ≤ t.sentence.length) (width : Nat)
    (gold path : List Action) (complete : Bool) (hsame : sameActions gold path = true)
    (hlegal : (Window.ofTask t.unfiltered window).Admits path complete) :
    ∃ r, findViolation t window width gold complete = .ok r ∧
      (∀ v, r = some v → Genuine (.ofTask t.unfiltered window) gold path v) ∧
      (r = none → gold = [] ∨
        (complete = false ∧ ∃ b s, (parse t.unfiltered window .unpacked width).beams[gold.length]? =
          some b ∧ b.head? = some s ∧ s.actions = path) ∨
        (complete = true ∧ ∃ s, (parse t.unfiltered window .unpacked width).completed.head? = some s ∧
          s.actions = path)) := by
  obtain ⟨x, hleads, hcomplete⟩ := hlegal
  have hlen := length_eq_of_sameActions hsame
  unfold findViolation
  split_ifs with hempty
  · refine ⟨none, rfl, fun v hv => ?_, fun _ => .inl (List.isEmpty_iff.mp hempty)⟩
    cases hv
  have hpos : 0 < path.length := by
    rw [← hlen, List.length_pos_iff]
    exact mt List.isEmpty_iff.mpr hempty
  have hinside : (gold.find? fun a => !window.contains a.span) = none := by
    refine List.find?_eq_none.mpr fun a ha => ?_
    have hbare : a.bare ∈ path.map Action.bare := sameActions_iff.mp hsame ▸ List.mem_map_of_mem ha
    obtain ⟨b, hb, hab⟩ := List.mem_map.mp hbare
    have hspan : b.span = a.span := (Action.same_iff.mp (Action.same_iff_bare.mpr hab)).1
    have hcontains : window.contains b.span = true :=
      hleads.inside.2.2 b (List.mem_reverse.mpr hb)
    simp [← hspan, hcontains]
  -- a window with a legal action is not inverted, so it is not clipped
  have hlength : path.length ≤ 4 * (window.stop - window.start) - 2 := by
    rw [← List.length_reverse]
    exact hleads.length_le
  have hclip : clip t.sentence.length window = window := by
    rw [clip, Nat.min_eq_left (by omega), Nat.min_eq_left hwindow]
  have hfuel : path.length ≤ maxSteps window := by
    unfold maxSteps Span.length
    omega
  rw [hinside]
  have hstart : Follows (.ofTask t.unfiltered window) (widthOf width) path 0
      [⟨State.initial window.start, true⟩] := by
    refine ⟨rfl, fun m hm => ?_⟩
    rw [List.mem_singleton.mp hm]
    exact iff_of_true rfl rfl
  rcases settles_followGold (fun _ => rfl) hwindow hleads hcomplete hsame (Nat.le_max_right width 1)
    (maxSteps window) hstart rfl hpos (by omega) with ⟨v, hv, hgenuine⟩ | ⟨hnone, hwins⟩
  · refine ⟨some v, hv, fun v' hv' => Option.some_inj.mp hv' ▸ hgenuine, fun h => ?_⟩
    cases h
  · rw [Nat.zero_add] at hwins
    refine ⟨none, hnone, fun v hv => ?_, fun _ => .inr ?_⟩
    · cases hv
    · rw [hlen]
      exact hwins.parse hclip hfuel

/-- A beam of two states loses the derivation of `long island sound` with the score 16 at its second
action, to one that begins with the `long island`. -/
theorem violation_genuine_longIslandSound :
    ∃ gold v, (Window.ofTask longIslandSound.unfiltered ⟨0, 3⟩).Admits gold true ∧
      findViolation longIslandSound ⟨0, 3⟩ 2 gold true = .ok (some v) ∧ v.failAt = 2 ∧
      v.pruned = true ∧ v.predicted.map (fun a => a.span) = [⟨0, 2⟩, ⟨2, 3⟩] ∧
      Genuine (.ofTask longIslandSound.unfiltered ⟨0, 3⟩) gold gold v := by
  -- the gold is what the search with a beam of one state finds
  have hfound : (parse longIslandSound.unfiltered ⟨0, 3⟩ .unpacked 1).completed.head?.map
      (fun s => (sameActions s.actions s.actions,
        (findViolation longIslandSound ⟨0, 3⟩ 2 s.actions true).toOption.bind fun r => r.map
          fun v => (v.failAt, v.pruned, v.predicted.map fun a => a.span))) =
      some (true, some (2, true, [⟨0, 2⟩, ⟨2, 3⟩])) := by
    cbv
  obtain ⟨s, hs, hvalues⟩ := Option.map_eq_some_iff.mp hfound
  obtain ⟨⟨k, hreached⟩, hcomplete⟩ := reached_of_mem_completed (List.mem_of_mem_head? hs)
  obtain ⟨hsame, hvalues⟩ := Prod.mk.inj hvalues
  have hadmits : (Window.ofTask longIslandSound.unfiltered ⟨0, 3⟩).Admits s.actions true :=
    ⟨s, hreached.leads_actions, fun _ => hcomplete⟩
  obtain ⟨r, hr, hgenuine, -⟩ := violation_genuine longIslandSound ⟨0, 3⟩ (by decide) 2 s.actions
    s.actions true hsame hadmits
  rw [hr] at hvalues
  obtain ⟨v, rfl, hv⟩ := Option.map_eq_some_iff.mp hvalues
  simp only [Prod.mk.injEq] at hv
  exact ⟨s.actions, v, hadmits, hr, hv.1, hv.2.1, hv.2.2, hgenuine v rfl⟩

end Categorial
