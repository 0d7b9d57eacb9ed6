import Categorial.Proofs.Beam.EntryOrder
import Categorial.Proofs.Beam.Scored
import Categorial.Proofs.Beam.Unpruned
import Mathlib

/-!
# The histories of states

A merged state keeps a history for every state it can be reached from, and those states are merged ones
themselves. Following histories back to the start gives the paths of the state. They are legal and no
two of them consist of the same actions, so the count of the state is their number. The score of a
history is that of the best path through it; histories are kept in order, so the first one leads along
a best path of the state.

* `State.historyOrder` is a total order if scores are, and `State.pairwise_merge` keeps to it.
* `State.Tallied`: what a state knows of the paths through its histories.
* `Beam.Accounted`, `Beam.Accounted.advance`: what every beam of a search keeps.
* `Beam.forall_beams`: induction over the beams of a search.
* **`states_tallied`**: counts, scores and histories of all states of a search.
-/

namespace Categorial

variable {σ : Type}

namespace State

/-! ## The order of histories -/

section Order

variable [Score σ] [Std.TransCmp (Score.cmp : σ → σ → Ordering)]

instance : Std.TransCmp (historyOrder : History σ (State σ) → History σ (State σ) → Ordering) := by
  refine transCmp_of_chained (fun h k => ?_) fun h k m =>
    (Chained.of_trans (fun a b : σ => Score.cmp b a) _ _ _).lex (RuleId.chained_cmp _ _ _)
  have hscore : Score.cmp k.score h.score = (Score.cmp h.score k.score).swap :=
    Std.OrientedCmp.eq_swap
  have hrule : h.action.rule.cmp k.action.rule = (k.action.rule.cmp h.action.rule).swap :=
    Std.OrientedCmp.eq_swap
  rw [historyOrder, historyOrder, Score.byDesc, Score.byDesc, hscore, hrule, Ordering.swap_then]

theorem pairwise_insertHistory (h : History σ (State σ)) {l : List (History σ (State σ))}
    (hl : l.Pairwise fun x y => (historyOrder x y).isLE = true) :
    (insertHistory h l).Pairwise fun x y => (historyOrder x y).isLE = true := by
  induction l with
  | nil => exact List.pairwise_singleton _ h
  | cons k l ih =>
    obtain ⟨hk, htail⟩ := List.pairwise_cons.mp hl
    rw [insertHistory]
    split_ifs with hlt
    · have hhk : (historyOrder h k).isLE = true := by
        rw [Ordering.isLT_iff_eq_lt.mp hlt]
        rfl
      refine List.pairwise_cons.mpr ⟨List.forall_mem_cons.mpr ⟨hhk, fun x hx => ?_⟩, hl⟩
      exact Std.TransCmp.isLE_trans hhk (hk x hx)
    · refine List.pairwise_cons.mpr ⟨fun x hx => ?_, ih htail⟩
      rcases List.mem_cons.mp ((perm_insertHistory h l).mem_iff.mp hx) with rfl | hx
      · have hkx : historyOrder k x = (historyOrder x k).swap := Std.OrientedCmp.eq_swap
        rw [hkx]
        cases hxk : historyOrder x k with
        | lt => exact absurd (by rw [hxk]; rfl) hlt
        | eq | gt => rfl
      · exact hk x hx

/-- Merging keeps the histories in order. -/
theorem pairwise_merge {s : State σ} (t : State σ)
    (hs : s.histories.Pairwise fun x y => (historyOrder x y).isLE = true) :
    (s.merge t).histories.Pairwise fun x y => (historyOrder x y).isLE = true := by
  change (t.histories.foldl (fun hs h => insertHistory h hs) s.histories).Pairwise _
  generalize s.histories = l at hs
  induction t.histories generalizing l with
  | nil => exact hs
  | cons h rest ih => exact ih _ (pairwise_insertHistory h hs)

end Order

/-! ## The scores of histories -/

variable [AddCommMonoid σ] [LinearOrder σ]

/-- With exact scores, an earlier history has no lower score; of equal ones the one whose rule was
registered first comes first. -/
theorem isLE_historyOrder {h k : History σ (State σ)} :
    (historyOrder h k).isLE = true ↔ k.score ≤ h.score ∧
      (k.score = h.score → (h.action.rule.cmp k.action.rule).isLE = true) := by
  rw [historyOrder, Ordering.isLE_then_iff_and]
  have hle : (Score.byDesc h.score k.score).isLE = true ↔ k.score ≤ h.score :=
    Ordering.ne_gt_iff_isLE.symm.trans compare_le_iff_le
  have hlt : Score.byDesc h.score k.score = .lt ↔ k.score < h.score := compare_lt_iff_lt
  rw [hle, hlt]
  refine and_congr_right fun hkh => ⟨fun h he => ?_, fun h => ?_⟩
  · exact h.resolve_left fun hlt => hlt.ne he
  · exact hkh.lt_or_eq.imp_right h

/-- The histories are in order, and the score of each is that of the actions it leads along. -/
structure Tallied (score : Action → σ) (s : State σ) : Prop where
  sorted : s.histories.Pairwise fun h k => (historyOrder h k).isLE = true
  total : ∀ h ∈ s.histories, h.score = ((h.action :: h.prev.actionsRev).map score).sum

omit [AddCommMonoid σ] [LinearOrder σ] in
theorem actionsRev_of_histories {s : State σ} {h : History σ (State σ)}
    {rest : List (History σ (State σ))} (hs : s.histories = h :: rest) :
    s.actionsRev = h.action :: h.prev.actionsRev := by
  obtain ⟨_, _, _, _, histories, _, _, _⟩ := s
  obtain rfl : histories = h :: rest := hs
  rw [actionsRev]

variable {score : Action → σ} {s t : State σ}

/-- The score of a state is that of the actions of its best history. -/
theorem Ranked.score_eq (hr : Ranked s) (ht : Tallied score s) :
    s.score = (s.actionsRev.map score).sum := by
  obtain ⟨h, rest, hs⟩ := List.exists_cons_of_ne_nil hr.ne_nil
  rw [← hr.score h (by rw [hs]; rfl), ht.total h (by rw [hs]; exact List.mem_cons_self),
    actionsRev_of_histories hs]

theorem tallied_apply {w : Window σ} (h : s.score = (s.actionsRev.map w.score).sum) (m : Move) :
    Tallied w.score (w.apply s m) where
  sorted := List.pairwise_singleton _ _
  total k hk := by
    rw [List.mem_singleton.mp hk, List.map_cons, List.sum_cons, ← h, add_comm]
    rfl

theorem Tallied.merge (hs : Tallied score s) (ht : Tallied score t) : Tallied score (s.merge t) where
  sorted := pairwise_merge t hs.sorted
  total h hh := by
    rcases List.mem_append.mp ((perm_histories_merge s t).mem_iff.mp hh) with hh | hh
    · exact hs.total h hh
    · exact ht.total h hh

end State

namespace Beam

/-! ## The beams of a search -/

section Runs

variable [Score σ]

/-- What the first beam has and every step keeps, all beams of a search have. -/
theorem forall_beams {Q : List (State σ) → Prop} {t : Task σ} {window : Span} {mode : Packing}
    {width : Nat} (h₀ : Q [State.initial (clip t.sentence.length window).start])
    (hstep : ∀ r : Run σ, Q r.beam →
      Q (advance (.ofTask t (clip t.sentence.length window)) mode (widthOf width) r).beam) :
    ∀ b ∈ (parse t window mode width).beams, Q b := by
  intro b hb
  refine runFor_induct (motive := fun r => ∀ b ∈ r.beam :: r.earlier, Q b) (fun r hr => ?_) _ _ ?_ b
    (List.mem_reverse.mp hb)
  · rw [earlier_advance]
    exact List.forall_mem_cons.mpr ⟨hstep r (hr _ List.mem_cons_self), hr⟩
  · exact List.forall_mem_singleton.mpr h₀

/-- Different states have different paths after a step if they had before it. -/
theorem nodup_paths_advance {w : Window σ} {mode : Packing} {width : Nat} {r : Run σ}
    (h : (r.beam.flatMap State.paths).Nodup) :
    ((advance w mode width r).beam.flatMap State.paths).Nodup := by
  have hmerged : ((byRank (merged mode (candidates w r.beam))).flatMap State.paths).Nodup := by
    have hperm : (byRank (merged mode (candidates w r.beam))).Perm
        (merged mode (candidates w r.beam)) := List.mergeSort_perm _ _
    exact ((hperm.flatMap_right _).trans (perm_paths_merged mode histories_candidates)).nodup_iff.mpr
      (nodup_paths_candidates h)
  rw [beam_advance]
  exact ((List.take_sublist _ _).flatMap _).nodup hmerged

omit [Score σ] in
/-- The paths of a legal state that are different do not consist of the same actions. -/
theorem Reached.pairwise_paths {w : Window σ} {k : Nat} {s : State σ} (h : Reached w k s)
    (hnodup : s.paths.Nodup) : s.paths.Pairwise fun as bs => sameActions as bs = false := by
  refine hnodup.imp_of_mem fun {as bs} has hbs hne => Bool.eq_false_iff.mpr fun hsame => ?_
  exact hne ((h.leads as has).eq_of_bare (h.leads bs hbs) (sameActions_iff.mp hsame))

end Runs

variable [AddCommMonoid σ] [LinearOrder σ]

/-- The states of a beam know the best of their paths and the paths through each of their histories, and
no two states share a path. -/
structure Accounted (score : Action → σ) (beam : List (State σ)) : Prop where
  scored : ∀ s ∈ beam, s.Scored score
  attained : ∀ s ∈ beam, s.score = (s.actionsRev.map score).sum
  tallied : ∀ s ∈ beam, s.Tallied score
  nodup : (beam.flatMap State.paths).Nodup

theorem accounted_initial (score : Action → σ) (cursor : Nat) :
    Accounted score [State.initial cursor] where
  scored := List.forall_mem_singleton.mpr (State.scored_initial score cursor)
  attained := List.forall_mem_singleton.mpr rfl
  tallied := List.forall_mem_singleton.mpr ⟨List.Pairwise.nil, fun _ h => absurd h List.not_mem_nil⟩
  nodup := by simp

theorem Accounted.advance [IsOrderedAddMonoid σ] {w : Window σ} {mode : Packing} {width : Nat}
    {r : Run σ} (h : Accounted w.score r.beam) :
    Accounted w.score (advance w mode width r).beam := by
  have hscored : ∀ s ∈ (Beam.advance w mode width r).beam, s.Scored w.score ∧ s.Ranked :=
    fun s hs => State.scored_of_mem_merged h.scored s (mem_merged_of_mem_advance hs)
  have htallied : ∀ s ∈ (Beam.advance w mode width r).beam, s.Tallied w.score := by
    intro s hs
    refine forall_mem_merged (P := State.Tallied w.score) (fun s' hs' => ?_)
      (fun s t hs ht _ _ => hs.merge ht) s (mem_merged_of_mem_advance hs)
    obtain ⟨s, hs, m, -, -, rfl⟩ := mem_candidates.mp hs'
    exact State.tallied_apply (h.attained s hs) m
  exact ⟨fun s hs => (hscored s hs).1, fun s hs => (hscored s hs).2.score_eq (htallied s hs),
    htallied, nodup_paths_advance h.nodup⟩

theorem accounted_of_mem_beams [IsOrderedAddMonoid σ] {t : Task σ} {window : Span} {mode : Packing}
    {width : Nat} : ∀ b ∈ (parse t window mode width).beams, Accounted t.score b :=
  forall_beams (accounted_initial _ _) fun _ h =>
    Accounted.advance (w := .ofTask t (clip t.sentence.length window)) h

end Beam

open Beam

/-- **States count and score their histories.** For every grammar, lexicon, filter, window, packing,
width and exact score, and for every state in a beam of the search: the paths of the state are found by
following histories back to the start, no two of them consist of the same actions, and the state counts
them up to the cap. The score of the state is the highest score of a path, and the actions of the best
history are a path with that score. The histories are in order, best score first and then by rule. -/
theorem states_tallied [AddCommMonoid σ] [LinearOrder σ] [IsOrderedAddMonoid σ] (t : Task σ)
    (window : Span) (mode : Packing) (width : Nat) :
    ∀ b ∈ (parse t window mode width).beams, ∀ s ∈ b,
      s.parses = min Count.cap s.paths.length ∧
      s.paths.Pairwise (fun as bs => sameActions as bs = false) ∧
      IsGreatest {x | ∃ as ∈ s.paths, (as.map t.score).sum = x} s.score ∧
      s.actions.reverse ∈ s.paths ∧ (s.actions.map t.score).sum = s.score ∧
      s.histories.Pairwise fun h k => k.score ≤ h.score ∧
        (k.score = h.score → (h.action.rule.cmp k.action.rule).isLE = true) := by
  intro b hb s hs
  have hacc := accounted_of_mem_beams b hb
  obtain ⟨k, hreached⟩ := reached_of_mem_beams hb hs
  have hnodup : s.paths.Nodup := (List.nodup_flatMap.mp hacc.nodup).1 s hs
  have hpath : s.actions.reverse = s.actionsRev := List.reverse_reverse _
  have htotal : s.score = (s.actionsRev.map t.score).sum := hacc.attained s hs
  refine ⟨hreached.parses, hreached.pairwise_paths hnodup, ⟨?_, ?_⟩, ?_, ?_, ?_⟩
  · exact ⟨_, s.actionsRev_mem_paths, htotal.symm⟩
  · rintro x ⟨as, has, rfl⟩
    have hle := Standing.score_le ((hacc.scored s hs).least as has)
    rwa [score_pathStanding, State.score_standing] at hle
  · rw [hpath]
    exact s.actionsRev_mem_paths
  · rw [htotal, ← hpath, List.map_reverse, List.sum_reverse]
  · exact (hacc.tallied s hs).sorted.imp State.isLE_historyOrder.mp

/-- The words `the red book`: `red` joins `book` before `the` does, or `the` and `red` are composed. A
composition scores. -/
def theRedBook : Task ℤ where
  grammar := { rules := .standard 1 }
  lexicon := .ofList [
    ⟨["the"], ⟨.complex (.atom "NP") .forward (.atom "N"), none⟩, .fixed⟩,
    ⟨["red"], ⟨.complex (.atom "N") .forward (.atom "N"), none⟩, .fixed⟩,
    ⟨["book"], ⟨.atom "N", none⟩, .fixed⟩]
  sentence := ["the", "red", "book"]
  score a := if a.rule = .rule 2 then 1 else 0

/-- After five actions both ways to read `the red book` are one state with two histories, which has the
score of the composition. -/
theorem states_tallied_theRedBook :
    ∃ b ∈ (parse theRedBook ⟨0, 3⟩ .packed 8).beams, ∃ s ∈ b, s.histories.length = 2 ∧ s.parses = 2 ∧
      s.paths.length = 2 ∧ s.score = 1 ∧ (s.actions.map theRedBook.score).sum = 1 := by
  have hbeams : (parse theRedBook ⟨0, 3⟩ .packed 8).beams[5]?.map
      (List.map fun s => (s.histories.length, s.parses, s.score)) = some [(2, 2, 1)] := by
    cbv
  obtain ⟨b, hb, hmap⟩ := Option.map_eq_some_iff.mp hbeams
  obtain ⟨s, hs, hvalues⟩ := List.mem_map.mp (hmap ▸ List.mem_singleton_self _)
  obtain ⟨hhistories, hparses, hscore⟩ : s.histories.length = 2 ∧ s.parses = 2 ∧ s.score = 1 := by
    simpa only [Prod.mk.injEq] using hvalues
  have hb := List.mem_of_getElem? hb
  obtain ⟨hcount, -, -, -, hsum, -⟩ := states_tallied theRedBook ⟨0, 3⟩ .packed 8 b hb s hs
  refine ⟨b, hb, s, hs, hhistories, hparses, ?_, hscore, hsum.trans hscore⟩
  have hcap : Count.cap = 18446744073709551615 := rfl
  omega

end Categorial
