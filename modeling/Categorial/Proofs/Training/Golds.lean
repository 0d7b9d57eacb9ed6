import Categorial.Proofs.Beam.Gold
import Categorial.Proofs.Beam.Readings
import Categorial.Proofs.Oracle.Windows
import Categorial.Training.Trainer

/-!
# Gold sequences are legal

The gold sequences that are found under a filter are legal in its window whatever the scores are,
since scores decide which legal sequences are preferred and never which are legal.

* `Training.Followable`: the gold can be followed in its window, whatever the scores.
* `Training.Memo.Sound`: what is kept about an example stays usable; **`Training.sound_goldOf`**.
-/

namespace Categorial

/-! ## What a filter was shown -/

namespace GoldFilter

variable {σ : Type}

theorem observe_induct {motive : GoldFilter → Prop} {f : GoldFilter} {beams : List (List (State σ))}
    (h : motive f) (hstep : ∀ f, motive f → ∀ b ∈ beams, ∀ step, motive (f.observeBeam step b)) :
    motive (f.observe beams) := by
  refine List.foldlRecOn (motive := motive) _ _ h fun f hf x hx => ?_
  obtain ⟨b, step⟩ := x
  exact hstep f hf b (List.mem_of_getElem? (List.mem_zipIdx_iff_getElem?.mp hx)) step

/-- What a filter was shown does not change what it asks for. -/
theorem reset_observe (f : GoldFilter) (beams : List (List (State σ))) :
    (f.observe beams).reset = f.reset := by
  refine observe_induct (motive := fun f' => f'.reset = f.reset) rfl fun f' hf' b _ step => ?_
  unfold observeBeam
  split_ifs <;> exact hf'

theorem window_observe (f : GoldFilter) (beams : List (List (State σ))) :
    (f.observe beams).window = f.window := by
  have h := congrArg window (f.reset_observe beams)
  exact h

theorem target_observe (f : GoldFilter) (beams : List (List (State σ))) :
    (f.observe beams).target = f.target := by
  have h := congrArg target (f.reset_observe beams)
  exact h

/-- The early states are sequences of actions of some beam. -/
theorem mem_earlyStates_observe {f : GoldFilter} {beams : List (List (State σ))}
    {actions : List Action} (hf : f.earlyStates = [])
    (h : actions ∈ (f.observe beams).earlyStates) : ∃ b ∈ beams, ∃ s ∈ b, s.actions = actions := by
  revert h
  refine observe_induct (motive := fun f' => actions ∈ f'.earlyStates → ∃ b ∈ beams, ∃ s ∈ b,
    s.actions = actions) (by simp [hf]) fun f' hf' b hb step => ?_
  unfold observeBeam
  split_ifs
  · exact hf'
  · intro h
    obtain ⟨s, hs, he⟩ := List.mem_map.mp h
    exact ⟨b, hb, s, hs, he⟩

end GoldFilter

/-! ## Gold sequences -/

namespace Training

variable {μ σ : Type}

/-- The window lies in the sentence, and whatever the scores, the unrestricted search of the window
admits the gold. -/
structure Followable (s : Setup μ σ) (sentence : List String) (g : Gold) : Prop where
  start_le : g.window.start ≤ g.window.stop
  stop_le : g.window.stop ≤ sentence.length
  admits : ∀ v, (Window.ofTask (s.taskOf v sentence) g.window).Admits g.actions g.complete

/-- A state of a filtered search is legal without the filter and for all scores. -/
theorem admits_of_reached {s : Setup μ σ} {v v' : Scoring} {sentence : List String}
    {accept : Action → Bool} {window : Span} {k : Nat} {st : State v.Value} {complete : Bool}
    (h : Beam.Reached (.ofTask { s.taskOf v sentence with accept } window) k st)
    (hc : complete = true →
      (Window.ofTask { s.taskOf v sentence with accept } window).isComplete st = true) :
    (Window.ofTask (s.taskOf v' sentence) window).Admits st.actions complete := by
  refine ⟨st.rescored (v'.own default), ?_, hc⟩
  rw [State.actions, List.reverse_reverse]
  refine Window.Leads.transfer (fun st st' hstack hcursor => ?_) ?_ ?_ h.leads_actionsRev
  · exact Window.moves_eq_of_situation rfl rfl rfl rfl hstack hcursor
  · exact fun _ => rfl
  · rfl

/-- The search under a filter. -/
def filteredSearch (s : Setup μ σ) (v : Scoring) (sentence : List String) (f : GoldFilter) :
    Beam.Parse v.Value :=
  Beam.parse { s.taskOf v sentence with accept := f.accept } f.window s.options.packing
    s.options.beamWidth

/-- A filter is asked for a gold sequence without changing what it asks for. -/
theorem reset_constrained (s : Setup μ σ) (v : Scoring) (sentence : List String) (f : GoldFilter) :
    (constrained s v sentence f).2.reset = f.reset := by
  have hreset := f.reset.reset_observe (filteredSearch s v sentence f).beams
  unfold constrained GoldFilter.search
  dsimp only
  split <;> exact hreset

theorem window_constrained (s : Setup μ σ) (v : Scoring) (sentence : List String) (f : GoldFilter) :
    (constrained s v sentence f).2.window = f.window := by
  have h := congrArg GoldFilter.window (reset_constrained s v sentence f)
  exact h

theorem target_constrained (s : Setup μ σ) (v : Scoring) (sentence : List String) (f : GoldFilter) :
    (constrained s v sentence f).2.target = f.target := by
  have h := congrArg GoldFilter.target (reset_constrained s v sentence f)
  exact h

/-- A gold sequence is that of the best state of a reading that means the target, or of an early
state. -/
theorem constrained_cases {s : Setup μ σ} {v : Scoring} {sentence : List String} {f : GoldFilter}
    {g : Gold} (h : (constrained s v sentence f).1 = some g) :
    (∃ r ∈ (filteredSearch s v sentence f).readings, f.isMet s.grammar r.category = true ∧
      g = ⟨f.window, r.best.actions, true⟩) ∨
    ∃ b ∈ (filteredSearch s v sentence f).beams, ∃ st ∈ b, g = ⟨f.window, st.actions, false⟩ := by
  have hwindow := f.reset.window_observe (filteredSearch s v sentence f).beams
  have htarget := f.reset.target_observe (filteredSearch s v sentence f).beams
  unfold constrained GoldFilter.search at h
  dsimp only at h
  split at h
  · next r hr =>
    refine Or.inl ⟨r, List.mem_of_find?_eq_some hr, ?_, ?_⟩
    · have hmet := List.find?_some hr
      rw [GoldFilter.isMet] at hmet ⊢
      exact htarget ▸ hmet
    · rw [← Option.some_inj.mp h, Gold.mk.injEq]
      exact ⟨hwindow, rfl, rfl⟩
  · obtain ⟨actions, hactions, rfl⟩ := Option.map_eq_some_iff.mp h
    obtain ⟨b, hb, st, hst, rfl⟩ :=
      GoldFilter.mem_earlyStates_observe rfl (List.mem_of_mem_head? (Option.mem_def.mpr hactions))
    refine Or.inr ⟨b, hb, st, hst, ?_⟩
    rw [Gold.mk.injEq]
    exact ⟨hwindow, rfl, rfl⟩

/-- A gold sequence under a filter can be followed in its window. -/
theorem followable_constrained {s : Setup μ σ} {v : Scoring} {sentence : List String} {f : GoldFilter}
    (h : f.Inside sentence.length) {g : Gold} (hg : (constrained s v sentence f).1 = some g) :
    Followable s sentence g ∧ g.window = f.window := by
  have hclip := h.clip_window
  rcases constrained_cases hg with ⟨r, hr, -, rfl⟩ | ⟨b, hb, st, hst, rfl⟩
  · have hbest := (Beam.read_readings _).best r hr
    have hmem : r.best ∈ (filteredSearch s v sentence f).completed :=
      List.mem_of_mem_filter (List.mem_of_mem_head? (Option.mem_def.mpr hbest))
    obtain ⟨⟨k, hreached⟩, hcomplete⟩ := Beam.reached_of_mem_completed hmem
    change Beam.Reached (.ofTask _ (Beam.clip sentence.length f.window)) k r.best at hreached
    change (Window.ofTask _ (Beam.clip sentence.length f.window)).isComplete r.best = true
      at hcomplete
    rw [hclip] at hreached hcomplete
    exact ⟨⟨h.1, h.2, fun v' => admits_of_reached hreached fun _ => hcomplete⟩, rfl⟩
  · obtain ⟨k, hreached⟩ := Beam.reached_of_mem_beams hb hst
    change Beam.Reached (.ofTask _ (Beam.clip sentence.length f.window)) k st at hreached
    rw [hclip] at hreached
    exact ⟨⟨h.1, h.2, fun v' => admits_of_reached hreached (by simp)⟩, rfl⟩

/-- What is kept about an example: a sound oracle, and a complete gold sequence of the sentence. -/
structure Memo.Sound (s : Setup μ σ) (e : Example) (memo : Memo) : Prop where
  oracle : ∀ o, memo.oracle = some o → o.Sound e.tokens.length
  gold : ∀ actions, memo.gold = some actions →
    Followable s e.tokens ⟨⟨0, e.tokens.length⟩, actions, true⟩

theorem sound_goldOfOracle {s : Setup μ σ} (look : Stage → Scoring) {sentence : List String}
    {o : Oracle} (h : o.Sound sentence.length) :
    (∀ g ∈ (goldOfOracle s look sentence o).1, Followable s sentence g) ∧
      (goldOfOracle s look sentence o).2.Sound sentence.length ∧
      ∀ f, (goldOfOracle s look sentence o).2 = .exact f →
        ∀ g ∈ (goldOfOracle s look sentence o).1, g.window = ⟨0, sentence.length⟩ := by
  cases o with
  | exact f =>
    have hf : f.window = ⟨0, sentence.length⟩ := h
    have hinside : f.Inside sentence.length := by simp [GoldFilter.Inside, hf]
    have hgold : ∀ g ∈ (constrained s (look (.filter 0)) sentence f).1.toList,
        Followable s sentence g ∧ g.window = f.window := fun g hg =>
      followable_constrained hinside (Option.mem_toList.mp hg)
    exact ⟨fun g hg => (hgold g hg).1, (window_constrained s _ sentence f).trans hf,
      fun _ _ g hg => (hgold g hg).2.trans hf⟩
  | earlyUpdate f =>
    have hinside : (constrained s (look (.filter 0)) sentence f).2.Inside sentence.length := by
      rw [GoldFilter.Inside, window_constrained]
      exact h
    exact ⟨fun g hg => (followable_constrained h (Option.mem_toList.mp hg)).1, hinside,
      fun _ he => by cases he⟩
  | discontiguous fs =>
    refine ⟨fun g hg => ?_, fun f hf => ?_, fun _ he => by cases he⟩
    · obtain ⟨x, hx, hg⟩ := List.mem_filterMap.mp hg
      obtain ⟨i, hi, rfl⟩ := List.mem_mapIdx.mp hx
      exact (followable_constrained (h fs[i] (List.getElem_mem hi)) hg).1
    · obtain ⟨x, hx, rfl⟩ := List.mem_map.mp hf
      obtain ⟨i, hi, rfl⟩ := List.mem_mapIdx.mp hx
      rw [GoldFilter.Inside, window_constrained]
      exact h fs[i] (List.getElem_mem hi)
  | unreachable => exact ⟨fun g hg => (List.not_mem_nil hg).elim, trivial, fun _ he => by cases he⟩

/-- What is kept after an oracle was asked is sound. -/
theorem Memo.Sound.keep {s : Setup μ σ} {e : Example} {memo : Memo} (look : Stage → Scoring)
    (h : memo.Sound s e) {o : Oracle} (ho : o.Sound e.tokens.length) :
    Memo.Sound s e ⟨some (goldOfOracle s look e.tokens o).2,
      goldToKeep (goldOfOracle s look e.tokens o).2 (goldOfOracle s look e.tokens o).1 memo.gold⟩ := by
  obtain ⟨hgolds, horacle, hexact⟩ := sound_goldOfOracle (s := s) look ho
  refine ⟨fun o' ho' => Option.some_inj.mp ho' ▸ horacle, fun actions hactions => ?_⟩
  simp only [goldToKeep] at hactions
  split at hactions
  · next f g rest hf hg =>
    have hmem : g ∈ (goldOfOracle s look e.tokens o).1 := hg ▸ List.mem_cons_self
    split_ifs at hactions with hcomplete
    · have hfollow := hgolds g hmem
      obtain ⟨window, actions', complete⟩ := g
      cases hcomplete
      cases hactions
      cases hexact f hf _ hmem
      exact hfollow
    · exact h.gold actions hactions
  · exact h.gold actions hactions

/-- A gold sequence that is kept and may be used is the only one. -/
theorem goldOf_of_stored {s : Setup μ σ} (look : Stage → Scoring) {e : Example} {memo : Memo}
    {actions : List Action} (hs : s.options.useStoredGold = true) (h : memo.gold = some actions) :
    goldOf s look e memo = ([⟨⟨0, e.tokens.length⟩, actions, true⟩], memo) := by
  rw [goldOf, if_pos hs, h]

/-- **The gold sequences of an example can be followed**, and what is kept stays sound, whatever the
scores are in each search. -/
theorem sound_goldOf {s : Setup μ σ} {e : Example} {memo : Memo} (look : Stage → Scoring)
    (h : memo.Sound s e) :
    (∀ g ∈ (goldOf s look e memo).1, Followable s e.tokens g) ∧
      (goldOf s look e memo).2.Sound s e := by
  unfold goldOf
  split
  · next actions hstored =>
    refine ⟨fun g hg => ?_, h⟩
    rw [List.mem_singleton.mp hg]
    split_ifs at hstored
    exact h.gold actions hstored
  · cases hmemo : memo.oracle with
    | some o =>
      have ho := h.oracle o hmemo
      exact ⟨(sound_goldOfOracle look ho).1, h.keep look ho⟩
    | none =>
      have ho := Oracle.sound_build (s.taskOf (look .oracle) e.tokens) s.oracleOptions e.target
      exact ⟨(sound_goldOfOracle look ho).1, h.keep look ho⟩

end Training

end Categorial
