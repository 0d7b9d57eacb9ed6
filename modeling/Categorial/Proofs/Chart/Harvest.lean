import Categorial.Proofs.Chart.Exhaustive

/-!
# The actions of all derivations of a group

The actions of a group are gathered by a walk over the steps of the group and of those it builds on,
which goes through no group twice. If ids tell the groups apart, the walk leaves nothing out: it meets
the actions of all steps below the group.

* `Group.Uses`: the action is that of a step of the group or below it.
* `Group.Population`: groups that are told apart by their ids.
* `Group.Harvest.Closed`: what the walk keeps; **`Group.closed_harvest`**.
* **`Group.mem_harvest_iff`**: what the walk meets.
* `ActionSet.has_ofList`: what the set of a list of actions has.
-/

namespace Categorial

variable {σ : Type}

/-- The groups a step builds on; the flag tells a group from what it was before its unary steps. -/
def Step.parts {γ : Type} : Step σ γ → List (Bool × γ)
  | lexical _ _ => []
  | binary _ _ _ l r => [(false, l), (false, r)]
  | unary _ _ _ c => [(true, c)]

namespace Group

/-- The action is that of a step of the group, or of one below it. -/
inductive Uses : Group σ → Action → Prop
  | step {g : Group σ} {s : Step σ (Group σ)} : s ∈ g.steps → Uses g s.action
  | part {g : Group σ} {s : Step σ (Group σ)} {p : Bool × Group σ} {a : Action} : s ∈ g.steps →
      p ∈ s.parts → Uses p.2 a → Uses g a

theorem uses_action_of_mem_trees {w : List String} {g : Group σ} {d : Derivation}
    (hd : d ∈ g.trees w) : g.Uses d.action := by
  obtain ⟨s, hs, hd⟩ := mem_trees.mp hd
  rw [(Chart.action_and_arity_of_mem hd).1]
  exact .step hs

/-- The actions of the derivations of a group are used by it. -/
theorem uses_of_mem_trees {w : List String} {g : Group σ} {d : Derivation} (hd : d ∈ g.trees w) :
    ∀ a ∈ d.actions, g.Uses a := by
  have hlast := uses_action_of_mem_trees hd
  induction d generalizing g with
  | leaf a ws => exact List.forall_mem_singleton.mpr hlast
  | unary a d ih =>
    obtain ⟨s, hs, hd⟩ := mem_trees.mp hd
    cases s with
    | lexical => cases (Chart.action_and_arity_of_mem hd).2
    | binary => cases (Chart.action_and_arity_of_mem hd).2
    | unary a' x y c =>
      obtain ⟨d', hd', he⟩ := mem_treesOfStep_unary.mp hd
      obtain ⟨rfl, rfl⟩ := Derivation.unary.inj he
      intro b hb
      rw [Derivation.actions, List.mem_append, List.mem_singleton] at hb
      rcases hb with hb | rfl
      · exact .part hs (List.mem_singleton_self (true, c))
          (ih hd' (uses_action_of_mem_trees hd') b hb)
      · exact hlast
  | binary a l r ihl ihr =>
    obtain ⟨s, hs, hd⟩ := mem_trees.mp hd
    cases s with
    | lexical => cases (Chart.action_and_arity_of_mem hd).2
    | unary => cases (Chart.action_and_arity_of_mem hd).2
    | binary a' x y gl gr =>
      obtain ⟨dl, hdl, dr, hdr, he⟩ := mem_treesOfStep_binary.mp hd
      obtain ⟨rfl, rfl, rfl⟩ := Derivation.binary.inj he
      intro b hb
      rw [Derivation.actions, List.mem_append, List.mem_append, List.mem_singleton] at hb
      rcases hb with (hb | hb) | rfl
      · exact .part hs (List.mem_cons_self (a := (false, gl)))
          (ihl hdl (uses_action_of_mem_trees hdl) b hb)
      · exact .part hs (List.mem_cons_of_mem _ (List.mem_singleton_self (false, gr)))
          (ihr hdr (uses_action_of_mem_trees hdr) b hb)
      · exact hlast

/-! ## The walk meets nothing else -/

/-- The action is that of the step, or of one below it. -/
def UsedBy (s : Step σ (Group σ)) (a : Action) : Prop := a = s.action ∨ ∃ p ∈ s.parts, p.2.Uses a

mutual

theorem uses_of_mem_harvest (b : Bool) : (g : Group σ) → (h : Harvest) → {a : Action} →
    a ∈ (harvest b g h).actions → a ∈ h.actions ∨ g.Uses a
  | ⟨id, span, category, steps, best, base, parses⟩, h, a, ha => by
    rw [harvest] at ha
    split_ifs at ha
    · exact Or.inl ha
    · refine (usedBy_of_mem_harvestSteps steps _ ha).imp_right ?_
      rintro ⟨s, hs, rfl | ⟨p, hp, hu⟩⟩
      · exact .step (g := ⟨id, span, category, steps, best, base, parses⟩) hs
      · exact .part (g := ⟨id, span, category, steps, best, base, parses⟩) hs hp hu

theorem usedBy_of_mem_harvestSteps : (steps : List (Step σ (Group σ))) → (h : Harvest) →
    {a : Action} → a ∈ (harvestSteps steps h).actions → a ∈ h.actions ∨ ∃ s ∈ steps, UsedBy s a
  | [], h, a, ha => by
    rw [harvestSteps] at ha
    exact Or.inl ha
  | s :: steps, h, a, ha => by
    rw [harvestSteps] at ha
    rcases usedBy_of_mem_harvestSteps steps _ ha with ha | ⟨s', hs', hu⟩
    · exact (usedBy_of_mem_harvestStep s h ha).imp_right fun hu => ⟨s, List.mem_cons_self, hu⟩
    · exact Or.inr ⟨s', List.mem_cons_of_mem s hs', hu⟩

theorem usedBy_of_mem_harvestStep : (s : Step σ (Group σ)) → (h : Harvest) → {a : Action} →
    a ∈ (harvestStep s h).actions → a ∈ h.actions ∨ UsedBy s a
  | .lexical x _, h, a, ha => by
    rw [harvestStep] at ha
    exact (List.mem_cons.mp ha).symm.imp_right Or.inl
  | .binary x _ _ l r, h, a, ha => by
    rw [harvestStep] at ha
    rcases uses_of_mem_harvest false r _ ha with ha | hu
    · rcases uses_of_mem_harvest false l _ ha with ha | hu
      · exact (List.mem_cons.mp ha).symm.imp_right Or.inl
      · exact Or.inr (Or.inr ⟨(false, l), List.mem_cons_self, hu⟩)
    · exact Or.inr (Or.inr ⟨(false, r), List.mem_cons_of_mem _ List.mem_cons_self, hu⟩)
  | .unary x _ _ c, h, a, ha => by
    rw [harvestStep] at ha
    rcases uses_of_mem_harvest true c _ ha with ha | hu
    · exact (List.mem_cons.mp ha).symm.imp_right Or.inl
    · exact Or.inr (Or.inr ⟨(true, c), List.mem_cons_self, hu⟩)

end

/-! ## The walk leaves nothing out -/

/-- Groups that have the groups they build on among them, and are told apart by their ids. -/
structure Population (K : Bool → Group σ → Prop) : Prop where
  id_inj : ∀ {b g g'}, K b g → K b g' → g.id = g'.id → g = g'
  parts : ∀ {b g s p}, K b g → s ∈ g.steps → p ∈ s.parts → K p.1 p.2

namespace Harvest

/-- The walk has gone through the group. -/
def Visited (h : Harvest) (b : Bool) (g : Group σ) : Prop := h.visited.contains (g.id, b) = true

/-- The walk has met the action of the step and gone through the groups it builds on. -/
def Met (h : Harvest) (s : Step σ (Group σ)) : Prop :=
  s.action ∈ h.actions ∧ ∀ p ∈ s.parts, h.Visited p.1 p.2

/-- The second walk has gone on from the first. -/
structure Extends (h h' : Harvest) : Prop where
  actions : ∀ a ∈ h.actions, a ∈ h'.actions
  visited : ∀ x, h.visited.contains x = true → h'.visited.contains x = true

theorem Extends.refl (h : Harvest) : h.Extends h := ⟨fun _ ha => ha, fun _ hx => hx⟩

theorem Extends.trans {h₁ h₂ h₃ : Harvest} (h : h₁.Extends h₂) (h' : h₂.Extends h₃) :
    h₁.Extends h₃ :=
  ⟨fun a ha => h'.actions a (h.actions a ha), fun x hx => h'.visited x (h.visited x hx)⟩

theorem Met.mono {h h' : Harvest} {s : Step σ (Group σ)} (hs : h.Met s) (hext : h.Extends h') :
    h'.Met s :=
  ⟨hext.actions _ hs.1, fun p hp => hext.visited _ (hs.2 p hp)⟩

theorem extends_meet (h : Harvest) (a : Action) : h.Extends { h with actions := a :: h.actions } :=
  ⟨fun _ ha => List.mem_cons_of_mem a ha, fun _ hx => hx⟩

theorem contains_visit {h : Harvest} {x y : Nat × Bool} :
    (h.visited.insert x).contains y = true ↔ x = y ∨ h.visited.contains y = true := by
  rw [Std.HashSet.contains_insert, Bool.or_eq_true, beq_iff_eq]

theorem extends_visit (h : Harvest) (x : Nat × Bool) :
    h.Extends { h with visited := h.visited.insert x } :=
  ⟨fun _ ha => ha, fun _ hy => contains_visit.mpr (Or.inr hy)⟩

/-- The steps of all groups that the walk has left behind are met; those whose keys are in `open_` it
is still going through. -/
def Closed (K : Bool → Group σ → Prop) (open_ : List (Nat × Bool)) (h : Harvest) : Prop :=
  ∀ b g, K b g → h.Visited b g → (g.id, b) ∉ open_ → ∀ s ∈ g.steps, h.Met s

theorem Closed.meet {K : Bool → Group σ → Prop} {open_ : List (Nat × Bool)} {h : Harvest}
    (hc : h.Closed K open_) (a : Action) :
    Closed K open_ { h with actions := a :: h.actions } :=
  fun b g hg hv ho s hs => (hc b g hg hv ho s hs).mono (h.extends_meet a)

/-- A group is open from when the walk enters it. -/
theorem Closed.visit {K : Bool → Group σ → Prop} {open_ : List (Nat × Bool)} {h : Harvest}
    (hc : h.Closed K open_) (x : Nat × Bool) :
    Closed K (x :: open_) { h with visited := h.visited.insert x } := by
  intro b g hg hv ho s hs
  obtain ⟨hne, ho⟩ := not_or.mp fun h => ho (List.mem_cons.mpr h)
  rcases contains_visit.mp hv with he | hv
  · exact absurd he.symm hne
  · exact (hc b g hg hv ho s hs).mono (h.extends_visit x)

/-- A group whose steps are met need not be open. -/
theorem Closed.leave {K : Bool → Group σ → Prop} (hK : Population K) {open_ : List (Nat × Bool)}
    {h : Harvest} {b : Bool} {g : Group σ} (hc : h.Closed K ((g.id, b) :: open_)) (hg : K b g)
    (hsteps : ∀ s ∈ g.steps, h.Met s) : h.Closed K open_ := by
  intro b' g' hg' hv ho s hs
  by_cases he : (g'.id, b') = (g.id, b)
  · obtain ⟨hid, rfl⟩ := Prod.mk.inj he
    rw [hK.id_inj hg' hg hid] at hs
    exact hsteps s hs
  · exact hc b' g' hg' hv (fun h => (List.mem_cons.mp h).elim he ho) s hs

end Harvest

open Harvest

variable {K : Bool → Group σ → Prop}

mutual

/-- **The walk leaves no step of a group behind that it has not met.** -/
theorem closed_harvest (hK : Population K) (b : Bool) : (g : Group σ) → (h : Harvest) → K b g →
    (open_ : List (Nat × Bool)) → h.Closed K open_ →
    h.Extends (harvest b g h) ∧ (harvest b g h).Closed K open_ ∧ (harvest b g h).Visited b g
  | ⟨id, span, category, steps, best, base, parses⟩, h, hg, open_, hc => by
    rw [harvest]
    split_ifs with hv
    · exact ⟨.refl h, hc, hv⟩
    · obtain ⟨hext, hc', hmet⟩ := closed_harvestSteps hK steps
        { h with visited := h.visited.insert (id, b) } (fun s hs p hp => hK.parts hg hs hp) _
        (hc.visit (id, b))
      have hself : (h.visited.insert (id, b)).contains (id, b) = true :=
        contains_visit.mpr (Or.inl rfl)
      exact ⟨(h.extends_visit (id, b)).trans hext, Closed.leave hK hc' hg hmet,
        hext.visited _ hself⟩

theorem closed_harvestSteps (hK : Population K) : (steps : List (Step σ (Group σ))) →
    (h : Harvest) → (∀ s ∈ steps, ∀ p ∈ s.parts, K p.1 p.2) → (open_ : List (Nat × Bool)) →
    h.Closed K open_ → h.Extends (harvestSteps steps h) ∧
      (harvestSteps steps h).Closed K open_ ∧ ∀ s ∈ steps, (harvestSteps steps h).Met s
  | [], h, _, open_, hc => by
    rw [harvestSteps]
    exact ⟨.refl h, hc, nofun⟩
  | s :: steps, h, hparts, open_, hc => by
    obtain ⟨hext₁, hc₁, hmet₁⟩ := closed_harvestStep hK s h
      (hparts s List.mem_cons_self) open_ hc
    obtain ⟨hext₂, hc₂, hmet₂⟩ := closed_harvestSteps hK steps (harvestStep s h)
      (fun s' hs' => hparts s' (List.mem_cons_of_mem s hs')) open_ hc₁
    rw [harvestSteps]
    exact ⟨hext₁.trans hext₂, hc₂, List.forall_mem_cons.mpr ⟨hmet₁.mono hext₂, hmet₂⟩⟩

theorem closed_harvestStep (hK : Population K) : (s : Step σ (Group σ)) → (h : Harvest) →
    (∀ p ∈ s.parts, K p.1 p.2) → (open_ : List (Nat × Bool)) → h.Closed K open_ →
    h.Extends (harvestStep s h) ∧ (harvestStep s h).Closed K open_ ∧ (harvestStep s h).Met s
  | .lexical a _, h, _, open_, hc => by
    rw [harvestStep]
    exact ⟨h.extends_meet a, hc.meet a, List.mem_cons_self, nofun⟩
  | .binary a _ _ l r, h, hparts, open_, hc => by
    obtain ⟨hl, hrest⟩ := List.forall_mem_cons.mp hparts
    obtain ⟨hext₁, hc₁, hv₁⟩ := closed_harvest hK false l { h with actions := a :: h.actions }
      hl open_ (hc.meet a)
    obtain ⟨hext₂, hc₂, hv₂⟩ := closed_harvest hK false r
      (harvest false l { h with actions := a :: h.actions }) (hrest _ (List.mem_singleton_self _))
      open_ hc₁
    rw [harvestStep]
    refine ⟨((h.extends_meet a).trans hext₁).trans hext₂, hc₂,
      hext₂.actions a (hext₁.actions a List.mem_cons_self), ?_⟩
    exact List.forall_mem_cons.mpr ⟨hext₂.visited _ hv₁, List.forall_mem_singleton.mpr hv₂⟩
  | .unary a _ _ c, h, hparts, open_, hc => by
    obtain ⟨hext, hc', hv⟩ := closed_harvest hK true c { h with actions := a :: h.actions }
      (hparts _ (List.mem_singleton_self _)) open_ (hc.meet a)
    rw [harvestStep]
    exact ⟨(h.extends_meet a).trans hext, hc', hext.actions a List.mem_cons_self,
      List.forall_mem_singleton.mpr hv⟩

end

/-- A walk that has left all groups behind has met what they use. -/
theorem Uses.mem_of_closed {h : Harvest} (hK : Population K) (hc : h.Closed K []) {g : Group σ}
    {a : Action} (hu : g.Uses a) {b : Bool} (hg : K b g) (hv : h.Visited b g) : a ∈ h.actions := by
  induction hu generalizing b with
  | step hs => exact (hc b _ hg hv List.not_mem_nil _ hs).1
  | part hs hp _ ih =>
    exact ih (hK.parts hg hs hp) ((hc b _ hg hv List.not_mem_nil _ hs).2 _ hp)

theorem mem_harvest_iff (hK : Population K) {b : Bool} {g : Group σ} (hg : K b g) {a : Action} :
    a ∈ (harvest b g {}).actions ↔ g.Uses a := by
  have hempty : Closed K [] {} := fun _ _ _ hv => by
    simp [Visited] at hv
  obtain ⟨-, hc, hv⟩ := closed_harvest hK b g {} hg [] hempty
  constructor
  · intro ha
    exact (uses_of_mem_harvest b g {} ha).resolve_left List.not_mem_nil
  · exact fun hu => hu.mem_of_closed hK hc hg hv

end Group

/-! ## Sets of actions -/

theorem Action.same_congr {a b : Action} (h : a.same b = true) (c : Action) :
    c.same a = c.same b := by
  obtain ⟨hspan, hrule, hcat⟩ := Action.same_iff.mp h
  rw [Action.same, Action.same, hspan, hrule, hcat]

theorem ActionSet.has_dropRepeats (l : List Action) (a : Action) :
    ActionSet.has (dropRepeats l) a = l.any a.same := by
  induction l using dropRepeats.induct with
  | case1 x y rest hsame ih =>
    rw [dropRepeats, if_pos hsame, ih, List.any_cons, List.any_cons, List.any_cons,
      Action.same_congr hsame, ← Bool.or_assoc, Bool.or_self]
  | case2 x y rest hsame ih =>
    rw [dropRepeats, if_neg hsame, has, List.any_cons, List.any_cons, ← ih]
    rfl
  | case3 l hl =>
    rw [dropRepeats.eq_def]
    split
    · exact absurd rfl (hl _ _ _)
    · rfl

theorem ActionSet.has_ofList (l : List Action) (a : Action) :
    ActionSet.has (ofList l) a = l.any a.same := by
  rw [ofList, has_dropRepeats]
  exact (List.mergeSort_perm l _).any_eq

end Categorial
