import Categorial.Proofs.Entries
import Categorial.Proofs.Licensed
import Categorial.Proofs.Relevance

/-!
# Constants along derivations

If no meaning in the lexicon or in a rule has an idle binder, a rule loses no constant of the meanings
it is given: the meaning of a derivation has all constants of the meanings of its parts. Skipped words
are an exception, but they have no meaning. They are the only parts that a rule can leave out, provided
that the syntax of skipped words occurs in no other entry and in no unary rule.

* `Retains`: parts of which no constant is lost; `BinaryRule.retains_of_combine`,
  `UnaryRule.retains_of_apply`.
* `Syn.mentionsEmpty`: the syntax of skipped words occurs; `BinaryRule.mentionsEmpty_of_combine`.
* `Category.isPlain`, `UnaryRule.isPlain`, `Task.isPlain`: no idle binder, no syntax of skipped words.
* **`Grammatical.keepsConstants`**: the constants of a derivation.
-/

namespace Categorial

variable {sig : Signature}

/-! ## Meanings without idle binders -/

/-- The meaning is absent or has no idle binder. -/
def RelevantSem (sem : Option Term) : Prop := ∀ m, sem = some m → m.isRelevant = true

/-- All parts have a meaning, and no constant of them is lost in the whole, which has no idle
binder. -/
structure Retains (parts : List (Option Term)) (m : Term) : Prop where
  relevant : m.isRelevant = true
  kept : ∀ part ∈ parts, ∃ p, part = some p ∧ ∀ n ∈ p.constantNames, n ∈ m.constantNames

theorem Retains.pair {p q m : Term} (hm : m.isRelevant = true)
    (hp : ∀ n ∈ p.constantNames, n ∈ m.constantNames)
    (hq : ∀ n ∈ q.constantNames, n ∈ m.constantNames) : Retains [some p, some q] m :=
  ⟨hm, List.forall_mem_cons.mpr ⟨⟨p, rfl, hp⟩, List.forall_mem_singleton.mpr ⟨q, rfl, hq⟩⟩⟩

theorem Retains.swap {a b : Option Term} {m : Term} (h : Retains [a, b] m) : Retains [b, a] m :=
  ⟨h.relevant, fun part hpart => h.kept part ((List.Perm.swap a b []).mem_iff.mp hpart)⟩

namespace Term

theorem hasFreeMod_applyAll (f : Term) (args : List Term) (k : Nat) :
    (f.applyAll args).hasFreeMod 0 k = true ↔
      f.hasFreeMod 0 k = true ∨ ∃ a ∈ args, a.hasFreeMod 0 k = true := by
  induction args generalizing f with
  | nil => simp [applyAll]
  | cons a args ih =>
    rw [applyAll, List.foldl_cons, ← applyAll, ih, hasFreeMod_app, List.exists_mem_cons_iff, or_assoc]

theorem isRelevant_applyAll {f : Term} {args : List Term} (hf : f.isRelevant = true)
    (hargs : ∀ a ∈ args, a.isRelevant = true) : (f.applyAll args).isRelevant = true := by
  induction args generalizing f with
  | nil => exact hf
  | cons a args ih =>
    obtain ⟨ha, hargs⟩ := List.forall_mem_cons.mp hargs
    exact ih (isRelevant_app.mpr ⟨hf, ha⟩) hargs

theorem mem_constantNames_applyAll {f : Term} {n : String} (h : n ∈ f.constantNames)
    (args : List Term) : n ∈ (f.applyAll args).constantNames := by
  induction args generalizing f with
  | nil => exact h
  | cons a args ih => exact ih (mem_constantNames_app.mpr (Or.inl h))

theorem hasFreeMod_lams (tys : List Ty) (b : Term) (k : Nat) :
    (lams tys b).hasFreeMod 0 k = b.hasFreeMod 0 (k + tys.length) := by
  induction tys generalizing k with
  | nil => rfl
  | cons ty tys ih =>
    rw [lams, List.foldr_cons, ← lams, hasFreeMod_lam, ih, List.length_cons, Nat.add_right_comm,
      Nat.add_assoc]

theorem constantNames_lams (tys : List Ty) (b : Term) : (lams tys b).constantNames = b.constantNames := by
  induction tys with
  | nil => rfl
  | cons ty tys ih => exact ih

theorem isRelevant_lams {tys : List Ty} {b : Term} (hb : b.isRelevant = true)
    (hfree : ∀ k < tys.length, b.hasFreeMod 0 k = true) : (lams tys b).isRelevant = true := by
  induction tys with
  | nil => exact hb
  | cons ty tys ih =>
    rw [List.length_cons] at hfree
    refine isRelevant_lam.mpr ⟨?_, ih fun k hk => hfree k (by omega)⟩
    rw [← lams, hasFreeMod_lams, Nat.zero_add]
    exact hfree tys.length (by omega)

end Term

theorem Ty.length_of_argTypes {n : Nat} {ty : Ty} {tys : List Ty} (h : ty.argTypes n = some tys) :
    tys.length = n := by
  induction n generalizing ty tys with
  | zero =>
    rw [argTypes] at h
    cases h
    rfl
  | succ n ih =>
    cases ty with
    | atom x => cases h
    | arrow a r =>
      obtain ⟨rest, hrest, rfl⟩ := Option.map_eq_some_iff.mp h
      rw [List.length_cons, ih hrest]

/-! ## Built meanings lose no constant -/

section Built

variable {f a : Option Term} {m : Term}

theorem retains_of_applySem (hf : RelevantSem f) (ha : RelevantSem a)
    (h : applySem sig f a = some (some m)) : Retains [f, a] m := by
  unfold applySem at h
  split at h
  · rename_i f a
    obtain rfl := Option.some_inj.mp (checkedSem_eq_some.mp h).1
    exact .pair (Term.isRelevant_app.mpr ⟨hf f rfl, ha a rfl⟩)
      (fun n hn => Term.mem_constantNames_app.mpr (Or.inl hn))
      fun n hn => Term.mem_constantNames_app.mpr (Or.inr hn)
  · cases h

theorem retains_of_composeSem {degree : Nat} (hf : RelevantSem f) (ha : RelevantSem a)
    (h : composeSem sig degree f a = some (some m)) : Retains [f, a] m := by
  unfold composeSem at h
  split at h
  · rename_i f g
    simp only [Option.bind_eq_bind, Option.bind_eq_some_iff] at h
    obtain ⟨gTy, -, tys, htys, h⟩ := h
    obtain rfl := Option.some_inj.mp (checkedSem_eq_some.mp h).1
    have hlength := Ty.length_of_argTypes htys
    refine .pair (Term.isRelevant_lams ?_ fun k hk => ?_) (fun n hn => ?_) fun n hn => ?_
    · refine Term.isRelevant_app.mpr ⟨(Term.isRelevant_shift f degree 0).trans (hf f rfl), ?_⟩
      refine Term.isRelevant_applyAll ((Term.isRelevant_shift g degree 0).trans (ha g rfl)) ?_
      intro v hv
      obtain ⟨i, -, rfl⟩ := List.mem_map.mp hv
      rfl
    · rw [Term.hasFreeMod_app, Term.hasFreeMod_applyAll]
      refine Or.inr (Or.inr ⟨.var k, List.mem_map_of_mem ?_, beq_self_eq_true k⟩)
      rwa [List.mem_reverse, List.mem_range, ← hlength]
    · rw [Term.constantNames_lams, Term.mem_constantNames_app, Term.constantNames_shift]
      exact Or.inl hn
    · rw [Term.constantNames_lams, Term.mem_constantNames_app]
      refine Or.inr (Term.mem_constantNames_applyAll ?_ _)
      rwa [Term.constantNames_shift]
  · cases h

theorem retains_of_raiseComposeSem (ha : RelevantSem a) (hf : RelevantSem f)
    (h : raiseComposeSem sig a f = some (some m)) : Retains [a, f] m := by
  unfold raiseComposeSem at h
  split at h
  · rename_i a g
    simp only [Option.bind_eq_bind, Option.bind_eq_some_iff] at h
    obtain ⟨gTy, -, ⟨zTy, ret⟩, -, h⟩ := h
    obtain rfl := Option.some_inj.mp (checkedSem_eq_some.mp h).1
    have hg : (g.shift 1 0).isRelevant = true := (Term.isRelevant_shift g 1 0).trans (hf g rfl)
    have ha' : (a.shift 1 0).isRelevant = true := (Term.isRelevant_shift a 1 0).trans (ha a rfl)
    refine .pair (Term.isRelevant_lam.mpr ⟨?_, Term.isRelevant_applyAll hg ?_⟩) (fun n hn => ?_)
      fun n hn => ?_
    · rw [Term.hasFreeMod_applyAll]
      exact Or.inr ⟨.var 0, List.mem_cons_self, rfl⟩
    · simp [ha', Term.isRelevant]
    · refine Term.mem_constantNames_app.mpr (Or.inr ?_)
      rwa [Term.constantNames_shift]
    · refine Term.mem_constantNames_applyAll ?_ _
      rwa [Term.constantNames_shift]
  · cases h

theorem retains_of_raiseSem {targetTy : Ty} (ha : RelevantSem a)
    (h : raiseSem sig targetTy a = some (some m)) : Retains [a] m := by
  unfold raiseSem at h
  split at h
  · rename_i a
    simp only [Option.bind_eq_bind, Option.bind_eq_some_iff, Option.some.injEq] at h
    obtain ⟨aTy, -, rfl⟩ := h
    have ha' : (a.shift 1 0).isRelevant = true := (Term.isRelevant_shift a 1 0).trans (ha a rfl)
    refine ⟨Term.isRelevant_lam.mpr ⟨?_, Term.isRelevant_app.mpr ⟨rfl, ha'⟩⟩, ?_⟩
    · exact Term.hasFreeMod_app.mpr (Or.inl rfl)
    · refine List.forall_mem_singleton.mpr ⟨a, rfl, fun n hn => ?_⟩
      refine Term.mem_constantNames_app.mpr (Or.inr ?_)
      rwa [Term.constantNames_shift]
  · cases h

/-- Bringing a built meaning to normal form loses no constant. -/
theorem retains_of_make {parts : List (Option Term)} {syn : Syn} {sem : Option Term}
    (htyped : TypedSem sig sem) (h : ∀ m, sem = some m → Retains parts m)
    (hm : (Category.make syn sem).sem = some m) : Retains parts m := by
  obtain ⟨t, rfl, rfl⟩ := Option.map_eq_some_iff.mp hm
  obtain ⟨ty, hty⟩ := htyped t rfl
  have hretains := h t rfl
  have hkeeps := Term.keeps_normalize (Term.isClosed_of_infer hty) hretains.relevant
  refine ⟨hkeeps.relevant, fun part hpart => ?_⟩
  obtain ⟨p, hp, hnames⟩ := hretains.kept part hpart
  exact ⟨p, hp, fun n hn => (hkeeps.constants n).mpr (hnames n hn)⟩

end Built

/-! ## Rules lose no constant -/

theorem retains_of_compose {slash : Slash} {maxDegree : Nat} {functor other c : Category} {m : Term}
    (hf : RelevantSem functor.sem) (ho : RelevantSem other.sem)
    (h : compose sig slash maxDegree functor other = some c) (hm : c.sem = some m) :
    Retains [functor.sem, other.sem] m := by
  unfold compose at h
  simp only [Option.bind_eq_bind, Option.bind_eq_some_iff] at h
  obtain ⟨⟨x, fSlash, y⟩, -, h⟩ := h
  split_ifs at h
  · simp at h
  · simp only [Option.bind_eq_some_iff] at h
    obtain ⟨⟨degree, args⟩, -, sem, hsem, h⟩ := h
    cases h
    refine retains_of_make (typedSem_of_composeSem hsem) (fun t ht => ?_) hm
    rw [ht] at hsem
    exact retains_of_composeSem hf ho hsem

/-- A binary rule that skips nothing loses no constant. -/
theorem BinaryRule.retains_of_combine {rule : BinaryRule} {left right c : Category} {m : Term}
    (hskip : rule.isSkipping = false) (hl : RelevantSem left.sem) (hr : RelevantSem right.sem)
    (h : rule.combine sig left right = some c) (hm : c.sem = some m) :
    Retains [left.sem, right.sem] m := by
  unfold combine at h
  split_ifs at h
  cases rule with
  | forwardApplication =>
    simp only [Option.bind_eq_bind, Option.bind_eq_some_iff] at h
    obtain ⟨_, -, sem, hsem, h⟩ := h
    cases h
    exact retains_of_make (typedSem_of_applySem hsem)
      (fun t ht => retains_of_applySem hl hr (ht ▸ hsem)) hm
  | backwardApplication =>
    simp only [Option.bind_eq_bind, Option.bind_eq_some_iff] at h
    obtain ⟨_, -, sem, hsem, h⟩ := h
    cases h
    exact (retains_of_make (typedSem_of_applySem hsem)
      (fun t ht => retains_of_applySem hr hl (ht ▸ hsem)) hm).swap
  | forwardComposition maxDegree => exact retains_of_compose hl hr h hm
  | backwardComposition maxDegree => exact (retains_of_compose hr hl h hm).swap
  | forwardTypeRaisedComposition =>
    simp only [Option.bind_eq_bind, Option.bind_eq_some_iff] at h
    obtain ⟨_, -, _, -, sem, hsem, h⟩ := h
    cases h
    exact retains_of_make (typedSem_of_raiseComposeSem hsem)
      (fun t ht => retains_of_raiseComposeSem hl hr (ht ▸ hsem)) hm
  | forwardSkipping | backwardSkipping => cases hskip

/-! ## The syntax of skipped words -/

namespace Syn

/-- The syntax of skipped words occurs. -/
def mentionsEmpty : Syn → Bool
  | atom a => (atom a).isEmpty
  | complex r _ a => r.mentionsEmpty || a.mentionsEmpty

theorem mentionsEmpty_complex {r a : Syn} {s : Slash} : (complex r s a).mentionsEmpty = false ↔
    r.mentionsEmpty = false ∧ a.mentionsEmpty = false := by
  rw [mentionsEmpty, Bool.or_eq_false_iff]

theorem isEmpty_of_mentionsEmpty {s : Syn} (h : s.mentionsEmpty = false) : s.isEmpty = false := by
  cases s with
  | atom a => exact h
  | complex r sl a => rfl

theorem mentionsEmpty_wrap {core : Syn} {args : List (Slash × Syn)}
    (hcore : core.mentionsEmpty = false) (hargs : ∀ x ∈ args, x.2.mentionsEmpty = false) :
    (core.wrap args).mentionsEmpty = false := by
  induction args generalizing core with
  | nil => exact hcore
  | cons x args ih =>
    obtain ⟨hx, hargs⟩ := List.forall_mem_cons.mp hargs
    exact ih (mentionsEmpty_complex.mpr ⟨hcore, hx⟩) hargs

theorem mentionsEmpty_of_peelOnto {n : Nat} {s core : Syn} {args args' : List (Slash × Syn)}
    (hs : s.mentionsEmpty = false) (hargs : ∀ x ∈ args, x.2.mentionsEmpty = false)
    (h : peelOnto n s args = some (core, args')) : ∀ x ∈ args', x.2.mentionsEmpty = false := by
  induction n generalizing s args with
  | zero =>
    rw [peelOnto] at h
    cases h
    exact hargs
  | succ n ih =>
    cases s with
    | atom a => cases h
    | complex r sl a =>
      obtain ⟨hr, ha⟩ := mentionsEmpty_complex.mp hs
      exact ih hr (List.forall_mem_cons.mpr ⟨ha, hargs⟩) h

end Syn

theorem mentionsEmpty_of_matchesDegree {slash : Slash} {y other : Syn} {degree : Nat}
    {args : List (Slash × Syn)} (ho : other.mentionsEmpty = false)
    (h : matchesDegree? slash y other degree = some args) :
    ∀ x ∈ args, x.2.mentionsEmpty = false := by
  unfold matchesDegree? at h
  split at h
  · rename_i core args' hpeel
    split_ifs at h
    cases h
    exact Syn.mentionsEmpty_of_peelOnto ho (fun _ h => absurd h List.not_mem_nil) hpeel
  · cases h

theorem mentionsEmpty_of_complex? {s x y : Syn} {slash : Slash} (hs : s.mentionsEmpty = false)
    (h : s.complex? = some (x, slash, y)) : x.mentionsEmpty = false ∧ y.mentionsEmpty = false := by
  cases s with
  | atom a => cases h
  | complex r sl a =>
    cases h
    exact Syn.mentionsEmpty_complex.mp hs

theorem mentionsEmpty_of_compose {slash : Slash} {maxDegree : Nat} {functor other c : Category}
    (hf : functor.syn.mentionsEmpty = false) (ho : other.syn.mentionsEmpty = false)
    (h : compose sig slash maxDegree functor other = some c) : c.syn.mentionsEmpty = false := by
  unfold compose at h
  simp only [Option.bind_eq_bind, Option.bind_eq_some_iff] at h
  obtain ⟨⟨x, fSlash, y⟩, hx, h⟩ := h
  split_ifs at h
  · simp at h
  · simp only [Option.bind_eq_some_iff] at h
    obtain ⟨⟨degree, args⟩, hargs, sem, -, h⟩ := h
    cases h
    obtain ⟨d, -, hd⟩ := List.exists_of_findSome?_eq_some hargs
    obtain ⟨args', hmatch, he⟩ := Option.map_eq_some_iff.mp hd
    cases he
    exact Syn.mentionsEmpty_wrap (mentionsEmpty_of_complex? hf hx).1
      (mentionsEmpty_of_matchesDegree ho hmatch)

/-- The syntax of skipped words does not come up by itself. -/
theorem BinaryRule.mentionsEmpty_of_combine {rule : BinaryRule} {left right c : Category}
    (hl : left.syn.mentionsEmpty = false) (hr : right.syn.mentionsEmpty = false)
    (h : rule.combine sig left right = some c) : c.syn.mentionsEmpty = false := by
  unfold combine at h
  split_ifs at h
  cases rule with
  | forwardApplication =>
    simp only [Option.bind_eq_bind, Option.bind_eq_some_iff] at h
    obtain ⟨⟨x, s, y⟩, hx, sem, -, h⟩ := h
    cases h
    exact (mentionsEmpty_of_complex? hl hx).1
  | backwardApplication =>
    simp only [Option.bind_eq_bind, Option.bind_eq_some_iff] at h
    obtain ⟨⟨x, s, y⟩, hx, sem, -, h⟩ := h
    cases h
    exact (mentionsEmpty_of_complex? hr hx).1
  | forwardComposition maxDegree => exact mentionsEmpty_of_compose hl hr h
  | backwardComposition maxDegree => exact mentionsEmpty_of_compose hr hl h
  | forwardTypeRaisedComposition =>
    simp only [Option.bind_eq_bind, Option.bind_eq_some_iff] at h
    obtain ⟨⟨inner, s, z⟩, hz, ⟨r, s', y⟩, hy, sem, -, h⟩ := h
    cases h
    obtain ⟨hinner, hz⟩ := mentionsEmpty_of_complex? hr hz
    exact Syn.mentionsEmpty_complex.mpr ⟨(mentionsEmpty_of_complex? hinner hy).1, hz⟩
  | forwardSkipping => cases h; exact hr
  | backwardSkipping => cases h; exact hl

namespace BinaryRule

theorem applies_of_combine {rule : BinaryRule} {left right c : Category}
    (h : rule.combine sig left right = some c) : rule.applies left.syn right.syn = true := by
  unfold combine at h
  split_ifs at h with happlies
  simpa using happlies

theorem isSkipping_of_applies {rule : BinaryRule} {left right : Syn}
    (h : rule.applies left right = true) (hl : left.isEmpty = false) (hr : right.isEmpty = false) :
    rule.isSkipping = false := by
  cases rule with
  | forwardSkipping => simp [applies, hl] at h
  | backwardSkipping => simp [applies, hr] at h
  | _ => rfl

theorem not_applies_empty (rule : BinaryRule) : rule.applies .empty .empty = false := by
  cases rule <;> rfl

/-- To the right of a skipped word only skipping applies, unless its syntax is asked for. -/
theorem eq_forwardSkipping {rule : BinaryRule} {right : Syn} (h : rule.applies .empty right = true)
    (hr : right.mentionsEmpty = false) : rule = forwardSkipping := by
  cases rule with
  | forwardSkipping => rfl
  | forwardApplication | forwardComposition => cases h
  | backwardSkipping => simp [applies, Syn.isEmpty_of_mentionsEmpty hr] at h
  | backwardApplication =>
    simp only [applies] at h
    split at h
    · rw [eq_of_beq h] at hr
      cases (Syn.mentionsEmpty_complex.mp hr).2
    · cases h
  | backwardComposition =>
    simp only [applies] at h
    split at h <;> cases h
  | forwardTypeRaisedComposition =>
    simp only [applies] at h
    split at h
    · rw [eq_of_beq h] at hr
      cases (Syn.mentionsEmpty_complex.mp (Syn.mentionsEmpty_complex.mp hr).1).2
    · cases h

/-- To the left of a skipped word only skipping applies, unless its syntax is asked for. -/
theorem eq_backwardSkipping {rule : BinaryRule} {left : Syn} (h : rule.applies left .empty = true)
    (hl : left.mentionsEmpty = false) : rule = backwardSkipping := by
  cases rule with
  | backwardSkipping => rfl
  | backwardApplication | backwardComposition | forwardTypeRaisedComposition => cases h
  | forwardSkipping => simp [applies, Syn.isEmpty_of_mentionsEmpty hl] at h
  | forwardApplication =>
    simp only [applies] at h
    split at h
    · rw [eq_of_beq h] at hl
      cases (Syn.mentionsEmpty_complex.mp hl).2
    · cases h
  | forwardComposition =>
    simp only [applies] at h
    split at h <;> cases h

theorem eq_right_of_forwardSkipping {left right c : Category}
    (h : forwardSkipping.combine sig left right = some c) : c = right := by
  unfold combine at h
  split_ifs at h
  cases h
  rfl

theorem eq_left_of_backwardSkipping {left right c : Category}
    (h : backwardSkipping.combine sig left right = some c) : c = left := by
  unfold combine at h
  split_ifs at h
  cases h
  rfl

end BinaryRule

/-! ## Plain grammars and lexicons -/

/-- No skipped word, and no idle binder. -/
def Category.isPlain (c : Category) : Bool :=
  !c.syn.mentionsEmpty && c.sem.all Term.isRelevant

/-- The rule asks for no skipped word and makes none, and its template has no idle binder. -/
def UnaryRule.isPlain : UnaryRule → Bool
  | typeRaising _ arg target _ => !arg.mentionsEmpty && !target.mentionsEmpty
  | typeShifting _ _ target template => !target.mentionsEmpty && template.isRelevant

/-- All unary rules are plain. -/
def RuleSet.isPlain (rs : RuleSet) : Bool :=
  rs.rules.all fun
    | .binary _ => true
    | .unary r => r.isPlain

/-- All entries are plain, except those of skipped words, and so are all unary rules. -/
def Task.isPlain {σ : Type} (t : Task σ) : Bool :=
  (t.lexicon.entries.all fun e => e.category == .empty || e.category.isPlain) &&
    t.grammar.rules.isPlain

theorem Category.isPlain_iff {c : Category} :
    c.isPlain = true ↔ c.syn.mentionsEmpty = false ∧ RelevantSem c.sem := by
  simp [isPlain, RelevantSem, Option.all_eq_true]

/-- A plain unary rule loses no constant and makes no skipped word. -/
theorem UnaryRule.retains_of_apply {rule : UnaryRule} (hrule : rule.isPlain = true)
    {cat c : Category} (hcat : RelevantSem cat.sem) (h : rule.apply sig cat = some c) :
    c.syn.mentionsEmpty = false ∧ ∀ m, c.sem = some m → Retains [cat.sem] m := by
  unfold apply at h
  cases rule with
  | typeRaising name arg target targetTy =>
    obtain ⟨harg, htarget⟩ : arg.mentionsEmpty = false ∧ target.mentionsEmpty = false := by
      simpa [isPlain] using hrule
    simp only [Option.bind_eq_bind] at h
    split_ifs at h
    · obtain ⟨sem, hsem, h⟩ := Option.bind_eq_some_iff.mp h
      rw [Option.bind_some] at h
      split_ifs at h
      cases h
      refine ⟨Syn.mentionsEmpty_complex.mpr ⟨htarget,
        Syn.mentionsEmpty_complex.mpr ⟨htarget, harg⟩⟩, fun m hm => ?_⟩
      exact retains_of_make (typedSem_of_raiseSem hsem)
        (fun t ht => retains_of_raiseSem hcat (ht ▸ hsem)) hm
    · cases h
  | typeShifting name source target template =>
    obtain ⟨htarget, htemplate⟩ : target.mentionsEmpty = false ∧ template.isRelevant = true := by
      simpa [isPlain] using hrule
    simp only [Option.bind_eq_bind] at h
    split_ifs at h
    · obtain ⟨sem, hsem, h⟩ := Option.bind_eq_some_iff.mp h
      rw [Option.bind_some] at h
      split_ifs at h
      cases h
      refine ⟨htarget, fun m hm => ?_⟩
      have hretains := retains_of_make (typedSem_of_applySem hsem) (fun t ht =>
        retains_of_applySem (f := some template) (by rintro _ ⟨⟩; exact htemplate) hcat (ht ▸ hsem)) hm
      exact ⟨hretains.relevant, fun part hpart =>
        hretains.kept part (List.mem_cons_of_mem _ hpart)⟩
    · cases h

/-! ## Derivations -/

namespace Derivation

/-- All constants of the meanings of the actions occur in the term. -/
def CoveredBy (d : Derivation) (m : Term) : Prop :=
  ∀ a ∈ d.actions, ∀ p, a.category.sem = some p → ∀ n ∈ p.constantNames, n ∈ m.constantNames

/-- Either a word is skipped and there is no meaning at all, or the meaning, if there is one, has no idle
binder and all constants of the meanings of the actions. -/
def KeepsConstants (d : Derivation) : Prop :=
  (d.category = .empty ∧ ∀ a ∈ d.actions, a.category.sem = none) ∨
  (d.category.syn.mentionsEmpty = false ∧
    ∀ m, d.category.sem = some m → m.isRelevant = true ∧ d.CoveredBy m)

theorem CoveredBy.mono {d : Derivation} {m m' : Term} (h : d.CoveredBy m)
    (hm : ∀ n ∈ m.constantNames, n ∈ m'.constantNames) : d.CoveredBy m' :=
  fun a ha p hp n hn => hm n (h a ha p hp n hn)

theorem coveredBy_of_forall_none {d : Derivation} (h : ∀ a ∈ d.actions, a.category.sem = none)
    (m : Term) : d.CoveredBy m := by
  intro a ha p hp
  rw [h a ha] at hp
  cases hp

theorem coveredBy_unary {a : Action} {d : Derivation} {m : Term} (hm : a.category.sem = some m)
    (h : d.CoveredBy m) : (unary a d).CoveredBy m := by
  intro b hb p hp n hn
  rw [actions, List.mem_append, List.mem_singleton] at hb
  rcases hb with hb | rfl
  · exact h b hb p hp n hn
  · cases hm.symm.trans hp
    exact hn

theorem coveredBy_binary {a : Action} {l r : Derivation} {m : Term} (hm : a.category.sem = some m)
    (hl : l.CoveredBy m) (hr : r.CoveredBy m) : (binary a l r).CoveredBy m := by
  intro b hb p hp n hn
  rw [actions, List.mem_append, List.mem_append, List.mem_singleton] at hb
  rcases hb with (hb | hb) | rfl
  · exact hl b hb p hp n hn
  · exact hr b hb p hp n hn
  · cases hm.symm.trans hp
    exact hn

theorem relevantSem_of_plain {d : Derivation}
    (h : ∀ m, d.category.sem = some m → m.isRelevant = true ∧ d.CoveredBy m) :
    RelevantSem d.category.sem :=
  fun m hm => (h m hm).1

/-- A part of which nothing is lost is covered by the whole. -/
theorem coveredBy_of_retains {d : Derivation} {parts : List (Option Term)} {m : Term}
    (h : Retains parts m) (hd : d.category.sem ∈ parts)
    (hplain : ∀ p, d.category.sem = some p → p.isRelevant = true ∧ d.CoveredBy p) :
    d.CoveredBy m := by
  obtain ⟨p, hp, hnames⟩ := h.kept _ hd
  exact (hplain p hp).2.mono hnames

theorem keepsConstants_leaf {e : Entry} (he : e.category = .empty ∨ e.category.isPlain = true)
    (span : Span) (w : List String) : (leaf (.lookup span e) (span.tokens w)).KeepsConstants := by
  rcases he with he | he
  · refine Or.inl ⟨he, fun a ha => ?_⟩
    rw [List.mem_singleton.mp ha]
    exact congrArg Category.sem he
  · obtain ⟨hsyn, hsem⟩ := Category.isPlain_iff.mp he
    refine Or.inr ⟨hsyn, fun m hm => ⟨hsem m hm, fun a ha p hp n hn => ?_⟩⟩
    rw [List.mem_singleton.mp ha] at hp
    cases hm.symm.trans hp
    exact hn

theorem keepsConstants_unary {d : Derivation} {a : Action} {rule : UnaryRule}
    (hrule : rule.isPlain = true) (hd : d.KeepsConstants)
    (h : rule.apply sig d.category = some a.category) : (unary a d).KeepsConstants := by
  rcases hd with ⟨hempty, hnone⟩ | ⟨-, hplain⟩
  · have hsem : d.category.sem = none := congrArg Category.sem hempty
    obtain ⟨hsyn, hretains⟩ :=
      rule.retains_of_apply hrule (by rw [hsem]; exact fun _ h => by cases h) h
    refine Or.inr ⟨hsyn, fun m hm => ?_⟩
    have hr := hretains m hm
    exact ⟨hr.relevant, coveredBy_unary hm (coveredBy_of_forall_none hnone m)⟩
  · obtain ⟨hsyn, hretains⟩ := rule.retains_of_apply hrule (relevantSem_of_plain hplain) h
    refine Or.inr ⟨hsyn, fun m hm => ?_⟩
    have hr := hretains m hm
    exact ⟨hr.relevant, coveredBy_unary hm (coveredBy_of_retains hr (List.mem_singleton_self _) hplain)⟩

theorem keepsConstants_binary {l r : Derivation} {a : Action} {rule : BinaryRule}
    (hl : l.KeepsConstants) (hr : r.KeepsConstants)
    (h : rule.combine sig l.category r.category = some a.category) :
    (binary a l r).KeepsConstants := by
  have happlies := BinaryRule.applies_of_combine h
  rcases hl with ⟨hlempty, hlnone⟩ | ⟨hlsyn, hlplain⟩
  · rw [hlempty] at happlies h
    rcases hr with ⟨hrempty, -⟩ | ⟨hrsyn, hrplain⟩
    · rw [hrempty] at happlies
      rw [show Category.empty.syn = Syn.empty from rfl, rule.not_applies_empty] at happlies
      cases happlies
    · -- the left part is skipped
      cases BinaryRule.eq_forwardSkipping happlies hrsyn
      have hc : a.category = r.category := BinaryRule.eq_right_of_forwardSkipping h
      refine Or.inr ⟨(congrArg (·.syn.mentionsEmpty) hc).trans hrsyn, fun m hm => ?_⟩
      obtain ⟨hrel, hcov⟩ := hrplain m ((congrArg Category.sem hc).symm.trans hm)
      exact ⟨hrel, coveredBy_binary hm (coveredBy_of_forall_none hlnone m) hcov⟩
  · rcases hr with ⟨hrempty, hrnone⟩ | ⟨hrsyn, hrplain⟩
    · -- the right part is skipped
      rw [hrempty] at happlies h
      cases BinaryRule.eq_backwardSkipping happlies hlsyn
      have hc : a.category = l.category := BinaryRule.eq_left_of_backwardSkipping h
      refine Or.inr ⟨(congrArg (·.syn.mentionsEmpty) hc).trans hlsyn, fun m hm => ?_⟩
      obtain ⟨hrel, hcov⟩ := hlplain m ((congrArg Category.sem hc).symm.trans hm)
      exact ⟨hrel, coveredBy_binary hm hcov (coveredBy_of_forall_none hrnone m)⟩
    · have hskip := BinaryRule.isSkipping_of_applies happlies (Syn.isEmpty_of_mentionsEmpty hlsyn)
        (Syn.isEmpty_of_mentionsEmpty hrsyn)
      refine Or.inr ⟨BinaryRule.mentionsEmpty_of_combine hlsyn hrsyn h, fun m hm => ?_⟩
      have hretains := BinaryRule.retains_of_combine hskip (relevantSem_of_plain hlplain)
        (relevantSem_of_plain hrplain) h hm
      exact ⟨hretains.relevant, coveredBy_binary hm
        (coveredBy_of_retains hretains List.mem_cons_self hlplain)
        (coveredBy_of_retains hretains (List.mem_cons_of_mem _ List.mem_cons_self) hrplain)⟩

end Derivation

/-- **No constant is lost along a derivation.** -/
theorem Grammatical.keepsConstants {P : Span → Entry → Prop} {G : Grammar} {w : List String}
    {d : Derivation} (h : Grammatical P G w d)
    (hentries : ∀ span e, P span e → e.category = .empty ∨ e.category.isPlain = true)
    (hrules : G.rules.isPlain = true) : d.KeepsConstants := by
  induction h with
  | @leaf span e _ _ he => exact Derivation.keepsConstants_leaf (hentries span e he) span w
  | @unary d id c _ _ hx ih =>
    obtain ⟨rule, hrule, hc⟩ := RuleSet.mem_unaryResults.mp hx
    cases rule with
    | binary r => cases hc
    | unary r =>
      have hplain := List.all_eq_true.mp hrules _ (RuleSet.mem_rules_iff.mpr ⟨id, hrule⟩)
      exact Derivation.keepsConstants_unary hplain ih hc
  | @binary l r id c _ _ _ hx ihl ihr =>
    obtain ⟨rule, -, hc⟩ := RuleSet.mem_binaryResults.mp hx
    cases rule with
    | binary r => exact Derivation.keepsConstants_binary ihl ihr hc
    | unary r => cases hc

/-- What a plain task offers is plain, except skipped words. -/
theorem Task.plain_of_isPlain {σ : Type} {t : Task σ} (h : t.isPlain = true) :
    (∀ tokens, ∀ e ∈ (t.grammar.provider t.lexicon).lookup tokens,
      e.category = .empty ∨ e.category.isPlain = true) ∧ t.grammar.rules.isPlain = true := by
  obtain ⟨hentries, hrules⟩ := Bool.and_eq_true_iff.mp h
  refine ⟨fun tokens e he => ?_, hrules⟩
  have hlexicon : e ∈ t.lexicon.lookup tokens → e.category = .empty ∨ e.category.isPlain = true := by
    intro he
    simpa using List.all_eq_true.mp hentries e (List.mem_filter.mp he).1
  unfold Grammar.provider at he
  split_ifs at he
  · simp only [Provider.skipping] at he
    split_ifs at he
    · rw [List.mem_singleton.mp he]
      exact Or.inl rfl
    · exact hlexicon he
  · exact hlexicon he

end Categorial
