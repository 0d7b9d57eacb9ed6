import Categorial.Oracle.Build
import Categorial.Proofs.WellTyped

/-!
# Every search for a normal form ends

The search for a normal form ends on every typed term, and the library starts it on typed terms only.
A reader checks the type of a term before it asks for the normal form; a rule builds a meaning, checks
it, and leaves the normal form to the last step; an oracle starts with that of its target.

* `Term.exists_normalize?_of_inferIn`: the search ends on a term with a type in some context.
* `Raw`, `Raw.finish`: a result of a rule before its meaning is brought to normal form.
* `BinaryRule.combine_eq_map`, `UnaryRule.apply_eq_bind`: rules finish what they have built.
* `BinaryRule.typed_combineRaw`, `UnaryRule.typed_applyRaw`: what they have built is typed.
* `Term.Ends`: the search ends on a typed term.
* **`normalization_ends`**: the search ends wherever it is started.
-/

namespace Categorial

variable {sig : Signature}

namespace Term

/-- The search ends on a term that has a type in a context. A context is a list in memory, so it has
no more entries than there are positive words. -/
theorem exists_normalize?_of_inferIn (hs : sig.Reachable) {t : Term} {ctx : List Ty} {ty : Ty}
    (hctx : ctx.length ≤ Bits.positives) (h : t.inferIn sig ctx = some ty) :
    ∃ u, t.normalize? = some u := by
  obtain ⟨u, hu⟩ := exists_normalizes hs h
  refine ⟨u, ?_⟩
  rw [normalize?, modulus, if_pos (closedAt_mono hctx (closedAt_of_inferIn h))]
  exact normalizeMod?_zero_eq_some.mpr hu

theorem normalize?_of_isNormal {t : Term} (hc : t.isClosed = true) (hn : t.isNormal = true) :
    t.normalize? = some t := by
  rw [normalize?, modulus, if_pos (closedAt_mono (Nat.zero_le _) hc)]
  exact normalizeMod?_zero_eq_some.mpr (.self hn)

end Term

/-! ## Results before their normal form -/

/-- What a rule has built: a category whose meaning is still to be brought to normal form, or one of
the given categories as it is. -/
inductive Raw where
  | built (syn : Syn) (sem : Option Term)
  | given (c : Category)

namespace Raw

/-- The meaning whose normal form is asked for. -/
def pending? : Raw → Option Term
  | built _ sem => sem
  | given _ => none

/-- Bring the meaning to normal form. -/
def finish : Raw → Category
  | built syn sem => .make syn sem
  | given c => c

end Raw

/-- What composition builds. -/
def composeRaw (sig : Signature) (slash : Slash) (maxDegree : Nat) (functor other : Category) :
    Option Raw := do
  let (x, fSlash, y) ← functor.syn.complex?
  if fSlash ≠ slash then none
  let degrees := (List.range (min maxDegree other.syn.arity)).map (· + 1)
  let (degree, args) ← degrees.findSome? fun d =>
    (matchesDegree? slash y other.syn d).map fun args => (d, args)
  let sem ← composeSem sig degree functor.sem other.sem
  some (.built (x.wrap args) sem)

theorem compose_eq_map (slash : Slash) (maxDegree : Nat) (functor other : Category) :
    compose sig slash maxDegree functor other =
      (composeRaw sig slash maxDegree functor other).map Raw.finish := by
  simp only [compose, composeRaw, Option.bind_eq_bind, Option.map_bind, Function.comp_def]
  refine Option.bind_congr fun x _ => ?_
  split_ifs
  · rfl
  · simp only [Option.map_bind, Function.comp_def]
    rfl

theorem typed_composeRaw {slash : Slash} {maxDegree : Nat} {functor other : Category} {r : Raw}
    (h : composeRaw sig slash maxDegree functor other = some r) : TypedSem sig r.pending? := by
  simp only [composeRaw, Option.bind_eq_bind, Option.bind_eq_some_iff] at h
  obtain ⟨_, -, h⟩ := h
  split_ifs at h
  · cases h
  · simp only [Option.bind_eq_some_iff] at h
    obtain ⟨_, -, sem, hsem, h⟩ := h
    cases h
    exact typedSem_of_composeSem hsem

namespace BinaryRule

/-- What a rule builds from two adjacent categories. -/
def combineRaw (sig : Signature) (rule : BinaryRule) (left right : Category) : Option Raw :=
  if !rule.applies left.syn right.syn then none
  else match rule with
    | forwardApplication => do
      let (x, _, _) ← left.syn.complex?
      let sem ← applySem sig left.sem right.sem
      some (.built x sem)
    | backwardApplication => do
      let (x, _, _) ← right.syn.complex?
      let sem ← applySem sig right.sem left.sem
      some (.built x sem)
    | forwardComposition maxDegree => composeRaw sig .forward maxDegree left right
    | backwardComposition maxDegree => composeRaw sig .backward maxDegree right left
    | forwardTypeRaisedComposition => do
      let (inner, _, z) ← right.syn.complex?
      let (r, _, _) ← inner.complex?
      let sem ← raiseComposeSem sig left.sem right.sem
      some (.built (.complex r .forward z) sem)
    | forwardSkipping => some (.given right)
    | backwardSkipping => some (.given left)

/-- A rule finishes what it has built. -/
theorem combine_eq_map (rule : BinaryRule) (left right : Category) :
    rule.combine sig left right = (rule.combineRaw sig left right).map Raw.finish := by
  unfold combine combineRaw
  split_ifs
  · rfl
  · cases rule with
    | forwardApplication | backwardApplication | forwardTypeRaisedComposition =>
      simp only [Option.bind_eq_bind, Option.map_bind, Function.comp_def]
      rfl
    | forwardComposition maxDegree => exact compose_eq_map ..
    | backwardComposition maxDegree => exact compose_eq_map ..
    | forwardSkipping | backwardSkipping => rfl

/-- What a rule has built is typed, whatever it was built from. -/
theorem typed_combineRaw {rule : BinaryRule} {left right : Category} {r : Raw}
    (h : rule.combineRaw sig left right = some r) : TypedSem sig r.pending? := by
  unfold combineRaw at h
  split_ifs at h
  cases rule with
  | forwardApplication | backwardApplication =>
    simp only [Option.bind_eq_bind, Option.bind_eq_some_iff] at h
    obtain ⟨_, -, sem, hsem, h⟩ := h
    cases h
    exact typedSem_of_applySem hsem
  | forwardComposition maxDegree | backwardComposition maxDegree => exact typed_composeRaw h
  | forwardTypeRaisedComposition =>
    simp only [Option.bind_eq_bind, Option.bind_eq_some_iff] at h
    obtain ⟨_, -, _, -, sem, hsem, h⟩ := h
    cases h
    exact typedSem_of_raiseComposeSem hsem
  | forwardSkipping | backwardSkipping => cases h; exact typedSem_none

end BinaryRule

namespace UnaryRule

/-- What a rule builds from a category. -/
def applyRaw (sig : Signature) (rule : UnaryRule) (cat : Category) : Option Raw :=
  match rule with
  | typeRaising _ arg target targetTy =>
    if cat.syn = arg then
      (raiseSem sig targetTy cat.sem).map
        (.built (.complex target .forward (.complex target .backward arg)))
    else none
  | typeShifting _ source target template =>
    if cat.syn = source then (applySem sig (some template) cat.sem).map (.built target) else none

/-- A rule finishes what it has built and compares it with what it was given. -/
theorem apply_eq_bind (rule : UnaryRule) (cat : Category) :
    rule.apply sig cat = (rule.applyRaw sig cat).bind fun r =>
      if r.finish = cat then none else some r.finish := by
  unfold apply applyRaw
  cases rule with
  | typeRaising name arg target targetTy =>
    simp only [Option.bind_eq_bind]
    split_ifs
    · cases raiseSem sig targetTy cat.sem <;> rfl
    · rfl
  | typeShifting name source target template =>
    simp only [Option.bind_eq_bind]
    split_ifs
    · cases applySem sig (some template) cat.sem <;> rfl
    · rfl

/-- What a rule has built is typed; a raised meaning is not checked, but has a type. -/
theorem typed_applyRaw {rule : UnaryRule} {cat : Category} {r : Raw}
    (h : rule.applyRaw sig cat = some r) : TypedSem sig r.pending? := by
  unfold applyRaw at h
  cases rule with
  | typeRaising name arg target targetTy =>
    dsimp only at h
    split_ifs at h
    obtain ⟨sem, hsem, rfl⟩ := Option.map_eq_some_iff.mp h
    exact typedSem_of_raiseSem hsem
  | typeShifting name source target template =>
    dsimp only at h
    split_ifs at h
    obtain ⟨sem, hsem, rfl⟩ := Option.map_eq_some_iff.mp h
    exact typedSem_of_applySem hsem

end UnaryRule

/-! ## Where the search is started -/

/-- The term has a type, and the search for its normal form ends with `u`. -/
def Term.Ends (sig : Signature) (t u : Term) : Prop :=
  (∃ ty, t.infer sig = some ty) ∧ t.normalize? = some u

namespace Term.Ends

variable {t u : Term}

theorem of_infer (hs : sig.Reachable) {ty : Ty} (h : t.infer sig = some ty) : ∃ u, t.Ends sig u := by
  obtain ⟨u, -, hu, -⟩ := exists_normalize? hs h
  exact ⟨u, ⟨ty, h⟩, hu⟩

theorem normalize_eq (h : t.Ends sig u) : t.normalize = u := by
  rw [normalize, h.2, Option.getD_some]

/-- The search ends at once on a term that it has ended with. -/
theorem again (hs : sig.Reachable) (h : t.Ends sig u) : u.normalize = u := by
  obtain ⟨⟨ty, hty⟩, hu⟩ := h
  obtain ⟨v, _, hv, hn, hinfer, -⟩ := exists_normalize? hs hty
  cases hu.symm.trans hv
  rw [normalize, normalize?_of_isNormal (isClosed_of_infer hinfer) hn, Option.getD_some]

end Term.Ends

/-- A meaning that a rule has built is typed, and its normal form becomes the meaning of the result. -/
theorem Raw.exists_ends (hs : sig.Reachable) {r : Raw} (h : TypedSem sig r.pending?) {t : Term}
    (ht : r.pending? = some t) : ∃ u, t.Ends sig u ∧ r.finish.sem = some u := by
  obtain ⟨ty, hty⟩ := h t ht
  obtain ⟨u, hu⟩ := Term.Ends.of_infer hs hty
  refine ⟨u, hu, ?_⟩
  cases r with
  | built syn sem =>
    cases ht
    exact congrArg some hu.normalize_eq
  | given c => cases ht

namespace Reader

open Text

/-- A reader that refuses an untyped term and goes on with the normal form of a typed one. -/
theorem checked_eq_ok (hs : sig.Reachable) {α : Type} {t : Term} {e : ReadError} {g : Term → α}
    {r : α} :
    (if (t.infer sig).isNone then (.error e : Except ReadError α) else .ok (g t.normalize)) = .ok r ↔
      ∃ u, t.Ends sig u ∧ r = g u := by
  cases ht : t.infer sig with
  | none =>
    refine ⟨nofun, ?_⟩
    rintro ⟨_, ⟨⟨ty, hty⟩, -⟩, -⟩
    cases ht.symm.trans hty
  | some ty =>
    obtain ⟨u, hu⟩ := Term.Ends.of_infer hs ht
    refine ⟨fun h => ⟨u, hu, ?_⟩, ?_⟩
    · rw [← hu.normalize_eq]
      cases h
      rfl
    · rintro ⟨v, hv, rfl⟩
      rw [← hv.normalize_eq]
      rfl

theorem parse_eq_ok (hs : sig.Reachable) (s : String) (u : Term) :
    Term.parse sig s = .ok u ↔ ∃ t, readAll (readTerm sig) s = .ok t ∧ t.Ends sig u := by
  unfold Term.parse
  cases readAll (readTerm sig) s with
  | error e => exact ⟨nofun, nofun⟩
  | ok t =>
    refine (checked_eq_ok hs (g := id)).trans ⟨?_, ?_⟩
    · rintro ⟨_, ht, rfl⟩
      exact ⟨t, rfl, ht⟩
    · rintro ⟨_, ⟨⟩, ht⟩
      exact ⟨u, ht, rfl⟩

/-- A category that has been read is without meaning, or its meaning is what the search has ended
with. -/
theorem readCategory_eq_ok (hs : sig.Reachable) (s : List Char) (c : Category) (rest : List Char) :
    readCategory sig s = .ok (c, rest) ↔ ∃ syn s', readSyn s = .ok (syn, s') ∧
      ((∃ s'' t u, trimStart s' = ':' :: s'' ∧ readTerm sig s'' = .ok (t, rest) ∧ t.Ends sig u ∧
          c = ⟨syn, some u⟩) ∨
        ((∀ s'', trimStart s' ≠ ':' :: s'') ∧ c = ⟨syn, none⟩ ∧ rest = s')) := by
  unfold readCategory
  cases readSyn s with
  | error e => exact ⟨nofun, nofun⟩
  | ok p =>
    obtain ⟨syn, s'⟩ := p
    simp only [bind, Except.bind]
    split
    · next s'' hcolon =>
      cases hread : readTerm sig s'' with
      | error e =>
        refine ⟨nofun, ?_⟩
        rintro ⟨_, _, ⟨⟩, ⟨_, _, _, h, hread', -⟩ | ⟨h, -⟩⟩
        · cases hcolon.symm.trans h
          cases hread.symm.trans hread'
        · exact (h _ hcolon).elim
      | ok p =>
        obtain ⟨t, rest'⟩ := p
        refine (checked_eq_ok hs (g := fun u => ((⟨syn, some u⟩ : Category), rest'))).trans ⟨?_, ?_⟩
        · rintro ⟨u, hu, h⟩
          cases h
          exact ⟨syn, s', rfl, .inl ⟨s'', t, u, hcolon, hread, hu, rfl⟩⟩
        · rintro ⟨_, _, ⟨⟩, ⟨_, _, u, h, hread', hu, rfl⟩ | ⟨h, -⟩⟩
          · cases hcolon.symm.trans h
            cases hread.symm.trans hread'
            exact ⟨u, hu, rfl⟩
          · exact (h _ hcolon).elim
    · next hcolon =>
      refine ⟨fun h => ?_, ?_⟩
      · cases h
        exact ⟨syn, rest, rfl, .inr ⟨fun s'' => hcolon s'', rfl, rfl⟩⟩
      · rintro ⟨_, _, ⟨⟩, ⟨_, _, _, h, -⟩ | ⟨-, rfl, rfl⟩⟩
        · exact (hcolon _ h).elim
        · rfl

end Reader

/-- **Normal forms are found.** The search ends on every term with a type in some context that fits in
memory. Readers, rules and oracles ask for the normal forms of typed terms only: readers return what
the search has ended with; the meanings that rules build, whatever the categories they are given, are
typed and become the meanings of the results; an oracle depends on its target through what the search
has ended with. -/
theorem normalization_ends (sig : Signature) (hs : sig.Reachable) :
    (∀ (t : Term) (ctx : List Ty) (ty : Ty), ctx.length ≤ Bits.positives →
      t.inferIn sig ctx = some ty → ∃ u, t.normalize? = some u) ∧
    (∀ (s : String) (u : Term), Term.parse sig s = .ok u ↔
      ∃ t, Reader.readAll (Reader.readTerm sig) s = .ok t ∧ t.Ends sig u) ∧
    (∀ (s : List Char) (c : Category) (rest : List Char),
      Reader.readCategory sig s = .ok (c, rest) ↔ ∃ syn s', Reader.readSyn s = .ok (syn, s') ∧
        ((∃ s'' t u, Text.trimStart s' = ':' :: s'' ∧ Reader.readTerm sig s'' = .ok (t, rest) ∧
            t.Ends sig u ∧ c = ⟨syn, some u⟩) ∨
          ((∀ s'', Text.trimStart s' ≠ ':' :: s'') ∧ c = ⟨syn, none⟩ ∧ rest = s'))) ∧
    (∀ (rule : BinaryRule) (left right : Category),
      rule.combine sig left right = (rule.combineRaw sig left right).map Raw.finish ∧
      ∀ r t, rule.combineRaw sig left right = some r → r.pending? = some t →
        ∃ u, t.Ends sig u ∧ r.finish.sem = some u) ∧
    (∀ (rule : UnaryRule) (cat : Category),
      (rule.apply sig cat = (rule.applyRaw sig cat).bind fun r =>
        if r.finish = cat then none else some r.finish) ∧
      ∀ r t, rule.applyRaw sig cat = some r → r.pending? = some t →
        ∃ u, t.Ends sig u ∧ r.finish.sem = some u) ∧
    ∀ (σ : Type) [Score σ] (t : Task σ) (o : Oracle.Options) (target : Term) (ty : Ty),
      t.grammar.sig = sig → target.infer sig = some ty →
        ∃ u, target.Ends sig u ∧ Oracle.build t o target = Oracle.build t o u := by
  refine ⟨fun t ctx ty hctx h => Term.exists_normalize?_of_inferIn hs hctx h,
    Reader.parse_eq_ok hs, Reader.readCategory_eq_ok hs,
    fun rule left right => ⟨rule.combine_eq_map left right, fun r t hr ht => ?_⟩,
    fun rule cat => ⟨rule.apply_eq_bind cat, fun r t hr ht => ?_⟩,
    fun σ _ t o target ty _ h => ?_⟩
  · exact Raw.exists_ends hs (BinaryRule.typed_combineRaw hr) ht
  · exact Raw.exists_ends hs (UnaryRule.typed_applyRaw hr) ht
  · obtain ⟨u, hu⟩ := Term.Ends.of_infer hs h
    refine ⟨u, hu, ?_⟩
    rw [Oracle.build, Oracle.build, hu.normalize_eq, hu.again hs]

/-- The meaning of `barks`, a function on all entities. -/
def barking : Term := .const "bark" (.arrow .entity .truth)

/-- The meaning of `rex`, a dog. -/
def rex : Term := .const "rex" (.atom "dog")

/-- The sentence `rex`, without a lexicon. -/
def rexAlone (sig : Signature) : Task FloatScore where
  grammar := { sig := sig }
  lexicon := {}
  sentence := ["rex"]
  score _ := default

/-- The search ends on `bark(x)` with a dog for `x`, on what application makes of `bark` and `rex`, on
what raising makes of `rex`, and on the target `bark(rex)` of an oracle. -/
theorem normalization_ends_dog :
    ∃ sig : Signature, sig.Reachable ∧
      (∃ u, (Term.app barking (.var 0)).normalize? = some u) ∧
      (∃ u, (Term.app barking rex).Ends sig u ∧
        BinaryRule.combine sig .forwardApplication
          ⟨.complex (.atom "S") .forward (.atom "NP"), some barking⟩ ⟨.atom "NP", some rex⟩ =
            some ⟨.atom "S", some u⟩) ∧
      (∃ r t u, UnaryRule.applyRaw sig (.typeRaising "raise" (.atom "NP") (.atom "S") .truth)
          ⟨.atom "NP", some rex⟩ = some r ∧ r.pending? = some t ∧ t.Ends sig u) ∧
      ∃ u, (Term.app barking rex).Ends sig u ∧
        Oracle.build (rexAlone sig) {} (.app barking rex) = Oracle.build (rexAlone sig) {} u := by
  have hdog : Signature.addAtomic {} "dog" (some "e") =
      .ok { atomics := [("dog", some "e"), ("t", none), ("e", none)] } := rfl
  have hs := Signature.Reachable.addAtomic .start hdog
  obtain ⟨hterm, -, -, hcombine, happly, horacle⟩ := normalization_ends _ hs
  refine ⟨_, hs, hterm _ [.atom "dog"] .truth (by decide) rfl, ?_, ?_,
    horacle _ _ _ _ .truth rfl rfl⟩
  · obtain ⟨heq, hends⟩ := hcombine .forwardApplication
      ⟨.complex (.atom "S") .forward (.atom "NP"), some barking⟩ ⟨.atom "NP", some rex⟩
    obtain ⟨u, hu, hsem⟩ := hends _ _ rfl rfl
    refine ⟨u, hu, heq.trans ?_⟩
    exact congrArg (fun sem => some (Category.mk (.atom "S") sem)) hsem
  · obtain ⟨-, hends⟩ := happly (.typeRaising "raise" (.atom "NP") (.atom "S") .truth)
      ⟨.atom "NP", some rex⟩
    obtain ⟨u, hu, -⟩ := hends _ _ rfl rfl
    exact ⟨_, _, u, rfl, rfl, hu⟩

end Categorial
