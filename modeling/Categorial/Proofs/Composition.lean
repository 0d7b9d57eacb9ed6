import Categorial.Rule.Combine
import Mathlib.Tactic

/-!
# The degree of a composition

Composition takes arguments off the second category until the argument of the first one is left. The
more arguments are taken off, the fewer are left, so at most one number of them fits. Trying degrees one
after another therefore finds this one or none, whether or not the meanings fit together, and a greater
bound on the degree can only add results.

* `Syn.peel_eq_some_iff`: taking arguments off undoes putting them on.
* `Syn.FitsAt`: the syntactic condition of composition at a degree; `Syn.FitsAt.unique`.
* `compose_of_fitsAt`, `exists_fitsAt_of_compose`: what composition makes of it.
* **`composition_degree`**: the rules of composition, on either side.
-/

namespace Categorial

namespace Syn

/-! ## Arguments taken off and put back -/

theorem wrap_concat (core : Syn) (args : List (Slash × Syn)) (a : Slash × Syn) :
    core.wrap (args ++ [a]) = complex (core.wrap args) a.1 a.2 := by
  simp [wrap]

theorem arity_wrap (core : Syn) (args : List (Slash × Syn)) :
    (core.wrap args).arity = core.arity + args.length := by
  induction args using List.reverseRecOn with
  | nil => rfl
  | append_singleton args a ih =>
    rw [wrap_concat, arity, ih, List.length_append, List.length_singleton]
    omega

theorem peelOnto_eq_some_iff {n : Nat} {s core : Syn} {acc out : List (Slash × Syn)} :
    peelOnto n s acc = some (core, out) ↔
      ∃ args, out = args ++ acc ∧ args.length = n ∧ s = core.wrap args := by
  induction n generalizing s acc with
  | zero =>
    rw [peelOnto, Option.some_inj, Prod.mk.injEq]
    constructor
    · rintro ⟨rfl, rfl⟩
      exact ⟨[], rfl, rfl, rfl⟩
    · rintro ⟨args, rfl, hlen, rfl⟩
      obtain rfl := List.length_eq_zero_iff.mp hlen
      exact ⟨rfl, rfl⟩
  | succ n ih =>
    constructor
    · intro h
      cases s with
      | atom name => cases h
      | complex r slash a =>
        obtain ⟨args, rfl, rfl, rfl⟩ := ih.mp h
        exact ⟨args ++ [(slash, a)], by simp, by simp, (wrap_concat core args (slash, a)).symm⟩
    · rintro ⟨args, rfl, hlen, rfl⟩
      obtain ⟨args, a, rfl⟩ : ∃ args' a, args = args' ++ [a] :=
        (List.eq_nil_or_concat' args).resolve_left (by rintro rfl; cases hlen)
      rw [wrap_concat, peelOnto]
      refine ih.mpr ⟨args, by simp, ?_, rfl⟩
      simpa using hlen

/-- Taking arguments off undoes putting them on. -/
theorem peel_eq_some_iff {n : Nat} {s core : Syn} {args : List (Slash × Syn)} :
    s.peel n = some (core, args) ↔ args.length = n ∧ s = core.wrap args := by
  rw [peel, peelOnto_eq_some_iff]
  simp

/-- Taking `k` arguments off `other`, at least one and all on the side of `slash`, leaves `y`. -/
structure FitsAt (slash : Slash) (y other : Syn) (k : Nat) (args : List (Slash × Syn)) : Prop where
  pos : 1 ≤ k
  peel_eq : other.peel k = some (y, args)
  slash_eq : ∀ a ∈ args, a.1 = slash

namespace FitsAt

variable {slash : Slash} {y other : Syn} {k k' : Nat} {args args' : List (Slash × Syn)}

theorem length_eq (h : FitsAt slash y other k args) : args.length = k :=
  (peel_eq_some_iff.mp h.peel_eq).1

theorem eq_wrap (h : FitsAt slash y other k args) : other = y.wrap args :=
  (peel_eq_some_iff.mp h.peel_eq).2

theorem arity_eq (h : FitsAt slash y other k args) : other.arity = y.arity + k := by
  rw [h.eq_wrap, arity_wrap, h.length_eq]

/-- At most one degree fits. -/
theorem unique (h : FitsAt slash y other k args) (h' : FitsAt slash y other k' args') :
    k = k' ∧ args = args' := by
  obtain rfl : k = k' := by
    have := h.arity_eq
    have := h'.arity_eq
    omega
  have hpeel := h.peel_eq.symm.trans h'.peel_eq
  exact ⟨rfl, (Prod.mk.inj (Option.some_inj.mp hpeel)).2⟩

end FitsAt

end Syn

open Syn

/-! ## Trying degrees -/

section Compose

variable {sig : Signature} {slash : Slash} {maxDegree k : Nat} {functor other : Category}
  {x y : Syn} {args : List (Slash × Syn)}

theorem matchesDegree?_eq_some_iff (hk : 1 ≤ k) :
    matchesDegree? slash y other.syn k = some args ↔ FitsAt slash y other.syn k args := by
  have hfits : FitsAt slash y other.syn k args ↔
      other.syn.peel k = some (y, args) ∧ ∀ a ∈ args, a.1 = slash :=
    ⟨fun h => ⟨h.peel_eq, h.slash_eq⟩, fun h => ⟨hk, h.1, h.2⟩⟩
  rw [hfits, matchesDegree?]
  cases hpeel : other.syn.peel k with
  | none => simp
  | some r =>
    obtain ⟨core, args'⟩ := r
    simp only [Option.ite_none_right_eq_some, Bool.and_eq_true, beq_iff_eq, List.all_eq_true,
      Option.some_inj, Prod.mk.injEq]
    constructor
    · rintro ⟨⟨rfl, h⟩, rfl⟩
      exact ⟨⟨rfl, rfl⟩, h⟩
    · rintro ⟨⟨rfl, rfl⟩, h⟩
      exact ⟨⟨rfl, h⟩, rfl⟩

/-- The search over the degrees finds the one that fits, if it is within the bound. -/
theorem findSome?_degrees_eq_some_iff :
    (((List.range (min maxDegree other.syn.arity)).map (· + 1)).findSome? fun d =>
      (matchesDegree? slash y other.syn d).map fun args => (d, args)) = some (k, args) ↔
      FitsAt slash y other.syn k args ∧ k ≤ maxDegree := by
  set degrees := (List.range (min maxDegree other.syn.arity)).map (· + 1) with hdegrees
  set found := fun d => (matchesDegree? slash y other.syn d).map fun args => (d, args) with hfound
  have hmem : ∀ d, d ∈ degrees ↔ 1 ≤ d ∧ d ≤ maxDegree ∧ d ≤ other.syn.arity := by
    intro d
    simp only [hdegrees, List.mem_map, List.mem_range]
    constructor
    · rintro ⟨i, hi, rfl⟩
      omega
    · intro hd
      exact ⟨d - 1, by omega, by omega⟩
  have hsound : ∀ {k args}, degrees.findSome? found = some (k, args) →
      FitsAt slash y other.syn k args ∧ k ≤ maxDegree := by
    intro k args h
    obtain ⟨d, hd, he⟩ := List.exists_of_findSome?_eq_some h
    obtain ⟨hpos, hle, -⟩ := (hmem d).mp hd
    obtain ⟨args', hargs, he⟩ := Option.map_eq_some_iff.mp he
    obtain ⟨rfl, rfl⟩ := Prod.mk.inj he
    exact ⟨(matchesDegree?_eq_some_iff hpos).mp hargs, hle⟩
  refine ⟨hsound, fun ⟨h, hle⟩ => ?_⟩
  have hfits : found k = some (k, args) := by
    rw [hfound]
    simp [(matchesDegree?_eq_some_iff h.pos).mpr h]
  have hin : k ∈ degrees := (hmem k).mpr ⟨h.pos, hle, by have := h.arity_eq; omega⟩
  -- whatever is found fits, and only one degree does
  obtain ⟨⟨k', args'⟩, hfind⟩ : ∃ r, degrees.findSome? found = some r :=
    Option.isSome_iff_exists.mp (List.findSome?_isSome_iff.mpr ⟨k, hin, by rw [hfits]; rfl⟩)
  obtain ⟨rfl, rfl⟩ := (hsound hfind).1.unique h
  exact hfind

theorem compose_eq_none_of_slash (h : ∀ x y, functor.syn ≠ .complex x slash y) :
    compose sig slash maxDegree functor other = none := by
  unfold compose
  cases hsyn : functor.syn with
  | atom name => rfl
  | complex x fSlash y =>
    have hne : fSlash ≠ slash := by
      rintro rfl
      exact h x y hsyn
    simp [complex?, hne]

/-- Composition where a degree fits: what the bound and the meanings decide. -/
theorem compose_of_fitsAt (hf : functor.syn = .complex x slash y)
    (h : FitsAt slash y other.syn k args) : compose sig slash maxDegree functor other =
      if k ≤ maxDegree then (composeSem sig k functor.sem other.sem).map (Category.make (x.wrap args))
      else none := by
  unfold compose
  simp only [hf, complex?, Option.bind_eq_bind, Option.bind_some, ne_eq, not_true, if_false]
  split_ifs with hle
  · rw [findSome?_degrees_eq_some_iff.mpr ⟨h, hle⟩, Option.map_eq_bind]
    rfl
  · rw [Option.bind_eq_none_iff]
    rintro ⟨k', args'⟩ hfind
    obtain ⟨h', hle'⟩ := findSome?_degrees_eq_some_iff.mp hfind
    obtain ⟨rfl, -⟩ := h.unique h'
    exact absurd hle' hle

/-- Composition succeeds only where a degree within the bound fits. -/
theorem exists_fitsAt_of_compose {c : Category}
    (h : compose sig slash maxDegree functor other = some c) :
    ∃ x y k args, functor.syn = .complex x slash y ∧ FitsAt slash y other.syn k args ∧
      k ≤ maxDegree := by
  by_cases hf : ∃ x y, functor.syn = .complex x slash y
  · obtain ⟨x, y, hf⟩ := hf
    unfold compose at h
    simp only [hf, complex?, Option.bind_eq_bind, Option.bind_some, ne_eq, not_true, if_false] at h
    obtain ⟨⟨k, args⟩, hfind, -⟩ := Option.bind_eq_some_iff.mp h
    obtain ⟨hfits, hle⟩ := findSome?_degrees_eq_some_iff.mp hfind
    exact ⟨x, y, k, args, hf, hfits, hle⟩
  · rw [compose_eq_none_of_slash fun x y hxy => hf ⟨x, y, hxy⟩] at h
    cases h

end Compose

/-! ## The rules -/

/-- Composition on one side: a functor `X/Y` stands to the left of the other category, a functor `X\Y`
to the right. -/
def BinaryRule.composed (sig : Signature) (slash : Slash) (maxDegree : Nat)
    (functor other : Category) : Option Category :=
  match slash with
  | .forward => (forwardComposition maxDegree).combine sig functor other
  | .backward => (backwardComposition maxDegree).combine sig other functor

/-- The test made before composition lets all pass that composition has a result for. -/
theorem BinaryRule.composed_eq_compose (sig : Signature) (slash : Slash) (maxDegree : Nat)
    (functor other : Category) :
    composed sig slash maxDegree functor other = compose sig slash maxDegree functor other := by
  have hguard : ∀ c, compose sig slash maxDegree functor other = some c →
      (∃ x y, functor.syn = .complex x slash y) ∧ other.syn.isAtomic = false := by
    intro c hc
    obtain ⟨x, y, k, args, hf, h, -⟩ := exists_fitsAt_of_compose hc
    refine ⟨⟨x, y, hf⟩, ?_⟩
    have harity := h.arity_eq
    have hpos := h.pos
    cases hsyn : other.syn with
    | atom name =>
      rw [hsyn, Syn.arity] at harity
      omega
    | complex => rfl
  cases hc : compose sig slash maxDegree functor other with
  | none => cases slash <;> simp [composed, combine, hc]
  | some c =>
    obtain ⟨⟨x, y, hf⟩, hatomic⟩ := hguard c hc
    cases slash <;> simp [composed, combine, applies, hf, hatomic, hc]

/-- **Composition has at most one degree, and is monotone in the bound on it.** For all categories and
on either side, at most one number of arguments on that side, taken off the second category, leaves the
argument of the functor. If one does, the second category is that argument with exactly these arguments
on it, and the result is the result of the functor with the same arguments on it, at every bound that
reaches the degree and if the meanings fit together; a result comes about in no other way. What
composition gives under a bound, it gives under every greater one. -/
theorem composition_degree (sig : Signature) (slash : Slash) (functor other : Category) :
    (∀ x y k k' args args', functor.syn = .complex x slash y → FitsAt slash y other.syn k args →
      FitsAt slash y other.syn k' args' → k = k' ∧ args = args') ∧
    (∀ x y k args, functor.syn = .complex x slash y → FitsAt slash y other.syn k args →
      other.syn = y.wrap args ∧ args.length = k ∧
      ∀ maxDegree, BinaryRule.composed sig slash maxDegree functor other =
        if k ≤ maxDegree then
          (composeSem sig k functor.sem other.sem).map (Category.make (x.wrap args))
        else none) ∧
    (∀ maxDegree c, BinaryRule.composed sig slash maxDegree functor other = some c →
      ∃ x y k args, functor.syn = .complex x slash y ∧ FitsAt slash y other.syn k args ∧
        k ≤ maxDegree ∧ c.syn = x.wrap args) ∧
    ∀ maxDegree maxDegree' c, maxDegree ≤ maxDegree' →
      BinaryRule.composed sig slash maxDegree functor other = some c →
      BinaryRule.composed sig slash maxDegree' functor other = some c := by
  simp only [BinaryRule.composed_eq_compose]
  refine ⟨fun x y k k' args args' _ h h' => h.unique h', fun x y k args hf h =>
    ⟨h.eq_wrap, h.length_eq, fun maxDegree => compose_of_fitsAt hf h⟩, fun maxDegree c hc => ?_,
    fun maxDegree maxDegree' c hle hc => ?_⟩
  · obtain ⟨x, y, k, args, hf, h, hk⟩ := exists_fitsAt_of_compose hc
    rw [compose_of_fitsAt hf h, if_pos hk] at hc
    obtain ⟨sem, -, rfl⟩ := Option.map_eq_some_iff.mp hc
    exact ⟨x, y, k, args, hf, h, hk, rfl⟩
  · obtain ⟨x, y, k, args, hf, h, hk⟩ := exists_fitsAt_of_compose hc
    rw [compose_of_fitsAt hf h, if_pos (hk.trans hle), ← hc, compose_of_fitsAt hf h, if_pos hk]

/-- A modifier of sentences, `S/S : λp.p`. -/
def indeed : Category := ⟨.complex (.atom "S") .forward (.atom "S"), some (.lam .truth (.var 0))⟩

/-- A verb with both arguments to its right, `(S/NP)/NP : λx.λy.likes(y)(x)`. -/
def likes : Category where
  syn := .complex (.complex (.atom "S") .forward (.atom "NP")) .forward (.atom "NP")
  sem := some (.lam .entity (.lam .entity
    (.app (.app (.const "likes" (.arrow .entity (.arrow .entity .truth))) (.var 0)) (.var 1))))

/-- The two compose at degree two: not under a bound of one, and with the same result under every
greater bound. -/
theorem composition_degree_likes :
    BinaryRule.composed {} .forward 1 indeed likes = none ∧
    ∃ c, c.syn = likes.syn ∧
      ∀ maxDegree, 2 ≤ maxDegree → BinaryRule.composed {} .forward maxDegree indeed likes = some c := by
  obtain ⟨-, hfits, -, hmono⟩ := composition_degree {} .forward indeed likes
  have htwo : FitsAt .forward (.atom "S") likes.syn 2
      [(.forward, .atom "NP"), (.forward, .atom "NP")] := ⟨by decide, rfl, by decide⟩
  obtain ⟨-, -, hresult⟩ := hfits (.atom "S") (.atom "S") 2 _ rfl htwo
  have hsem : (composeSem {} 2 indeed.sem likes.sem).isSome = true := by decide
  obtain ⟨sem, hsem⟩ := Option.isSome_iff_exists.mp hsem
  refine ⟨(hresult 1).trans (if_neg (by decide)),
    Category.make likes.syn sem, rfl, fun maxDegree hle => hmono 2 maxDegree _ hle ?_⟩
  rw [hresult 2, if_pos le_rfl, hsem]
  rfl

end Categorial
