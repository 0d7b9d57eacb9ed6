import Categorial.Signature
import Mathlib.Tactic

/-!
# Compatibility of types

Every signature that declarations lead to lists its atomic types as a forest: a name is declared
once, and its parent before it. On such a signature compatibility is a preorder, and compatible types
have the same shape.

* `Signature.Reachable`: what declarations lead to; `Signature.Reachable.forest`.
* `Signature.isSubtype_trans`: ancestors of ancestors are ancestors.
* `Signature.compatible_refl`, **`Signature.compatible_trans`**.
* `Signature.arrows_eq_of_compatible`: compatible types have equally many arrows.
-/

namespace Categorial

/-- The number of arrows of a type. -/
def Ty.arrows : Ty → Nat
  | atom _ => 0
  | arrow a r => a.arrows + r.arrows + 1

namespace Signature

/-! ## Declarations form a forest -/

/-- The signatures that can be built by declarations. -/
inductive Reachable : Signature → Prop
  | start : Reachable {}
  | addAtomic {sig sig' : Signature} {name : String} {parent : Option String} :
      Reachable sig → sig.addAtomic name parent = .ok sig' → Reachable sig'
  | declare {sig sig' : Signature} {name : String} {ty : Ty} :
      Reachable sig → sig.declare name ty = .ok sig' → Reachable sig'

/-- Declarations listed newest first: no name is declared twice, and parents are declared before
their children. -/
def Forest : List (String × Option String) → Prop
  | [] => True
  | (name, parent) :: older =>
    name ∉ older.map Prod.fst ∧ (∀ p, parent = some p → p ∈ older.map Prod.fst) ∧ Forest older

theorem hasAtomic_iff (sig : Signature) (name : String) :
    sig.hasAtomic name = true ↔ name ∈ sig.atomics.map Prod.fst := by
  simp only [hasAtomic, parentOf?, Option.isSome_map, List.find?_isSome, beq_iff_eq,
    List.mem_map]

theorem forest_addAtomic {sig sig' : Signature} {name : String} {parent : Option String}
    (hf : Forest sig.atomics) (h : sig.addAtomic name parent = .ok sig') :
    Forest sig'.atomics := by
  unfold addAtomic at h
  split at h
  · cases h
  · rename_i hp
    split at h
    · split_ifs at h
      cases h
      exact hf
    · rename_i hn
      cases h
      refine ⟨fun hm => ?_, fun p hpp => ?_, hf⟩
      · rw [← hasAtomic_iff, hasAtomic, hn] at hm
        cases hm
      · subst hpp
        rw [← hasAtomic_iff]
        simpa [Option.filter] using hp

theorem atomics_declare {sig sig' : Signature} {name : String} {ty : Ty}
    (h : sig.declare name ty = .ok sig') : sig'.atomics = sig.atomics := by
  unfold declare at h
  cases hv : sig.validate ty with
  | error e => rw [hv] at h; cases h
  | ok u => rw [hv] at h; cases h; rfl

/-- Declarations keep the forest. -/
theorem Reachable.forest {sig : Signature} (h : sig.Reachable) : Forest sig.atomics := by
  induction h with
  | start => simp [Forest]
  | addAtomic _ h ih => exact forest_addAtomic ih h
  | declare _ h ih => rw [atomics_declare h]; exact ih

/-! ## Subtypes -/

theorem climbs_refl (l : List (String × Option String)) (a : String) : climbs l a a = true := by
  cases l <;> simp [climbs]

theorem climbs_cons (name : String) (parent : Option String)
    (older : List (String × Option String)) (a b : String) :
    climbs ((name, parent) :: older) a b = true ↔
      a = b ∨ (name = a ∧ ∃ p, parent = some p ∧ climbs older p b = true) ∨
        (name ≠ a ∧ climbs older a b = true) := by
  rw [climbs.eq_def]
  by_cases hn : name = a
  · cases parent <;> simp [hn]
  · simp [hn]

theorem mem_of_climbs {l : List (String × Option String)} (hl : Forest l) {a b : String}
    (h : climbs l a b = true) : a = b ∨ b ∈ l.map Prod.fst := by
  induction l generalizing a with
  | nil => left; simpa [climbs] using h
  | cons d older ih =>
    obtain ⟨name, parent⟩ := d
    obtain ⟨-, hparent, holder⟩ := hl
    rw [List.map_cons, List.mem_cons]
    rcases (climbs_cons ..).mp h with h | ⟨-, p, hp, h⟩ | ⟨-, h⟩
    · exact Or.inl h
    · rcases ih holder h with rfl | hb
      · exact Or.inr (Or.inr (hparent p hp))
      · exact Or.inr (Or.inr hb)
    · rcases ih holder h with rfl | hb
      · exact Or.inl rfl
      · exact Or.inr (Or.inr hb)

/-- **Climbs can be joined.** What is reached from an older name is older than the newest name, so
the newest declaration plays no part in the second climb. -/
theorem climbs_trans {l : List (String × Option String)} (hl : Forest l) {a b c : String}
    (hab : climbs l a b = true) (hbc : climbs l b c = true) : climbs l a c = true := by
  induction l generalizing a b with
  | nil =>
    simp only [climbs, beq_iff_eq] at hab hbc ⊢
    exact hab.trans hbc
  | cons d older ih =>
    obtain ⟨name, parent⟩ := d
    obtain ⟨hname, hparent, holder⟩ := hl
    -- a climb among the older names goes on among them
    have hold : ∀ a' : String, a' ∈ older.map Prod.fst ∨ a' ≠ b → climbs older a' b = true →
        climbs older a' c = true := by
      intro a' ha' h
      have hb : b ∈ older.map Prod.fst := by
        rcases mem_of_climbs holder h with rfl | hb
        · exact ha'.resolve_right fun h => h rfl
        · exact hb
      have hnb : name ≠ b := fun e => hname (e ▸ hb)
      rcases (climbs_cons ..).mp hbc with rfl | ⟨e, -⟩ | ⟨-, hbc⟩
      · exact h
      · exact absurd e hnb
      · exact ih holder h hbc
    rcases (climbs_cons ..).mp hab with rfl | ⟨hn, p, hp, h⟩ | ⟨hn, h⟩
    · exact hbc
    · exact (climbs_cons ..).mpr (Or.inr (Or.inl ⟨hn, p, hp, hold p (Or.inl (hparent p hp)) h⟩))
    · by_cases hab' : a = b
      · rw [hab']; exact hbc
      · exact (climbs_cons ..).mpr (Or.inr (Or.inr ⟨hn, hold a (Or.inr hab') h⟩))

theorem isSubtype_refl (sig : Signature) (a : String) : sig.isSubtype a a = true :=
  climbs_refl _ a

theorem isSubtype_trans {sig : Signature} (hs : sig.Reachable) {a b c : String}
    (hab : sig.isSubtype a b = true) (hbc : sig.isSubtype b c = true) :
    sig.isSubtype a c = true :=
  climbs_trans hs.forest hab hbc

/-! ## Compatibility -/

theorem compatibleWith_not (sig : Signature) (flipped : Bool) (a b : Ty) :
    sig.compatibleWith (!flipped) a b = sig.compatibleWith flipped b a := by
  induction a generalizing flipped b with
  | atom x => cases b <;> cases flipped <;> simp [compatibleWith]
  | arrow x y ihx ihy =>
    cases b with
    | atom z => simp [compatibleWith]
    | arrow z w => rw [compatibleWith, compatibleWith, ihx (!flipped), ihy flipped]

@[simp] theorem compatible_atom (sig : Signature) (a b : String) :
    sig.compatible (.atom a) (.atom b) = sig.isSubtype b a := by
  simp [compatible, compatibleWith]

/-- Results are compared in the same sense, arguments in the opposite one. -/
@[simp] theorem compatible_arrow (sig : Signature) (a r a' r' : Ty) :
    sig.compatible (.arrow a r) (.arrow a' r') = (sig.compatible a' a && sig.compatible r r') := by
  rw [compatible, compatibleWith, compatibleWith_not]
  rfl

@[simp] theorem compatible_atom_arrow (sig : Signature) (a : String) (b c : Ty) :
    sig.compatible (.atom a) (.arrow b c) = false := by
  simp [compatible, compatibleWith]

@[simp] theorem compatible_arrow_atom (sig : Signature) (a : String) (b c : Ty) :
    sig.compatible (.arrow b c) (.atom a) = false := by
  simp [compatible, compatibleWith]

theorem compatible_refl (sig : Signature) (a : Ty) : sig.compatible a a = true := by
  induction a with
  | atom x => rw [compatible_atom, isSubtype_refl]
  | arrow x y ihx ihy => rw [compatible_arrow, ihx, ihy]; rfl

/-- What is compatible with a function type is one. -/
theorem exists_arrow_of_compatible {sig : Signature} {a r b : Ty}
    (h : sig.compatible (.arrow a r) b = true) :
    ∃ a' r', b = .arrow a' r' ∧ sig.compatible a' a = true ∧ sig.compatible r r' = true := by
  cases b with
  | atom x => simp at h
  | arrow a' r' =>
    rw [compatible_arrow, Bool.and_eq_true] at h
    exact ⟨a', r', rfl, h.1, h.2⟩

/-- **Compatibility is transitive.** The middle type is taken apart; in an argument the three types
change their order. -/
theorem compatible_trans {sig : Signature} (hs : sig.Reachable) {a b c : Ty}
    (hab : sig.compatible a b = true) (hbc : sig.compatible b c = true) :
    sig.compatible a c = true := by
  induction b generalizing a c with
  | atom y =>
    cases a with
    | arrow a₁ a₂ => simp at hab
    | atom x =>
      cases c with
      | arrow c₁ c₂ => simp at hbc
      | atom z =>
        rw [compatible_atom] at hab hbc ⊢
        exact isSubtype_trans hs hbc hab
  | arrow y₁ y₂ ih₁ ih₂ =>
    obtain ⟨c₁, c₂, rfl, hc₁, hc₂⟩ := exists_arrow_of_compatible hbc
    cases a with
    | atom x => simp at hab
    | arrow a₁ a₂ =>
      rw [compatible_arrow, Bool.and_eq_true] at hab ⊢
      exact ⟨ih₁ hc₁ hab.1, ih₂ hab.2 hc₂⟩

theorem arrows_eq_of_compatibleWith {sig : Signature} {flipped : Bool} {a b : Ty}
    (h : sig.compatibleWith flipped a b = true) : b.arrows = a.arrows := by
  induction a generalizing flipped b with
  | atom x =>
    cases b with
    | atom y => rfl
    | arrow y z => simp [compatibleWith] at h
  | arrow x y ihx ihy =>
    cases b with
    | atom z => simp [compatibleWith] at h
    | arrow z w =>
      rw [compatibleWith, Bool.and_eq_true] at h
      rw [Ty.arrows, Ty.arrows, ihx h.1, ihy h.2]

/-- Compatible types have the same shape. -/
theorem arrows_eq_of_compatible {sig : Signature} {a b : Ty} (h : sig.compatible a b = true) :
    b.arrows = a.arrows :=
  arrows_eq_of_compatibleWith h

end Signature

end Categorial
