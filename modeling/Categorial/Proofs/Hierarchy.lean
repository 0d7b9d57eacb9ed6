import Categorial.Proofs.Compatibility
import Mathlib.Order.Defs.Unbundled

/-!
# The hierarchy of atomic types

Declarations are made on a signature at hand, one after another, and any of them may be refused. A
refused one leaves the signature as it was, for all checks come before the one change. So whatever has
been asked for, every parent was declared before its children. The height of a name, the number of its
ancestors, goes down from a name to its parent: the way from parent to parent comes to an end, and no
two names lie below each other. A new name comes below declared ones only, so it plays no part in
answers about them.

* `Declaration`, `Declaration.addTo`: what can be asked for, and the signature that results.
* `Declaration.perform`: the declaration made in place; **`Declaration.run_perform`**.
* `Signature.after`: the signature after any declarations, accepted or refused.
* `Signature.climb?`: the way from parent to parent, as a loop; `Signature.climb?_eq`: it ends.
* `Signature.height`: the number of ancestors; `Signature.height_lt_of_isSubtype`.
* **`hierarchy_ordered`**: the hierarchy is a forest, and both relations are partial orders.
-/

namespace Categorial

/-! ## Declarations in place -/

/-- A declaration that is asked for. -/
inductive Declaration where
  | atomic (name : String) (parent : Option String)
  | constant (name : String) (ty : Ty)
deriving DecidableEq, Repr

/-- Programs that change a signature in place. What they have changed before a failure stays changed. -/
abbrev Declaring := ExceptT DeclError (StateM Signature)

namespace Declaring

/-- Go on after a program that has answered `r` and left `sig'`. -/
theorem run_bind {x : Declaring Unit} {f : Unit → Declaring Unit} {sig sig' : Signature}
    {r : Except DeclError Unit} (h : x.run sig = (r, sig')) :
    (x >>= f).run sig = (ExceptT.bindCont f r : StateM Signature (Except DeclError Unit)) sig' := by
  change (match x.run sig with
    | (r, sig') => (ExceptT.bindCont f r : StateM Signature (Except DeclError Unit)) sig') = _
  rw [h]

/-- Refuse a type that is not declared. -/
def require (name : String) : Declaring Unit := do
  unless (← get).hasAtomic name do throw (.unknownType name)

theorem run_require (name : String) (sig : Signature) :
    (require name).run sig =
      (if sig.hasAtomic name then .ok () else .error (.unknownType name), sig) := by
  have hrun : (require name).run sig = ExceptT.run
      (if sig.hasAtomic name then pure () else throw (.unknownType name) : Declaring Unit) sig := rfl
  rw [hrun]
  split_ifs <;> rfl

/-- The first type that is not declared is reported, and nothing is changed. -/
theorem run_forM_require (names : List String) (sig : Signature) :
    (forM names require : Declaring Unit).run sig =
      (match names.find? fun a => !sig.hasAtomic a with
        | some a => .error (.unknownType a)
        | none => .ok (), sig) := by
  induction names with
  | nil => rfl
  | cons a names ih =>
    rw [List.forM_cons, run_bind (run_require a sig), List.find?_cons]
    cases sig.hasAtomic a with
    | true => exact ih
    | false => rfl

end Declaring

namespace Declaration

/-- The signature with the declaration, if it is accepted. -/
def addTo (sig : Signature) : Declaration → Except DeclError Signature
  | atomic name parent => sig.addAtomic name parent
  | constant name ty => sig.declare name ty

/-- Make the declaration in place: first the checks, then the change. -/
def perform : Declaration → Declaring Unit
  | atomic name parent => do
    forM parent.toList Declaring.require
    match (← get).parentOf? name with
    | some known => unless known = parent do throw (.conflictingType name parent)
    | none => modify fun sig => { sig with atomics := (name, parent) :: sig.atomics }
  | constant name ty => do
    forM ty.atoms Declaring.require
    modify fun sig => { sig with constants := sig.constants.insert name ty }

/-- **A refused declaration changes nothing.** An accepted one leaves the signature with the
declaration. -/
theorem run_perform (d : Declaration) (sig : Signature) :
    d.perform.run sig = match d.addTo sig with
      | .ok sig' => (.ok (), sig')
      | .error e => (.error e, sig) := by
  cases d with
  | atomic name parent =>
    rw [perform, Declaring.run_bind (Declaring.run_forM_require parent.toList sig), addTo,
      Signature.addAtomic]
    have hfind : (parent.toList.find? fun p => !sig.hasAtomic p) =
        parent.filter fun p => !sig.hasAtomic p := by
      cases parent with
      | none => rfl
      | some p => cases h : sig.hasAtomic p <;> simp [Option.filter, h]
    rw [hfind]
    cases parent.filter fun p => !sig.hasAtomic p with
    | some p => rfl
    | none =>
      change ExceptT.run (match sig.parentOf? name with
        | some known => if known = parent then pure () else throw (.conflictingType name parent)
        | none => modify fun sig => { sig with atomics := (name, parent) :: sig.atomics } :
          Declaring Unit) sig = _
      cases sig.parentOf? name with
      | some known =>
        dsimp only
        split_ifs <;> rfl
      | none => rfl
  | constant name ty =>
    rw [perform, Declaring.run_bind (Declaring.run_forM_require ty.atoms sig), addTo,
      Signature.declare, Signature.validate]
    cases ty.atoms.find? fun a => !sig.hasAtomic a with
    | some a => rfl
    | none => rfl

end Declaration

namespace Signature

variable {sig : Signature}

/-- The signature after declarations made one after another, whether they are accepted or refused. -/
def after (sig : Signature) (ds : List Declaration) : Signature :=
  ds.foldl (fun sig d => (d.perform.run sig).2) sig

theorem after_cons (sig : Signature) (d : Declaration) (ds : List Declaration) :
    sig.after (d :: ds) = after (d.perform.run sig).2 ds := rfl

/-- A declaration made in place is accepted, or leaves the signature as it was. -/
theorem perform_cases (sig : Signature) (d : Declaration) :
    d.addTo sig = .ok (d.perform.run sig).2 ∨ (d.perform.run sig).2 = sig := by
  rw [d.run_perform]
  cases h : d.addTo sig with
  | ok sig' => exact Or.inl rfl
  | error e => exact Or.inr rfl

theorem Reachable.addTo (hs : sig.Reachable) {d : Declaration} {sig' : Signature}
    (h : d.addTo sig = .ok sig') : sig'.Reachable := by
  cases d with
  | atomic name parent => exact .addAtomic hs h
  | constant name ty => exact .declare hs h

theorem Reachable.after (hs : sig.Reachable) (ds : List Declaration) : (sig.after ds).Reachable := by
  induction ds generalizing sig with
  | nil => exact hs
  | cons d ds ih =>
    rw [after_cons]
    rcases perform_cases sig d with h | h
    · exact ih (hs.addTo h)
    · rw [h]
      exact ih hs

/-! ## Parents -/

/-- The parent of a name among declarations listed newest first. -/
def parentIn : List (String × Option String) → String → Option String
  | [], _ => none
  | (name, parent) :: older, a => if name = a then parent else parentIn older a

/-- The parent of a name; one that is not declared has none. -/
def parent? (sig : Signature) (a : String) : Option String := (sig.parentOf? a).join

theorem parent?_eq (sig : Signature) (a : String) : sig.parent? a = parentIn sig.atomics a := by
  unfold parent? parentOf?
  induction sig.atomics with
  | nil => rfl
  | cons d older ih =>
    rw [List.find?_cons, parentIn]
    by_cases hd : d.1 = a
    · rw [beq_iff_eq.mpr hd, if_pos hd]
      rfl
    · rw [beq_eq_false_iff_ne.mpr hd, if_neg hd]
      exact ih

/-- Parents are declared. -/
theorem mem_of_parentIn {l : List (String × Option String)} (hl : Forest l) {a p : String}
    (h : parentIn l a = some p) : p ∈ l.map Prod.fst := by
  induction l with
  | nil => cases h
  | cons d older ih =>
    obtain ⟨name, parent⟩ := d
    obtain ⟨-, hparent, holder⟩ := hl
    rw [parentIn] at h
    rw [List.map_cons, List.mem_cons]
    split_ifs at h with hn
    · exact Or.inr (hparent p h)
    · exact Or.inr (ih holder h)

/-- The newest declaration plays no part in a climb from another name. -/
theorem climbs_of_ne {name a : String} (h : name ≠ a) (parent : Option String)
    (older : List (String × Option String)) (b : String) :
    climbs ((name, parent) :: older) a b = climbs older a b := by
  rw [Bool.eq_iff_iff, climbs_cons]
  constructor
  · rintro (rfl | ⟨hn, -⟩ | ⟨-, hab⟩)
    · exact climbs_refl older a
    · exact absurd hn h
    · exact hab
  · intro hab
    exact Or.inr (Or.inr ⟨h, hab⟩)

/-- A climb that does not end at once goes on from the parent. -/
theorem climbs_iff {l : List (String × Option String)} (hl : Forest l) (a b : String) :
    climbs l a b = true ↔ a = b ∨ ∃ p, parentIn l a = some p ∧ climbs l p b = true := by
  induction l generalizing a with
  | nil => simp [climbs, parentIn]
  | cons d older ih =>
    obtain ⟨name, parent⟩ := d
    obtain ⟨hname, hparent, holder⟩ := hl
    -- parents are older than the newest name
    have hstep : ∀ p ∈ older.map Prod.fst,
        climbs ((name, parent) :: older) p b = climbs older p b := by
      intro p hp
      refine climbs_of_ne ?_ parent older b
      rintro rfl
      exact hname hp
    by_cases hn : name = a
    · rw [climbs_cons, parentIn, if_pos hn]
      refine or_congr_right ⟨?_, ?_⟩
      · rintro (⟨-, p, hp, h⟩ | ⟨hne, -⟩)
        · exact ⟨p, hp, (hstep p (hparent p hp)).trans h⟩
        · exact absurd hn hne
      · rintro ⟨p, hp, h⟩
        exact Or.inl ⟨hn, p, hp, (hstep p (hparent p hp)).symm.trans h⟩
    · rw [climbs_of_ne hn, ih holder, parentIn, if_neg hn]
      refine or_congr_right (exists_congr fun p => and_congr_right fun hp => ?_)
      rw [hstep p (mem_of_parentIn holder hp)]

theorem isSubtype_iff (hs : sig.Reachable) (a b : String) :
    sig.isSubtype a b = true ↔ a = b ∨ ∃ p, sig.parent? a = some p ∧ sig.isSubtype p b = true := by
  simp only [parent?_eq]
  exact climbs_iff hs.forest a b

/-! ## Heights -/

/-- The number of ancestors of a name among declarations listed newest first. -/
def heightIn : List (String × Option String) → String → Nat
  | [], _ => 0
  | (name, parent) :: older, a =>
    if name = a then parent.elim 0 fun p => heightIn older p + 1 else heightIn older a

/-- The number of ancestors of a name. -/
def height (sig : Signature) (a : String) : Nat := heightIn sig.atomics a

theorem heightIn_of_parentIn {l : List (String × Option String)} (hl : Forest l) {a p : String}
    (h : parentIn l a = some p) : heightIn l a = heightIn l p + 1 := by
  induction l generalizing a with
  | nil => cases h
  | cons d older ih =>
    obtain ⟨name, parent⟩ := d
    obtain ⟨hname, hparent, holder⟩ := hl
    have hstep : ∀ p ∈ older.map Prod.fst,
        heightIn ((name, parent) :: older) p = heightIn older p := by
      intro p hp
      refine if_neg ?_
      rintro rfl
      exact hname hp
    by_cases hn : name = a
    · rw [parentIn, if_pos hn] at h
      rw [hstep p (hparent p h), heightIn, if_pos hn, h]
      rfl
    · rw [parentIn, if_neg hn] at h
      rw [hstep p (mem_of_parentIn holder h), heightIn, if_neg hn, ih holder h]

/-- A parent has one ancestor less. -/
theorem height_of_parent? (hs : sig.Reachable) {a p : String} (h : sig.parent? a = some p) :
    sig.height a = sig.height p + 1 := by
  rw [parent?_eq] at h
  exact heightIn_of_parentIn hs.forest h

/-- Heights go down along the way from parent to parent. -/
theorem wellFounded_parent? (hs : sig.Reachable) :
    WellFounded fun p a => sig.parent? a = some p := by
  refine Subrelation.wf (fun {p a} h => ?_) (measure sig.height).wf
  have := height_of_parent? hs h
  change sig.height p < sig.height a
  omega

theorem height_lt_of_isSubtype (hs : sig.Reachable) {a b : String} (h : sig.isSubtype a b = true) :
    a = b ∨ sig.height b < sig.height a := by
  induction a using (wellFounded_parent? hs).induction with
  | _ a ih =>
    rcases (isSubtype_iff hs a b).mp h with rfl | ⟨p, hp, hpb⟩
    · exact Or.inl rfl
    · have := height_of_parent? hs hp
      rcases ih p hp hpb with rfl | hlt
      · exact Or.inr (by omega)
      · exact Or.inr (by omega)

theorem isSubtype_antisymm (hs : sig.Reachable) {a b : String} (hab : sig.isSubtype a b = true)
    (hba : sig.isSubtype b a = true) : a = b := by
  rcases height_lt_of_isSubtype hs hab with h | h
  · exact h
  · rcases height_lt_of_isSubtype hs hba with h' | h'
    · exact h'.symm
    · omega

/-! ## The way from parent to parent -/

/-- Go from parent to parent until `sup` is met or no parent is left. -/
def climb? (sig : Signature) (sup : String) (current : Option String) : Option Bool :=
  match current with
  | some name =>
    if name = sup then some true else by apply climb?; exacts [sig, sup, sig.parent? name]
  | none => some false
partial_fixpoint

/-- **The way from parent to parent ends**, and tells whether `sup` lies on it. -/
theorem climb?_eq (hs : sig.Reachable) (sub sup : String) :
    sig.climb? sup (some sub) = some (sig.isSubtype sub sup) := by
  induction sub using (wellFounded_parent? hs).induction with
  | _ sub ih =>
    rw [climb?]
    have hiff := isSubtype_iff hs sub sup
    split_ifs with he
    · rw [hiff.mpr (Or.inl he)]
    · cases hp : sig.parent? sub with
      | some p =>
        rw [ih p hp, Option.some.injEq, Bool.eq_iff_iff, hiff]
        simp [he, hp]
      | none =>
        have hnot : ¬ sig.isSubtype sub sup = true := by
          simp [hiff, he, hp]
        rw [climb?, Bool.not_eq_true _ |>.mp hnot]

/-! ## Answers are kept -/

/-- An accepted declaration changes no answer about names that were declared before. -/
theorem isSubtype_addTo {d : Declaration} {sig' : Signature} (h : d.addTo sig = .ok sig') {a : String}
    (ha : sig.hasAtomic a = true) (b : String) :
    sig'.hasAtomic a = true ∧ sig'.isSubtype a b = sig.isSubtype a b := by
  cases d with
  | constant name ty =>
    have hatomics := atomics_declare h
    rw [hasAtomic_iff, isSubtype, isSubtype, hatomics, ← hasAtomic_iff]
    exact ⟨ha, rfl⟩
  | atomic name parent =>
    rw [Declaration.addTo, addAtomic] at h
    split at h
    · cases h
    · split at h
      · split_ifs at h
        cases h
        exact ⟨ha, rfl⟩
      · rename_i hnone
        cases h
        -- the new name was not declared
        have hne : name ≠ a := by
          rintro rfl
          rw [hasAtomic, hnone] at ha
          cases ha
        refine ⟨?_, climbs_of_ne hne parent sig.atomics b⟩
        rw [hasAtomic_iff] at ha ⊢
        exact List.mem_cons_of_mem _ ha

theorem isSubtype_after (ds : List Declaration) {a : String} (ha : sig.hasAtomic a = true) (b : String) :
    (sig.after ds).isSubtype a b = sig.isSubtype a b := by
  induction ds generalizing sig with
  | nil => rfl
  | cons d ds ih =>
    rw [after_cons]
    rcases perform_cases sig d with h | h
    · obtain ⟨ha', heq⟩ := isSubtype_addTo h ha b
      rw [ih ha', heq]
    · rw [h, ih ha]

/-! ## Partial orders -/

theorem compatible_antisymm (hs : sig.Reachable) {a b : Ty} (hab : sig.compatible a b = true)
    (hba : sig.compatible b a = true) : a = b := by
  induction a generalizing b with
  | atom x =>
    cases b with
    | arrow y z => simp at hab
    | atom y =>
      rw [compatible_atom] at hab hba
      rw [isSubtype_antisymm hs hab hba]
  | arrow x y ihx ihy =>
    obtain ⟨x', y', rfl, hx, hy⟩ := exists_arrow_of_compatible hab
    rw [compatible_arrow, Bool.and_eq_true] at hba
    -- arguments are compared the other way round
    rw [ihx hba.1 hx, ihy hy hba.2]

theorem isPartialOrder_isSubtype (hs : sig.Reachable) :
    IsPartialOrder String fun a b => sig.isSubtype a b = true where
  refl := sig.isSubtype_refl
  trans _ _ _ := isSubtype_trans hs
  antisymm _ _ := isSubtype_antisymm hs

theorem isPartialOrder_compatible (hs : sig.Reachable) :
    IsPartialOrder Ty fun a b => sig.compatible a b = true where
  refl := sig.compatible_refl
  trans _ _ _ := compatible_trans hs
  antisymm _ _ := compatible_antisymm hs

end Signature

/-- **The hierarchy is a forest, and compatibility a partial order.** After any declarations, accepted
or refused: a further declaration in place either leaves the signature with it, or is refused and
changes nothing; the way from parent to parent ends and decides which name lies below which; to lie
below is a partial order of all names, and later declarations do not change it among the names that
are declared; compatibility is a partial order of all types. -/
theorem hierarchy_ordered (ds : List Declaration) :
    let sig := Signature.after {} ds
    (∀ d : Declaration, d.perform.run sig = match d.addTo sig with
      | .ok sig' => (.ok (), sig')
      | .error e => (.error e, sig)) ∧
    (WellFounded fun p a => sig.parent? a = some p) ∧
    (∀ sub sup, sig.climb? sup (some sub) = some (sig.isSubtype sub sup)) ∧
    (IsPartialOrder String fun a b => sig.isSubtype a b = true) ∧
    (∀ (more : List Declaration) (a b : String), sig.hasAtomic a = true → sig.hasAtomic b = true →
      (sig.after more).isSubtype a b = sig.isSubtype a b) ∧
    IsPartialOrder Ty fun a b => sig.compatible a b = true := by
  intro sig
  have hs : sig.Reachable := Signature.Reachable.start.after ds
  exact ⟨fun d => d.run_perform sig, Signature.wellFounded_parent? hs, Signature.climb?_eq hs,
    Signature.isPartialOrder_isSubtype hs,
    fun more a b ha _ => Signature.isSubtype_after more ha b, Signature.isPartialOrder_compatible hs⟩

/-- A type cannot be its own parent, nor change its parent, and dogs stay entities. -/
example :
    let sig := Signature.after {} [.atomic "dog" (some "dog"), .atomic "dog" (some "e"),
      .atomic "e" (some "dog"), .constant "rex" (.atom "cat"), .atomic "dog" (some "e")]
    sig.atomics = [("dog", some "e"), ("t", none), ("e", none)] ∧
      sig.isSubtype "dog" "e" = true ∧ sig.isSubtype "e" "dog" = false := by
  decide

end Categorial
