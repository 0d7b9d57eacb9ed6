import Categorial.Proofs.Compatibility
import Categorial.Term.Normal
import Categorial.Term.Typing
import Mathlib.Tactic

/-!
# Substitution with unbounded indices

Without a modulus, contracting a redex is one pass over the body that puts the argument in place of
the bound variable and closes the gap. Typing follows it: a variable may be replaced by a term of a
compatible type, and the type of the whole then becomes a compatible one.

* `Term.instantiate`, `Term.betaMod_zero`: the contraction of a redex in one pass.
* `Term.inferIn_shift`: new variables in a context do no harm.
* **`Term.inferIn_instantiate`**: types under substitution.
* `Term.inferIn_lower`: a variable that does not occur can leave the context.
-/

namespace Categorial.Term

/-! ## Index arithmetic -/

@[simp] theorem under_zero (k : Nat) : under 0 k = k + 1 := Nat.mod_zero _

theorem moveIndex_zero (k : Nat) (d : Int) : moveIndex 0 k d = ((k : Int) + d).toNat := by
  change (((k : Int) + d) % 0).toNat = _
  rw [Int.emod_zero]

@[simp] theorem moveIndex_natCast (k n : Nat) : moveIndex 0 k (n : Int) = k + n := by
  rw [moveIndex_zero]
  omega

@[simp] theorem moveIndex_neg_one (k : Nat) : moveIndex 0 k (-1) = k - 1 := by
  rw [moveIndex_zero]
  omega

@[simp] theorem shift_const (n : String) (ty : Ty) (d : Int) (c : Nat) :
    (const n ty).shift d c = const n ty := rfl

@[simp] theorem shift_app (f a : Term) (d : Int) (c : Nat) :
    (app f a).shift d c = app (f.shift d c) (a.shift d c) := rfl

@[simp] theorem shift_lam (ty : Ty) (b : Term) (d : Int) (c : Nat) :
    (lam ty b).shift d c = lam ty (b.shift d (c + 1)) := by
  rw [shift, shiftMod, under_zero]

theorem shift_var (k : Nat) (d : Int) (c : Nat) :
    (var k).shift d c = var (if c ≤ k then moveIndex 0 k d else k) := rfl

theorem shift_shift (t : Term) (m n c c' : Nat) (h₁ : c ≤ c') (h₂ : c' ≤ c + m) :
    (t.shift m c).shift n c' = t.shift (m + n : Nat) c := by
  induction t generalizing c c' with
  | const x ty => rfl
  | var k =>
    simp only [shift_var, moveIndex_natCast]
    congr 1
    split_ifs <;> omega
  | app f a ihf iha => rw [shift_app, shift_app, shift_app, ihf c c' h₁ h₂, iha c c' h₁ h₂]
  | lam ty b ih =>
    rw [shift_lam, shift_lam, shift_lam, ih (c + 1) (c' + 1) (by omega) (by omega)]

theorem shift_shift_neg_one (t : Term) (n c c' : Nat) (h₁ : c ≤ c') (h₂ : c' ≤ c + n) :
    (t.shift (n + 1 : Nat) c).shift (-1) c' = t.shift n c := by
  induction t generalizing c c' with
  | const x ty => rfl
  | var k =>
    simp only [shift_var, moveIndex_natCast, moveIndex_neg_one]
    congr 1
    split_ifs <;> omega
  | app f a ihf iha => rw [shift_app, shift_app, shift_app, ihf c c' h₁ h₂, iha c c' h₁ h₂]
  | lam ty b ih =>
    rw [shift_lam, shift_lam, shift_lam, ih (c + 1) (c' + 1) (by omega) (by omega)]

/-! ## Contracting a redex in one pass -/

/-- Put `s` in place of variable `depth` and close the gap. -/
def instantiate : Term → (s : Term) → (depth : Nat) → Term
  | const n ty, _, _ => const n ty
  | var k, s, depth =>
    if k = depth then s.shift depth 0 else if depth < k then var (k - 1) else var k
  | app f a, s, depth => app (f.instantiate s depth) (a.instantiate s depth)
  | lam ty b, s, depth => lam ty (b.instantiate s (depth + 1))

theorem shift_substMod (s t : Term) (depth : Nat) :
    (t.substMod 0 depth (s.shift (depth + 1 : Nat) 0)).shift (-1) depth =
      t.instantiate s depth := by
  induction t generalizing depth with
  | const x ty => rfl
  | var k =>
    rw [substMod, instantiate]
    split_ifs with h₁ h₂
    · exact shift_shift_neg_one s depth 0 depth (by omega) (by omega)
    · rw [shift_var, if_pos (by omega), moveIndex_neg_one]
    · rw [shift_var, if_neg (by omega)]
  | app f a ihf iha => rw [substMod, shift_app, ihf, iha, instantiate]
  | lam ty b ih =>
    rw [substMod, under_zero, shift_lam, instantiate,
      show (s.shift (depth + 1 : Nat) 0).shiftMod 0 1 0 = s.shift (depth + 1 + 1 : Nat) 0 from
        shift_shift s (depth + 1) 1 0 0 le_rfl (by omega), ih]

/-- Without a modulus the contraction of a redex is one pass over the body. -/
theorem betaMod_zero (body arg : Term) : betaMod 0 body arg = body.instantiate arg 0 :=
  shift_substMod arg body 0

/-! ## Contexts -/

variable {sig : Signature}

@[simp] theorem inferIn_app_eq_some {ctx : List Ty} {f a : Term} {ty : Ty} :
    (app f a).inferIn sig ctx = some ty ↔ ∃ arg aTy, f.inferIn sig ctx = some (.arrow arg ty) ∧
      a.inferIn sig ctx = some aTy ∧ sig.compatible arg aTy = true := by
  simp only [inferIn, Option.bind_eq_bind, Option.bind_eq_some_iff]
  constructor
  · rintro ⟨fTy, hf, aTy, ha, ⟨arg, ret⟩, harrow, h⟩
    split_ifs at h with hc
    cases h
    cases fTy with
    | atom x => cases harrow
    | arrow _ _ => cases harrow; exact ⟨arg, aTy, hf, ha, hc⟩
  · rintro ⟨arg, aTy, hf, ha, hc⟩
    exact ⟨_, hf, aTy, ha, (arg, ty), rfl, if_pos hc⟩

@[simp] theorem inferIn_lam_eq_some {ctx : List Ty} {x : Ty} {b : Term} {ty : Ty} :
    (lam x b).inferIn sig ctx = some ty ↔
      ∃ bTy, b.inferIn sig (x :: ctx) = some bTy ∧ ty = .arrow x bTy := by
  simp only [inferIn, Option.bind_eq_bind, Option.bind_eq_some_iff, Option.some.injEq,
    @eq_comm Ty ty]

/-- New variables in the middle of a context do no harm. -/
theorem inferIn_shift (t : Term) (inner new outer : List Ty) :
    (t.shift new.length inner.length).inferIn sig (inner ++ new ++ outer) =
      t.inferIn sig (inner ++ outer) := by
  induction t generalizing inner with
  | const x ty => rfl
  | var k =>
    simp only [shift_var, moveIndex_natCast, inferIn]
    split_ifs with h
    · rw [List.append_assoc, List.getElem?_append_right (by omega),
        List.getElem?_append_right (by omega), List.getElem?_append_right (by omega)]
      congr 1
      omega
    · rw [List.append_assoc, List.getElem?_append_left (by omega),
        List.getElem?_append_left (by omega)]
  | app f a ihf iha => rw [shift_app, inferIn, inferIn, ihf, iha]
  | lam ty b ih =>
    rw [shift_lam, inferIn, inferIn]
    have h := ih (ty :: inner)
    simp only [List.length_cons, List.cons_append] at h
    rw [h]

theorem inferIn_shift_zero (t : Term) (new outer : List Ty) :
    (t.shift new.length 0).inferIn sig (new ++ outer) = t.inferIn sig outer :=
  inferIn_shift t [] new outer

/-- A variable that does not occur can leave the context. -/
theorem inferIn_lower (t : Term) (inner : List Ty) (x : Ty) (outer : List Ty)
    (h : t.hasFreeMod 0 inner.length = false) :
    (t.shift (-1) inner.length).inferIn sig (inner ++ outer) =
      t.inferIn sig (inner ++ x :: outer) := by
  induction t generalizing inner with
  | const y ty => rfl
  | var k =>
    have hk : k ≠ inner.length := by simpa [hasFreeMod] using h
    simp only [shift_var, inferIn, moveIndex_neg_one]
    split_ifs with hc
    · rw [List.getElem?_append_right (by omega), List.getElem?_append_right (by omega),
        show k - inner.length = (k - 1 - inner.length) + 1 by omega, List.getElem?_cons_succ]
    · rw [List.getElem?_append_left (by omega), List.getElem?_append_left (by omega)]
  | app f a ihf iha =>
    rw [hasFreeMod, Bool.or_eq_false_iff] at h
    rw [shift_app, inferIn, inferIn, ihf inner h.1, iha inner h.2]
  | lam ty b ih =>
    rw [hasFreeMod, under_zero] at h
    rw [shift_lam, inferIn, inferIn]
    have := ih (ty :: inner) h
    simp only [List.length_cons, List.cons_append] at this
    rw [this]

/-- **Types under substitution.** A variable is replaced by a term of a compatible type; the type of
the whole becomes a compatible one. -/
theorem inferIn_instantiate (hs : sig.Reachable) (s : Term) (x x' : Ty) (outer : List Ty)
    (hx : s.inferIn sig outer = some x') (hxx : sig.compatible x x' = true) (t : Term)
    (inner : List Ty) (ty : Ty) (ht : t.inferIn sig (inner ++ x :: outer) = some ty) :
    ∃ ty', (t.instantiate s inner.length).inferIn sig (inner ++ outer) = some ty' ∧
      sig.compatible ty ty' = true := by
  induction t generalizing inner ty with
  | const y yTy => exact ⟨ty, ht, sig.compatible_refl ty⟩
  | var k =>
    rw [inferIn] at ht
    rw [instantiate]
    split_ifs with h₁ h₂
    · subst h₁
      rw [List.getElem?_append_right le_rfl, Nat.sub_self] at ht
      cases ht
      exact ⟨x', (inferIn_shift_zero s inner outer).trans hx, hxx⟩
    · refine ⟨ty, ?_, sig.compatible_refl ty⟩
      rw [List.getElem?_append_right (by omega),
        show k - inner.length = (k - 1 - inner.length) + 1 by omega,
        List.getElem?_cons_succ] at ht
      rw [inferIn, List.getElem?_append_right (by omega), ht]
    · refine ⟨ty, ?_, sig.compatible_refl ty⟩
      rw [List.getElem?_append_left (by omega)] at ht
      rw [inferIn, List.getElem?_append_left (by omega), ht]
  | app f a ihf iha =>
    obtain ⟨arg, aTy, hf, ha, hc⟩ := inferIn_app_eq_some.mp ht
    obtain ⟨fTy', hf', hff⟩ := ihf inner _ hf
    obtain ⟨aTy', ha', haa⟩ := iha inner _ ha
    obtain ⟨arg', ret', rfl, harg, hret⟩ := Signature.exists_arrow_of_compatible hff
    refine ⟨ret', inferIn_app_eq_some.mpr ⟨arg', aTy', hf', ha', ?_⟩, hret⟩
    exact Signature.compatible_trans hs harg (Signature.compatible_trans hs hc haa)
  | lam y b ih =>
    obtain ⟨bTy, hb, rfl⟩ := inferIn_lam_eq_some.mp ht
    obtain ⟨bTy', hb', hbb⟩ := ih (y :: inner) bTy hb
    refine ⟨.arrow y bTy', inferIn_lam_eq_some.mpr ⟨bTy', hb', rfl⟩, ?_⟩
    rw [Signature.compatible_arrow, sig.compatible_refl, hbb]
    rfl

/-- What has a type has no variables beyond its context. -/
theorem closedAt_of_inferIn {t : Term} {ctx : List Ty} {ty : Ty}
    (h : t.inferIn sig ctx = some ty) : t.closedAt ctx.length = true := by
  induction t generalizing ctx ty with
  | const y yTy => rfl
  | var k =>
    rw [inferIn] at h
    obtain ⟨hk, -⟩ := List.getElem?_eq_some_iff.mp h
    exact decide_eq_true hk
  | app f a ihf iha =>
    obtain ⟨arg, aTy, hf, ha, -⟩ := inferIn_app_eq_some.mp h
    rw [closedAt, ihf hf, iha ha]
    rfl
  | lam y b ih =>
    obtain ⟨bTy, hb, -⟩ := inferIn_lam_eq_some.mp h
    exact ih hb

end Categorial.Term
