import Categorial.Rule.Basic
import Mathlib.Tactic

/-!
# The orders are total

The comparisons of types, syntactic categories, terms and categories are built part by part. Each is
a total order, so two things that compare as equal are equal.

* `Chained`: three comparisons that fit together; it passes through lexicographic combination.
* The instances of `Std.TransCmp` and `Std.LawfulEqCmp`, up to `Category.cmp`.
-/

namespace Categorial

open Std

/-- Comparisons of a first with a second, of the second with a third, and of the first with the
third thing fit together. -/
structure Chained (o₁ o₂ o₃ : Ordering) : Prop where
  isLE : o₁.isLE = true → o₂.isLE = true → o₃.isLE = true
  lt_left : o₁ = .lt → o₂.isLE = true → o₃ = .lt
  lt_right : o₁.isLE = true → o₂ = .lt → o₃ = .lt

namespace Chained

theorem lex {o₁ o₂ o₃ p₁ p₂ p₃ : Ordering} (h : Chained o₁ o₂ o₃) (h' : Chained p₁ p₂ p₃) :
    Chained (o₁.then p₁) (o₂.then p₂) (o₃.then p₃) := by
  cases o₁ with
  | gt => exact ⟨by simp, by simp, by simp⟩
  | lt =>
    cases o₂ with
    | gt => exact ⟨by simp, by simp, by simp⟩
    | lt | eq =>
      rw [h.lt_left rfl rfl]
      exact ⟨by simp, by simp, by simp⟩
  | eq =>
    cases o₂ with
    | gt => exact ⟨by simp, by simp, by simp⟩
    | lt =>
      rw [h.lt_right rfl rfl]
      exact ⟨by simp, by simp, by simp⟩
    | eq =>
      cases o₃ with
      | lt => exact ⟨by simp, by simp, by simp⟩
      | eq => exact h'
      | gt => cases h.isLE rfl rfl

theorem of_trans {α : Type} (cmp : α → α → Ordering) [TransCmp cmp] (a b c : α) :
    Chained (cmp a b) (cmp b c) (cmp a c) :=
  ⟨TransCmp.isLE_trans, TransCmp.lt_of_lt_of_isLE, TransCmp.lt_of_isLE_of_lt⟩

end Chained

theorem transCmp_of_chained {α : Type} {cmp : α → α → Ordering}
    (swap : ∀ a b, cmp a b = (cmp b a).swap)
    (chained : ∀ a b c, Chained (cmp a b) (cmp b c) (cmp a c)) : TransCmp cmp where
  eq_swap := swap _ _
  isLE_trans := (chained _ _ _).isLE

theorem isLE_total {α : Type} (cmp : α → α → Ordering) [OrientedCmp cmp] (a b : α) :
    ((cmp a b).isLE || (cmp b a).isLE) = true := by
  have hswap : cmp b a = (cmp a b).swap := OrientedCmp.eq_swap
  rw [hswap]
  cases cmp a b <;> rfl

/-! ## Types -/

namespace Ty

theorem cmp_swap (a b : Ty) : a.cmp b = (b.cmp a).swap := by
  induction a generalizing b with
  | atom x =>
    cases b with
    | atom y => exact OrientedOrd.eq_swap
    | arrow => rfl
  | arrow x r ihx ihr =>
    cases b with
    | atom => rfl
    | arrow y s => rw [cmp, cmp, ihx, ihr, Ordering.swap_then]

theorem chained_cmp (a b c : Ty) : Chained (a.cmp b) (b.cmp c) (a.cmp c) := by
  induction a generalizing b c with
  | atom x =>
    cases b <;> cases c <;> first
      | exact Chained.of_trans compare _ _ _
      | exact ⟨by simp [cmp], by simp [cmp], by simp [cmp]⟩
  | arrow x r ihx ihr =>
    cases b <;> cases c <;> first
      | exact (ihx _ _).lex (ihr _ _)
      | exact ⟨by simp [cmp], by simp [cmp], by simp [cmp]⟩

instance : TransCmp cmp := transCmp_of_chained cmp_swap chained_cmp

instance : LawfulEqCmp cmp where
  compare_self := ReflCmp.compare_self
  eq_of_compare {a b} h := by
    induction a generalizing b with
    | atom x =>
      cases b with
      | atom y => exact congrArg atom (LawfulEqOrd.eq_of_compare h)
      | arrow => cases h
    | arrow x r ihx ihr =>
      cases b with
      | atom => cases h
      | arrow y s =>
        rw [cmp, Ordering.then_eq_eq] at h
        rw [ihx h.1, ihr h.2]

end Ty

/-! ## Syntactic categories -/

instance : TransCmp Slash.cmp where
  eq_swap {a b} := by cases a <;> cases b <;> rfl
  isLE_trans {a b c} := by cases a <;> cases b <;> cases c <;> decide

instance : LawfulEqCmp Slash.cmp where
  compare_self {a} := by cases a <;> rfl
  eq_of_compare {a b} := by cases a <;> cases b <;> decide

namespace Syn

theorem cmp_swap (a b : Syn) : a.cmp b = (b.cmp a).swap := by
  induction a generalizing b with
  | atom x =>
    cases b with
    | atom y => exact OrientedOrd.eq_swap
    | complex => rfl
  | complex r s x ihr ihx =>
    cases b with
    | atom => rfl
    | complex r' s' x' =>
      have hs : s.cmp s' = (s'.cmp s).swap := OrientedCmp.eq_swap
      rw [cmp, cmp, ihr, ihx, hs, Ordering.swap_then, Ordering.swap_then]

theorem chained_cmp (a b c : Syn) : Chained (a.cmp b) (b.cmp c) (a.cmp c) := by
  induction a generalizing b c with
  | atom x =>
    cases b <;> cases c <;> first
      | exact Chained.of_trans compare _ _ _
      | exact ⟨by simp [cmp], by simp [cmp], by simp [cmp]⟩
  | complex r s x ihr ihx =>
    cases b <;> cases c <;> first
      | exact ((ihr _ _).lex (Chained.of_trans Slash.cmp _ _ _)).lex (ihx _ _)
      | exact ⟨by simp [cmp], by simp [cmp], by simp [cmp]⟩

instance : TransCmp cmp := transCmp_of_chained cmp_swap chained_cmp

instance : LawfulEqCmp cmp where
  compare_self := ReflCmp.compare_self
  eq_of_compare {a b} h := by
    induction a generalizing b with
    | atom x =>
      cases b with
      | atom y => exact congrArg atom (LawfulEqOrd.eq_of_compare h)
      | complex => cases h
    | complex r s x ihr ihx =>
      cases b with
      | atom => cases h
      | complex r' s' x' =>
        rw [cmp, Ordering.then_eq_eq, Ordering.then_eq_eq] at h
        rw [ihr h.1.1, LawfulEqCmp.eq_of_compare h.1.2, ihx h.2]

end Syn

/-! ## Terms -/

namespace Term

theorem cmp_swap (a b : Term) : a.cmp b = (b.cmp a).swap := by
  induction a generalizing b with
  | const n ty =>
    cases b with
    | const n' ty' =>
      have hn : compare n n' = (compare n' n).swap := OrientedOrd.eq_swap
      rw [cmp, cmp, hn, ty.cmp_swap, Ordering.swap_then]
    | _ => rfl
  | var k =>
    cases b with
    | var k' => exact OrientedOrd.eq_swap
    | _ => rfl
  | app f x ihf ihx =>
    cases b with
    | app g y => rw [cmp, cmp, ihf, ihx, Ordering.swap_then]
    | _ => rfl
  | lam ty t ih =>
    cases b with
    | lam ty' u => rw [cmp, cmp, ty.cmp_swap, ih, Ordering.swap_then]
    | _ => rfl

theorem chained_cmp (a b c : Term) : Chained (a.cmp b) (b.cmp c) (a.cmp c) := by
  induction a generalizing b c with
  | const n ty =>
    cases b <;> cases c <;> first
      | exact (Chained.of_trans compare _ _ _).lex (Ty.chained_cmp _ _ _)
      | exact ⟨by simp [cmp], by simp [cmp], by simp [cmp]⟩
  | var k =>
    cases b <;> cases c <;> first
      | exact Chained.of_trans compare _ _ _
      | exact ⟨by simp [cmp], by simp [cmp], by simp [cmp]⟩
  | app f x ihf ihx =>
    cases b <;> cases c <;> first
      | exact (ihf _ _).lex (ihx _ _)
      | exact ⟨by simp [cmp], by simp [cmp], by simp [cmp]⟩
  | lam ty t ih =>
    cases b <;> cases c <;> first
      | exact (Ty.chained_cmp _ _ _).lex (ih _ _)
      | exact ⟨by simp [cmp], by simp [cmp], by simp [cmp]⟩

instance : TransCmp cmp := transCmp_of_chained cmp_swap chained_cmp

instance : LawfulEqCmp cmp where
  compare_self := ReflCmp.compare_self
  eq_of_compare {a b} h := by
    induction a generalizing b with
    | const n ty =>
      cases b with
      | const n' ty' =>
        rw [cmp, Ordering.then_eq_eq] at h
        rw [LawfulEqOrd.eq_of_compare h.1, LawfulEqCmp.eq_of_compare h.2]
      | _ => cases h
    | var k =>
      cases b with
      | var k' => exact congrArg var (LawfulEqOrd.eq_of_compare h)
      | _ => cases h
    | app f x ihf ihx =>
      cases b with
      | app g y =>
        rw [cmp, Ordering.then_eq_eq] at h
        rw [ihf h.1, ihx h.2]
      | _ => cases h
    | lam ty t ih =>
      cases b with
      | lam ty' u =>
        rw [cmp, Ordering.then_eq_eq] at h
        rw [LawfulEqCmp.eq_of_compare h.1, ih h.2]
      | _ => cases h

end Term

/-! ## Rules and categories -/

namespace RuleId

theorem chained_cmp (a b c : RuleId) : Chained (a.cmp b) (b.cmp c) (a.cmp c) := by
  cases a <;> cases b <;> cases c <;> first
    | exact Chained.of_trans compare _ _ _
    | exact ⟨by simp [cmp], by simp [cmp], by simp [cmp]⟩

instance : TransCmp cmp := by
  refine transCmp_of_chained (fun a b => ?_) chained_cmp
  cases a <;> cases b <;> first
    | exact OrientedOrd.eq_swap
    | rfl

instance : LawfulEqCmp cmp where
  compare_self := ReflCmp.compare_self
  eq_of_compare {a b} h := by
    cases a <;> cases b <;> first
      | exact congrArg rule (LawfulEqOrd.eq_of_compare h)
      | cases h
    rfl

end RuleId

namespace Category

instance : TransCmp cmpSem where
  eq_swap {a b} := by
    cases a <;> cases b <;> first
      | exact Term.cmp_swap _ _
      | rfl
  isLE_trans {a b c} := by
    cases a <;> cases b <;> cases c <;> first
      | exact (Term.chained_cmp _ _ _).isLE
      | simp [cmpSem]

instance : LawfulEqCmp cmpSem where
  compare_self := ReflCmp.compare_self
  eq_of_compare {a b} h := by
    cases a with
    | none => cases b with
      | none => rfl
      | some y => cases h
    | some x => cases b with
      | none => cases h
      | some y =>
        change x.cmp y = .eq at h
        rw [LawfulEqCmp.eq_of_compare h]

theorem chained_cmp (a b c : Category) : Chained (a.cmp b) (b.cmp c) (a.cmp c) :=
  (Syn.chained_cmp _ _ _).lex (Chained.of_trans cmpSem _ _ _)

instance : TransCmp cmp := by
  refine transCmp_of_chained (fun a b => ?_) chained_cmp
  have hsem : cmpSem a.sem b.sem = (cmpSem b.sem a.sem).swap := OrientedCmp.eq_swap
  rw [cmp, cmp, Syn.cmp_swap, hsem, Ordering.swap_then]

instance : LawfulEqCmp cmp where
  compare_self := ReflCmp.compare_self
  eq_of_compare {a b} h := by
    rw [cmp, Ordering.then_eq_eq] at h
    have hsyn : a.syn = b.syn := LawfulEqCmp.eq_of_compare h.1
    have hsem : a.sem = b.sem := LawfulEqCmp.eq_of_compare h.2
    obtain ⟨syn, sem⟩ := a
    obtain ⟨syn', sem'⟩ := b
    exact Category.mk.injEq _ _ _ _ ▸ ⟨hsyn, hsem⟩

end Category

end Categorial
