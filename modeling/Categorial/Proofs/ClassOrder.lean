import Mathlib.Data.List.Perm.Basic
import Mathlib.Tactic

/-!
# Order within classes

A key sorts the members of a list into classes. Two lists agree within classes if they have the same
members of every class in the same order; members of different classes may have changed places. This
is all that a stable sort sees of its input, as long as it tells members of different classes apart.

* `SameClasses`: agreement within classes.
* `SameClasses.append`, `SameClasses.flatMap`, `SameClasses.map`: what keeps it.
* `sameClasses_of_perm`: lists with the same members agree if every class has one member at most.
* `tied_mergeSort`: a stable sort keeps tied members in order.
* **`SameClasses.mergeSort_eq`**: lists that agree within classes are sorted alike.
-/

namespace Categorial

variable {α β κ : Type} [DecidableEq κ]

/-- The lists have the same members of every class, in the same order. -/
def SameClasses (key : α → κ) (l l' : List α) : Prop :=
  ∀ k, (l.filter fun a => decide (key a = k)) = l'.filter fun a => decide (key a = k)

namespace SameClasses

variable {key : α → κ} {l l' m m' : List α}

theorem refl (key : α → κ) (l : List α) : SameClasses key l l := fun _ => rfl

theorem append (h : SameClasses key l l') (h' : SameClasses key m m') :
    SameClasses key (l ++ m) (l' ++ m') := fun k => by
  rw [List.filter_append, List.filter_append, h k, h' k]

theorem flatMap {f f' : β → List α} (xs : List β) (h : ∀ x ∈ xs, SameClasses key (f x) (f' x)) :
    SameClasses key (xs.flatMap f) (xs.flatMap f') := fun k => by
  rw [List.filter_flatMap, List.filter_flatMap]
  exact List.flatMap_congr fun x hx => h x hx k

theorem map {f : α → β} {key' : β → κ} (h : SameClasses key l l') (hkey : ∀ a, key' (f a) = key a) :
    SameClasses key' (l.map f) (l'.map f) := fun k => by
  have hcomp : ((fun b => decide (key' b = k)) ∘ f) = fun a => decide (key a = k) := by
    funext a
    rw [Function.comp_apply, hkey]
  rw [List.filter_map, List.filter_map, hcomp, h k]

theorem filter (h : SameClasses key l l') (p : α → Bool) :
    SameClasses key (l.filter p) (l'.filter p) := fun k => by
  rw [List.filter_comm, h k, List.filter_comm]

theorem perm (h : SameClasses key l l') : l.Perm l' := by
  classical
  refine List.perm_iff_count.mpr fun a => ?_
  have hcount (l : List α) : (l.filter fun b => decide (key b = key a)).count a = l.count a :=
    List.count_filter (by simp)
  rw [← hcount l, ← hcount l', h (key a)]

end SameClasses

/-- If every class has one member at most, the order does not matter. -/
theorem sameClasses_of_perm {key : α → κ} {l l' : List α} (h : l.Perm l')
    (hkey : l.Pairwise fun a b => key a ≠ key b) : SameClasses key l l' := by
  intro k
  have hperm := h.filter fun a => decide (key a = k)
  have hclass : (l.filter fun a => decide (key a = k)).Pairwise fun _ _ => False :=
    (hkey.filter _).imp_of_mem fun {a b} ha hb hne => hne <| by
      rw [of_decide_eq_true (List.mem_filter.mp ha).2, of_decide_eq_true (List.mem_filter.mp hb).2]
  revert hperm hclass
  generalize (l.filter fun a => decide (key a = k)) = xs
  intro hperm hclass
  match xs with
  | [] => exact hperm.nil_eq
  | [x] => exact (List.perm_singleton.mp hperm.symm).symm
  | x :: y :: _ => exact absurd (List.pairwise_cons.mp hclass).1 fun h => h y List.mem_cons_self

/-! ## Sorting -/

section Sorting

variable {le : α → α → Bool}
  (trans : ∀ a b c, le a b = true → le b c = true → le a c = true)
  (total : ∀ a b, (le a b || le b a) = true)

/-- The members tied with one. -/
def tied (le : α → α → Bool) (a : α) (l : List α) : List α := l.filter fun b => le a b && le b a

include trans

theorem pairwise_tied (a : α) (l : List α) : (tied le a l).Pairwise fun b c => le b c = true := by
  refine List.pairwise_of_forall_mem_list fun b hb c hc => ?_
  obtain ⟨-, hba⟩ := Bool.and_eq_true_iff.mp (List.mem_filter.mp hb).2
  obtain ⟨hac, -⟩ := Bool.and_eq_true_iff.mp (List.mem_filter.mp hc).2
  exact trans b a c hba hac

include total

/-- Sorting keeps tied members in order. -/
theorem tied_mergeSort (a : α) (l : List α) : tied le a (l.mergeSort le) = tied le a l := by
  have hsub : (tied le a l).Sublist (l.mergeSort le) :=
    List.sublist_mergeSort trans total (pairwise_tied trans a l) List.filter_sublist
  have hsub : (tied le a l).Sublist (tied le a (l.mergeSort le)) := by
    have h := hsub.filter fun b => le a b && le b a
    simpa only [tied, List.filter_filter, Bool.and_self] using h
  exact (hsub.eq_of_length ((List.mergeSort_perm l le).filter _).length_eq.symm).symm

omit trans in
/-- Two lists in order that have the same members, the tied ones in the same order, are equal. -/
theorem eq_of_pairwise_of_tied {l l' : List α} (hl : l.Pairwise fun a b => le a b = true)
    (hl' : l'.Pairwise fun a b => le a b = true) (hperm : l.Perm l')
    (h : ∀ a ∈ l, tied le a l = tied le a l') : l = l' := by
  have hrefl (a : α) : le a a = true := (Bool.or_self _).symm.trans (total a a)
  induction l generalizing l' with
  | nil => exact hperm.nil_eq
  | cons a l ih =>
    cases l' with
    | nil => exact hperm.eq_nil
    | cons b l' =>
      obtain ⟨ha, htail⟩ := List.pairwise_cons.mp hl
      obtain ⟨hb, htail'⟩ := List.pairwise_cons.mp hl'
      -- The first members are tied, so each is the first of those tied with it.
      have hab : le a b = true := by
        rcases List.mem_cons.mp (hperm.mem_iff.mpr List.mem_cons_self) with rfl | hmem
        · exact hrefl b
        · exact ha b hmem
      have hba : le b a = true := by
        rcases List.mem_cons.mp (hperm.mem_iff.mp List.mem_cons_self) with rfl | hmem
        · exact hrefl a
        · exact hb a hmem
      have hfirst := h a List.mem_cons_self
      rw [tied, tied, List.filter_cons_of_pos (by simp [hrefl]),
        List.filter_cons_of_pos (by simp [hab, hba])] at hfirst
      obtain rfl := (List.cons.inj hfirst).1
      refine congrArg (a :: ·) (ih htail htail' hperm.cons_inv fun c hc => ?_)
      have hc := h c (List.mem_cons_of_mem a hc)
      rw [tied, tied, List.filter_cons, List.filter_cons] at hc
      split_ifs at hc
      · exact (List.cons.inj hc).2
      · exact hc

/-- **Lists that agree within classes are sorted alike**, if only members of one class are tied. -/
theorem SameClasses.mergeSort_eq {key : α → κ} {l l' : List α} (h : SameClasses key l l')
    (htied : ∀ a ∈ l, ∀ b ∈ l, le a b = true → le b a = true → key a = key b) :
    l.mergeSort le = l'.mergeSort le := by
  have hsort := List.mergeSort_perm l le
  have hsort' := List.mergeSort_perm l' le
  refine eq_of_pairwise_of_tied total (List.pairwise_mergeSort trans total l)
    (List.pairwise_mergeSort trans total l') (hsort.trans (h.perm.trans hsort'.symm)) fun a ha => ?_
  have ha := hsort.mem_iff.mp ha
  -- What is tied with a member is found in its class.
  have hclass (m : List α) (hm : ∀ b ∈ m, b ∈ l) :
      tied le a (m.filter fun b => decide (key b = key a)) = tied le a m := by
    rw [tied, List.filter_filter]
    refine List.filter_congr fun b hb => ?_
    rw [Bool.and_eq_left_iff_imp, Bool.and_eq_true, decide_eq_true_eq]
    exact fun hab => (htied a ha b (hm b hb) hab.1 hab.2).symm
  rw [tied_mergeSort trans total, tied_mergeSort trans total, ← hclass l fun _ hb => hb,
    ← hclass l' fun b hb => h.perm.mem_iff.mpr hb, h (key a)]

end Sorting

end Categorial
