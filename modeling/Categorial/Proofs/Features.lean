import Categorial.Features
import Mathlib

/-!
# Feature vectors as functions

A feature vector is a list of names and numbers. If the numbers are exact, it stands for a function from
names to numbers with finite support: adding to a feature adds a function with one value, and dropping
zeros does not change the function. The names of a vector are in increasing order, so none is listed
twice, and the number listed under a name is the value there.

* `Scalar.Exact`: numbers that are added and multiplied without rounding.
* `NameMap.Increasing`: the names are in order; it is kept by all changes to a vector.
* `Features.vec`: the function that a list of names and numbers stands for.
* `Features.vec_add`, `Features.vec_addAll`, `Features.vec_prune`, `Features.vec_erase`: what the
  operations do to it.
* `Features.get_eq`, `Features.vec_of_mem`: reading a vector.
-/

namespace Categorial

/-- Numbers that are added and multiplied without rounding. -/
class Scalar.Exact (σ : Type) [CommRing σ] [Scalar σ] : Prop where
  zero_eq : (Score.zero : σ) = 0
  add_eq (a b : σ) : Score.add a b = a + b
  one_eq : (Scalar.one : σ) = 1
  emptySum_eq : (Scalar.emptySum : σ) = 0
  mul_eq (a b : σ) : Scalar.mul a b = a * b
  neg_eq (a : σ) : Scalar.neg a = -a
  isZero_iff (a : σ) : Scalar.isZero a = true ↔ a = 0

/-! ## Names in order -/

namespace NameMap

variable {α : Type}

theorem contains_eq_false_iff {m : NameMap α} {name : String} :
    m.contains name = false ↔ ∀ e ∈ m.entries, e.1 ≠ name := by
  rw [contains, find?, Option.isSome_map, Option.isSome_eq_false_iff, Option.isNone_iff_eq_none,
    List.find?_eq_none]
  exact forall₂_congr fun e _ => not_congr beq_iff_eq

/-- The names are listed in increasing order. -/
def Increasing (m : NameMap α) : Prop := m.entries.Pairwise fun a b => compare a.1 b.1 = .lt

theorem increasing_empty : (empty : NameMap α).Increasing := List.Pairwise.nil

theorem fst_of_mem_alterList {name : String} {f : Option α → α} {l : List (String × α)}
    {e : String × α} (h : e ∈ alterList name f l) : e.1 = name ∨ ∃ e' ∈ l, e'.1 = e.1 := by
  induction l with
  | nil => exact Or.inl (congrArg Prod.fst (List.mem_singleton.mp h))
  | cons x l ih =>
    obtain ⟨n, v⟩ := x
    rw [alterList] at h
    split at h
    · rcases List.mem_cons.mp h with rfl | h
      · exact Or.inl rfl
      · exact Or.inr ⟨e, h, rfl⟩
    · rcases List.mem_cons.mp h with rfl | h
      · exact Or.inr ⟨(n, v), List.mem_cons_self, rfl⟩
      · exact Or.inr ⟨e, List.mem_cons_of_mem _ h, rfl⟩
    · rcases List.mem_cons.mp h with rfl | h
      · exact Or.inr ⟨_, List.mem_cons_self, rfl⟩
      · refine (ih h).imp_right ?_
        rintro ⟨e', he', heq⟩
        exact ⟨e', List.mem_cons_of_mem _ he', heq⟩

theorem pairwise_alterList {name : String} {f : Option α → α} {l : List (String × α)}
    (h : l.Pairwise fun a b => compare a.1 b.1 = .lt) :
    (alterList name f l).Pairwise fun a b => compare a.1 b.1 = .lt := by
  induction l with
  | nil => exact List.pairwise_singleton _ _
  | cons x l ih =>
    obtain ⟨n, v⟩ := x
    obtain ⟨hx, hl⟩ := List.pairwise_cons.mp h
    rw [alterList]
    split
    · next hlt =>
      refine List.pairwise_cons.mpr ⟨List.forall_mem_cons.mpr ⟨hlt, fun e he => ?_⟩, h⟩
      exact Std.TransCmp.lt_trans hlt (hx e he)
    · exact List.pairwise_cons.mpr ⟨hx, hl⟩
    · next hgt =>
      refine List.pairwise_cons.mpr ⟨fun e he => ?_, ih hl⟩
      rcases fst_of_mem_alterList he with heq | ⟨e', he', heq⟩
      · rw [heq]
        exact Std.OrientedCmp.gt_iff_lt.mp hgt
      · rw [← heq]
        exact hx e' he'

namespace Increasing

variable {m : NameMap α}

theorem alter (h : m.Increasing) (name : String) (f : Option α → α) :
    (m.alter name f).Increasing :=
  pairwise_alterList h

theorem filter (h : m.Increasing) (p : String × α → Bool) :
    Increasing ⟨m.entries.filter p⟩ :=
  List.Pairwise.filter p h

/-- No name is listed twice. -/
theorem pairwise_ne (h : m.Increasing) : m.entries.Pairwise fun a b => a.1 ≠ b.1 := by
  refine h.imp fun {a b} hlt heq => ?_
  have hself : compare b.1 b.1 = .eq := Std.ReflCmp.compare_self
  rw [heq, hself] at hlt
  cases hlt

end Increasing

end NameMap

/-! ## What a vector stands for -/

namespace Features

variable {σ : Type} [CommRing σ]

/-- The function that a list of names and numbers stands for. -/
noncomputable def vec (l : List (String × σ)) : String →₀ σ :=
  (l.map fun e => Finsupp.single e.1 e.2).sum

@[simp] theorem vec_nil : vec ([] : List (String × σ)) = 0 := rfl

@[simp] theorem vec_cons (e : String × σ) (l : List (String × σ)) :
    vec (e :: l) = Finsupp.single e.1 e.2 + vec l := List.sum_cons

theorem vec_perm {l l' : List (String × σ)} (h : l.Perm l') : vec l = vec l' :=
  (h.map _).sum_eq

theorem vec_eq_zero_of_ne {l : List (String × σ)} {name : String} (h : ∀ e ∈ l, e.1 ≠ name) :
    vec l name = 0 := by
  induction l with
  | nil => rfl
  | cons e l ih =>
    obtain ⟨he, hl⟩ := List.forall_mem_cons.mp h
    rw [vec_cons, Finsupp.add_apply, Finsupp.single_eq_of_ne he.symm, ih hl, add_zero]

/-- The number listed under a name is the value there. -/
theorem vec_of_mem {l : List (String × σ)} (hl : l.Pairwise fun a b => a.1 ≠ b.1)
    {e : String × σ} (he : e ∈ l) : vec l e.1 = e.2 := by
  induction l with
  | nil => cases he
  | cons x l ih =>
    obtain ⟨hx, hl⟩ := List.pairwise_cons.mp hl
    rw [vec_cons, Finsupp.add_apply]
    rcases List.mem_cons.mp he with rfl | he
    · rw [Finsupp.single_eq_same, vec_eq_zero_of_ne fun e' he' => (hx e' he').symm, add_zero]
    · rw [Finsupp.single_eq_of_ne (hx e he).symm, ih hl he, zero_add]

/-- A sum of products over a list depends on the function that the list stands for. -/
theorem sum_map_mul (w : String → σ) (l : List (String × σ)) :
    (l.map fun e => e.2 * w e.1).sum = Finsupp.linearCombination σ w (vec l) := by
  rw [vec, map_list_sum, List.map_map]
  refine congrArg List.sum (List.map_congr_left fun e _ => ?_)
  exact (Finsupp.linearCombination_single σ e.2 e.1).symm

theorem vec_filter_ne (name : String) (l : List (String × σ)) :
    vec (l.filter fun e => e.1 != name) = (vec l).erase name := by
  induction l with
  | nil => exact (Finsupp.erase_zero name).symm
  | cons e l ih =>
    rw [vec_cons, Finsupp.erase_add]
    by_cases he : e.1 = name
    · rw [List.filter_cons_of_neg (by simpa using he), ih, he, Finsupp.erase_single, zero_add]
    · rw [List.filter_cons_of_pos (by simpa using he), vec_cons, ih,
        Finsupp.erase_single_ne (Ne.symm he)]

theorem vec_erase (f : Features σ) (name : String) :
    vec (f.erase name).entries = (vec f.entries).erase name :=
  vec_filter_ne name f.entries

variable [Scalar σ] [Scalar.Exact σ]

theorem vec_add (f : Features σ) (name : String) (v : σ) :
    vec (add f name v).entries = vec f.entries + Finsupp.single name v := by
  obtain ⟨l⟩ := f
  change vec (NameMap.alterList name (fun old => Score.add (old.getD Score.zero) v) l) = _
  induction l with
  | nil =>
    rw [NameMap.alterList, vec_cons, Option.getD_none, Scalar.Exact.zero_eq, Scalar.Exact.add_eq,
      zero_add, add_comm]
  | cons e l ih =>
    obtain ⟨n, x⟩ := e
    rw [NameMap.alterList]
    split
    · rw [vec_cons, Option.getD_none, Scalar.Exact.zero_eq, Scalar.Exact.add_eq, zero_add, add_comm]
    · next heq =>
      obtain rfl : name = n := Std.LawfulEqCmp.eq_of_compare heq
      rw [vec_cons, vec_cons, Option.getD_some, Scalar.Exact.add_eq, Finsupp.single_add]
      exact add_right_comm _ _ _
    · rw [vec_cons, vec_cons, ih, add_assoc]

theorem vec_addAll (f other : Features σ) (scale : σ) :
    vec (addAll f other scale).entries = vec f.entries + scale • vec other.entries := by
  obtain ⟨l⟩ := other
  change vec (l.foldl (fun f e => add f e.1 (Scalar.mul scale e.2)) f).entries = _
  induction l generalizing f with
  | nil => rw [List.foldl_nil, vec_nil, smul_zero, add_zero]
  | cons e l ih =>
    rw [List.foldl_cons, ih, vec_add, vec_cons, Scalar.Exact.mul_eq, smul_add, Finsupp.smul_single,
      smul_eq_mul, add_assoc]

theorem vec_prune (f : Features σ) : vec (prune f).entries = vec f.entries := by
  obtain ⟨l⟩ := f
  change vec (l.filter fun e => !Scalar.isZero e.2) = vec l
  induction l with
  | nil => rfl
  | cons e l ih =>
    by_cases he : Scalar.isZero e.2 = true
    · rw [List.filter_cons_of_neg (by simpa using he), ih, vec_cons,
        (Scalar.Exact.isZero_iff e.2).mp he, Finsupp.single_zero, zero_add]
    · rw [List.filter_cons_of_pos (by simpa using he), vec_cons, vec_cons, ih]

theorem get_eq {f : Features σ} (hf : f.Increasing) (name : String) :
    get f name = vec f.entries name := by
  unfold get NameMap.find?
  cases h : f.entries.find? fun e => e.1 == name with
  | none =>
    rw [vec_eq_zero_of_ne fun e he => by simpa using List.find?_eq_none.mp h e he]
    exact Scalar.Exact.zero_eq
  | some e =>
    have hname := List.find?_some h
    obtain rfl : e.1 = name := eq_of_beq hname
    exact (vec_of_mem hf.pairwise_ne (List.mem_of_find?_eq_some h)).symm

theorem sum_eq (l : List σ) : sum l = l.sum := by
  have hadd : (Score.add : σ → σ → σ) = (· + ·) := funext₂ Scalar.Exact.add_eq
  rw [sum, hadd, Scalar.Exact.emptySum_eq, List.sum_eq_foldl]

end Features

/-! ## Vectors stay in order -/

namespace Features

variable {σ : Type} [Scalar σ] {f : Features σ}

theorem increasing_add (hf : f.Increasing) (name : String) (v : σ) : (add f name v).Increasing :=
  hf.alter name _

theorem increasing_addAll (hf : f.Increasing) (other : Features σ) (scale : σ) :
    (addAll f other scale).Increasing :=
  List.foldlRecOn (motive := NameMap.Increasing) _ _ hf fun _ h _ _ => increasing_add h _ _

theorem increasing_prune (hf : f.Increasing) : (prune f).Increasing := hf.filter _

end Features

end Categorial
