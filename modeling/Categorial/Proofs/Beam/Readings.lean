import Categorial.Beam.Search
import Mathlib.Tactic

/-!
# Readings

The completed states of a search are gathered by category. Each reading has the first of its states
as its best one and counts the derivations of all of them.

* `Count.add_cap`, `Count.mul_cap`, `Count.sum_cap`, `Count.foldl_add`: counting with a cap.
* `Beam.Read`: what the readings of a list of states are.
* **`Beam.read_readings`**: the readings of a search.
-/

namespace Categorial

namespace Count

theorem add_cap (m n : Nat) : add (min cap m) (min cap n) = min cap (m + n) := by
  unfold add
  omega

theorem mul_cap (m n : Nat) : mul (min cap m) (min cap n) = min cap (m * n) := by
  have hpos : 0 < cap := by decide
  unfold mul
  rcases le_total m cap with hm | hm <;> rcases le_total n cap with hn | hn
  · rw [min_eq_right hm, min_eq_right hn]
  · rw [min_eq_right hm, min_eq_left hn]
    rcases Nat.eq_zero_or_pos m with rfl | hm'
    · simp
    · have h₁ : cap ≤ m * cap := Nat.le_mul_of_pos_left cap hm'
      have h₂ : m * cap ≤ m * n := Nat.mul_le_mul_left m hn
      rw [min_eq_left h₁, min_eq_left (h₁.trans h₂)]
  · rw [min_eq_left hm, min_eq_right hn]
    rcases Nat.eq_zero_or_pos n with rfl | hn'
    · simp
    · have h₁ : cap ≤ cap * n := Nat.le_mul_of_pos_right cap hn'
      have h₂ : cap * n ≤ m * n := Nat.mul_le_mul_right n hm
      rw [min_eq_left h₁, min_eq_left (h₁.trans h₂)]
  · rw [min_eq_left hm, min_eq_left hn]
    have h₁ : cap ≤ cap * cap := Nat.le_mul_of_pos_left cap hpos
    have h₂ : cap * cap ≤ m * n := Nat.mul_le_mul hm hn
    rw [min_eq_left h₁, min_eq_left (h₁.trans h₂)]

theorem sum_cap (l : List Nat) : min cap (l.map (min cap)).sum = min cap l.sum := by
  induction l with
  | nil => rfl
  | cons n l ih =>
    rw [List.map_cons, List.sum_cons, List.sum_cons]
    omega

theorem foldl_add {l : List Nat} {n : Nat} (h : n ≤ cap) :
    l.foldl add n = min cap (n + l.sum) := by
  induction l generalizing n with
  | nil => exact (min_eq_right h).symm
  | cons k l ih =>
    have hadd : add n k ≤ cap := min_le_left _ _
    rw [List.foldl_cons, ih hadd, List.sum_cons, add]
    omega

end Count

variable {σ : Type}

/-- The category on top of the stack. -/
def State.category? (s : State σ) : Option Category := s.top?.map Item.category

namespace Beam

/-- The readings after one more completed state. -/
def record (rs : List (Reading σ)) (x : State σ × Nat) : List (Reading σ) :=
  match x.1.top? with
  | some top => addReading x.2 x.1 top.category rs
  | none => rs

theorem readings_eq (p : Parse σ) : p.readings = p.completed.zipIdx.foldl record [] := rfl

/-- A state goes to the first reading of its category, or becomes a reading. -/
theorem addReading_cases (place : Nat) (s : State σ) (c : Category) (rs : List (Reading σ)) :
    (∃ pre r post, rs = pre ++ r :: post ∧ r.category = c ∧ addReading place s c rs =
      pre ++ { r with places := r.places ++ [place], parses := Count.add r.parses s.parses } ::
        post) ∨
    (∀ r ∈ rs, r.category ≠ c) ∧
      addReading place s c rs = rs ++ [⟨c, [place], s, s.parses⟩] := by
  induction rs with
  | nil => exact Or.inr ⟨by simp, rfl⟩
  | cons r rs ih =>
    rw [addReading]
    split_ifs with hr
    · exact Or.inl ⟨[], r, rs, rfl, hr, rfl⟩
    · rcases ih with ⟨pre, r', post, rfl, hr', he⟩ | ⟨hne, he⟩
      · exact Or.inl ⟨r :: pre, r', post, rfl, hr', by rw [he]; rfl⟩
      · refine Or.inr ⟨fun r' hr' => ?_, by rw [he]; rfl⟩
        rcases List.mem_cons.mp hr' with rfl | hr'
        · exact hr
        · exact hne r' hr'

/-- The states with a category. -/
def statesFor (l : List (State σ)) (c : Category) : List (State σ) :=
  l.filter fun s => decide (s.category? = some c)

/-- The readings are those of the states: one to a category, its best state the first one. -/
structure Read (l : List (State σ)) (rs : List (Reading σ)) : Prop where
  nodup : (rs.map Reading.category).Nodup
  covers : ∀ s ∈ l, ∀ c, s.category? = some c → ∃ r ∈ rs, r.category = c
  best : ∀ r ∈ rs, (statesFor l r.category).head? = some r.best
  parses : (∀ s ∈ l, s.parses ≤ Count.cap) → ∀ r ∈ rs,
    r.parses = min Count.cap ((statesFor l r.category).map State.parses).sum
  head : (∀ s ∈ l, s.category?.isSome = true) → rs.head?.map Reading.best = l.head?

theorem statesFor_concat (l : List (State σ)) (s : State σ) (c : Category) :
    statesFor (l ++ [s]) c = statesFor l c ++ if s.category? = some c then [s] else [] := by
  simp only [statesFor, List.filter_append, List.filter_singleton]
  split_ifs with h <;> simp [h]

section Record

variable {l : List (State σ)} {rs : List (Reading σ)} {s : State σ} {c : Category}

theorem statesFor_concat_of_ne (h : s.category? ≠ some c) :
    statesFor (l ++ [s]) c = statesFor l c := by
  rw [statesFor_concat, if_neg h, List.append_nil]

/-- A state without a category changes nothing. -/
theorem Read.skip (h : Read l rs) (hc : s.category? = none) : Read (l ++ [s]) rs := by
  have hfor : ∀ c, statesFor (l ++ [s]) c = statesFor l c := fun c =>
    statesFor_concat_of_ne (by simp [hc])
  refine ⟨h.nodup, fun t ht c htc => ?_, fun r hr => ?_, fun hcap r hr => ?_, fun hall => ?_⟩
  · rcases List.mem_append.mp ht with ht | ht
    · exact h.covers t ht c htc
    · rw [List.mem_singleton.mp ht, hc] at htc
      cases htc
  · rw [hfor]
    exact h.best r hr
  · rw [hfor]
    exact h.parses (fun t ht => hcap t (List.mem_append_left _ ht)) r hr
  · have := hall s (by simp)
    rw [hc] at this
    cases this

/-- A state joins the reading of its category. -/
theorem Read.join {pre post : List (Reading σ)} {r₀ : Reading σ} (h : Read l (pre ++ r₀ :: post))
    (hc : s.category? = some r₀.category) (places : List Nat) :
    Read (l ++ [s]) (pre ++
      { r₀ with places := places, parses := Count.add r₀.parses s.parses } :: post) := by
  set r₁ : Reading σ :=
    { r₀ with places := places, parses := Count.add r₀.parses s.parses } with hr₁
  have hcats : (pre ++ r₁ :: post).map Reading.category =
      (pre ++ r₀ :: post).map Reading.category := by simp [hr₁]
  have hself : statesFor (l ++ [s]) r₀.category = statesFor l r₀.category ++ [s] := by
    rw [statesFor_concat, if_pos hc]
  have hr₀ : r₀ ∈ pre ++ r₀ :: post := by simp
  have hmem : ∀ r ∈ pre ++ r₁ :: post, r = r₁ ∨
      r ∈ pre ++ r₀ :: post ∧ s.category? ≠ some r.category := by
    intro r hr
    have hnd := h.nodup
    rw [List.map_append, List.map_cons, List.nodup_middle, ← List.map_append,
      List.nodup_cons] at hnd
    have hr : r = r₁ ∨ r ∈ pre ++ post := by
      rw [List.mem_append, List.mem_cons] at hr
      rw [List.mem_append]
      tauto
    refine hr.imp id fun hr => ⟨?_, fun hcat => hnd.1 ?_⟩
    · rw [List.mem_append] at hr ⊢
      exact hr.imp id (List.mem_cons_of_mem r₀)
    · rw [hc, Option.some_inj] at hcat
      rw [hcat]
      exact List.mem_map_of_mem hr
  refine ⟨hcats ▸ h.nodup, fun t ht c htc => ?_, fun r hr => ?_, fun hcap r hr => ?_,
    fun hall => ?_⟩
  · have hold : ∃ r ∈ pre ++ r₀ :: post, r.category = c := by
      rcases List.mem_append.mp ht with ht | ht
      · exact h.covers t ht c htc
      · rw [List.mem_singleton.mp ht, hc, Option.some_inj] at htc
        exact ⟨r₀, hr₀, htc⟩
    rw [← List.mem_map, ← hcats, List.mem_map] at hold
    exact hold
  · rcases hmem r hr with rfl | ⟨hr, hne⟩
    · change (statesFor (l ++ [s]) r₀.category).head? = some r₀.best
      rw [hself, List.head?_append, h.best r₀ hr₀]
      rfl
    · rw [statesFor_concat_of_ne hne]
      exact h.best r hr
  · have hold := h.parses fun t ht => hcap t (List.mem_append_left _ ht)
    rcases hmem r hr with rfl | ⟨hr, hne⟩
    · have hs := hcap s (by simp)
      change Count.add r₀.parses s.parses =
        min Count.cap ((statesFor (l ++ [s]) r₀.category).map State.parses).sum
      rw [hself, List.map_append, List.sum_append, ← Count.add_cap, ← hold r₀ hr₀]
      simp [hs]
    · rw [statesFor_concat_of_ne hne]
      exact hold r hr
  · have hold := h.head fun t ht => hall t (List.mem_append_left _ ht)
    cases l with
    | nil => cases pre <;> simp at hold
    | cons x l => cases pre <;> simpa using hold

/-- A state of a new category becomes a reading. -/
theorem Read.new (h : Read l rs) (hc : s.category? = some c) (hne : ∀ r ∈ rs, r.category ≠ c)
    (places : List Nat) : Read (l ++ [s]) (rs ++ [⟨c, places, s, s.parses⟩]) := by
  have hnone : statesFor l c = [] := by
    refine List.filter_eq_nil_iff.mpr fun t ht htc => ?_
    obtain ⟨r, hr, hrc⟩ := h.covers t ht c (by simpa using htc)
    exact hne r hr hrc
  have hself : statesFor (l ++ [s]) c = [s] := by
    rw [statesFor_concat, if_pos hc, hnone]
    rfl
  have hother : ∀ r ∈ rs, statesFor (l ++ [s]) r.category = statesFor l r.category :=
    fun r hr => statesFor_concat_of_ne (by simpa [hc] using (hne r hr).symm)
  refine ⟨?_, fun t ht c' htc => ?_, fun r hr => ?_, fun hcap r hr => ?_, fun hall => ?_⟩
  · rw [List.map_append, List.nodup_append']
    refine ⟨h.nodup, List.nodup_singleton _, ?_⟩
    simpa [List.disjoint_right] using hne
  · rcases List.mem_append.mp ht with ht | ht
    · obtain ⟨r, hr, hrc⟩ := h.covers t ht c' htc
      exact ⟨r, List.mem_append_left _ hr, hrc⟩
    · rw [List.mem_singleton.mp ht, hc, Option.some_inj] at htc
      exact ⟨_, List.mem_append_right _ (List.mem_singleton_self _), htc⟩
  · rcases List.mem_append.mp hr with hr | hr
    · rw [hother r hr]
      exact h.best r hr
    · rw [List.mem_singleton.mp hr, hself]
      rfl
  · rcases List.mem_append.mp hr with hr | hr
    · rw [hother r hr]
      exact h.parses (fun t ht => hcap t (List.mem_append_left _ ht)) r hr
    · rw [List.mem_singleton.mp hr, hself]
      simpa using hcap s (by simp)
  · have hold := h.head fun t ht => hall t (List.mem_append_left _ ht)
    cases l with
    | nil => cases rs <;> simp at hold ⊢
    | cons x l => cases rs <;> simp at hold ⊢; exact hold

theorem Read.record (h : Read l rs) (s : State σ) (place : Nat) :
    Read (l ++ [s]) (record rs (s, place)) := by
  cases htop : s.top? with
  | none =>
    simp only [Beam.record, htop]
    exact h.skip (by rw [State.category?, htop]; rfl)
  | some top =>
    have hc : s.category? = some top.category := by rw [State.category?, htop]; rfl
    simp only [Beam.record, htop]
    rcases addReading_cases place s top.category rs with ⟨pre, r₀, post, rfl, hr₀, he⟩ | ⟨hne, he⟩
    · rw [he]
      exact h.join (hr₀ ▸ hc) _
    · rw [he]
      exact h.new hc hne _

end Record

/-- **The readings of a search are those of its completed states.** -/
theorem read_readings (p : Parse σ) : Read p.completed p.readings := by
  rw [readings_eq]
  induction p.completed using List.reverseRecOn with
  | nil => exact ⟨by simp, by simp, by simp, by simp, by simp⟩
  | append_singleton l s ih =>
    rw [List.zipIdx_append, List.foldl_append]
    exact ih.record s _

end Beam

end Categorial
