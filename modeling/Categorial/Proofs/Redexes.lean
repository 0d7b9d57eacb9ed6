import Categorial.Category
import Categorial.Proofs.NormalForm

/-!
# Normal forms are the terms without a redex

The search for a normal form works on any term, closed or open, typed or not. Where a free variable
lies in the upper half of the words, indices wrap around, and then a contraction may well bind what was
free; yet whatever a contraction leaves is searched again, so all that matters is the last step under a
binder. There an index goes down only past a variable that does not occur, and does not wrap. So what
the search ends with has no redex, and a term without a redex is what the search ends with at once.

* `Term.isRedex`, `Term.isNormal_iff`: normal terms are those in which no redex occurs.
* `Term.nesting`, `Term.InMemory`: the terms that a machine can hold.
* `Term.contractEta_eq`: dropping a binder needs no modulus.
* `Term.Normalizes.closedAt`: no variable becomes free.
* `Term.isNormal_of_normalizeMod?`, `Term.normalizeMod?_of_isNormal`: the search with words.
* **`normal_forms_exactly`**: results have no redex, and what has none is its own result.
-/

namespace Categorial

namespace Term

/-! ## Redexes -/

/-- The term can be contracted as it stands: it is an abstraction applied to an argument, or a binder
that only passes its variable on. -/
def isRedex : Term → Bool
  | app f _ => f.isLam
  | lam _ b => b.isEtaBody
  | const _ _ => false
  | var _ => false

/-- Normal terms are those in which no redex occurs. -/
theorem isNormal_iff {t : Term} :
    t.isNormal = true ↔ ∀ s, t.contains s = true → s.isRedex = false := by
  induction t with
  | const n ty =>
    refine ⟨fun _ s hs => ?_, fun _ => rfl⟩
    obtain rfl : const n ty = s := by simpa [contains] using hs
    rfl
  | var k =>
    refine ⟨fun _ s hs => ?_, fun _ => rfl⟩
    obtain rfl : var k = s := by simpa [contains] using hs
    rfl
  | app f a ihf iha =>
    rw [isNormal_app, ihf, iha]
    simp only [contains, Bool.or_eq_true, beq_iff_eq]
    constructor
    · rintro ⟨hlam, hf, ha⟩ s ((rfl | hs) | hs)
      · exact hlam
      · exact hf s hs
      · exact ha s hs
    · intro h
      exact ⟨h _ (Or.inl (Or.inl rfl)), fun s hs => h s (Or.inl (Or.inr hs)),
        fun s hs => h s (Or.inr hs)⟩
  | lam ty b ih =>
    rw [isNormal_lam, ih]
    simp only [contains, Bool.or_eq_true, beq_iff_eq]
    constructor
    · rintro ⟨heta, hb⟩ s (rfl | hs)
      · exact heta
      · exact hb s hs
    · intro h
      exact ⟨h _ (Or.inl rfl), fun s hs => h s (Or.inr hs)⟩

/-! ## Terms in memory -/

/-- The greatest number of binders around a part of the term. -/
def nesting : Term → Nat
  | const _ _ => 0
  | var _ => 0
  | app f a => max f.nesting a.nesting
  | lam _ b => b.nesting + 1

/-- All indices are below `w`. -/
def indicesBelow (w : Nat) : Term → Bool
  | const _ _ => true
  | var k => k < w
  | app f a => f.indicesBelow w && a.indicesBelow w
  | lam _ b => b.indicesBelow w

/-- A term that a machine can hold: its indices are words, and there are fewer binders around a part
than there are words. -/
structure InMemory (t : Term) : Prop where
  indices : t.indicesBelow Bits.words = true
  nesting_lt : t.nesting < Bits.words

variable {w : Nat}

theorem indicesBelow_app {f a : Term} : (app f a).indicesBelow w = true ↔
    f.indicesBelow w = true ∧ a.indicesBelow w = true := by
  rw [indicesBelow, Bool.and_eq_true]

@[simp] theorem nesting_shiftMod (t : Term) (d : Int) (c : Nat) :
    (t.shiftMod w d c).nesting = t.nesting := by
  induction t generalizing c with
  | const x ty => rfl
  | var k => rfl
  | app f a ihf iha => rw [shiftMod, nesting, nesting, ihf, iha]
  | lam ty b ih => rw [shiftMod, nesting, nesting, ih]

theorem moveIndex_lt (hw : 0 < w) (k : Nat) (d : Int) : moveIndex w k d < w := by
  have hlt : ((k : Int) + d) % (w : Int) < w := Int.emod_lt_of_pos _ (by omega)
  have hnonneg : 0 ≤ ((k : Int) + d) % (w : Int) := Int.emod_nonneg _ (by omega)
  change (((k : Int) + d) % (w : Int)).toNat < w
  omega

theorem indicesBelow_shiftMod (hw : 0 < w) {t : Term} (h : t.indicesBelow w = true) (d : Int)
    (c : Nat) : (t.shiftMod w d c).indicesBelow w = true := by
  induction t generalizing c with
  | const x ty => rfl
  | var k =>
    have hk : k < w := of_decide_eq_true h
    refine decide_eq_true ?_
    split_ifs
    · exact moveIndex_lt hw k d
    · exact hk
  | app f a ihf iha =>
    obtain ⟨hf, ha⟩ := indicesBelow_app.mp h
    exact indicesBelow_app.mpr ⟨ihf hf c, iha ha c⟩
  | lam ty b ih => exact ih h _

theorem indicesBelow_substMod (hw : 0 < w) {t s : Term} (ht : t.indicesBelow w = true)
    (hs : s.indicesBelow w = true) (j : Nat) : (t.substMod w j s).indicesBelow w = true := by
  induction t generalizing s j with
  | const x ty => rfl
  | var k =>
    rw [substMod]
    split_ifs
    · exact hs
    · exact ht
  | app f a ihf iha =>
    obtain ⟨hf, ha⟩ := indicesBelow_app.mp ht
    exact indicesBelow_app.mpr ⟨ihf hf hs j, iha ha hs j⟩
  | lam ty b ih => exact ih ht (indicesBelow_shiftMod hw hs 1 0) _

theorem indicesBelow_betaMod (hw : 0 < w) {b a : Term} (hb : b.indicesBelow w = true)
    (ha : a.indicesBelow w = true) : (betaMod w b a).indicesBelow w = true :=
  indicesBelow_shiftMod hw
    (indicesBelow_substMod hw hb (indicesBelow_shiftMod hw ha 1 0) 0) (-1) 0

/-! ## Dropping a binder -/

theorem under_of_lt {k : Nat} (h : k + 1 < w) : under w k = k + 1 := Nat.mod_eq_of_lt h

/-- A variable is looked for under fewer binders than there are words. -/
theorem hasFreeMod_eq {t : Term} {k : Nat} (h : k + t.nesting < w) :
    t.hasFreeMod w k = t.hasFreeMod 0 k := by
  induction t generalizing k with
  | const x ty => rfl
  | var i => rfl
  | app f a ihf iha =>
    rw [nesting] at h
    rw [hasFreeMod, hasFreeMod, ihf (by omega), iha (by omega)]
  | lam ty b ih =>
    rw [nesting] at h
    rw [hasFreeMod, hasFreeMod, under_of_lt (by omega), under_zero, ih (by omega)]

theorem moveIndex_neg_one_of_lt {k : Nat} (hpos : 0 < k) (hlt : k < w) :
    moveIndex w k (-1) = k - 1 := by
  change (((k : Int) + -1) % (w : Int)).toNat = k - 1
  rw [Int.emod_eq_of_lt (by omega) (by omega)]
  omega

/-- Indices above that of a variable that does not occur go down by one, and do not wrap. -/
theorem shiftMod_neg_one_eq {t : Term} {c : Nat} (h : t.indicesBelow w = true)
    (hc : c + t.nesting < w) (hfree : t.hasFreeMod 0 c = false) :
    t.shiftMod w (-1) c = t.shift (-1) c := by
  induction t generalizing c with
  | const x ty => rfl
  | var k =>
    have hk : k < w := of_decide_eq_true h
    have hne : k ≠ c := by simpa [hasFreeMod] using hfree
    rw [shift_var, shiftMod, moveIndex_neg_one]
    split_ifs with hle
    · rw [moveIndex_neg_one_of_lt (by omega) hk]
    · rfl
  | app f a ihf iha =>
    obtain ⟨hf, ha⟩ := indicesBelow_app.mp h
    rw [nesting] at hc
    rw [hasFreeMod, Bool.or_eq_false_iff] at hfree
    rw [shift_app, shiftMod, ihf hf (by omega) hfree.1, iha ha (by omega) hfree.2]
  | lam ty b ih =>
    rw [nesting] at hc
    rw [hasFreeMod, under_zero] at hfree
    rw [shift_lam, shiftMod, under_of_lt (by omega), ih h (by omega) hfree]

theorem contractEta_of_not_isEtaBody_of_lt {b : Term} (hb : b.nesting < w) (h : b.isEtaBody = false)
    (ty : Ty) : contractEta w ty b = lam ty b := by
  unfold contractEta
  split
  · rename_i f
    rw [nesting] at hb
    have hf : f.hasFreeMod 0 0 = true := by simpa [isEtaBody] using h
    rw [hasFreeMod_eq (by omega), if_pos hf]
  · rfl

/-- A binder is dropped as if indices were unbounded. -/
theorem contractEta_eq {b : Term} (hindices : b.indicesBelow w = true) (hb : b.nesting < w) (ty : Ty) :
    contractEta w ty b = contractEta 0 ty b := by
  cases h : b.isEtaBody with
  | false => rw [contractEta_of_not_isEtaBody_of_lt hb h, contractEta_of_not_isEtaBody h]
  | true =>
    obtain ⟨f, rfl, hf, he⟩ := contractEta_of_isEtaBody h ty
    rw [nesting] at hb
    obtain ⟨hf', -⟩ := indicesBelow_app.mp hindices
    rw [he, contractEta, hasFreeMod_eq (by omega), hf, if_neg Bool.false_ne_true,
      shiftMod_neg_one_eq hf' (by omega) hf]

theorem nesting_le_contractEta (w : Nat) (ty : Ty) (b : Term) :
    b.nesting ≤ (contractEta w ty b).nesting := by
  unfold contractEta
  split
  · split_ifs
    · exact Nat.le_succ _
    · rw [nesting_shiftMod]
      exact (Nat.max_zero _).le
  · exact Nat.le_succ _

theorem indicesBelow_contractEta (hw : 0 < w) {b : Term} (h : b.indicesBelow w = true) (ty : Ty) :
    (contractEta w ty b).indicesBelow w = true := by
  unfold contractEta
  split
  · split_ifs
    · exact h
    · exact indicesBelow_shiftMod hw (indicesBelow_app.mp h).1 (-1) 0
  · exact h

/-! ## Free variables -/

theorem closedAt_app {f a : Term} {n : Nat} : (app f a).closedAt n = true ↔
    f.closedAt n = true ∧ a.closedAt n = true := by
  rw [closedAt, Bool.and_eq_true]

theorem closedAt_shift {t : Term} {n : Nat} (h : t.closedAt n = true) (m c : Nat) :
    (t.shift m c).closedAt (n + m) = true := by
  induction t generalizing n c with
  | const x ty => rfl
  | var k =>
    rw [shift_var, moveIndex_natCast]
    simp only [closedAt, decide_eq_true_eq] at h ⊢
    split_ifs <;> omega
  | app f a ihf iha =>
    obtain ⟨hf, ha⟩ := closedAt_app.mp h
    exact closedAt_app.mpr ⟨ihf hf c, iha ha c⟩
  | lam ty b ih =>
    have hb := ih h (c + 1)
    rw [shift_lam, closedAt]
    rwa [Nat.add_right_comm] at hb

theorem closedAt_lower {t : Term} {n c : Nat} (h : t.closedAt (n + 1) = true) (hc : c ≤ n)
    (hfree : t.hasFreeMod 0 c = false) : (t.shift (-1) c).closedAt n = true := by
  induction t generalizing n c with
  | const x ty => rfl
  | var k =>
    have hk : k ≠ c := by simpa [hasFreeMod] using hfree
    rw [shift_var, moveIndex_neg_one]
    simp only [closedAt, decide_eq_true_eq] at h ⊢
    split_ifs <;> omega
  | app f a ihf iha =>
    obtain ⟨hf, ha⟩ := closedAt_app.mp h
    rw [hasFreeMod, Bool.or_eq_false_iff] at hfree
    exact closedAt_app.mpr ⟨ihf hf hc hfree.1, iha ha hc hfree.2⟩
  | lam ty b ih =>
    rw [hasFreeMod, under_zero] at hfree
    rw [shift_lam]
    exact ih h (by omega) hfree

theorem closedAt_instantiate {t s : Term} {n : Nat} (hs : s.closedAt n = true) {depth : Nat}
    (h : t.closedAt (n + depth + 1) = true) :
    (t.instantiate s depth).closedAt (n + depth) = true := by
  induction t generalizing depth with
  | const x ty => rfl
  | var k =>
    simp only [closedAt, decide_eq_true_eq] at h
    rw [instantiate]
    split_ifs
    · exact closedAt_shift hs depth 0
    · simp only [closedAt, decide_eq_true_eq]
      omega
    · simp only [closedAt, decide_eq_true_eq]
      omega
  | app f a ihf iha =>
    obtain ⟨hf, ha⟩ := closedAt_app.mp h
    exact closedAt_app.mpr ⟨ihf hf, iha ha⟩
  | lam ty b ih =>
    have hb : (b.instantiate s (depth + 1)).closedAt (n + (depth + 1)) = true := ih h
    exact hb

/-- No variable becomes free. -/
theorem Normalizes.closedAt {t u : Term} (h : Normalizes t u) {n : Nat}
    (ht : t.closedAt n = true) : u.closedAt n = true := by
  induction h generalizing n with
  | const x ty => rfl
  | var k => exact ht
  | @redex f a a' b u ty _ _ _ ihf iha ihu =>
    obtain ⟨hf, ha⟩ := closedAt_app.mp ht
    have hlam : (Term.lam ty b).closedAt n = true := ihf hf
    have hbody : (b.instantiate a' 0).closedAt (n + 0) = true := closedAt_instantiate (iha ha) hlam
    exact ihu hbody
  | app _ _ _ ihf iha =>
    obtain ⟨hf, ha⟩ := closedAt_app.mp ht
    exact closedAt_app.mpr ⟨ihf hf, iha ha⟩
  | @lam ty b b' _ ih =>
    have hb : b'.closedAt (n + 1) = true := ih ht
    cases heta : b'.isEtaBody with
    | true =>
      obtain ⟨f, rfl, hfree, he⟩ := contractEta_of_isEtaBody heta ty
      rw [he]
      exact closedAt_lower (closedAt_app.mp hb).1 (Nat.zero_le n) hfree
    | false =>
      rw [contractEta_of_not_isEtaBody heta]
      exact hb

/-! ## The search with words -/

/-- Whatever contractions leave is searched again, so a result can have a redex only where a binder was
dropped last; and there it has none. -/
theorem isNormal_of_normalizeMod? (hw : 0 < w) {t u : Term} (h : normalizeMod? w t = some u)
    (ht : t.indicesBelow w = true) :
    u.indicesBelow w = true ∧ (u.nesting < w → u.isNormal = true) := by
  refine normalizeMod?.partial_correctness w (fun t u => t.indicesBelow w = true →
    u.indicesBelow w = true ∧ (u.nesting < w → u.isNormal = true)) (fun norm ih t u h ht => ?_) t u h ht
  cases t with
  | const n ty => cases h; exact ⟨rfl, fun _ => rfl⟩
  | var k => cases h; exact ⟨ht, fun _ => rfl⟩
  | app f a =>
    simp only [normalizeWith, Option.bind_eq_bind, Option.bind_eq_some_iff] at h
    obtain ⟨f', hf, a', ha, h⟩ := h
    obtain ⟨hft, hat⟩ := indicesBelow_app.mp ht
    obtain ⟨hf', hfn⟩ := ih _ _ hf hft
    obtain ⟨ha', han⟩ := ih _ _ ha hat
    split at h
    · exact ih _ _ h (indicesBelow_betaMod hw hf' ha')
    · rename_i hlam
      cases h
      refine ⟨indicesBelow_app.mpr ⟨hf', ha'⟩, fun hlt => ?_⟩
      rw [nesting] at hlt
      refine isNormal_app.mpr ⟨?_, hfn (by omega), han (by omega)⟩
      cases f' with
      | lam ty b => exact absurd rfl (hlam ty b)
      | _ => rfl
  | lam ty b =>
    simp only [normalizeWith, Option.bind_eq_bind, Option.bind_eq_some_iff] at h
    obtain ⟨b', hb, h⟩ := h
    cases h
    obtain ⟨hb', hbn⟩ := ih _ _ hb ht
    refine ⟨indicesBelow_contractEta hw hb' ty, fun hlt => ?_⟩
    have hlt' := (nesting_le_contractEta w ty b').trans_lt hlt
    rw [contractEta_eq hb' hlt']
    exact isNormal_contractEta (hbn hlt') ty

/-- The search ends with a normal term at once. -/
theorem normalizeMod?_of_isNormal {t : Term} (hlt : t.nesting < w) (h : t.isNormal = true) :
    normalizeMod? w t = some t := by
  induction t with
  | const n ty => exact normalizeMod?_const w n ty
  | var k => exact normalizeMod?_var w k
  | app f a ihf iha =>
    obtain ⟨hlam, hf, ha⟩ := isNormal_app.mp h
    rw [nesting] at hlt
    exact normalizeMod?_app (ihf (by omega) hf) (iha (by omega) ha) hlam
  | lam ty b ih =>
    obtain ⟨heta, hb⟩ := isNormal_lam.mp h
    rw [nesting] at hlt
    rw [normalizeMod?_lam ty (ih (by omega) hb),
      contractEta_of_not_isEtaBody_of_lt (by omega) heta]

/-- A result is normal, and the search can start from it again. -/
theorem isNormal_of_normalize? {t u : Term} (ht : t.closedAt Bits.positives = true ∨ t.InMemory)
    (hu : t.closedAt Bits.positives = true ∨ u.nesting < Bits.words) (h : t.normalize? = some u) :
    u.isNormal = true ∧ (u.closedAt Bits.positives = true ∨ u.InMemory) := by
  rw [normalize?, modulus] at h
  split_ifs at h with hfree
  · have hsearch := normalizes_of_eq_some h
    exact ⟨hsearch.isNormal, Or.inl (hsearch.closedAt hfree)⟩
  · have hlt := hu.resolve_left hfree
    obtain ⟨hindices, hnormal⟩ :=
      isNormal_of_normalizeMod? (by decide) h (ht.resolve_left hfree).indices
    exact ⟨hnormal hlt, Or.inr ⟨hindices, hlt⟩⟩

theorem normalize?_of_isNormal_of_inMemory {t : Term}
    (ht : t.closedAt Bits.positives = true ∨ t.InMemory) (h : t.isNormal = true) :
    t.normalize? = some t := by
  rw [normalize?, modulus]
  split_ifs with hfree
  · exact eq_some_of_normalizes (.self h)
  · exact normalizeMod?_of_isNormal (ht.resolve_left hfree).nesting_lt h

end Term

/-- **Normal forms are exactly the terms without a redex.** Whatever the search for a normal form ends
with, from a term that may be open or untyped, no redex occurs in it, the search started from it ends
with it, and it is what a category is made with; and the search ends with every term in which no redex
occurs as it is. Where a free variable lies in the upper half of the words, the terms must fit into
memory. -/
theorem normal_forms_exactly (t : Term) (ht : t.closedAt Bits.positives = true ∨ t.InMemory) :
    (∀ u : Term, t.normalize? = some u →
      t.closedAt Bits.positives = true ∨ u.nesting < Bits.words →
      (∀ s, u.contains s = true → s.isRedex = false) ∧ u.normalize? = some u ∧
        ∀ syn, (Category.make syn (some t)).sem = some u) ∧
    ((∀ s, t.contains s = true → s.isRedex = false) → t.normalize? = some t) := by
  constructor
  · intro u h hu
    obtain ⟨hnormal, hfits⟩ := Term.isNormal_of_normalize? ht hu h
    refine ⟨Term.isNormal_iff.mp hnormal,
      Term.normalize?_of_isNormal_of_inMemory hfits hnormal, fun syn => ?_⟩
    rw [Category.make, Option.map_some, Term.normalize, h, Option.getD_some]
  · intro h
    exact Term.normalize?_of_isNormal_of_inMemory ht (Term.isNormal_iff.mpr h)

/-- An open term without a type, `(λx:e.x(x))(λy:e.z(y))`, where `z` is the last of the words: its
normal form is `z(z)`, with `z` one index lower outside the binder that was dropped. -/
theorem normal_forms_exactly_last :
    let z : Term := .var 0xFFFFFFFFFFFFFFFF
    let t : Term := .app (.lam .entity (.app (.var 0) (.var 0))) (.lam .entity (.app z (.var 0)))
    let u : Term := .app (.var 0xFFFFFFFFFFFFFFFE) (.var 0xFFFFFFFFFFFFFFFE)
    t.InMemory ∧ u.InMemory ∧ t.normalize? = some u ∧
      (∀ s, u.contains s = true → s.isRedex = false) ∧ u.normalize? = some u ∧
        ∀ syn, (Category.make syn (some t)).sem = some u := by
  intro z t u
  have ht : t.InMemory := ⟨by decide, by decide⟩
  have hu : u.InMemory := ⟨by decide, by decide⟩
  have h : t.normalize? = some u := by cbv
  exact ⟨ht, hu, h, (normal_forms_exactly t (Or.inr ht)).1 u h (Or.inr hu.nesting_lt)⟩

end Categorial
