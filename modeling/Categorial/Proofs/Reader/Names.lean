import Categorial.Reader.Syn
import Categorial.Reader.Ty
import Categorial.Text.Word
import Mathlib

/-!
# Reading undoes writing: names, types, syntactic categories

The reader of a name takes all that belongs to it, so it gives back a written name whenever what
follows cannot go on with it. From names this carries over to the written forms of types and of
syntactic categories, with brackets around complex arguments only.

* `isPlainName`, `isName`: the names that can be read; `endsName`: where a name cannot go on.
* `readName_append`, `readTy_append`, `readSyn_append`: what is read from a written form with a rest.
-/

namespace Categorial

namespace Reader

open Text

theorem ok_bind {ε α β : Type} (a : α) (f : α → Except ε β) : (Except.ok a >>= f) = f a := rfl

/-! ## Names -/

/-- One or more letters, digits and underscores. -/
def isPlainName (s : List Char) : Bool := !s.isEmpty && s.all isNameChar

/-- A plain name, or one after a dollar sign. -/
def isName : List Char → Bool
  | '$' :: s => isPlainName s
  | s => isPlainName s

/-- The text does not go on with a character of a name. -/
def endsName : List Char → Bool
  | [] => true
  | c :: _ => !isNameChar c

/-- The text goes on as a name does. -/
def startsName : List Char → Bool
  | [] => false
  | c :: _ => c == '$' || isNameChar c

variable {c : Char} {s rest : List Char}

theorem bounds_of_isNameChar (h : isNameChar c = true) :
    (48 ≤ c.toNat ∧ c.toNat ≤ 57) ∨ (65 ≤ c.toNat ∧ c.toNat ≤ 90) ∨ (95 ≤ c.toNat ∧ c.toNat ≤ 95) ∨
      (97 ≤ c.toNat ∧ c.toNat ≤ 122) := by
  simp only [isNameChar, Char.isAlphanum, Char.isAlpha, Char.isUpper, Char.isLower, Char.isDigit,
    Bool.or_eq_true, Bool.and_eq_true, decide_eq_true_eq, beq_iff_eq, ge_iff_le,
    UInt32.le_iff_toNat_le, ← Char.toNat_inj] at h
  simp only [Char.toNat, Char.reduceVal, UInt32.reduceToNat] at h ⊢
  omega

theorem isBlank_of_isNameChar (h : isNameChar c = true) : isBlank c = false := by
  have hbounds := bounds_of_isNameChar h
  simp only [isBlank, Bool.or_eq_false_iff, Bool.and_eq_false_iff, decide_eq_false_iff_not,
    beq_eq_false_iff_ne]
  omega

/-- The characters of names are in the first four ranges of word characters. -/
theorem isWordChar_of_isNameChar (h : isNameChar c = true) : isWordChar c = true := by
  have hrange : ∃ r ∈ wordRanges, r.1 ≤ c.toNat ∧ c.toNat ≤ r.2 := by
    rcases bounds_of_isNameChar h with h | h | h | h
    · exact ⟨(0x30, 0x39), .head _, h⟩
    · exact ⟨(0x41, 0x5A), .tail _ (.head _), h⟩
    · exact ⟨(0x5F, 0x5F), .tail _ (.tail _ (.head _)), h⟩
    · exact ⟨(0x61, 0x7A), .tail _ (.tail _ (.tail _ (.head _))), h⟩
  obtain ⟨r, hr, hle⟩ := hrange
  exact List.any_eq_true.mpr ⟨r, hr, by simpa using hle⟩

theorem trimStart_cons (h : isBlank c = false) : trimStart (c :: s) = c :: s := by
  rw [trimStart, List.dropWhile_cons, h]
  rfl

theorem expect_trimStart (h : isBlank c = false) : expect c (trimStart (c :: s)) = .ok s := by
  rw [trimStart_cons h, expect, if_pos rfl]

theorem trimStart_of_startsName (h : startsName s = true) : trimStart s = s := by
  cases s with
  | nil => rfl
  | cons c s =>
    simp only [startsName, Bool.or_eq_true, beq_iff_eq] at h
    rcases h with rfl | h
    · exact trimStart_cons rfl
    · exact trimStart_cons (isBlank_of_isNameChar h)

theorem isPlainName_iff : isPlainName s = true ↔ s ≠ [] ∧ ∀ c ∈ s, isNameChar c = true := by
  simp [isPlainName]

theorem startsName_append_of_isPlainName (h : isPlainName s = true) :
    startsName (s ++ rest) = true := by
  obtain ⟨hne, hall⟩ := isPlainName_iff.mp h
  obtain ⟨c, s, rfl⟩ := List.exists_cons_of_ne_nil hne
  simp [startsName, hall c List.mem_cons_self]

/-- A name is plain, or a plain one after a dollar sign. -/
theorem isName_cases (h : isName s = true) :
    isPlainName s = true ∨ ∃ r, s = '$' :: r ∧ isPlainName r = true := by
  unfold isName at h
  split at h
  · exact Or.inr ⟨_, rfl, h⟩
  · exact Or.inl h

theorem isName_of_isPlainName (h : isPlainName s = true) : isName s = true := by
  unfold isName
  split
  · exact absurd ((isPlainName_iff.mp h).2 '$' List.mem_cons_self) (by decide)
  · exact h

theorem startsName_append (h : isName s = true) : startsName (s ++ rest) = true := by
  rcases isName_cases h with h | ⟨r, rfl, -⟩
  · exact startsName_append_of_isPlainName h
  · rfl

theorem length_pos_of_isName (h : isName s = true) : 0 < s.length := by
  rcases isName_cases h with h | ⟨r, rfl, -⟩
  · exact List.length_pos_iff.mpr (isPlainName_iff.mp h).1
  · exact Nat.succ_pos _

theorem plainName?_append (hs : isPlainName s = true) (hrest : endsName rest = true) :
    plainName? (s ++ rest) = some (s, rest) := by
  obtain ⟨hne, hall⟩ := isPlainName_iff.mp hs
  have htake : (s ++ rest).takeWhile isNameChar = s ∧ (s ++ rest).dropWhile isNameChar = rest := by
    rw [List.takeWhile_append_of_pos hall, List.dropWhile_append_of_pos hall]
    cases rest with
    | nil => simp
    | cons c rest =>
      have hc : isNameChar c = false := by simpa [endsName] using hrest
      simp [hc]
  rw [plainName?, List.span_eq_takeWhile_dropWhile, htake.1, htake.2]
  cases s with
  | nil => exact absurd rfl hne
  | cons c s => rfl

theorem name?_of_isPlainName (hs : isPlainName s = true) (hrest : endsName rest = true) :
    name? (s ++ rest) = some (s, rest) := by
  obtain ⟨hne, hall⟩ := isPlainName_iff.mp hs
  have h := plainName?_append hs hrest
  obtain ⟨c, s, rfl⟩ := List.exists_cons_of_ne_nil hne
  have hc : c ≠ '$' := by
    rintro rfl
    exact absurd (hall '$' List.mem_cons_self) (by decide)
  unfold name?
  split
  · rename_i heq
    exact absurd (List.cons.inj heq).1 hc
  · exact h

theorem name?_append (hs : isName s = true) (hrest : endsName rest = true) :
    name? (s ++ rest) = some (s, rest) := by
  rcases isName_cases hs with h | ⟨r, rfl, h⟩
  · exact name?_of_isPlainName h hrest
  · rw [List.cons_append, name?, plainName?_append h hrest]
    rfl

theorem readName_append {name : String} (hname : isName name.toList = true)
    (hrest : endsName rest = true) (role : Option NameRole) :
    readName role (name.toList ++ rest) = .ok (name, rest) := by
  rw [readName, name?_append hname hrest]
  exact congrArg (fun n => Except.ok (n, rest)) String.ofList_toList

end Reader

/-! ## Types -/

/-- All atomic names can be read. -/
def Ty.isReadable (ty : Ty) : Bool := ty.atoms.all fun name => Reader.isName name.toList

namespace Reader

theorem readTyWithin_name {name : String} (hname : isName name.toList = true) {rest : List Char}
    (hrest : endsName rest = true) (n : Nat) :
    readTyWithin (n + 1) (name.toList ++ rest) = .ok (.atom name, rest) := by
  have hstart : startsName (name.toList ++ rest) = true := startsName_append hname
  have hread := readName_append hname hrest (some .ty)
  rw [readTyWithin, trimStart_of_startsName hstart]
  generalize name.toList ++ rest = s at hstart hread
  split
  · cases hstart
  · rw [hread]
    rfl

theorem readTyWithin_append {ty : Ty} (h : ty.isReadable = true) {n : Nat}
    (hn : ty.chars.length ≤ n) {rest : List Char} (hrest : endsName rest = true) :
    readTyWithin n (ty.chars ++ rest) = .ok (ty, rest) := by
  induction ty generalizing n rest with
  | atom name =>
    have hname : isName name.toList = true := by simpa [Ty.isReadable, Ty.atoms] using h
    have hpos := length_pos_of_isName hname
    cases n with
    | zero => exact absurd (Nat.lt_of_lt_of_le hpos hn) (Nat.lt_irrefl 0)
    | succ n => exact readTyWithin_name hname hrest n
  | arrow a r iha ihr =>
    obtain ⟨ha, hr⟩ : a.isReadable = true ∧ r.isReadable = true := by
      simpa only [Ty.isReadable, Ty.atoms, List.all_append, Bool.and_eq_true] using h
    simp only [Ty.chars, List.length_cons, List.length_append, List.length_nil] at hn
    cases n with
    | zero => omega
    | succ n =>
      have hchars : (Ty.arrow a r).chars ++ rest =
          '<' :: (a.chars ++ ',' :: (r.chars ++ '>' :: rest)) := by
        simp [Ty.chars]
      have hreada : readTyWithin n (a.chars ++ ',' :: (r.chars ++ '>' :: rest)) =
          .ok (a, ',' :: (r.chars ++ '>' :: rest)) := iha ha (by omega) rfl
      have hreadr : readTyWithin n (r.chars ++ '>' :: rest) = .ok (r, '>' :: rest) :=
        ihr hr (by omega) rfl
      rw [hchars, readTyWithin, trimStart_cons rfl]
      simp (disch := decide) only [hreada, hreadr, ok_bind, expect_trimStart]
      rfl

/-- A written type is read back. -/
theorem readTy_append {ty : Ty} (h : ty.isReadable = true) {rest : List Char}
    (hrest : endsName rest = true) : readTy (ty.chars ++ rest) = .ok (ty, rest) :=
  readTyWithin_append h (by simp) hrest

end Reader

/-! ## Syntactic categories -/

namespace Syn

/-- All atomic names can be read. -/
def isReadable : Syn → Bool
  | atom name => Reader.isName name.toList
  | complex r _ a => r.isReadable && a.isReadable

/-- The name that the written form starts with. -/
def coreName : Syn → String
  | atom name => name
  | complex r _ _ => r.coreName

/-- The written form as an argument. -/
def argumentChars (s : Syn) : List Char := if s.isAtomic then s.chars else '(' :: (s.chars ++ [')'])

/-- The written form after the first name: slashes and arguments. -/
def tailChars : Syn → List Char
  | atom _ => []
  | complex r s a => r.tailChars ++ s.char :: a.argumentChars

theorem chars_eq (s : Syn) : s.chars = s.coreName.toList ++ s.tailChars := by
  induction s with
  | atom name => exact (List.append_nil _).symm
  | complex r s a ihr _ =>
    change r.chars ++ s.char :: a.argumentChars = r.coreName.toList ++ (r.tailChars ++ s.char ::
      a.argumentChars)
    rw [ihr, List.append_assoc]

theorem arity_le_length_tailChars (s : Syn) : s.arity ≤ s.tailChars.length := by
  induction s with
  | atom name => exact Nat.le_refl 0
  | complex r s a ihr _ =>
    simp only [arity, tailChars, List.length_append, List.length_cons]
    omega

theorem isName_coreName {s : Syn} (h : s.isReadable = true) :
    Reader.isName s.coreName.toList = true := by
  induction s with
  | atom name => exact h
  | complex r s a ihr _ => exact ihr (Bool.and_eq_true_iff.mp h).1

end Syn

namespace Reader

open Text

/-- The text goes on neither with a character of a name nor with a further argument. -/
def endsSyn (s : List Char) : Bool := endsName s && (slash? (trimStart s)).isNone

theorem endsName_slash (s : Slash) (rest : List Char) : endsName (s.char :: rest) = true := by
  cases s <;> rfl

theorem endsName_tailChars (syn : Syn) {rest : List Char} (hrest : endsName rest = true) :
    endsName (syn.tailChars ++ rest) = true := by
  induction syn generalizing rest with
  | atom name => exact hrest
  | complex r s a ihr _ =>
    rw [Syn.tailChars, List.append_assoc]
    exact ihr (endsName_slash s _)

theorem readPrimary_name (inner : Reader Syn) {name : String} (hname : isName name.toList = true)
    {rest : List Char} (hrest : endsName rest = true) :
    readPrimary inner (name.toList ++ rest) = .ok (.atom name, rest) := by
  have hstart : startsName (name.toList ++ rest) = true := startsName_append hname
  have hread := readName_append hname hrest (some .syn)
  rw [readPrimary, trimStart_of_startsName hstart]
  generalize name.toList ++ rest = s at hstart hread
  split
  · cases hstart
  · rw [hread]
    rfl

theorem readPrimary_brackets {inner : Reader Syn} {a : Syn} {rest : List Char}
    (h : inner (a.chars ++ ')' :: rest) = .ok (a, ')' :: rest)) :
    readPrimary inner ('(' :: (a.chars ++ ')' :: rest)) = .ok (a, rest) := by
  rw [readPrimary, trimStart_cons rfl]
  simp (disch := decide) only [h, ok_bind, expect_trimStart]
  rfl

/-- A reader of primaries that reads the arguments of a category reads the category along its chain of
arguments. -/
theorem readArguments_tailChars {primary : Reader Syn} {k : Nat}
    (hprimary : ∀ (a : Syn) (rest : List Char), a.isReadable = true → a.argumentChars.length ≤ k →
      endsName rest = true → primary (a.argumentChars ++ rest) = .ok (a, rest))
    {syn : Syn} (hsyn : syn.isReadable = true) (hlen : syn.tailChars.length ≤ k) (m : Nat)
    {rest : List Char} (hrest : endsName rest = true) :
    readArguments primary (syn.arity + m) (.atom syn.coreName) (syn.tailChars ++ rest) =
      readArguments primary m syn rest := by
  induction syn generalizing m rest with
  | atom name =>
    rw [Syn.arity, Nat.zero_add]
    rfl
  | complex r s a ihr _ =>
    obtain ⟨hr, ha⟩ := Bool.and_eq_true_iff.mp hsyn
    simp only [Syn.tailChars, List.length_append, List.length_cons] at hlen
    have hslash : slash? (trimStart (s.char :: (a.argumentChars ++ rest))) =
        some (s, a.argumentChars ++ rest) := by
      cases s <;> rfl
    have harity : (Syn.complex r s a).arity + m = r.arity + (m + 1) := by
      rw [Syn.arity]
      omega
    calc readArguments primary ((Syn.complex r s a).arity + m) (.atom r.coreName)
          ((r.tailChars ++ s.char :: a.argumentChars) ++ rest)
        = readArguments primary (r.arity + (m + 1)) (.atom r.coreName)
            (r.tailChars ++ s.char :: (a.argumentChars ++ rest)) := by
          rw [harity, List.append_assoc, List.cons_append]
      _ = readArguments primary (m + 1) r (s.char :: (a.argumentChars ++ rest)) :=
          ihr hr (by omega) (m + 1) (endsName_slash s _)
      _ = readArguments primary m (.complex r s a) rest := by
          rw [readArguments, hslash]
          simp only [hprimary a rest ha (by omega) hrest, ok_bind]

theorem readArguments_end (primary : Reader Syn) (m : Nat) (syn : Syn) {rest : List Char}
    (hrest : (slash? (trimStart rest)).isNone = true) :
    readArguments primary m syn rest = .ok (syn, rest) := by
  cases m with
  | zero => rfl
  | succ m => rw [readArguments, Option.isNone_iff_eq_none.mp hrest]

theorem readSynWithin_append {n : Nat} {syn : Syn} (hsyn : syn.isReadable = true)
    (hn : syn.chars.length ≤ n) {rest : List Char} (hrest : endsSyn rest = true) :
    readSynWithin n (syn.chars ++ rest) = .ok (syn, rest) := by
  induction n generalizing syn rest with
  | zero =>
    have hpos := length_pos_of_isName (Syn.isName_coreName hsyn)
    rw [Syn.chars_eq, List.length_append] at hn
    omega
  | succ n ih =>
    have hpos := length_pos_of_isName (Syn.isName_coreName hsyn)
    rw [Syn.chars_eq, List.length_append] at hn
    obtain ⟨hname, hslash⟩ := Bool.and_eq_true_iff.mp hrest
    -- an argument is a name, or shorter than the whole by its brackets
    have hprimary : ∀ (a : Syn) (rest : List Char), a.isReadable = true →
        a.argumentChars.length ≤ n → endsName rest = true →
        readPrimary (readSynWithin n) (a.argumentChars ++ rest) = .ok (a, rest) := by
      intro a rest ha hlen hrest
      cases a with
      | atom name => exact readPrimary_name _ ha hrest
      | complex r s b =>
        have hchars : (Syn.complex r s b).argumentChars ++ rest =
            '(' :: ((Syn.complex r s b).chars ++ ')' :: rest) := by
          simp [Syn.argumentChars, Syn.isAtomic]
        have hlen' : (Syn.complex r s b).chars.length ≤ n := by
          simp only [Syn.argumentChars, Syn.isAtomic, Bool.false_eq_true, if_false, List.length_cons,
            List.length_append] at hlen
          omega
        rw [hchars]
        exact readPrimary_brackets (ih ha hlen' rfl)
    have hcore : endsName (syn.tailChars ++ rest) = true := endsName_tailChars syn hname
    obtain ⟨m, hm⟩ := Nat.exists_eq_add_of_le (Syn.arity_le_length_tailChars syn)
    rw [readSynWithin, Syn.chars_eq, List.append_assoc]
    simp only [readPrimary_name _ (Syn.isName_coreName hsyn) hcore, ok_bind]
    rw [List.length_append, hm, Nat.add_assoc, readArguments_tailChars hprimary hsyn (by omega) _ hname]
    exact readArguments_end _ _ _ hslash

/-- A written syntactic category is read back. -/
theorem readSyn_append {syn : Syn} (h : syn.isReadable = true) {rest : List Char}
    (hrest : endsSyn rest = true) : readSyn (syn.chars ++ rest) = .ok (syn, rest) :=
  readSynWithin_append h (by simp) hrest

end Reader

end Categorial
