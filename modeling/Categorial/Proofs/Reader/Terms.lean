import Categorial.Proofs.Reader.Names
import Categorial.Proofs.Termination

/-!
# Reading undoes writing: terms and categories

Written terms name the variable of a binder after the number of binders around it, so inside a term
all names in scope differ and each one is read as the index it was written for. A chain of applications
is written with one list of arguments, and is read along that list.

* `Term.isReadable`, `Category.isReadable`: the names that are written can be read, and mean what
  they meant.
* `levelNames`: the names in scope; `idxOf?_levelNames`.
* `Term.headChars_eq`: a chain of applications is its head and a list of arguments.
* `ReadsTerms`, `readsTerms`: what is read from a written term with a rest.
* **`Category.parse_text`**: reading undoes writing.
-/

namespace Categorial

open Reader Text

/-! ## Written terms -/

namespace Term

/-- Binders have declared types with names that can be read. Constants have plain names other than
`lambda`, declared with the types they carry. -/
def isReadable (sig : Signature) : Term → Bool
  | const name ty =>
    isPlainName name.toList && name != "lambda" && sig.constant? name == some ty
  | var _ => true
  | app f a => f.isReadable sig && a.isReadable sig
  | lam ty b => ty.isReadable && ty.atoms.all sig.hasAtomic && b.isReadable sig

theorem isReadable_const {sig : Signature} {name : String} {ty : Ty} :
    (const name ty).isReadable sig = true ↔
      isPlainName name.toList = true ∧ name ≠ "lambda" ∧ sig.constant? name = some ty := by
  simp [isReadable, and_assoc]

theorem isReadable_lam {sig : Signature} {ty : Ty} {b : Term} :
    (lam ty b).isReadable sig = true ↔ ty.isReadable = true ∧ ty.atoms.all sig.hasAtomic = true ∧
      b.isReadable sig = true := by
  simp only [isReadable, Bool.and_eq_true, and_assoc]

/-- The term is an application. -/
def isApp : Term → Bool
  | app _ _ => true
  | _ => false

/-- The term that a chain of applications starts from. -/
def head : Term → Term
  | app f _ => f.head
  | t => t

/-- The number of arguments in a chain of applications. -/
def argCount : Term → Nat
  | app f _ => f.argCount + 1
  | _ => 0

/-- The written form as the head of a chain of applications. -/
def atomChars (depth : Nat) : Term → List Char
  | lam ty b => '(' :: (charsAt depth (lam ty b) ++ [')'])
  | t => charsAt depth t

/-- The written arguments of a chain of applications up to where the next one goes. -/
def argChars (depth : Nat) : Term → List Char
  | app f a => argChars depth f ++ (charsAt depth a ++ [',', ' '])
  | _ => []

theorem isApp_head (t : Term) : t.head.isApp = false := by
  induction t with
  | app f a ihf _ => exact ihf
  | const _ _ | var _ | lam _ _ => rfl

theorem headChars_eq (depth : Nat) (f : Term) :
    headChars depth f = atomChars depth f.head ++ '(' :: argChars depth f := by
  induction f with
  | const name ty | var k => rfl
  | lam ty b => simp [headChars, head, atomChars, argChars, charsAt]
  | app f a ihf _ => simp [headChars, head, argChars, ihf]

theorem argCount_le_length_argChars (depth : Nat) (f : Term) :
    f.argCount ≤ (argChars depth f).length := by
  induction f with
  | const _ _ | var _ | lam _ _ => exact Nat.zero_le _
  | app f a ihf _ =>
    simp only [argCount, argChars, List.length_append, List.length_cons]
    omega

variable {sig : Signature} {depth : Nat}

theorem closedAt_head {f : Term} (h : f.closedAt depth = true) : f.head.closedAt depth = true := by
  induction f with
  | const _ _ | var _ | lam _ _ => exact h
  | app f a ihf _ => exact ihf (Bool.and_eq_true_iff.mp h).1

theorem isReadable_head {f : Term} (h : f.isReadable sig = true) :
    f.head.isReadable sig = true := by
  induction f with
  | const _ _ | var _ | lam _ _ => exact h
  | app f a ihf _ => exact ihf (Bool.and_eq_true_iff.mp h).1

end Term

/-! ## Names in scope -/

/-- The name of the variable of a binder under `level` others. -/
def levelName (level : Nat) : String := String.ofList ('$' :: (toString level).toList)

/-- The names of the variables of `depth` binders, innermost first. -/
def levelNames : (depth : Nat) → List String
  | 0 => []
  | depth + 1 => levelName depth :: levelNames depth

theorem toList_levelName (level : Nat) :
    (levelName level).toList = '$' :: (toString level).toList := String.toList_ofList

theorem isPlainName_toString (n : Nat) : isPlainName (toString n).toList = true := by
  have hdigits : (toString n).toList = Nat.toDigits 10 n := Nat.toList_repr
  rw [hdigits, isPlainName_iff]
  refine ⟨Nat.toDigits_ne_nil, fun c hc => ?_⟩
  have hdigit := Nat.isDigit_of_mem_toDigits (by decide) (by decide) hc
  simp [isNameChar, Char.isAlphanum, hdigit]

theorem isName_levelName (level : Nat) : isName (levelName level).toList = true := by
  rw [toList_levelName]
  exact isPlainName_toString level

theorem levelName_injective {m n : Nat} (h : levelName m = levelName n) : m = n := by
  have hlist := congrArg String.toList h
  rw [toList_levelName, toList_levelName] at hlist
  have hdigits : Nat.toDigits 10 m = Nat.toDigits 10 n := by
    simpa [Nat.toString_eq_repr, Nat.toList_repr] using hlist
  rw [← Nat.ofDigitChars_ten_toDigits (n := m), hdigits, Nat.ofDigitChars_ten_toDigits]

/-- The name written for a variable is that of its binder. -/
theorem idxOf?_levelNames {depth k : Nat} (h : k < depth) :
    (levelNames depth).idxOf? (levelName (depth - (k + 1))) = some k := by
  induction depth generalizing k with
  | zero => exact absurd h (Nat.not_lt_zero k)
  | succ depth ih =>
    cases k with
    | zero => simp [levelNames, List.idxOf?_cons]
    | succ k =>
      have hne : levelName depth ≠ levelName (depth - (k + 1)) := fun he => by
        have := levelName_injective he
        omega
      rw [levelNames, List.idxOf?_cons, Nat.succ_sub_succ, ih (Nat.lt_of_succ_lt_succ h)]
      simp [hne]

theorem idxOf?_levelNames_of_isPlainName {name : String} (h : isPlainName name.toList = true)
    (depth : Nat) : (levelNames depth).idxOf? name = none := by
  rw [List.idxOf?_eq_none_iff]
  induction depth with
  | zero => exact List.not_mem_nil
  | succ depth ih =>
    rintro (_ | ⟨_, hmem⟩)
    · rw [toList_levelName] at h
      exact absurd ((isPlainName_iff.mp h).2 '$' List.mem_cons_self) (by decide)
    · exact ih hmem

/-! ## Atoms -/

namespace Reader

open Text

/-- What can follow the head of a chain of applications: nothing, its arguments or the end of an
argument. -/
def endsAtom : List Char → Bool
  | [] => true
  | c :: _ => c == '(' || c == ',' || c == ')'

/-- What can follow a term: nothing or the end of an argument. -/
def endsTerm : List Char → Bool
  | [] => true
  | c :: _ => c == ',' || c == ')'

variable {sig : Signature} {rest : List Char}

theorem endsAtom_of_endsTerm (h : endsTerm rest = true) : endsAtom rest = true := by
  cases rest with
  | nil => rfl
  | cons c rest =>
    simp only [endsTerm, endsAtom, Bool.or_eq_true] at h ⊢
    rcases h with h | h
    · exact Or.inl (Or.inr h)
    · exact Or.inr h

theorem endsName_of_endsAtom (h : endsAtom rest = true) : endsName rest = true := by
  cases rest with
  | nil => rfl
  | cons c rest =>
    simp only [endsAtom, Bool.or_eq_true, beq_iff_eq] at h
    rcases h with (rfl | rfl) | rfl <;> rfl

theorem eq_append_of_after? {lead s r : List Char} (h : after? lead s = some r) :
    s = lead ++ r := by
  induction lead generalizing s with
  | nil => exact Option.some.inj h
  | cons p lead ih =>
    cases s with
    | nil => cases h
    | cons c s =>
      rw [after?] at h
      split at h
      · next hpc => rw [hpc, ih h, List.cons_append]
      · cases h

/-- A plain name is longer than `lambda` or does not start with it. -/
theorem not_endsWord_of_isPlainName {name : String} (hname : isPlainName name.toList = true)
    (hne : name ≠ "lambda") (hrest : endsName rest = true) {r : List Char}
    (h : name.toList ++ rest = "lambda".toList ++ r) : endsWord r = false := by
  have hall := (isPlainName_iff.mp hname).2
  rcases List.append_eq_append_iff.mp h with ⟨more, hmore, hr⟩ | ⟨more, hmore, hr⟩
  · cases more with
    | nil =>
      rw [List.append_nil] at hmore
      exact absurd (String.toList_inj.mp hmore.symm) hne
    | cons c more =>
      have hlambda : "lambda".toList.all isNameChar = true := by decide
      have hc := List.all_eq_true.mp hlambda c (by simp [hmore])
      rw [hr] at hrest
      simp [endsName, hc] at hrest
  · cases more with
    | nil =>
      rw [List.append_nil] at hmore
      exact absurd (String.toList_inj.mp hmore) hne
    | cons c more =>
      have hc := isWordChar_of_isNameChar (hall c (by simp [hmore]))
      rw [hr]
      simp [endsWord, hc]

theorem lambda?_of_isPlainName {name : String} (hname : isPlainName name.toList = true)
    (hne : name ≠ "lambda") (hrest : endsName rest = true) :
    lambda? (name.toList ++ rest) = none := by
  have hstart : startsName (name.toList ++ rest) = true := startsName_append_of_isPlainName hname
  have hword := @not_endsWord_of_isPlainName rest name hname hne hrest
  generalize name.toList ++ rest = s at hstart hword
  unfold lambda?
  split
  · exact absurd hstart (by simp [startsName, isNameChar])
  · exact absurd hstart (by simp [startsName, isNameChar])
  · split
    · next hafter => rw [hword (eq_append_of_after? hafter), if_neg Bool.false_ne_true]
    · rfl

theorem checkTy_of_all {ty : Ty} (h : ty.atoms.all sig.hasAtomic = true) :
    checkTy sig ty = .ok () := by
  have hnone : (ty.atoms.find? fun a => !sig.hasAtomic a) = none := by
    rw [List.find?_eq_none]
    intro a ha
    simp [List.all_eq_true.mp h a ha]
  rw [checkTy, hnone]

/-- A written binder is read back with its name. -/
theorem readBinder_append {ty : Ty} (hty : ty.isReadable = true)
    (hdeclared : ty.atoms.all sig.hasAtomic = true) (depth : Nat) (rest : List Char) :
    readBinder sig ('$' :: ((toString depth).toList ++ ':' :: (ty.chars ++ '.' :: rest))) =
      .ok ((levelName depth, ty), rest) := by
  have hname : readName (some .binder) (trimStart ('$' :: ((toString depth).toList ++
      ':' :: (ty.chars ++ '.' :: rest)))) = .ok (levelName depth, ':' :: (ty.chars ++ '.' :: rest)) := by
    rw [trimStart_cons rfl, ← List.cons_append, ← toList_levelName]
    exact readName_append (isName_levelName depth) rfl _
  have hread : readTy (ty.chars ++ '.' :: rest) = .ok (ty, '.' :: rest) := readTy_append hty rfl
  rw [readBinder, hname]
  simp (disch := decide) only [hread, ok_bind, expect_trimStart, checkTy_of_all hdeclared]
  rfl

theorem readNamed_const {name : String} {ty : Ty}
    (h : (Term.const name ty).isReadable sig = true) (depth : Nat) (hrest : endsAtom rest = true) :
    readNamed sig (levelNames depth) (name.toList ++ rest) = .ok (.const name ty, rest) := by
  obtain ⟨hname, -, hty⟩ := Term.isReadable_const.mp h
  have hread := readName_append (isName_of_isPlainName hname) (endsName_of_endsAtom hrest) (some .term)
  rw [readNamed, hread, ok_bind]
  simp only [idxOf?_levelNames_of_isPlainName hname]
  split
  · cases hrest
  · rw [hty]
    rfl

theorem readNamed_var {depth k : Nat} (h : k < depth) (hrest : endsName rest = true) :
    readNamed sig (levelNames depth) ((levelName (depth - (k + 1))).toList ++ rest) =
      .ok (.var k, rest) := by
  rw [readNamed, readName_append (isName_levelName _) hrest, ok_bind]
  simp only [idxOf?_levelNames h]
  rfl

/-- The reader gives back every written term of at most `k` characters under `depth` binders. -/
def ReadsTerms (sig : Signature) (inner : Reader Term) (depth k : Nat) : Prop :=
  ∀ (t : Term) (rest : List Char), t.closedAt depth = true → t.isReadable sig = true →
    (t.charsAt depth).length ≤ k → endsTerm rest = true → inner (t.charsAt depth ++ rest) = .ok (t, rest)

variable {inner : Reader Term} {depth k : Nat}

theorem readAtom_const {name : String} {ty : Ty} (h : (Term.const name ty).isReadable sig = true)
    (inner : Reader Term) (depth : Nat) (hrest : endsAtom rest = true) :
    lambda? (trimStart (name.toList ++ rest)) = none ∧
      readAtom sig (levelNames depth) inner (name.toList ++ rest) = .ok (.const name ty, rest) := by
  have hnamed := readNamed_const h depth hrest
  obtain ⟨hname, hne, -⟩ := Term.isReadable_const.mp h
  have hstart : startsName (name.toList ++ rest) = true := startsName_append_of_isPlainName hname
  have hlambda := lambda?_of_isPlainName hname hne (endsName_of_endsAtom hrest)
  rw [readAtom, trimStart_of_startsName hstart]
  refine ⟨hlambda, ?_⟩
  generalize name.toList ++ rest = s at hstart hnamed
  split
  · cases hstart
  · exact hnamed

/-- The head of a chain of applications is read back. -/
theorem readAtom_atomChars (hinner : ReadsTerms sig inner depth k) {h : Term} (happ : h.isApp = false)
    (hclosed : h.closedAt depth = true) (hread : h.isReadable sig = true)
    (hlen : (h.atomChars depth).length ≤ k + 2) (hrest : endsAtom rest = true) :
    lambda? (trimStart (h.atomChars depth ++ rest)) = none ∧
      readAtom sig (levelNames depth) inner (h.atomChars depth ++ rest) = .ok (h, rest) := by
  cases h with
  | app f a => cases happ
  | const name ty => exact readAtom_const hread inner depth hrest
  | var k =>
    have hk : k < depth := of_decide_eq_true hclosed
    have hchars : (Term.var k).atomChars depth = '$' :: (toString (depth - (k + 1))).toList :=
      if_pos hk
    have hnamed : readNamed sig _ _ = _ := readNamed_var hk (endsName_of_endsAtom hrest)
    rw [toList_levelName] at hnamed
    rw [hchars]
    exact ⟨rfl, hnamed⟩
  | lam ty b =>
    have hchars : (Term.lam ty b).atomChars depth ++ rest =
        '(' :: ((Term.lam ty b).charsAt depth ++ ')' :: rest) := by
      simp [Term.atomChars]
    simp only [Term.atomChars, List.length_append, List.length_cons, List.length_nil] at hlen
    have hbody := hinner (.lam ty b) (')' :: rest) hclosed hread (by omega) rfl
    rw [hchars]
    refine ⟨rfl, ?_⟩
    rw [readAtom, trimStart_cons rfl]
    simp (disch := decide) only [hbody, ok_bind, expect_trimStart]
    rfl

/-! ## Chains of applications -/

/-- A reader of arguments reads a chain of applications along its list of arguments. -/
theorem readArgumentList_argChars (hinner : ReadsTerms sig inner depth k)
    (hblank : ∀ s, inner (' ' :: s) = inner s) {f : Term} (hclosed : f.closedAt depth = true)
    (hread : f.isReadable sig = true) (hlen : (f.argChars depth).length ≤ k) (m : Nat)
    (rest : List Char) :
    readArgumentList inner (f.argCount + (m + 1)) f.head (f.argChars depth ++ rest) =
      readArgumentList inner (m + 1) f rest := by
  induction f generalizing m rest with
  | const _ _ | var _ | lam _ _ =>
    change readArgumentList inner (0 + (m + 1)) _ rest = _
    rw [Nat.zero_add]
    rfl
  | app f a ihf _ =>
    obtain ⟨hf, ha⟩ := Bool.and_eq_true_iff.mp hclosed
    obtain ⟨hf', ha'⟩ := Bool.and_eq_true_iff.mp hread
    simp only [Term.argChars, List.length_append] at hlen
    have hcount : (Term.app f a).argCount + (m + 1) = f.argCount + (m + 1 + 1) := by
      rw [Term.argCount]
      omega
    have harg := hinner a (',' :: ' ' :: rest) ha ha' (by omega) rfl
    calc readArgumentList inner ((Term.app f a).argCount + (m + 1)) f.head
          ((f.argChars depth ++ (a.charsAt depth ++ [',', ' '])) ++ rest)
        = readArgumentList inner (f.argCount + (m + 1 + 1)) f.head
            (f.argChars depth ++ (a.charsAt depth ++ ',' :: ' ' :: rest)) := by
          rw [hcount]
          simp
      _ = readArgumentList inner (m + 1 + 1) f (a.charsAt depth ++ ',' :: ' ' :: rest) :=
          ihf hf hf' (by omega) (m + 1) _
      _ = readArgumentList inner (m + 1) (.app f a) (' ' :: rest) := by
          rw [readArgumentList, harg]
          simp (disch := decide) only [ok_bind, trimStart_cons]
      _ = readArgumentList inner (m + 1) (.app f a) rest := by
          rw [readArgumentList, readArgumentList, hblank]

/-- The list of arguments is read up to the bracket that closes it. -/
theorem readArgumentList_append (hinner : ReadsTerms sig inner depth k)
    (hblank : ∀ s, inner (' ' :: s) = inner s) {f a : Term}
    (hclosed : (Term.app f a).closedAt depth = true) (hread : (Term.app f a).isReadable sig = true)
    (hlen : (f.argChars depth ++ a.charsAt depth).length ≤ k) (rest : List Char) :
    readArgumentList inner (f.argChars depth ++ (a.charsAt depth ++ ')' :: rest)).length f.head
      (f.argChars depth ++ (a.charsAt depth ++ ')' :: rest)) = .ok (.app f a, rest) := by
  obtain ⟨hf, ha⟩ := Bool.and_eq_true_iff.mp hclosed
  obtain ⟨hf', ha'⟩ := Bool.and_eq_true_iff.mp hread
  rw [List.length_append] at hlen
  have hcount := f.argCount_le_length_argChars depth
  obtain ⟨m, hm⟩ : ∃ m, (f.argChars depth ++ (a.charsAt depth ++ ')' :: rest)).length =
      f.argCount + (m + 1) := by
    simp only [List.length_append, List.length_cons]
    exact ⟨(f.argChars depth).length - f.argCount + (a.charsAt depth).length + rest.length, by omega⟩
  rw [hm, readArgumentList_argChars hinner hblank hf hf' (by omega), readArgumentList,
    hinner a _ ha ha' (by omega) rfl]
  simp (disch := decide) only [ok_bind, trimStart_cons, expect]
  rfl

theorem readApplications_end (inner : Reader Term) (m : Nat) (t : Term) (hrest : endsTerm rest = true) :
    readApplications inner m t rest = .ok (t, rest) := by
  cases m with
  | zero => rfl
  | succ m =>
    cases rest with
    | nil => rfl
    | cons c rest =>
      simp only [endsTerm, Bool.or_eq_true, beq_iff_eq] at hrest
      rcases hrest with rfl | rfl <;> rfl

/-! ## Terms -/

theorem readTermWithin_blank (n : Nat) (scope : List String) (s : List Char) :
    readTermWithin sig (n + 1) scope (' ' :: s) = readTermWithin sig (n + 1) scope s := by
  have htrim : trimStart (' ' :: s) = trimStart s := rfl
  simp only [readTermWithin, readAtom, htrim]

theorem readTermWithin_of_readAtom {n : Nat} {scope : List String} {s r : List Char} {h : Term}
    (hatom : lambda? (trimStart s) = none ∧
      readAtom sig scope (readTermWithin sig n scope) s = .ok (h, r)) :
    readTermWithin sig (n + 1) scope s =
      readApplications (readTermWithin sig n scope) r.length h r := by
  rw [readTermWithin, hatom.1]
  simp only [hatom.2, ok_bind]

theorem length_charsAt_pos {t : Term} (hclosed : t.closedAt depth = true)
    (hread : t.isReadable sig = true) : 0 < (t.charsAt depth).length := by
  cases t with
  | const name ty =>
    exact length_pos_of_isName (isName_of_isPlainName (Term.isReadable_const.mp hread).1)
  | var k =>
    rw [Term.charsAt, Term.varChars, if_pos (of_decide_eq_true hclosed)]
    exact Nat.succ_pos _
  | lam ty b => exact Nat.succ_pos _
  | app f a =>
    simp only [Term.charsAt, List.length_append, List.length_cons]
    omega

/-- The name of the new binder is the next one in scope. -/
theorem readTermWithin_lam {n : Nat}
    (ih : ReadsTerms sig (readTermWithin sig n (levelNames (depth + 1))) (depth + 1) n) {ty : Ty}
    {b : Term} (hclosed : (Term.lam ty b).closedAt depth = true)
    (hread : (Term.lam ty b).isReadable sig = true)
    (hlen : ((Term.lam ty b).charsAt depth).length ≤ n + 1) (hrest : endsTerm rest = true) :
    readTermWithin sig (n + 1) (levelNames depth) ((Term.lam ty b).charsAt depth ++ rest) =
      .ok (.lam ty b, rest) := by
  obtain ⟨hty, hdeclared, hb⟩ := Term.isReadable_lam.mp hread
  have hchars : (Term.lam ty b).charsAt depth ++ rest = 'λ' :: '$' :: ((toString depth).toList ++
      ':' :: (ty.chars ++ '.' :: (b.charsAt (depth + 1) ++ rest))) := by
    simp [Term.charsAt, Term.binderChars]
  simp only [Term.charsAt, Term.binderChars, List.length_append, List.length_cons] at hlen
  have hbody : readTermWithin sig n (levelName depth :: levelNames depth)
      (b.charsAt (depth + 1) ++ rest) = .ok (b, rest) := ih b rest hclosed hb (by omega) hrest
  rw [hchars, readTermWithin, trimStart_cons rfl, lambda?]
  simp only [readBinder_append hty hdeclared, ok_bind, hbody]
  rfl

theorem readTermWithin_app {n : Nat}
    (ih : ReadsTerms sig (readTermWithin sig n (levelNames depth)) depth n) {f a : Term}
    (hclosed : (Term.app f a).closedAt depth = true) (hread : (Term.app f a).isReadable sig = true)
    (hlen : ((Term.app f a).charsAt depth).length ≤ n + 1) (hrest : endsTerm rest = true) :
    readTermWithin sig (n + 1) (levelNames depth) ((Term.app f a).charsAt depth ++ rest) =
      .ok (.app f a, rest) := by
  obtain ⟨hf, ha⟩ := Bool.and_eq_true_iff.mp hclosed
  obtain ⟨hf', ha'⟩ := Bool.and_eq_true_iff.mp hread
  have hpos := length_charsAt_pos ha ha'
  have hchars : (Term.app f a).charsAt depth ++ rest = f.head.atomChars depth ++
      '(' :: (f.argChars depth ++ (a.charsAt depth ++ ')' :: rest)) := by
    simp [Term.charsAt, Term.headChars_eq]
  simp only [Term.charsAt, Term.headChars_eq, List.length_append, List.length_cons] at hlen
  -- there is an argument, so the reader of arguments may skip a blank
  obtain ⟨n, rfl⟩ : ∃ m, n = m + 1 := ⟨n - 1, by omega⟩
  have hhead := readAtom_atomChars ih f.isApp_head (Term.closedAt_head hf) (Term.isReadable_head hf')
    (by omega) (show endsAtom ('(' :: (f.argChars depth ++ (a.charsAt depth ++ ')' :: rest))) = true
      from rfl)
  have hargs := readArgumentList_append ih (readTermWithin_blank n _) hclosed hread
    (by rw [List.length_append]; omega) rest
  rw [hchars, readTermWithin_of_readAtom hhead, List.length_cons, readApplications, trimStart_cons rfl]
  simp only [hargs, ok_bind]
  exact readApplications_end _ _ _ hrest

/-- Written terms are read back, with the names of the binders around them in scope. -/
theorem readsTerms (sig : Signature) (n depth : Nat) :
    ReadsTerms sig (readTermWithin sig n (levelNames depth)) depth n := by
  induction n generalizing depth with
  | zero =>
    intro t rest hclosed hread hlen _
    have hpos := length_charsAt_pos hclosed hread
    omega
  | succ n ih =>
    intro t rest hclosed hread hlen hrest
    cases t with
    | const _ _ | var _ =>
      -- an atom without arguments
      have hatom := readAtom_atomChars (ih depth) rfl hclosed hread (Nat.le_succ_of_le hlen)
        (endsAtom_of_endsTerm hrest)
      exact (readTermWithin_of_readAtom hatom).trans (readApplications_end _ _ _ hrest)
    | lam ty b => exact readTermWithin_lam (ih (depth + 1)) hclosed hread hlen hrest
    | app f a => exact readTermWithin_app (ih depth) hclosed hread hlen hrest

theorem readTerm_chars {t : Term} (hclosed : t.isClosed = true) (hread : t.isReadable sig = true) :
    readTerm sig (' ' :: t.chars) = .ok (t, []) := by
  have h := readsTerms sig (t.chars.length + 1) 0 t [] hclosed hread (Nat.le_succ _) rfl
  rw [List.append_nil] at h
  rw [readTerm, List.length_cons, readTermWithin_blank]
  exact h

end Reader

/-! ## Categories -/

namespace Category

/-- The names of the syntax and of the meaning can be read, and those of the meaning are declared as they
are used. -/
def isReadable (sig : Signature) (c : Category) : Bool :=
  c.syn.isReadable && c.sem.all (Term.isReadable sig)

theorem make_of_isNormal {t : Term} (hclosed : t.isClosed = true) (hnormal : t.isNormal = true)
    (syn : Syn) : make syn (some t) = ⟨syn, some t⟩ := by
  rw [make, Option.map_some, Term.normalize, Term.normalize?_of_isNormal hclosed hnormal,
    Option.getD_some]

end Category

theorem readCategory_chars {sig : Signature} {c : Category} (hsound : c.Sound sig)
    (hread : c.isReadable sig = true) : readCategory sig c.chars = .ok (c, []) := by
  obtain ⟨hsyn, hsem⟩ := Bool.and_eq_true_iff.mp hread
  obtain ⟨syn, sem⟩ := c
  cases sem with
  | none =>
    rw [readCategory, Category.chars, readSyn_append hsyn rfl]
    rfl
  | some t =>
    obtain ⟨hclosed, htyped, hnormal⟩ := hsound t rfl
    have hterm := readTerm_chars hclosed hsem
    have hinfer : (t.infer sig).isNone = false := by simpa using htyped
    have hcolon : trimStart (' ' :: ':' :: ' ' :: t.chars) = ':' :: ' ' :: t.chars := rfl
    rw [readCategory, Category.chars, readSyn_append hsyn rfl]
    simp only [ok_bind, hcolon, hterm, hinfer, Category.make_of_isNormal hclosed hnormal]
    rfl

/-- **Reading undoes writing.** A category whose meaning is absent, or closed, typed and normal, and
whose names can be read, is read back from its written form. -/
theorem Category.parse_text (sig : Signature) (c : Category) (hsound : c.Sound sig)
    (hread : c.isReadable sig = true) : Category.parse sig c.text = .ok c := by
  rw [Category.parse, readAll, Category.text, String.toList_ofList, readCategory_chars hsound hread]
  rfl

/-- A signature for liking and for definite descriptions. -/
def likeAndThe : Signature where
  constants := .ofList [("like", .arrow .entity (.arrow .entity .truth)),
    ("the", .arrow (.arrow .entity .truth) .entity)]

/-- What somebody does who likes the one that likes them: a complex argument, a binder inside an
argument, and variables of both binders. -/
theorem Category.parse_text_like :
    let like : Term := .const "like" (.arrow .entity (.arrow .entity .truth))
    let the : Term := .const "the" (.arrow (.arrow .entity .truth) .entity)
    let admirer : Term := .app the (.lam .entity (.app (.app like (.var 0)) (.var 1)))
    let c : Category := ⟨.complex (.complex (.atom "S") .backward (.atom "NP")) .forward
        (.complex (.atom "S") .forward (.atom "NP")),
      some (.lam .entity (.app (.app like admirer) (.var 0)))⟩
    c.Sound likeAndThe ∧ c.isReadable likeAndThe = true ∧
      c.text = "S\\NP/(S/NP) : λ$0:e.like(the(λ$1:e.like($1, $0)), $0)" ∧
      Category.parse likeAndThe "S\\NP/(S/NP) : λ$0:e.like(the(λ$1:e.like($1, $0)), $0)" = .ok c := by
  intro like the admirer c
  have hsound : c.Sound likeAndThe := by
    rintro _ ⟨⟩
    exact ⟨by decide, by decide, by decide⟩
  have hread : c.isReadable likeAndThe = true := by decide
  have htext : c.text = "S\\NP/(S/NP) : λ$0:e.like(the(λ$1:e.like($1, $0)), $0)" := by decide
  refine ⟨hsound, hread, htext, ?_⟩
  rw [← htext]
  exact Category.parse_text likeAndThe c hsound hread

end Categorial
