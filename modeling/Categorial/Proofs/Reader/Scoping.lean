import Categorial.Proofs.Reader.Phrases

/-!
# Reading written terms

However a legible term is set, the reader gives its meaning and stops where the term ends. What can
follow a name does not go on with it, what can follow an atom is no colon, and what can follow a term
opens no further list of arguments, with or without blanks before it. At each place, the names in the
scope of the reader are those of the binders around it.

* `Spells`: a text is a way to set tokens, up to a rest; one lemma for each kind of first token.
* `readTy_tokens`, `readBinder_tokens`: types and binders.
* `Reads`, `reads`: terms of bounded size are read.
* `readArgumentList_tokens`, `readsChain_tokens`: lists of arguments, and atoms with such lists.
* **`readTerm_scoped`**: a legible term is read with lexical scoping.
-/

namespace Categorial

namespace Reader

open Text

/-! ## Tokens -/

/-- The text up to `rest` is a way to set the tokens. -/
def Spells (tokens : List Token) (s rest : List Char) : Prop :=
  ∃ pieces, renders tokens pieces rest = true ∧ s = text pieces rest

variable {s rest : List Char} {tokens : List Token} {n : Nat}

theorem trimStart_append {blanks : List Char} (h : blanks.all isBlank = true) (s : List Char) :
    trimStart (blanks ++ s) = trimStart s :=
  List.dropWhile_append_of_pos (List.all_eq_true.mp h)

theorem trimStart_trimStart (s : List Char) : trimStart (trimStart s) = trimStart s :=
  List.dropWhile_idempotent _ _

/-- A name does not go on over blanks. -/
theorem endsName_of_trimStart (h : endsName (trimStart s) = true) : endsName s = true := by
  cases s with
  | nil => rfl
  | cons c s =>
    cases hc : isNameChar c with
    | true => rwa [trimStart_cons (isBlank_of_isNameChar hc)] at h
    | false => simp [endsName, hc]

theorem after?_append (lead s : List Char) : after? lead (lead ++ s) = some s := by
  induction lead with
  | nil => rfl
  | cons c lead ih => rw [List.cons_append, after?, if_pos rfl, ih]

namespace Spells

theorem eq_of_nil (h : Spells [] s rest) : s = rest := by
  obtain ⟨pieces, hpieces, rfl⟩ := h
  cases pieces with
  | nil => rfl
  | cons piece pieces => cases hpieces

theorem of_cons {token : Token} (h : Spells (token :: tokens) s rest) :
    ∃ blanks word next, s = blanks ++ (word ++ next) ∧ blanks.all isBlank = true ∧
      (token = .ofType → blanks = []) ∧ token.isSpelled word next = true ∧
      Spells tokens next rest := by
  obtain ⟨pieces, hpieces, rfl⟩ := h
  cases pieces with
  | nil => cases hpieces
  | cons piece pieces =>
    simp only [renders, Bool.and_eq_true, Bool.or_eq_true, bne_iff_ne, List.isEmpty_iff] at hpieces
    obtain ⟨⟨⟨hblanks, htight⟩, hword⟩, hrenders⟩ := hpieces
    exact ⟨piece.blanks, piece.word, text pieces rest, rfl, hblanks,
      fun h => htight.resolve_left fun hne => hne h, hword, pieces, hrenders, rfl⟩

theorem of_append {more : List Token} (h : Spells (tokens ++ more) s rest) :
    ∃ mid, Spells tokens s mid ∧ Spells more mid rest := by
  obtain ⟨pieces, hpieces, rfl⟩ := h
  induction tokens generalizing pieces with
  | nil => exact ⟨_, ⟨[], rfl, rfl⟩, pieces, hpieces, rfl⟩
  | cons token tokens ih =>
    cases pieces with
    | nil => cases hpieces
    | cons piece pieces =>
      rw [List.cons_append, renders, Bool.and_eq_true] at hpieces
      obtain ⟨mid, ⟨pieces', hpieces', htext⟩, hmore⟩ := ih pieces hpieces.2
      refine ⟨mid, ⟨piece :: pieces', ?_, ?_⟩, hmore⟩
      · rw [renders, Bool.and_eq_true, ← htext]
        exact ⟨hpieces.1, hpieces'⟩
      · rw [text, text, htext]

theorem length_pos_of_isSpelled {token : Token} {word next : List Char}
    (h : token.isSpelled word next = true) : 0 < word.length := by
  cases token with
  | lambda =>
    simp only [Token.isSpelled, Bool.or_eq_true, Bool.and_eq_true, beq_iff_eq] at h
    rcases h with (rfl | rfl) | ⟨rfl, -⟩ <;> decide
  | name n => exact length_pos_of_isName (Bool.and_eq_true_iff.mp h).2
  | mark c =>
    rw [eq_of_beq h]
    exact Nat.one_pos
  | ofType =>
    rw [eq_of_beq h]
    exact Nat.one_pos

/-- Every token takes a character. -/
theorem length_le (h : Spells tokens s rest) : tokens.length + rest.length ≤ s.length := by
  induction tokens generalizing s with
  | nil =>
    rw [h.eq_of_nil]
    exact Nat.le_of_eq (Nat.zero_add _)
  | cons token tokens ih =>
    obtain ⟨blanks, word, next, rfl, -, -, hword, hnext⟩ := h.of_cons
    have hpos := length_pos_of_isSpelled hword
    have hle := ih hnext
    simp only [List.length_append, List.length_cons]
    omega

theorem of_mark {c : Char} (h : Spells (.mark c :: tokens) s rest) (hc : isBlank c = false) :
    ∃ next, trimStart s = c :: next ∧ Spells tokens next rest := by
  obtain ⟨blanks, word, next, rfl, hblanks, -, hword, hnext⟩ := h.of_cons
  obtain rfl := eq_of_beq hword
  exact ⟨next, by rw [trimStart_append hblanks]; exact trimStart_cons hc, hnext⟩

theorem of_ofType (h : Spells (.ofType :: tokens) s rest) :
    ∃ next, s = ':' :: next ∧ Spells tokens next rest := by
  obtain ⟨blanks, word, next, rfl, -, htight, hword, hnext⟩ := h.of_cons
  obtain rfl := eq_of_beq hword
  exact ⟨next, by rw [htight rfl]; rfl, hnext⟩

theorem of_name {name : String} (h : Spells (.name name :: tokens) s rest) :
    ∃ next, trimStart s = name.toList ++ next ∧ isName name.toList = true ∧
      Spells tokens next rest := by
  obtain ⟨blanks, word, next, rfl, hblanks, -, hword, hnext⟩ := h.of_cons
  obtain ⟨hword, hname⟩ := Bool.and_eq_true_iff.mp hword
  obtain rfl := eq_of_beq hword
  refine ⟨next, ?_, hname, hnext⟩
  rw [trimStart_append hblanks, trimStart_of_startsName (startsName_append hname)]

/-- All three spellings are recognized. -/
theorem of_lambda (h : Spells (.lambda :: tokens) s rest) :
    ∃ next, lambda? (trimStart s) = some next ∧ Spells tokens next rest := by
  obtain ⟨blanks, word, next, rfl, hblanks, -, hword, hnext⟩ := h.of_cons
  refine ⟨next, ?_, hnext⟩
  rw [trimStart_append hblanks]
  simp only [Token.isSpelled, Bool.or_eq_true, Bool.and_eq_true, beq_iff_eq] at hword
  rcases hword with (rfl | rfl) | ⟨rfl, hends⟩
  · rw [List.singleton_append, trimStart_cons rfl]
    rfl
  · rw [List.singleton_append, trimStart_cons rfl]
    rfl
  · have hafter := after?_append "lambda".toList next
    have htrim : trimStart ("lambda".toList ++ next) = "lambda".toList ++ next := trimStart_cons rfl
    rw [htrim]
    unfold lambda?
    split
    · next heq => cases heq
    · next heq => cases heq
    · rw [hafter]
      exact if_pos hends

end Spells

theorem expect_of_trimStart {c : Char} {next : List Char} (h : trimStart s = c :: next) :
    expect c (trimStart s) = .ok next := by
  rw [h, expect, if_pos rfl]

/-! ## Types and binders -/

theorem readTyWithin_tokens {ty : Ty} (hn : ty.tokens.length ≤ n) (h : Spells ty.tokens s rest)
    (hrest : endsName rest = true) : readTyWithin n s = .ok (ty, rest) := by
  induction ty generalizing n s rest with
  | atom name =>
    obtain ⟨next, hs, hname, hnext⟩ := h.of_name
    obtain rfl := hnext.eq_of_nil
    obtain ⟨n, rfl⟩ := Nat.exists_eq_add_one.mpr (Nat.lt_of_lt_of_le Nat.one_pos hn)
    have hread := readTyWithin_name hname hrest n
    rw [← hs, readTyWithin, trimStart_trimStart] at hread
    rw [readTyWithin]
    exact hread
  | arrow a r iha ihr =>
    simp only [Ty.tokens, List.length_cons, List.length_append, List.length_nil] at hn
    obtain ⟨s₁, hs₁, h⟩ := h.of_mark rfl
    obtain ⟨s₂, ha, h⟩ := h.of_append
    obtain ⟨s₃, hs₃, h⟩ := h.of_mark rfl
    obtain ⟨s₄, hr, h⟩ := h.of_append
    obtain ⟨s₅, hs₅, h⟩ := h.of_mark rfl
    obtain rfl := h.eq_of_nil
    obtain ⟨n, rfl⟩ := Nat.exists_eq_add_one.mpr (by omega : 0 < n)
    have hreada : readTyWithin n s₁ = .ok (a, s₂) :=
      iha (by omega) ha (endsName_of_trimStart (by rw [hs₃]; rfl))
    have hreadr : readTyWithin n s₃ = .ok (r, s₄) :=
      ihr (by omega) hr (endsName_of_trimStart (by rw [hs₅]; rfl))
    rw [readTyWithin, hs₁]
    simp only [hreada, hreadr, ok_bind, expect_of_trimStart hs₃, expect_of_trimStart hs₅]
    rfl

theorem readTy_tokens {ty : Ty} (h : Spells ty.tokens s rest) (hrest : endsName rest = true) :
    readTy s = .ok (ty, rest) := by
  have hle := h.length_le
  exact readTyWithin_tokens (by omega) h hrest

variable {sig : Signature}

theorem readBinder_tokens {name : String} {ty : Ty} (hdeclared : ty.atoms.all sig.hasAtomic = true)
    (h : Spells (.name name :: .mark ':' :: (ty.tokens ++ .mark '.' :: tokens)) s rest) :
    ∃ next, readBinder sig s = .ok ((name, ty), next) ∧ Spells tokens next rest := by
  obtain ⟨s₁, hs₁, hname, h⟩ := h.of_name
  obtain ⟨s₂, hs₂, h⟩ := h.of_mark rfl
  obtain ⟨s₃, hty, h⟩ := h.of_append
  obtain ⟨s₄, hs₄, h⟩ := h.of_mark rfl
  refine ⟨s₄, ?_, h⟩
  have hcolon : endsName s₁ = true := endsName_of_trimStart (by rw [hs₂]; rfl)
  have hreadName := readName_append hname hcolon (some .binder)
  have hreadTy : readTy s₂ = .ok (ty, s₃) :=
    readTy_tokens hty (endsName_of_trimStart (by rw [hs₄]; rfl))
  rw [readBinder, hs₁, hreadName]
  simp only [ok_bind, expect_of_trimStart hs₂, hreadTy, checkTy_of_all hdeclared,
    expect_of_trimStart hs₄]
  rfl

/-! ## Atoms -/

variable {scope : List String} {inner : Reader Term} {k : Nat}

theorem lambda?_of_isName {name : String} (hname : isName name.toList = true)
    (hne : name ≠ "lambda") (hrest : endsName rest = true) :
    lambda? (name.toList ++ rest) = none := by
  rcases isName_cases hname with h | ⟨r, hr, -⟩
  · exact lambda?_of_isPlainName h hne hrest
  · rw [hr]
    rfl

theorem readAtom_of_isName {name : String} {next : List Char}
    (hs : trimStart s = name.toList ++ next) (hname : isName name.toList = true) :
    readAtom sig scope inner s = readNamed sig scope (name.toList ++ next) := by
  have hstart : startsName (name.toList ++ next) = true := startsName_append hname
  rw [readAtom, hs]
  generalize name.toList ++ next = s at hstart
  split
  · cases hstart
  · rfl

/-- A name without a type is read as its innermost binder, or as the constant. -/
theorem readNamed_name {name : String} {t : Term} (hname : isName name.toList = true)
    (ht : (Chain.name name).term? sig scope = some t) (hrest : endsAtom (trimStart rest) = true) :
    readNamed sig scope (name.toList ++ rest) = .ok (t, rest) := by
  have hends := endsName_of_trimStart (endsName_of_endsAtom hrest)
  rw [readNamed, readName_append hname hends, ok_bind]
  rw [Chain.term?] at ht
  cases hscope : scope.idxOf? name with
  | some k =>
    rw [hscope] at ht
    cases ht
    simp only [hscope]
    rfl
  | none =>
    rw [hscope] at ht
    obtain ⟨ty, hty, rfl⟩ := Option.map_eq_some_iff.mp ht
    simp only [hscope]
    split
    · cases hrest
    · rw [hty]
      rfl

/-- A constant with its type is read with it, if no binder has its name. -/
theorem readNamed_typed {name : String} {ty : Ty} {next : List Char}
    (hname : isName name.toList = true) (hscope : name ∉ scope)
    (hdeclared : ty.atoms.all sig.hasAtomic = true) (hty : Spells ty.tokens next rest)
    (hrest : endsAtom (trimStart rest) = true) :
    readNamed sig scope (name.toList ++ ':' :: next) = .ok (.const name ty, rest) := by
  have hreadTy := readTy_tokens hty (endsName_of_trimStart (endsName_of_endsAtom hrest))
  rw [readNamed, readName_append hname rfl, ok_bind]
  simp only [List.idxOf?_eq_none_iff.mpr hscope, hreadTy, ok_bind, checkTy_of_all hdeclared]
  rfl

/-! ## Lists of arguments -/

/-- The reader reads every legible term of at most `k` tokens, however it is set. -/
def Reads (sig : Signature) (inner : Reader Term) (scope : List String) (k : Nat) : Prop :=
  ∀ {p : Phrase} {t : Term} {s rest : List Char}, p.isLegible sig scope = true →
    p.term? sig scope = some t → p.tokens.length ≤ k → Spells p.tokens s rest →
    endsTerm (trimStart rest) = true → inner s = .ok (t, rest)

/-- A list of arguments is read up to the bracket that closes it. -/
theorem readArgumentList_tokens (hinner : Reads sig inner scope k) : (args : Arguments) →
    {n : Nat} → {f t : Term} → {s : List Char} → args.isLegible sig scope = true →
    args.applied? sig scope f = some t → args.tokens.length ≤ k → args.tokens.length ≤ n →
    Spells (args.tokens ++ [.mark ')']) s rest → readArgumentList inner n f s = .ok (t, rest)
  | .last p, n, f, t, s, hargs, ht, hk, hn, h => by
    obtain ⟨a, ha, rfl⟩ := Option.map_eq_some_iff.mp ht
    obtain ⟨mid, hp, h⟩ := h.of_append
    obtain ⟨next, hmid, h⟩ := h.of_mark rfl
    obtain rfl := h.eq_of_nil
    obtain ⟨n, rfl⟩ := Nat.exists_eq_add_one.mpr (Nat.lt_of_lt_of_le p.length_tokens_pos hn)
    have hread : inner s = .ok (a, mid) := hinner hargs ha hk hp (by rw [hmid]; rfl)
    rw [readArgumentList, hread, ok_bind]
    simp only [hmid, expect]
    rfl
  | .more p others, n, f, t, s, hargs, ht, hk, hn, h => by
    obtain ⟨hp, hothers⟩ := Bool.and_eq_true_iff.mp hargs
    obtain ⟨a, ha, ht⟩ := Option.bind_eq_some_iff.mp ht
    simp only [Arguments.tokens, List.append_assoc, List.cons_append] at h
    simp only [Arguments.tokens, List.length_append, List.length_cons] at hk hn
    obtain ⟨mid, hspells, h⟩ := h.of_append
    obtain ⟨next, hmid, h⟩ := h.of_mark rfl
    obtain ⟨n, rfl⟩ := Nat.exists_eq_add_one.mpr (by omega : 0 < n)
    have hread : inner s = .ok (a, mid) := hinner hp ha (by omega) hspells (by rw [hmid]; rfl)
    rw [readArgumentList, hread, ok_bind]
    simp only [hmid]
    exact readArgumentList_tokens hinner others hothers ht (by omega) (by omega) h

/-! ## Chains -/

/-- From `s` an atom is read, and after it lists of arguments that make `t` of it and leave
`rest`. -/
def ReadsChain (sig : Signature) (scope : List String) (inner : Reader Term) (lists : Nat)
    (t : Term) (s rest : List Char) : Prop :=
  ∃ f next, lambda? (trimStart s) = none ∧ readAtom sig scope inner s = .ok (f, next) ∧
    lists + rest.length ≤ next.length ∧
    ∀ m, readApplications inner (lists + m) f next = readApplications inner m t rest

namespace ReadsChain

variable {lists : Nat} {f t : Term} {mid next : List Char}

theorem atom (hlambda : lambda? (trimStart s) = none)
    (hatom : readAtom sig scope inner s = .ok (t, rest)) : ReadsChain sig scope inner 0 t s rest :=
  ⟨t, rest, hlambda, hatom, by omega, fun m => by rw [Nat.zero_add]⟩

theorem call (h : ReadsChain sig scope inner lists f s mid) (hopen : trimStart mid = '(' :: next)
    (hargs : readArgumentList inner next.length f next = .ok (t, rest))
    (hlen : rest.length < mid.length) : ReadsChain sig scope inner (lists + 1) t s rest := by
  obtain ⟨head, after, hlambda, hatom, hle, happly⟩ := h
  refine ⟨head, after, hlambda, hatom, by omega, fun m => ?_⟩
  calc readApplications inner (lists + 1 + m) head after
      = readApplications inner (lists + (m + 1)) head after := by rw [Nat.add_assoc, Nat.add_comm 1]
    _ = readApplications inner (m + 1) f mid := happly (m + 1)
    _ = readApplications inner m t rest := by
      rw [readApplications, hopen]
      simp only [hargs, ok_bind]

/-- After the last list of arguments no further one opens. -/
theorem readTermWithin_eq (h : ReadsChain sig scope (readTermWithin sig n scope) lists t s rest)
    (hrest : endsTerm (trimStart rest) = true) :
    readTermWithin sig (n + 1) scope s = .ok (t, rest) := by
  obtain ⟨f, next, hlambda, hatom, hle, happly⟩ := h
  obtain ⟨m, hm⟩ := Nat.exists_eq_add_of_le (Nat.le_of_add_right_le hle)
  rw [readTermWithin_of_readAtom ⟨hlambda, hatom⟩, hm, happly]
  cases m with
  | zero => rfl
  | succ m =>
    rw [readApplications]
    split
    · next heq =>
      rw [heq] at hrest
      cases hrest
    · rfl

end ReadsChain

/-- An atom is read, and then its lists of arguments one after another. -/
theorem readsChain_tokens (hinner : Reads sig inner scope k) : (c : Chain) → {t : Term} →
    {rest : List Char} → c.isLegible sig scope = true → c.term? sig scope = some t →
    c.tokens.length ≤ k + 1 → Spells c.tokens s rest → endsAtom (trimStart rest) = true →
    ∃ lists, ReadsChain sig scope inner lists t s rest
  | .name n, t, rest, hc, ht, _, h, hrest => by
    obtain ⟨next, hs, hname, h⟩ := h.of_name
    obtain rfl := h.eq_of_nil
    have hends := endsName_of_trimStart (endsName_of_endsAtom hrest)
    have hne : n ≠ "lambda" := bne_iff_ne.mp (Bool.and_eq_true_iff.mp hc).1
    refine ⟨0, .atom (by rw [hs, lambda?_of_isName hname hne hends]) ?_⟩
    rw [readAtom_of_isName hs hname, readNamed_name hname ht hrest]
  | .typed n ty, t, rest, hc, ht, _, h, hrest => by
    obtain ⟨next, hs, hname, h⟩ := h.of_name
    obtain ⟨next, rfl, hty⟩ := h.of_ofType
    cases ht
    simp only [Chain.isLegible, Bool.and_eq_true, bne_iff_ne, Bool.not_eq_true',
      ← Bool.not_eq_true, List.contains_iff_mem] at hc
    obtain ⟨⟨hne, hscope⟩, hdeclared⟩ := hc
    refine ⟨0, .atom (by rw [hs, lambda?_of_isName hname hne rfl]) ?_⟩
    rw [readAtom_of_isName hs hname, readNamed_typed hname hscope hdeclared hty hrest]
  | .group p, t, rest, hc, ht, hk, h, hrest => by
    obtain ⟨next, hs, h⟩ := h.of_mark rfl
    obtain ⟨mid, hp, h⟩ := h.of_append
    obtain ⟨after, hmid, h⟩ := h.of_mark rfl
    obtain rfl := h.eq_of_nil
    simp only [Chain.tokens, List.length_cons, List.length_append, List.length_nil] at hk
    have hread : inner next = .ok (t, mid) := hinner hc ht (by omega) hp (by rw [hmid]; rfl)
    refine ⟨0, .atom (by rw [hs]; rfl) ?_⟩
    rw [readAtom, hs]
    simp only [hread, ok_bind, expect_of_trimStart hmid]
    rfl
  | .call f args, t, rest, hc, ht, hk, h, hrest => by
    obtain ⟨hf, hargs⟩ := Bool.and_eq_true_iff.mp hc
    obtain ⟨u, hu, ht⟩ := Option.bind_eq_some_iff.mp ht
    simp only [Chain.tokens, List.length_cons, List.length_append, List.length_nil] at hk
    -- the bracket that opens the list ends what is applied
    obtain ⟨mid, hspells, h⟩ := h.of_append
    have hlen := h.length_le
    obtain ⟨next, hmid, h⟩ := h.of_mark rfl
    have hnext := h.length_le
    simp only [List.length_cons, List.length_append, List.length_nil] at hlen hnext
    obtain ⟨lists, hchain⟩ :=
      readsChain_tokens hinner f hf hu (by omega) hspells (by rw [hmid]; rfl)
    exact ⟨lists + 1, hchain.call hmid
      (readArgumentList_tokens hinner args hargs ht (by omega) (by omega) h) (by omega)⟩

/-! ## Terms -/

/-- What is in scope at a place are the binders around it. -/
theorem reads (sig : Signature) (n : Nat) (scope : List String) :
    Reads sig (readTermWithin sig n scope) scope n := by
  induction n generalizing scope with
  | zero =>
    intro p t s rest _ _ hn
    have hpos := p.length_tokens_pos
    omega
  | succ n ih =>
    intro p t s rest hp ht hn h hrest
    cases p with
    | lam name ty body =>
      obtain ⟨hdeclared, hbody⟩ := Bool.and_eq_true_iff.mp hp
      obtain ⟨b, hb, rfl⟩ := Option.map_eq_some_iff.mp ht
      simp only [Phrase.tokens, List.length_cons, List.length_append] at hn
      obtain ⟨s₁, hlambda, h⟩ := h.of_lambda
      obtain ⟨s₂, hbinder, h⟩ := readBinder_tokens hdeclared h
      -- in the body, the new name comes first and hides any other binder of that name
      have hread := ih (name :: scope) hbody hb (by omega) h hrest
      rw [readTermWithin, hlambda]
      simp only [hbinder, ok_bind, hread]
      rfl
    | chain c =>
      obtain ⟨lists, hchain⟩ :=
        readsChain_tokens (ih scope) c hp ht hn h (endsAtom_of_endsTerm hrest)
      exact hchain.readTermWithin_eq hrest

/-- However a legible term is set, its meaning is read, and all but the blanks that follow. -/
theorem readTerm_tokens {p : Phrase} {t : Term} (hp : p.isLegible sig [] = true)
    (ht : p.term? sig [] = some t) {pieces : List Piece} (h : renders p.tokens pieces rest = true)
    (hrest : rest.all isBlank = true) : readTerm sig (text pieces rest) = .ok (t, rest) := by
  have hspells : Spells p.tokens (text pieces rest) rest := ⟨pieces, h, rfl⟩
  have hle := hspells.length_le
  have htrim : trimStart rest = [] := by
    rw [← List.append_nil rest, trimStart_append hrest]
    rfl
  exact reads sig _ [] hp ht (by omega) hspells (by rw [htrim]; rfl)

/-- **Terms are read with lexical scoping.** A legible term has a meaning, in which every name refers
to its innermost binder or else to the constant of that name. However the term is set, and however its
bound variables are named, this meaning is read, and all of the text but the blanks at its end. -/
theorem readTerm_scoped (sig : Signature) (p : Phrase) (hp : p.isLegible sig [] = true) :
    ∃ t, p.term? sig [] = some t ∧
      (∀ (pieces : List Piece) (rest : List Char), renders p.tokens pieces rest = true →
        rest.all isBlank = true → readTerm sig (text pieces rest) = .ok (t, rest)) ∧
      ∀ q : Phrase, p.alike [] q = true → q.isLegible sig [] = true →
        ∀ (pieces : List Piece) (rest : List Char), renders q.tokens pieces rest = true →
          rest.all isBlank = true → readTerm sig (text pieces rest) = .ok (t, rest) := by
  obtain ⟨t, ht⟩ := p.exists_term? hp
  refine ⟨t, ht, fun pieces rest h hrest => readTerm_tokens hp ht h hrest, ?_⟩
  intro q hq hlegible pieces rest h hrest
  have hmeaning : q.term? sig [] = some t := (p.term?_eq_of_alike q hq).symm.trans ht
  exact readTerm_tokens hlegible hmeaning h hrest

/-- A list of pieces from blanks and words. -/
def Piece.list (l : List (String × String)) : List Piece := l.map fun w => ⟨w.1.toList, w.2.toList⟩

/-- `λx:e.(λx':<e,t>.λy:e.x'(y))(like(x))(ann:e)`; with one name for `x` and `x'`, the inner binder
hides the outer one. -/
def likesAnn (x x' y : String) : Phrase :=
  .lam x .entity (.chain (.call (.call
    (.group (.lam x' (.arrow .entity .truth) (.lam y .entity
      (.chain (.call (.name x') (.last (.chain (.name y))))))))
    (.last (.chain (.call (.name "like") (.last (.chain (.name x)))))))
    (.last (.chain (.typed "ann" .entity)))))

/-- With a hidden name, all three spellings and various blanks, and with other names and without
blanks, the same term is read. -/
theorem readTerm_scoped_likesAnn :
    let property : Ty := .arrow .entity .truth
    let like : Term := .const "like" (.arrow .entity property)
    let t : Term := .lam .entity (.app (.app (.lam property (.lam .entity (.app (.var 1) (.var 0))))
      (.app like (.var 0))) (.const "ann" .entity))
    readTerm likeAndThe
        "λ x : e.(\\x:<e , t>. lambda\ty:e.x(y) )\u00A0(like(x))(ann:\ne) ".toList =
          .ok (t, [' ']) ∧
      readTerm likeAndThe "λ$0:e.(λ$1:<e,t>.λ$2:e.$1($2))(like($0))(ann:e)".toList =
          .ok (t, []) := by
  intro property like t
  obtain ⟨t', ht', hread, hrenamed⟩ := readTerm_scoped likeAndThe (likesAnn "x" "x" "y") (by decide)
  cases ht'
  let shadowed := Piece.list [("", "λ"), (" ", "x"), (" ", ":"), (" ", "e"), ("", "."),
    ("", "("), ("", "\\"), ("", "x"), ("", ":"), ("", "<"), ("", "e"), (" ", ","), (" ", "t"),
    ("", ">"), ("", "."), (" ", "lambda"), ("\t", "y"), ("", ":"), ("", "e"), ("", "."), ("", "x"),
    ("", "("), ("", "y"), ("", ")"), (" ", ")"), ("\u00A0", "("), ("", "like"), ("", "("),
    ("", "x"), ("", ")"), ("", ")"), ("", "("), ("", "ann"), ("", ":"), ("\n", "e"), ("", ")")]
  let numbered := Piece.list [("", "λ"), ("", "$0"), ("", ":"), ("", "e"), ("", "."),
    ("", "("), ("", "λ"), ("", "$1"), ("", ":"), ("", "<"), ("", "e"), ("", ","), ("", "t"),
    ("", ">"), ("", "."), ("", "λ"), ("", "$2"), ("", ":"), ("", "e"), ("", "."), ("", "$1"),
    ("", "("), ("", "$2"), ("", ")"), ("", ")"), ("", "("), ("", "like"), ("", "("), ("", "$0"),
    ("", ")"), ("", ")"), ("", "("), ("", "ann"), ("", ":"), ("", "e"), ("", ")")]
  have hshadowed : renders (likesAnn "x" "x" "y").tokens shadowed [' '] = true := by decide +kernel
  have hnumbered : renders (likesAnn "$0" "$1" "$2").tokens numbered [] = true := by decide +kernel
  have htext : text shadowed [' '] =
      "λ x : e.(\\x:<e , t>. lambda\ty:e.x(y) )\u00A0(like(x))(ann:\ne) ".toList := by
    cbv
  have htext' : text numbered [] = "λ$0:e.(λ$1:<e,t>.λ$2:e.$1($2))(like($0))(ann:e)".toList := by
    cbv
  rw [← htext, ← htext']
  exact ⟨hread shadowed _ hshadowed rfl,
    hrenamed _ (by decide) (by decide) numbered _ hnumbered rfl⟩

end Reader

end Categorial
