import Categorial.Proofs.Reader.Terms

/-!
# Written terms with names

A written term has named binders, atoms with any number of lists of arguments, and brackets wherever
they help. It can be set in many ways: the sign of an abstraction has three spellings, and blanks may
stand before every token but the colon between a constant and its type. Its meaning does not depend on
that: a name refers to its innermost binder, and if it has none, to the constant of that name. So terms
that differ only in the names of bound variables mean the same.

* `Phrase`, `Chain`, `Arguments`: the written terms.
* `Token`, `Phrase.tokens`: what they are made of.
* `Piece`, `text`, `renders`: the ways to set them.
* `Phrase.term?`: the meaning of a written term, with indices for names.
* `Phrase.isLegible`, `Phrase.exists_term?`: legible terms have a meaning.
* `Phrase.alike`, **`Phrase.term?_eq_of_alike`**: names of bound variables do not matter.
-/

namespace Categorial

/-! ## Written terms -/

namespace Reader

mutual

/-- A written term: an abstraction, or an atom with lists of arguments. -/
inductive Phrase where
  | lam (name : String) (ty : Ty) (body : Phrase)
  | chain (c : Chain)

/-- An atom with lists of arguments. -/
inductive Chain where
  /-- A bound variable or a declared constant. -/
  | name (n : String)
  /-- A constant with its type. -/
  | typed (n : String) (ty : Ty)
  /-- A term in brackets. -/
  | group (p : Phrase)
  /-- One more list of arguments. -/
  | call (f : Chain) (args : Arguments)

/-- One or more arguments. -/
inductive Arguments where
  | last (p : Phrase)
  | more (p : Phrase) (others : Arguments)

end

/-- What a written term is made of. -/
inductive Token where
  /-- The sign of an abstraction. -/
  | lambda
  | name (n : String)
  | mark (c : Char)
  /-- The colon between a constant and its type. -/
  | ofType
deriving DecidableEq, Repr

end Reader

/-- The tokens of a type. -/
def Ty.tokens : Ty → List Reader.Token
  | atom name => [.name name]
  | arrow a r => .mark '<' :: (a.tokens ++ .mark ',' :: (r.tokens ++ [.mark '>']))

namespace Reader

open Text

mutual

/-- The tokens of a written term. -/
def Phrase.tokens : Phrase → List Token
  | .lam name ty body =>
    .lambda :: .name name :: .mark ':' :: (ty.tokens ++ .mark '.' :: body.tokens)
  | .chain c => c.tokens

/-- The tokens of an atom and of its lists of arguments. -/
def Chain.tokens : Chain → List Token
  | .name n => [.name n]
  | .typed n ty => .name n :: .ofType :: ty.tokens
  | .group p => .mark '(' :: (p.tokens ++ [.mark ')'])
  | .call f args => f.tokens ++ .mark '(' :: (args.tokens ++ [.mark ')'])

/-- The tokens of the arguments and of the commas between them. -/
def Arguments.tokens : Arguments → List Token
  | .last p => p.tokens
  | .more p others => p.tokens ++ .mark ',' :: others.tokens

end

theorem Phrase.length_tokens_pos (p : Phrase) : 0 < p.tokens.length := by
  cases p with
  | lam name ty body => exact Nat.succ_pos _
  | chain c =>
    cases c with
    | name n | typed n ty | group p => exact Nat.succ_pos _
    | call f args =>
      simp only [Phrase.tokens, Chain.tokens, List.length_append, List.length_cons]
      omega

/-! ## Ways to set a term -/

/-- A token as it is set: the blanks before it, and how it is spelled. -/
structure Piece where
  blanks : List Char
  word : List Char
deriving DecidableEq, Repr

/-- The text that pieces make, with what follows them. -/
def text : List Piece → (rest : List Char) → List Char
  | [], rest => rest
  | piece :: pieces, rest => piece.blanks ++ (piece.word ++ text pieces rest)

/-- A word spells a token, if the text goes on with `next`. -/
def Token.isSpelled (word next : List Char) : Token → Bool
  | lambda => word == ['λ'] || word == ['\\'] || word == "lambda".toList && endsWord next
  | name n => word == n.toList && isName word
  | mark c => word == [c]
  | ofType => word == [':']

/-- The pieces, with what follows them, are a way to set the tokens. -/
def renders : List Token → List Piece → (rest : List Char) → Bool
  | [], [], _ => true
  | token :: tokens, piece :: pieces, rest =>
    piece.blanks.all isBlank && (token != .ofType || piece.blanks.isEmpty) &&
      token.isSpelled piece.word (text pieces rest) && renders tokens pieces rest
  | _, _, _ => false

/-! ## The meaning of a written term -/

mutual

/-- The meaning of a written term; `scope` lists the names of the binders around it, innermost
first. -/
def Phrase.term? (sig : Signature) : (scope : List String) → Phrase → Option Term
  | scope, .lam name ty body => (body.term? sig (name :: scope)).map (.lam ty)
  | scope, .chain c => c.term? sig scope

/-- The meaning of an atom with lists of arguments. -/
def Chain.term? (sig : Signature) : (scope : List String) → Chain → Option Term
  | scope, .name n =>
    match scope.idxOf? n with
    | some k => some (.var k)
    | none => (sig.constant? n).map (.const n)
  | _, .typed n ty => some (.const n ty)
  | scope, .group p => p.term? sig scope
  | scope, .call f args => (f.term? sig scope).bind (args.applied? sig scope)

/-- The meaning of `f` with arguments. -/
def Arguments.applied? (sig : Signature) :
    (scope : List String) → Arguments → (f : Term) → Option Term
  | scope, .last p, f => (p.term? sig scope).map (.app f)
  | scope, .more p others, f =>
    (p.term? sig scope).bind fun a => others.applied? sig scope (.app f a)

end

mutual

/-- Names refer to binders around them or to declared constants, and are not the word `lambda`; a
constant with its type is not named like a binder around it; all types are declared. -/
def Phrase.isLegible (sig : Signature) : (scope : List String) → Phrase → Bool
  | scope, .lam name ty body => ty.atoms.all sig.hasAtomic && body.isLegible sig (name :: scope)
  | scope, .chain c => c.isLegible sig scope

/-- The same for an atom with lists of arguments. -/
def Chain.isLegible (sig : Signature) : (scope : List String) → Chain → Bool
  | scope, .name n => n != "lambda" && (scope.contains n || (sig.constant? n).isSome)
  | scope, .typed n ty => n != "lambda" && !scope.contains n && ty.atoms.all sig.hasAtomic
  | scope, .group p => p.isLegible sig scope
  | scope, .call f args => f.isLegible sig scope && args.isLegible sig scope

/-- The same for arguments. -/
def Arguments.isLegible (sig : Signature) : (scope : List String) → Arguments → Bool
  | scope, .last p => p.isLegible sig scope
  | scope, .more p others => p.isLegible sig scope && others.isLegible sig scope

end

theorem Chain.exists_term?_name {sig : Signature} {scope : List String} {n : String}
    (h : (Chain.name n).isLegible sig scope = true) :
    ∃ t, (Chain.name n).term? sig scope = some t := by
  simp only [isLegible, Bool.and_eq_true, Bool.or_eq_true, List.contains_iff_mem] at h
  rw [term?]
  cases hscope : scope.idxOf? n with
  | some k => exact ⟨_, rfl⟩
  | none =>
    rw [List.idxOf?_eq_none_iff] at hscope
    obtain ⟨ty, hty⟩ := Option.isSome_iff_exists.mp (h.2.resolve_left hscope)
    exact ⟨.const n ty, by rw [hty]; rfl⟩

mutual

/-- A legible term has a meaning. -/
theorem Phrase.exists_term? {sig : Signature} : {scope : List String} → (p : Phrase) →
    p.isLegible sig scope = true → ∃ t, p.term? sig scope = some t
  | _, .lam _ ty body, h => by
    obtain ⟨b, hb⟩ := body.exists_term? (Bool.and_eq_true_iff.mp h).2
    exact ⟨.lam ty b, by rw [Phrase.term?, hb]; rfl⟩
  | _, .chain c, h => c.exists_term? h

theorem Chain.exists_term? {sig : Signature} : {scope : List String} → (c : Chain) →
    c.isLegible sig scope = true → ∃ t, c.term? sig scope = some t
  | _, .name _, h => Chain.exists_term?_name h
  | _, .typed n ty, _ => ⟨.const n ty, rfl⟩
  | _, .group p, h => p.exists_term? h
  | _, .call f args, h => by
    obtain ⟨hf, hargs⟩ := Bool.and_eq_true_iff.mp h
    obtain ⟨t, ht⟩ := f.exists_term? hf
    obtain ⟨u, hu⟩ := args.exists_applied? hargs t
    exact ⟨u, by rw [Chain.term?, ht]; exact hu⟩

theorem Arguments.exists_applied? {sig : Signature} : {scope : List String} → (args : Arguments) →
    args.isLegible sig scope = true → ∀ f, ∃ t, args.applied? sig scope f = some t
  | _, .last p, h, f => by
    obtain ⟨a, ha⟩ := p.exists_term? h
    exact ⟨.app f a, by rw [Arguments.applied?, ha]; rfl⟩
  | _, .more p others, h, f => by
    obtain ⟨hp, hothers⟩ := Bool.and_eq_true_iff.mp h
    obtain ⟨a, ha⟩ := p.exists_term? hp
    obtain ⟨t, ht⟩ := others.exists_applied? hothers (.app f a)
    exact ⟨t, by rw [Arguments.applied?, ha]; exact ht⟩

end

/-! ## Names of bound variables -/

/-- Two names refer to binders at the same place, or are equal and not bound; `binders` pairs the
names of the binders around them, innermost first. -/
def sameName : (binders : List (String × String)) → (m n : String) → Bool
  | [], m, n => m == n
  | (a, b) :: binders, m, n => m == a && n == b || m != a && n != b && sameName binders m n

mutual

/-- Two written terms are equal up to the names of bound variables. -/
def Phrase.alike : (binders : List (String × String)) → (p q : Phrase) → Bool
  | binders, .lam m ty p, .lam n ty' q => ty == ty' && p.alike ((m, n) :: binders) q
  | binders, .chain c, .chain d => c.alike binders d
  | _, _, _ => false

/-- The same for atoms with lists of arguments. -/
def Chain.alike : (binders : List (String × String)) → (c d : Chain) → Bool
  | binders, .name m, .name n => sameName binders m n
  | _, .typed m ty, .typed n ty' => m == n && ty == ty'
  | binders, .group p, .group q => p.alike binders q
  | binders, .call f args, .call g args' => f.alike binders g && args.alike binders args'
  | _, _, _ => false

/-- The same for arguments. -/
def Arguments.alike : (binders : List (String × String)) → (args args' : Arguments) → Bool
  | binders, .last p, .last q => p.alike binders q
  | binders, .more p others, .more q others' => p.alike binders q && others.alike binders others'
  | _, _, _ => false

end

/-- Names that refer to the same have the same index, or are the same name without one. -/
theorem idxOf?_of_sameName {binders : List (String × String)} {m n : String}
    (h : sameName binders m n = true) :
    (binders.map Prod.fst).idxOf? m = (binders.map Prod.snd).idxOf? n ∧
      ((binders.map Prod.fst).idxOf? m = none → m = n) := by
  induction binders with
  | nil => exact ⟨rfl, fun _ => by simpa [sameName] using h⟩
  | cons pair binders ih =>
    obtain ⟨a, b⟩ := pair
    simp only [sameName, Bool.or_eq_true, Bool.and_eq_true, beq_iff_eq, bne_iff_ne] at h
    simp only [List.map_cons, List.idxOf?_cons, beq_iff_eq]
    rcases h with ⟨rfl, rfl⟩ | ⟨⟨hm, hn⟩, h⟩
    · simp
    · obtain ⟨hidx, hfree⟩ := ih h
      rw [if_neg (Ne.symm hm), if_neg (Ne.symm hn), hidx]
      exact ⟨rfl, fun hnone => hfree (by simpa [hidx] using hnone)⟩

variable {sig : Signature}

theorem Chain.term?_name_eq {binders : List (String × String)} {m n : String}
    (h : sameName binders m n = true) :
    (Chain.name m).term? sig (binders.map Prod.fst) =
      (Chain.name n).term? sig (binders.map Prod.snd) := by
  obtain ⟨hidx, hfree⟩ := idxOf?_of_sameName h
  rw [term?, term?, ← hidx]
  cases hm : (binders.map Prod.fst).idxOf? m with
  | some k => rfl
  | none => rw [hfree hm]

mutual

/-- **Names of bound variables do not matter.** -/
theorem Phrase.term?_eq_of_alike : {binders : List (String × String)} → (p q : Phrase) →
    p.alike binders q = true →
    p.term? sig (binders.map Prod.fst) = q.term? sig (binders.map Prod.snd)
  | binders, .lam m ty p, .lam n ty' q, h => by
    simp only [Phrase.alike, Bool.and_eq_true, beq_iff_eq] at h
    obtain ⟨rfl, h⟩ := h
    have hbody := p.term?_eq_of_alike q h
    rw [List.map_cons, List.map_cons] at hbody
    rw [Phrase.term?, Phrase.term?, hbody]
  | _, .chain c, .chain d, h => c.term?_eq_of_alike d h

theorem Chain.term?_eq_of_alike : {binders : List (String × String)} → (c d : Chain) →
    c.alike binders d = true →
    c.term? sig (binders.map Prod.fst) = d.term? sig (binders.map Prod.snd)
  | _, .name _, .name _, h => Chain.term?_name_eq h
  | _, .typed m ty, .typed n ty', h => by
    simp only [Chain.alike, Bool.and_eq_true, beq_iff_eq] at h
    obtain ⟨rfl, rfl⟩ := h
    rfl
  | _, .group p, .group q, h => p.term?_eq_of_alike q h
  | _, .call f args, .call g args', h => by
    obtain ⟨hf, hargs⟩ := Bool.and_eq_true_iff.mp h
    rw [Chain.term?, Chain.term?, f.term?_eq_of_alike g hf]
    exact congrArg _ (funext (args.applied?_eq_of_alike args' hargs))

theorem Arguments.applied?_eq_of_alike : {binders : List (String × String)} →
    (args args' : Arguments) → args.alike binders args' = true → ∀ f,
    args.applied? sig (binders.map Prod.fst) f = args'.applied? sig (binders.map Prod.snd) f
  | _, .last p, .last q, h, f => by
    rw [Arguments.applied?, Arguments.applied?, p.term?_eq_of_alike q h]
  | _, .more p others, .more q others', h, f => by
    obtain ⟨hp, hothers⟩ := Bool.and_eq_true_iff.mp h
    rw [Arguments.applied?, Arguments.applied?, p.term?_eq_of_alike q hp]
    exact congrArg _ (funext fun a => others.applied?_eq_of_alike others' hothers (.app f a))

end

end Reader

end Categorial
