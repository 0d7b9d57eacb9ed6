import Categorial.Proofs.Chart.Derivable
import Categorial.Proofs.Constants
import Mathlib

/-!
# Skipping is transparent

Under the standard rules an unknown word can be skipped on either side of its neighbours and does
nothing else. So unknown words may be put anywhere into a sentence of known words: its chart has the
same categories at the root. Derivability does not depend on where words stand in a sentence, and the
argument is about lists of words, without positions.

* `WordsDerive`: derivability of a category over a list of words.
* `derives_iff_wordsDerive`: it is derivability over the whole sentence.
* `Inserted`: a list of words with unknown words inserted.
* `WordsDerive.drop_unknown`, `WordsDerive.insert_unknown`: both directions.
* **`skipping_transparent`**: charts with and without the unknown words.
-/

namespace Categorial

/-! ## Derivability over words -/

/-- The category is derivable over the words; the flag tells whether a unary rule made it. -/
inductive WordsDerive (G : Grammar) (L : Lexicon) : (unary : Bool) → List String → Category → Prop
  | lexical {ws : List String} {e : Entry} : ws ≠ [] → e ∈ (G.provider L).lookup ws →
      WordsDerive G L false ws e.category
  | binary {u v : Bool} {ws vs : List String} {l r c : Category} {rule : Rule} :
      WordsDerive G L u ws l → WordsDerive G L v vs r → rule ∈ G.rules.rules →
      rule.combine G.sig l r = some c → WordsDerive G L false (ws ++ vs) c
  | unary {ws : List String} {c c' : Category} {rule : Rule} : WordsDerive G L false ws c →
      rule ∈ G.rules.rules → rule.applyUnary G.sig c = some c' → WordsDerive G L true ws c'

variable {G : Grammar} {L : Lexicon}

theorem Derives.wordsDerive {w : List String} {u : Bool} {span : Span} {c : Category}
    (h : Derives G L w u span c) : WordsDerive G L u (span.tokens w) c := by
  induction h with
  | @lexical span e h₁ h₂ he =>
    refine .lexical (fun hnil => ?_) he
    have hlen := Span.length_tokens h₂
    rw [hnil, List.length_nil, Span.length] at hlen
    omega
  | binary hl hr hrule hc ihl ihr =>
    rw [← Span.tokens_append hl.inside.1.le hr.inside.1.le]
    exact .binary ihl ihr hrule hc
  | unary _ hrule hc ih => exact .unary ih hrule hc

/-- What is derivable over some words is derivable wherever they stand in a sentence. -/
theorem WordsDerive.derives {u : Bool} {ws : List String} {c : Category}
    (h : WordsDerive G L u ws c) (before after : List String) :
    Derives G L (before ++ ws ++ after) u ⟨before.length, before.length + ws.length⟩ c := by
  induction h generalizing before after with
  | @lexical ws e hne he =>
    have htokens : Span.tokens ⟨before.length, before.length + ws.length⟩ (before ++ ws ++ after) =
        ws := by
      simp [Span.tokens, List.append_assoc]
    refine .lexical ?_ ?_ (by rw [htokens]; exact he)
    · have := List.length_pos_of_ne_nil hne
      simp only
      omega
    · simp only [List.length_append]
      omega
  | @binary u v ws vs l r c rule _ _ hrule hc ihl ihr =>
    have hl := ihl before (vs ++ after)
    have hr := ihr (before ++ ws) after
    rw [List.length_append] at hr
    rw [List.length_append, ← Nat.add_assoc]
    refine .binary (u := u) (v := v) (k := before.length + ws.length) ?_ ?_ hrule hc
    · simpa [List.append_assoc] using hl
    · simpa [List.append_assoc] using hr
  | unary _ hrule hc ih => exact .unary (ih before after) hrule hc

theorem derives_iff_wordsDerive {w : List String} {u : Bool} {c : Category} :
    Derives G L w u ⟨0, w.length⟩ c ↔ WordsDerive G L u w c := by
  constructor
  · intro h
    have h := h.wordsDerive
    rwa [show Span.tokens ⟨0, w.length⟩ w = w by simp [Span.tokens]] at h
  · intro h
    simpa using h.derives [] []

/-! ## Unknown words -/

/-- The lexicon has an entry for the word. -/
def Lexicon.knows (L : Lexicon) (x : String) : Bool := !(L.lookup [x]).isEmpty

/-- The second list is the first one with unknown words inserted anywhere. -/
inductive Inserted (L : Lexicon) : List String → List String → Prop
  | nil : Inserted L [] []
  | keep {ws vs : List String} (x : String) : Inserted L ws vs → Inserted L (x :: ws) (x :: vs)
  | insert {ws vs : List String} (x : String) : L.knows x = false → Inserted L ws vs →
      Inserted L ws (x :: vs)

/-- Dropping the unknown words undoes inserting them. -/
theorem Inserted.filter_knows {ws vs : List String} (h : Inserted L ws vs)
    (hknown : ∀ x ∈ ws, L.knows x = true) : vs.filter L.knows = ws := by
  induction h with
  | nil => rfl
  | keep x _ ih =>
    obtain ⟨hx, hknown⟩ := List.forall_mem_cons.mp hknown
    rw [List.filter_cons_of_pos hx, ih hknown]
  | insert x hx _ ih => rw [List.filter_cons_of_neg (by simp [hx]), ih hknown]

/-- Words may be skipped under the standard rules, and the entries are single words of categories that
say nothing about skipping. -/
structure Skippable (G : Grammar) (L : Lexicon) (n : Nat) : Prop where
  rules : G.rules = .standard n
  skipping : G.wordSkipping = true
  single : ∀ e ∈ L.entries, e.tokens.length = 1
  plain : ∀ e ∈ L.entries, e.category.syn.mentionsEmpty = false

namespace Skippable

variable {n : Nat} (hs : Skippable G L n)

include hs

theorem lookup_eq (ws : List String) : (G.provider L).lookup ws =
    if (L.lookup ws).isEmpty && ws.length == 1 then [Provider.skipEntry ws] else L.lookup ws := by
  rw [Grammar.provider, if_pos hs.skipping]
  rfl

/-- Entries are those of a known word, and one for each unknown word. -/
theorem lookup_cases {ws : List String} {e : Entry} (h : e ∈ (G.provider L).lookup ws) :
    ∃ x, ws = [x] ∧ ((L.knows x = true ∧ e.category.syn.mentionsEmpty = false) ∨
      (L.knows x = false ∧ e.category = .empty)) := by
  rw [hs.lookup_eq] at h
  split_ifs at h with hempty
  · rw [Bool.and_eq_true, beq_iff_eq] at hempty
    obtain ⟨x, rfl⟩ := List.length_eq_one_iff.mp hempty.2
    refine ⟨x, rfl, Or.inr ⟨by simp [Lexicon.knows, hempty.1], ?_⟩⟩
    rw [List.mem_singleton.mp h]
    rfl
  · obtain ⟨he, htokens⟩ : e ∈ L.entries ∧ e.tokens = ws := by simpa [Lexicon.lookup] using h
    obtain ⟨x, hx⟩ := List.length_eq_one_iff.mp (hs.single e he)
    obtain rfl : ws = [x] := htokens.symm.trans hx
    refine ⟨x, rfl, Or.inl ⟨?_, hs.plain e he⟩⟩
    rw [Lexicon.knows, List.isEmpty_eq_false_iff.mpr (List.ne_nil_of_mem h)]
    rfl

theorem skip {x : String} (hx : L.knows x = false) : WordsDerive G L false [x] .empty := by
  have hempty : (L.lookup [x]).isEmpty = true := by simpa [Lexicon.knows] using hx
  refine .lexical (e := Provider.skipEntry [x]) (List.cons_ne_nil x []) ?_
  rw [hs.lookup_eq, if_pos (by simp [hempty])]
  exact List.mem_singleton_self _

theorem exists_binary {rule : Rule} (h : rule ∈ G.rules.rules) : ∃ r, rule = .binary r := by
  rw [hs.rules] at h
  simp only [RuleSet.standard, List.mem_cons, List.not_mem_nil, or_false] at h
  rcases h with rfl | rfl | rfl | rfl | rfl | rfl | rfl <;> exact ⟨_, rfl⟩

end Skippable

namespace WordsDerive

variable {n : Nat}

/-- **Unknown words can be left out.** What is derivable is an unknown word that is skipped, or it is
derivable over the known words alone. -/
theorem drop_unknown (hs : Skippable G L n) {u : Bool} {ws : List String} {c : Category}
    (h : WordsDerive G L u ws c) :
    (c = .empty ∧ ∃ x, ws = [x] ∧ L.knows x = false) ∨
      (c.syn.mentionsEmpty = false ∧ ∃ v, WordsDerive G L v (ws.filter L.knows) c) := by
  induction h with
  | @lexical ws e hne he =>
    obtain ⟨x, rfl, ⟨hx, hplain⟩ | ⟨hx, hempty⟩⟩ := hs.lookup_cases he
    · refine Or.inr ⟨hplain, false, ?_⟩
      rw [List.filter_cons_of_pos hx, List.filter_nil]
      exact .lexical hne he
    · exact Or.inl ⟨hempty, x, rfl, hx⟩
  | @binary u v ws vs l r c rule _ _ hrule hc ihl ihr =>
    obtain ⟨rule, rfl⟩ := hs.exists_binary hrule
    change rule.combine G.sig l r = some c at hc
    have happlies := BinaryRule.applies_of_combine hc
    rw [List.filter_append]
    rcases ihl with ⟨rfl, x, rfl, hx⟩ | ⟨hl, u', hl'⟩
    · rcases ihr with ⟨rfl, -⟩ | ⟨hr, v', hr'⟩
      · exact absurd happlies (by simp [Category.empty, BinaryRule.not_applies_empty])
      · obtain rfl := BinaryRule.eq_forwardSkipping happlies hr
        obtain rfl : c = r := BinaryRule.eq_right_of_forwardSkipping hc
        exact Or.inr ⟨hr, v', by simpa [hx] using hr'⟩
    · rcases ihr with ⟨rfl, x, rfl, hx⟩ | ⟨hr, v', hr'⟩
      · obtain rfl := BinaryRule.eq_backwardSkipping happlies hl
        obtain rfl : c = l := BinaryRule.eq_left_of_backwardSkipping hc
        exact Or.inr ⟨hl, u', by simpa [hx] using hl'⟩
      · exact Or.inr ⟨BinaryRule.mentionsEmpty_of_combine hl hr hc, false,
          .binary hl' hr' hrule hc⟩
  | unary _ hrule hc _ =>
    obtain ⟨rule, rfl⟩ := hs.exists_binary hrule
    cases hc

variable {u : Bool} {ws : List String} {c : Category}

/-- An unknown word is skipped from the left. -/
theorem cons_unknown (hs : Skippable G L n) (hc : c.syn.isEmpty = false)
    (h : WordsDerive G L u ws c) {x : String} (hx : L.knows x = false) :
    WordsDerive G L false (x :: ws) c := by
  have happlies : BinaryRule.applies .forwardSkipping Category.empty.syn c.syn = true := by
    rw [BinaryRule.applies, hc]
    rfl
  have hrule : Rule.binary .forwardSkipping ∈ G.rules.rules := by simp [hs.rules, RuleSet.standard]
  rw [← List.singleton_append]
  exact .binary (hs.skip hx) h hrule (by simp [Rule.combine, BinaryRule.combine, happlies])

/-- An unknown word is skipped from the right. -/
theorem concat_unknown (hs : Skippable G L n) (hc : c.syn.isEmpty = false)
    (h : WordsDerive G L u ws c) {x : String} (hx : L.knows x = false) :
    WordsDerive G L false (ws ++ [x]) c := by
  have happlies : BinaryRule.applies .backwardSkipping c.syn Category.empty.syn = true := by
    rw [BinaryRule.applies, hc]
    rfl
  have hrule : Rule.binary .backwardSkipping ∈ G.rules.rules := by simp [hs.rules, RuleSet.standard]
  exact .binary h (hs.skip hx) hrule (by simp [Rule.combine, BinaryRule.combine, happlies])

/-- Unknown words are skipped on both sides. -/
theorem surround (hs : Skippable G L n) (hc : c.syn.isEmpty = false) (h : WordsDerive G L u ws c)
    {before after : List String} (hbefore : ∀ x ∈ before, L.knows x = false)
    (hafter : ∀ x ∈ after, L.knows x = false) :
    ∃ v, WordsDerive G L v (before ++ (ws ++ after)) c := by
  induction before with
  | nil =>
    induction after using List.reverseRecOn with
    | nil => exact ⟨u, by rwa [List.append_nil]⟩
    | append_singleton after x ih =>
      obtain ⟨v, hv⟩ := ih fun y hy => hafter y (List.mem_append_left _ hy)
      refine ⟨false, ?_⟩
      rw [List.nil_append, ← List.append_assoc]
      exact hv.concat_unknown hs hc (hafter x (by simp))
  | cons x before ih =>
    obtain ⟨hx, hbefore⟩ := List.forall_mem_cons.mp hbefore
    obtain ⟨v, hv⟩ := ih hbefore
    exact ⟨false, hv.cons_unknown hs hc hx⟩

/-- **Unknown words can be put in.** What is derivable over the known words of a list is derivable
over the list. -/
theorem insert_unknown (hs : Skippable G L n) {vs : List String} (h : WordsDerive G L u vs c)
    (hvs : ws.filter L.knows = vs) : ∃ v, WordsDerive G L v ws c := by
  induction h generalizing ws with
  | @lexical vs e hne he =>
    obtain ⟨x, rfl, hcases⟩ := hs.lookup_cases he
    obtain ⟨before, after, rfl, hbefore, hx, hafter⟩ := List.filter_eq_cons_iff.mp hvs
    have hplain : e.category.syn.mentionsEmpty = false := by
      rcases hcases with ⟨-, hplain⟩ | ⟨hunknown, -⟩
      · exact hplain
      · rw [hx] at hunknown
        cases hunknown
    refine (WordsDerive.lexical hne he).surround hs (Syn.isEmpty_of_mentionsEmpty hplain)
      (fun y hy => by simpa using hbefore y hy) (fun y hy => ?_)
    simpa using List.filter_eq_nil_iff.mp hafter y hy
  | binary _ _ hrule hc ihl ihr =>
    obtain ⟨ws₁, ws₂, rfl, hl, hr⟩ := List.filter_eq_append_iff.mp hvs
    obtain ⟨u', hu⟩ := ihl hl
    obtain ⟨v', hv⟩ := ihr hr
    exact ⟨false, .binary hu hv hrule hc⟩
  | unary _ hrule hc _ =>
    obtain ⟨rule, rfl⟩ := hs.exists_binary hrule
    cases hc

end WordsDerive

/-- Derivability over a list of words with some known word is that over its known words. -/
theorem wordsDerive_iff_filter {n : Nat} (hs : Skippable G L n) {ws : List String}
    (hne : ws.filter L.knows ≠ []) {c : Category} :
    (∃ u, WordsDerive G L u ws c) ↔ ∃ u, WordsDerive G L u (ws.filter L.knows) c := by
  constructor
  · rintro ⟨u, h⟩
    rcases h.drop_unknown hs with ⟨-, x, rfl, hx⟩ | ⟨-, hv⟩
    · exact absurd (List.filter_cons_of_neg (by simp [hx])) hne
    · exact hv
  · rintro ⟨u, h⟩
    exact h.insert_unknown hs rfl

/-- **Skipping is transparent.** Inserting unknown words anywhere into a nonempty sentence of known
words does not change the categories at the root of its unpruned chart. -/
theorem skipping_transparent {σ : Type} [Score σ] (t : Task σ) (n : Nat)
    (hs : Skippable t.grammar t.lexicon n) (hne : t.sentence ≠ [])
    (hknown : ∀ x ∈ t.sentence, t.lexicon.knows x = true) (longer : List String)
    (hins : Inserted t.lexicon t.sentence longer) (mode : Packing) (c : Category) :
    (∃ g ∈ (Chart.parse { t with sentence := longer }.unfiltered mode none).derivations t.grammar,
        g.category = c) ↔
      ∃ g ∈ (Chart.parse t.unfiltered mode none).derivations t.grammar, g.category = c := by
  have hfilter := hins.filter_knows hknown
  have hlonger := Chart.exists_root_iff (t := { t with sentence := longer }) mode (c := c)
  have hshort := Chart.exists_root_iff (t := t) mode (c := c)
  simp only [derives_iff_wordsDerive] at hlonger hshort
  rw [hlonger, hshort, wordsDerive_iff_filter hs (by rwa [hfilter]), hfilter]

/-- The words `the book`, where unknown words may be skipped. -/
def theBook : Task ℤ where
  grammar := { rules := .standard 1, wordSkipping := true }
  lexicon := .ofList [
    ⟨["the"], ⟨.complex (.atom "NP") .forward (.atom "N"),
      some (.const "the" (.arrow (.arrow .entity .truth) .entity))⟩, .fixed⟩,
    ⟨["book"], ⟨.atom "N", some (.const "book" (.arrow .entity .truth))⟩, .fixed⟩]
  sentence := ["the", "book"]
  score _ := 0

/-- Hesitating once before and twice inside `the book` leaves the one reading that it has. -/
theorem skipping_transparent_theBook :
    Skippable theBook.grammar theBook.lexicon 1 ∧
    Inserted theBook.lexicon ["the", "book"] ["uh", "the", "uh", "um", "book"] ∧
    ∀ c, (∃ g ∈ (Chart.parse { theBook with sentence := ["uh", "the", "uh", "um", "book"] }.unfiltered
        .packed none).derivations theBook.grammar, g.category = c) ↔
      c = ⟨.atom "NP", some (.app (.const "the" (.arrow (.arrow .entity .truth) .entity))
        (.const "book" (.arrow .entity .truth)))⟩ := by
  have hs : Skippable theBook.grammar theBook.lexicon 1 := ⟨rfl, rfl, by decide, by decide⟩
  have hins : Inserted theBook.lexicon ["the", "book"] ["uh", "the", "uh", "um", "book"] :=
    .insert _ rfl (.keep _ (.insert _ rfl (.insert _ rfl (.keep _ .nil))))
  have hroots : ((Chart.parse theBook.unfiltered .packed none).derivations theBook.grammar).map
      Group.category = [⟨.atom "NP", some (.app (.const "the" (.arrow (.arrow .entity .truth) .entity))
        (.const "book" (.arrow .entity .truth)))⟩] := by
    cbv
  refine ⟨hs, hins, fun c => ?_⟩
  rw [skipping_transparent theBook 1 hs (by decide) (by decide) _ hins, ← List.mem_map, hroots,
    List.mem_singleton]

end Categorial
