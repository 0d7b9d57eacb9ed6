import Categorial.Action
import Categorial.Grammar
import Mathlib.Tactic

/-!
# Entries and rule results

What a grammar offers a parser: the entries for a sequence of tokens and the results of its rules.

* `Grammar.length_le_maxLength`: no entry is longer than the parser expects.
* `Lexicon.Distinct`, `Lexicon.distinct_ofList`: the entries of a lexicon differ.
* `Provider.Rearranged`, `Grammar.rearranged_provider`: the same entries in another order.
* `RuleSet.mem_binaryResults`, `RuleSet.mem_unaryResults`: results come from registered rules, and
  no rule gives two.
-/

namespace Categorial

/-! ## The length of entries -/

theorem Lexicon.length_le_maxLength {l : Lexicon} {e : Entry} (h : e ∈ l.entries) :
    e.tokens.length ≤ l.maxLength := by
  have hmax : ∀ (es : List Entry) (m : Nat),
      m ≤ es.foldl (fun m e => max m e.tokens.length) m ∧
        ∀ e ∈ es, e.tokens.length ≤ es.foldl (fun m e => max m e.tokens.length) m := by
    intro es
    induction es with
    | nil => simp
    | cons e es ih =>
      intro m
      obtain ⟨h₁, h₂⟩ := ih (max m e.tokens.length)
      rw [List.foldl_cons]
      refine ⟨by omega, fun e' he' => ?_⟩
      rcases List.mem_cons.mp he' with rfl | he'
      · omega
      · exact h₂ e' he'
  exact (hmax l.entries 0).2 e h

theorem Provider.mem_lookup_skipping {p : Provider} {tokens : List String} {e : Entry}
    (h : e ∈ p.skipping.lookup tokens) : e ∈ p.lookup tokens ∨ tokens.length = 1 := by
  simp only [skipping] at h
  split_ifs at h with hf
  · rw [Bool.and_eq_true, beq_iff_eq] at hf
    exact Or.inr hf.2
  · exact Or.inl h

/-- No entry is longer than the parser expects. -/
theorem Grammar.length_le_maxLength (G : Grammar) (L : Lexicon) {tokens : List String} {e : Entry}
    (h : e ∈ (G.provider L).lookup tokens) : tokens.length ≤ (G.provider L).maxLength := by
  have hlex : e ∈ (Provider.ofLexicon L).lookup tokens → tokens.length ≤ L.maxLength := by
    intro he
    have he : e ∈ L.entries ∧ e.tokens = tokens := by
      simpa [Provider.ofLexicon, Lexicon.lookup] using he
    rw [← he.2]
    exact Lexicon.length_le_maxLength he.1
  unfold provider at h ⊢
  split_ifs at h ⊢
  · change tokens.length ≤ max L.maxLength 1
    rcases Provider.mem_lookup_skipping h with h | h
    · exact le_trans (hlex h) (le_max_left _ _)
    · exact h ▸ le_max_right _ _
  · exact hlex h

/-! ## Entries that differ -/

/-- No two entries have the same tokens and the same category. -/
def Lexicon.Distinct (l : Lexicon) : Prop :=
  l.entries.Pairwise fun e e' => ¬ (e.tokens = e'.tokens ∧ e.category = e'.category)

theorem Lexicon.Distinct.add {l : Lexicon} (h : l.Distinct) (e : Entry) : (l.add e).Distinct := by
  unfold Lexicon.add
  split_ifs with hc
  · exact h
  · refine List.pairwise_append.mpr ⟨h, List.pairwise_singleton _ e, fun x hx y hy => ?_⟩
    rw [List.mem_singleton.mp hy]
    rintro ⟨ht, hcat⟩
    exact hc (List.any_eq_true.mpr ⟨x, hx, by simp [ht, hcat]⟩)

/-- The entries of a lexicon that was made by adding them differ. -/
theorem Lexicon.distinct_ofList (es : List Entry) : (Lexicon.ofList es).Distinct :=
  List.foldlRecOn (motive := Lexicon.Distinct) es _ List.Pairwise.nil fun _ h e _ => h.add e

/-- A lexicon whose entries differ has one entry to a category for every sequence of tokens. -/
theorem Grammar.pairwise_lookup (G : Grammar) {L : Lexicon} (h : L.Distinct) (tokens : List String) :
    ((G.provider L).lookup tokens).Pairwise fun e e' => e.category ≠ e'.category := by
  have hlex : (L.lookup tokens).Pairwise fun e e' => e.category ≠ e'.category := by
    refine List.Pairwise.imp_of_mem (fun {e e'} he he' hne hc => hne ⟨?_, hc⟩) (h.filter _)
    rw [eq_of_beq (List.mem_filter.mp he).2, eq_of_beq (List.mem_filter.mp he').2]
  unfold provider
  split_ifs
  · change (if _ then [Provider.skipEntry tokens] else L.lookup tokens).Pairwise _
    split_ifs
    · exact List.pairwise_singleton _ _
    · exact hlex
  · exact hlex

/-! ## Entries in another order -/

/-- The second provider offers the entries of the first in another order; entries that are offered
together differ in category. -/
structure Provider.Rearranged (p p' : Provider) : Prop where
  maxLength : p.maxLength = p'.maxLength
  perm : ∀ tokens, (p.lookup tokens).Perm (p'.lookup tokens)
  distinct : ∀ tokens, (p.lookup tokens).Pairwise fun e e' => e.category ≠ e'.category

theorem Provider.Rearranged.symm {p p' : Provider} (h : p.Rearranged p') : p'.Rearranged p :=
  ⟨h.maxLength.symm, fun tokens => (h.perm tokens).symm, fun tokens =>
    (h.perm tokens).pairwise (h.distinct tokens) fun hne => hne.symm⟩

theorem Lexicon.maxLength_perm {l l' : Lexicon} (h : l.entries.Perm l'.entries) :
    l.maxLength = l'.maxLength := by
  unfold maxLength
  exact h.foldl_eq' (fun e _ e' _ m => max_right_comm m e.tokens.length e'.tokens.length) 0

/-- Entries that differ make up a lexicon in the order in which they are added. -/
theorem Lexicon.ofList_of_distinct {es : List Entry} (h : (⟨es⟩ : Lexicon).Distinct) :
    Lexicon.ofList es = ⟨es⟩ := by
  induction es using List.reverseRecOn with
  | nil => rfl
  | append_singleton es e ih =>
    obtain ⟨hes, -, he⟩ := List.pairwise_append.mp h
    have hnew : ¬ Lexicon.contains ⟨es⟩ e = true := by
      intro hc
      obtain ⟨e', he', hsame⟩ := List.any_eq_true.mp hc
      exact he e' he' e (List.mem_singleton_self e) (by simpa using hsame)
    rw [Lexicon.ofList, List.foldl_append]
    change (Lexicon.ofList es).add e = _
    rw [ih hes, Lexicon.add, if_neg hnew]

/-- A lexicon with its entries in another order offers them in another order. -/
theorem Grammar.rearranged_provider (G : Grammar) {L L' : Lexicon} (hL : L.Distinct)
    (h : L.entries.Perm L'.entries) : (G.provider L).Rearranged (G.provider L') := by
  have hlookup (tokens : List String) : (L.lookup tokens).Perm (L'.lookup tokens) := h.filter _
  refine ⟨?_, fun tokens => ?_, G.pairwise_lookup hL⟩
  · have hlength := Lexicon.maxLength_perm h
    unfold provider
    split_ifs
    · exact congrArg (max · 1) hlength
    · exact hlength
  · unfold provider
    split_ifs
    · have hempty : (L.lookup tokens).isEmpty = (L'.lookup tokens).isEmpty :=
        (hlookup tokens).isEmpty_eq
      change (if (L.lookup tokens).isEmpty && _ then _ else L.lookup tokens).Perm
        (if (L'.lookup tokens).isEmpty && _ then _ else L'.lookup tokens)
      rw [hempty]
      split_ifs
      · exact .refl _
      · exact hlookup tokens
    · exact hlookup tokens

theorem Span.length_tokens {span : Span} {w : List String} (h : span.stop ≤ w.length) :
    (span.tokens w).length = span.length := by
  simp only [Span.tokens, Span.length, List.length_take, List.length_drop]
  omega

theorem Span.tokens_append {i k j : Nat} (hik : i ≤ k) (hkj : k ≤ j) (w : List String) :
    Span.tokens ⟨i, k⟩ w ++ Span.tokens ⟨k, j⟩ w = Span.tokens ⟨i, j⟩ w := by
  have hdrop : w.drop k = (w.drop i).drop (k - i) := by
    rw [List.drop_drop]
    congr 1
    omega
  have htake : j - i = (k - i) + (j - k) := by omega
  simp only [Span.tokens, hdrop, htake, List.take_add]

/-! ## Results of rules -/

namespace RuleSet

variable {sig : Signature} {rs : RuleSet}

theorem mem_toList {id : RuleId} {r : Rule} :
    (id, r) ∈ rs.toList ↔ ∃ i, id = .rule i ∧ rs.rules[i]? = some r := by
  simp only [toList, List.mem_map, Prod.mk.injEq, Prod.exists, List.mem_zipIdx_iff_getElem?]
  constructor
  · rintro ⟨r', i, h, rfl, rfl⟩
    exact ⟨i, rfl, h⟩
  · rintro ⟨i, rfl, h⟩
    exact ⟨r, i, h, rfl, rfl⟩

theorem mem_binaryResults {left right c : Category} {id : RuleId} :
    (id, c) ∈ rs.binaryResults sig left right ↔
      ∃ r, rs.get? id = some r ∧ r.combine sig left right = some c := by
  simp only [binaryResults, List.mem_filterMap, Option.map_eq_some_iff, Prod.mk.injEq, Prod.exists,
    mem_toList]
  constructor
  · rintro ⟨_, r, ⟨i, rfl, hr⟩, _, hc, rfl, rfl⟩
    exact ⟨r, hr, hc⟩
  · rintro ⟨r, hr, hc⟩
    cases id with
    | lexical => cases hr
    | rule i => exact ⟨_, r, ⟨i, rfl, hr⟩, c, hc, rfl, rfl⟩

theorem mem_unaryResults {cat c : Category} {id : RuleId} :
    (id, c) ∈ rs.unaryResults sig cat ↔
      ∃ r, rs.get? id = some r ∧ r.applyUnary sig cat = some c := by
  simp only [unaryResults, List.mem_filterMap, Option.map_eq_some_iff, Prod.mk.injEq, Prod.exists,
    mem_toList]
  constructor
  · rintro ⟨_, r, ⟨i, rfl, hr⟩, _, hc, rfl, rfl⟩
    exact ⟨r, hr, hc⟩
  · rintro ⟨r, hr, hc⟩
    cases id with
    | lexical => cases hr
    | rule i => exact ⟨_, r, ⟨i, rfl, hr⟩, c, hc, rfl, rfl⟩

/-- A result of two categories was made by a binary rule. -/
theorem get?_of_mem_binaryResults {left right c : Category} {id : RuleId}
    (h : (id, c) ∈ rs.binaryResults sig left right) : ∃ r, rs.get? id = some (.binary r) := by
  obtain ⟨r, hr, hc⟩ := mem_binaryResults.mp h
  cases r with
  | binary r => exact ⟨r, hr⟩
  | unary r => cases hc

/-- A result of one category was made by a unary rule. -/
theorem get?_of_mem_unaryResults {cat c : Category} {id : RuleId}
    (h : (id, c) ∈ rs.unaryResults sig cat) : ∃ r, rs.get? id = some (.unary r) := by
  obtain ⟨r, hr, hc⟩ := mem_unaryResults.mp h
  cases r with
  | binary r => cases hc
  | unary r => exact ⟨r, hr⟩

theorem mem_rules_iff {r : Rule} : r ∈ rs.rules ↔ ∃ id, rs.get? id = some r := by
  rw [List.mem_iff_getElem?]
  constructor
  · rintro ⟨i, h⟩
    exact ⟨.rule i, h⟩
  · rintro ⟨id, h⟩
    cases id with
    | lexical => cases h
    | rule i => exact ⟨i, h⟩

end RuleSet

end Categorial
