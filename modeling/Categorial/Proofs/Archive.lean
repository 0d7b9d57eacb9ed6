import Categorial.Archive
import Categorial.Proofs.Chart.Harvest
import Categorial.Proofs.Order

/-!
# Reading back what was stored

Oracles and gold sequences that are written as data are read back as they were, but for what a filter
keeps of its last search, which is not written. Two facts about values make this true of all of them:
numbers are machine words, since a greater number is not read; and the actions of a set are in
increasing order, since a set is built anew from what is read.

* `Data.record?_table`: the members of a record that was written.
* `Term.isStorable` and its kin: all numbers are machine words.
* `ActionSet.isIncreasing_ofList`, `ActionSet.ofList_of_increasing`: every set that is built is in
  order, and building a set from its own actions changes nothing.
* `Syn.ofData?_toData`, `Action.ofData?_toData` and their kin: parts are read back.
* `GoldFilter.ofData?_toData`, `Oracle.ofData?_toData`: so are filters, without their last search.
* **`Archive.stored_read_back`**: and whole archives.
-/

namespace Categorial

open Data

/-! ## Data -/

namespace Data

theorem mapM_eq_some_map {α β : Type} {f : α → Option β} {g : α → β} {l : List α}
    (h : ∀ a ∈ l, f a = some (g a)) : l.mapM f = some (l.map g) := by
  induction l with
  | nil => rfl
  | cons a l ih =>
    rw [List.mapM_cons, h a List.mem_cons_self, ih fun b hb => h b (List.mem_cons_of_mem _ hb)]
    rfl

theorem asList?_map {α β : Type} {item : Data → Option β} {f : α → Data} {g : α → β} {l : List α}
    (h : ∀ a ∈ l, item (f a) = some (g a)) : asList? item (.list (l.map f)) = some (l.map g) := by
  rw [asList?, List.mapM_map]
  exact mapM_eq_some_map h

theorem asOption?_ofOption {α β : Type} {value : Data → Option β} {f : α → Data} {g : α → β}
    {o : Option α} (hnull : ∀ a ∈ o, f a ≠ .null) (h : ∀ a ∈ o, value (f a) = some (g a)) :
    asOption? value (ofOption f o) = some (o.map g) := by
  cases o with
  | none => rfl
  | some a =>
    rw [ofOption, asOption?.eq_2 _ _ (hnull a rfl), h a rfl]
    rfl

theorem asNat?_nat {n : Nat} (h : n < Bits.words) : asNat? (.nat n) = some n := by
  have hn : 0 ≤ (n : Int) ∧ (n : Int) < Bits.words := by omega
  rw [nat, asNat?, if_pos hn, Int.toNat_natCast]

theorem filter_name {members : List (String × Data)} (h : (members.map Prod.fst).Nodup)
    {m : String × Data} (hm : m ∈ members) : members.filter (fun x => x.1 == m.1) = [m] := by
  induction members with
  | nil => cases hm
  | cons x members ih =>
    obtain ⟨hx, h⟩ := List.nodup_cons.mp h
    rcases List.mem_cons.mp hm with rfl | hm
    · have hnone : members.filter (fun y => y.1 == m.1) = [] := by
        refine List.filter_eq_nil_iff.mpr fun y hy heq => hx ?_
        rw [← beq_iff_eq.mp heq]
        exact List.mem_map_of_mem hy
      rw [List.filter_cons, if_pos (beq_self_eq_true m.1), hnone]
    · have hne : ¬ (x.1 == m.1) = true := fun heq =>
        hx (beq_iff_eq.mp heq ▸ List.mem_map_of_mem hm)
      rw [List.filter_cons, if_neg hne, ih h hm]

/-- A table with the fields of a record, each of them once, gives their values in order. -/
theorem record?_table (len : Leniency) (members : List (String × Data))
    (h : (members.map Prod.fst).Nodup) :
    record? len (members.map Prod.fst) (.table members) = some (members.map fun m => some m.2) := by
  have hnames : ¬ (!len.otherMembers && members.any fun m =>
      !(members.map Prod.fst).contains m.1) = true := by
    intro hother
    obtain ⟨m, hm, hnot⟩ := List.any_eq_true.mp (Bool.and_eq_true_iff.mp hother).2
    have hmem : m.1 ∈ members.map Prod.fst := List.mem_map_of_mem hm
    simp [hmem] at hnot
  rw [record?, if_neg hnames, List.mapM_map]
  refine mapM_eq_some_map fun m hm => ?_
  rw [Function.comp_apply, filter_name h hm]

end Data

/-! ## Machine words -/

/-- Every variable is a machine word. -/
def Term.isStorable : Term → Bool
  | const _ _ => true
  | var k => k < Bits.words
  | app f a => f.isStorable && a.isStorable
  | lam _ b => b.isStorable

/-- Every variable of the meaning is a machine word. -/
def Category.isStorable (c : Category) : Bool := c.sem.all Term.isStorable

/-- Both ends are machine words. -/
def Span.isStorable (s : Span) : Bool := s.start < Bits.words && s.stop < Bits.words

/-- The number of a rule is a machine word. -/
def RuleId.isStorable : RuleId → Bool
  | lexical => true
  | rule i => i < Bits.words

/-- Every number is a machine word. -/
def Action.isStorable (a : Action) : Bool :=
  a.span.isStorable && a.rule.isStorable && a.category.isStorable &&
    a.entry.all fun e => e.category.isStorable

/-- The actions of a set are in increasing order. -/
def ActionSet.isIncreasing (s : ActionSet) : Bool := s.Pairwise fun a b => a.cmp b = .lt

/-- Every number is a machine word, and the gold actions are in order. -/
def GoldFilter.isStorable (f : GoldFilter) : Bool :=
  f.target.isStorable && f.category.all Category.isStorable && f.window.isStorable &&
    f.gold.all Action.isStorable && f.gold.isIncreasing && f.parseTrees < Bits.words

/-- Every filter can be stored. -/
def Oracle.isStorable (o : Oracle) : Bool := o.filters.all GoldFilter.isStorable

/-! ## Sets of actions -/

namespace Action

theorem chained_cmp (a b c : Action) : Chained (a.cmp b) (b.cmp c) (a.cmp c) := by
  have hspan : Chained (a.span.cmp b.span) (b.span.cmp c.span) (a.span.cmp c.span) :=
    (Chained.of_trans compare _ _ _).lex (Chained.of_trans compare _ _ _)
  exact (hspan.lex (RuleId.chained_cmp _ _ _)).lex (Category.chained_cmp _ _ _)

instance : Std.TransCmp cmp := by
  refine transCmp_of_chained (fun a b => ?_) chained_cmp
  have hspan : a.span.cmp b.span = (b.span.cmp a.span).swap := by
    rw [Span.cmp, Span.cmp, Ordering.swap_then, ← Std.OrientedOrd.eq_swap,
      ← Std.OrientedOrd.eq_swap]
  have hrule : a.rule.cmp b.rule = (b.rule.cmp a.rule).swap := Std.OrientedCmp.eq_swap
  have hcategory : a.category.cmp b.category = (b.category.cmp a.category).swap :=
    Std.OrientedCmp.eq_swap
  rw [cmp, cmp, hspan, hrule, hcategory, Ordering.swap_then, Ordering.swap_then]

/-- The order does not see entries. -/
theorem cmp_eq_iff_same {a b : Action} : a.cmp b = .eq ↔ a.same b = true := by
  have hspan : a.span.cmp b.span = .eq ↔ a.span = b.span := by
    rw [Span.cmp, Ordering.then_eq_eq, compare_eq_iff_eq, compare_eq_iff_eq]
    rw [← Span.mk.injEq]
  rw [same_iff, cmp, Ordering.then_eq_eq, Ordering.then_eq_eq, hspan,
    Std.LawfulEqCmp.compare_eq_iff_eq, Std.LawfulEqCmp.compare_eq_iff_eq, and_assoc]

end Action

namespace ActionSet

theorem dropRepeats_of_pairwise {l : List Action} (h : l.Pairwise fun a b => a.cmp b = .lt) :
    dropRepeats l = l := by
  induction l using dropRepeats.induct with
  | case1 a b rest hsame ih =>
    have hlt := (List.pairwise_cons.mp h).1 b List.mem_cons_self
    rw [Action.cmp_eq_iff_same.mpr hsame] at hlt
    cases hlt
  | case2 a b rest hsame ih => rw [dropRepeats, if_neg hsame, ih (List.pairwise_cons.mp h).2]
  | case3 l hl =>
    rw [dropRepeats.eq_def]
    split
    · exact absurd rfl (hl _ _ _)
    · rfl

/-- Building a set from its own actions changes nothing. -/
theorem ofList_of_increasing {s : ActionSet} (h : s.isIncreasing = true) : ofList s = s := by
  have h : s.Pairwise fun a b => a.cmp b = .lt := of_decide_eq_true h
  rw [ofList, List.mergeSort_of_pairwise (h.imp fun hab => by rw [hab]; rfl)]
  exact dropRepeats_of_pairwise h

theorem dropRepeats_sublist (l : List Action) : (dropRepeats l).Sublist l := by
  induction l using dropRepeats.induct with
  | case1 a b rest hsame ih =>
    rw [dropRepeats, if_pos hsame]
    exact ih.trans ((List.sublist_cons_self b rest).cons_cons a)
  | case2 a b rest hsame ih =>
    rw [dropRepeats, if_neg hsame]
    exact ih.cons_cons a
  | case3 l hl =>
    rw [dropRepeats.eq_def]
    split
    · exact absurd rfl (hl _ _ _)
    · exact List.Sublist.refl _

theorem pairwise_dropRepeats {l : List Action} (h : l.Pairwise fun a b => (a.cmp b).isLE = true) :
    (dropRepeats l).Pairwise fun a b => a.cmp b = .lt := by
  induction l using dropRepeats.induct with
  | case1 a b rest hsame ih =>
    rw [dropRepeats, if_pos hsame]
    exact ih (h.sublist ((List.sublist_cons_self b rest).cons_cons a))
  | case2 a b rest hsame ih =>
    obtain ⟨ha, hrest⟩ := List.pairwise_cons.mp h
    have hab : a.cmp b = .lt := by
      cases hcmp : a.cmp b with
      | lt => rfl
      | eq => exact absurd (Action.cmp_eq_iff_same.mp hcmp) hsame
      | gt =>
        have hle := ha b List.mem_cons_self
        rw [hcmp] at hle
        cases hle
    rw [dropRepeats, if_neg hsame, List.pairwise_cons]
    refine ⟨fun x hx => ?_, ih hrest⟩
    rcases List.mem_cons.mp ((dropRepeats_sublist _).subset hx) with rfl | hx
    · exact hab
    · exact Std.TransCmp.lt_of_lt_of_isLE hab ((List.pairwise_cons.mp hrest).1 x hx)
  | case3 l hl =>
    cases l with
    | nil => simp [dropRepeats]
    | cons a l =>
      cases l with
      | nil => simp [dropRepeats]
      | cons b rest => exact absurd rfl (hl a b rest)

/-- Every set that is built is in order. -/
theorem isIncreasing_ofList (l : List Action) : (ofList l).isIncreasing = true := by
  refine decide_eq_true (pairwise_dropRepeats (List.pairwise_mergeSort (fun a b c => ?_) ?_ l))
  · exact Std.TransCmp.isLE_trans
  · exact isLE_total Action.cmp

end ActionSet

/-! ## Parts -/

theorem Ty.ofData?_toData (ty : Ty) : Ty.ofData? ty.toData = some ty := by
  induction ty with
  | atom name => simp [toData, tag, ofData?]
  | arrow a r iha ihr => simp [toData, tag, ofData?, iha, ihr]

theorem Term.ofData?_toData {t : Term} (h : t.isStorable = true) :
    Term.ofData? t.toData = some t := by
  induction t with
  | const name ty => simp [toData, tag, ofData?, asText?, Ty.ofData?_toData]
  | var k =>
    have hk := asNat?_nat (of_decide_eq_true h)
    rw [nat] at hk
    simp [toData, tag, ofData?, nat, hk]
  | app f a ihf iha =>
    obtain ⟨hf, ha⟩ := Bool.and_eq_true_iff.mp h
    simp [toData, tag, ofData?, ihf hf, iha ha]
  | lam ty b ih => simp [toData, tag, ofData?, Ty.ofData?_toData, ih h]

theorem Slash.choice?_toData (s : Slash) : choice? {} Slash.names s.toData = some s := by
  cases s <;> rfl

/-- A category is read back if at least as many nested categories are allowed as its data have nested
tables. -/
theorem Syn.ofDataWithin?_toData (s : Syn) {depth : Nat} (h : s.toData.height ≤ depth) :
    Syn.ofDataWithin? depth s.toData = some s := by
  induction s generalizing depth with
  | atom name =>
    cases depth with
    | zero => simp [toData, tag, height] at h
    | succ depth => rfl
  | complex r sl a ihr iha =>
    cases depth with
    | zero => simp [toData, tag, height] at h
    | succ depth =>
      have hheights : r.toData.height ≤ depth ∧ a.toData.height ≤ depth := by
        simp only [toData, tag, height, heightOfMembers] at h
        omega
      have hr := ihr hheights.1
      have ha := iha hheights.2
      have hrecord := record?_table {}
        [("result", r.toData), ("slash", sl.toData), ("arg", a.toData)] (by simp)
      simp only [List.map_cons, List.map_nil] at hrecord
      simp [toData, tag, ofDataWithin?, tagged?, complexOf?, hrecord, required?, hr, ha,
        Slash.choice?_toData]

theorem Syn.ofData?_toData (s : Syn) : Syn.ofData? s.toData = some s :=
  s.ofDataWithin?_toData le_rfl

theorem Term.toData_ne_null (t : Term) : t.toData ≠ .null := by
  cases t <;> simp [toData, tag]

theorem Category.ofData?_toData {c : Category} (h : c.isStorable = true) :
    Category.ofData? c.toData = some c := by
  have hsem : asOption? Term.ofData? (ofOption Term.toData c.sem) = some (c.sem.map id) :=
    asOption?_ofOption (fun t _ => t.toData_ne_null) fun t ht =>
      Term.ofData?_toData (Option.all_eq_true _ _ |>.mp h t ht)
  have hrecord := record?_table {}
    [("syntax", c.syn.toData), ("semantics", ofOption Term.toData c.sem)] (by simp)
  simp only [List.map_cons, List.map_nil] at hrecord
  simp [toData, ofData?, hrecord, required?, withDefault?, Syn.ofData?_toData, hsem]

theorem Span.ofData?_table {start stop : Data} {s : Span} (hstart : asNat? start = some s.start)
    (hstop : asNat? stop = some s.stop) :
    Span.ofData? (.table [("start", start), ("end", stop)]) = some s := by
  have hrecord := record?_table {} [("start", start), ("end", stop)] (by simp)
  simp only [List.map_cons, List.map_nil] at hrecord
  simp [ofData?, hrecord, required?, hstart, hstop]

theorem Span.ofData?_toData {s : Span} (h : s.isStorable = true) : Span.ofData? s.toData = some s := by
  simp only [isStorable, Bool.and_eq_true, decide_eq_true_eq] at h
  exact ofData?_table (asNat?_nat h.1) (asNat?_nat h.2)

theorem RuleId.ofData?_toData {id : RuleId} (h : id.isStorable = true) :
    RuleId.ofData? id.toData = some id := by
  cases id with
  | lexical => rfl
  | rule i => simp [toData, tag, ofData?, tagged?, asNat?_nat (of_decide_eq_true h)]

theorem Origin.choice?_toData (o : Origin) : choice? {} Origin.names o.toData = some o := by
  cases o <;> rfl

theorem Entry.ofData?_toData {e : Entry} (h : e.category.isStorable = true) :
    Entry.ofData? e.toData = some e := by
  have htokens : asList? asText? (.list (e.tokens.map .text)) = some (e.tokens.map id) :=
    asList?_map fun _ _ => rfl
  have hrecord := record?_table {} [("tokens", .list (e.tokens.map .text)),
    ("category", e.category.toData), ("origin", e.origin.toData)] (by simp)
  simp only [List.map_cons, List.map_nil] at hrecord
  simp [toData, ofData?, hrecord, required?, htokens, Category.ofData?_toData h,
    Origin.choice?_toData]

theorem Action.ofData?_table {span rule category entry : Data} {a : Action}
    (hspan : Span.ofData? span = some a.span) (hrule : RuleId.ofData? rule = some a.rule)
    (hcategory : Category.ofData? category = some a.category)
    (hentry : asOption? Entry.ofData? entry = some a.entry) :
    Action.ofData? (.table [("span", span), ("rule", rule), ("category", category),
      ("entry", entry)]) = some a := by
  have hrecord := record?_table {} [("span", span), ("rule", rule), ("category", category),
    ("entry", entry)] (by simp)
  simp only [List.map_cons, List.map_nil] at hrecord
  simp [ofData?, hrecord, required?, withDefault?, hspan, hrule, hcategory, hentry]

/-- An action is read back with its entry. -/
theorem Action.ofData?_toData {a : Action} (h : a.isStorable = true) :
    Action.ofData? a.toData = some a := by
  simp only [isStorable, Bool.and_eq_true] at h
  obtain ⟨⟨⟨hspan, hrule⟩, hcategory⟩, hentry⟩ := h
  have hentry : asOption? Entry.ofData? (ofOption Entry.toData a.entry) = some (a.entry.map id) :=
    asOption?_ofOption (fun e _ => by simp [Entry.toData]) fun e he =>
      Entry.ofData?_toData (Option.all_eq_true _ _ |>.mp hentry e he)
  rw [Option.map_id_fun, id_eq] at hentry
  exact ofData?_table (Span.ofData?_toData hspan) (RuleId.ofData?_toData hrule)
    (Category.ofData?_toData hcategory) hentry

/-! ## Oracles -/

theorem FilterKind.choice?_text (k : FilterKind) :
    choice? {} FilterKind.names (.text k.text) = some k := by
  cases k <;> rfl

/-- A filter is read back without what it keeps of its last search. -/
theorem GoldFilter.ofData?_toData {f : GoldFilter} (h : f.isStorable = true) :
    GoldFilter.ofData? f.toData = some f.reset := by
  simp only [isStorable, Bool.and_eq_true] at h
  obtain ⟨⟨⟨⟨⟨htarget, hcategory⟩, hwindow⟩, hgold⟩, hincreasing⟩, hparses⟩ := h
  have hcategory : asOption? Category.ofData? (ofOption Category.toData f.category) =
      some (f.category.map id) :=
    asOption?_ofOption (fun c _ => by simp [Category.toData]) fun c hc =>
      Category.ofData?_toData (Option.all_eq_true _ _ |>.mp hcategory c hc)
  have hgold : asList? Action.ofData? (.list (f.gold.map Action.toData)) = some (f.gold.map id) :=
    asList?_map fun a ha => Action.ofData?_toData (List.all_eq_true.mp hgold a ha)
  have hrecord := record?_table {} [("kind", .text f.kind.text), ("target", f.target.toData),
    ("category", ofOption Category.toData f.category), ("window", f.window.toData),
    ("gold", .list (f.gold.map Action.toData)), ("parse_trees", .nat f.parseTrees)] (by simp)
  simp only [List.map_cons, List.map_nil] at hrecord
  simp [toData, ofData?, hrecord, required?, withDefault?, FilterKind.choice?_text,
    Term.ofData?_toData htarget, hcategory, Span.ofData?_toData hwindow, hgold,
    asNat?_nat (of_decide_eq_true hparses), ActionSet.ofList_of_increasing hincreasing, reset]

theorem Oracle.toData_ne_null (o : Oracle) : o.toData ≠ .null := by
  cases o <;> simp [toData, tag]

theorem Oracle.ofData?_toData {o : Oracle} (h : o.isStorable = true) :
    Oracle.ofData? o.toData = some o.reset := by
  have h := List.all_eq_true.mp h
  cases o with
  | exact f | earlyUpdate f =>
    have hf := GoldFilter.ofData?_toData (h f (List.mem_singleton_self f))
    simp [toData, tag, ofData?, tagged?, hf, reset, mapFilters]
  | discontiguous fs =>
    have hfs : asList? GoldFilter.ofData? (.list (fs.map GoldFilter.toData)) =
        some (fs.map GoldFilter.reset) :=
      asList?_map fun f hf => GoldFilter.ofData?_toData (h f hf)
    have hrecord := record?_table {} [("filters", .list (fs.map GoldFilter.toData))] (by simp)
    simp only [List.map_cons, List.map_nil] at hrecord
    simp [toData, tag, ofData?, tagged?, filtersOf?, hrecord, required?, hfs, reset, mapFilters]
  | unreachable => rfl

/-- **What is stored is read back.** An archive of oracles, built or not and of any kind, is read back
as it was, but that every filter has forgotten its last search; an archive of gold sequences is read
back as it was, with the entries of its actions. Only what no memory holds is left out: numbers that
are not machine words, and sets of actions that are out of order. -/
theorem Archive.stored_read_back (oracles : List (Option Oracle))
    (golds : List (Option (List Action)))
    (horacles : ∀ kept ∈ oracles, ∀ o ∈ kept, o.isStorable = true)
    (hgolds : ∀ kept ∈ golds, ∀ actions ∈ kept, ∀ a ∈ actions, a.isStorable = true) :
    Archive.filters? (Archive.filters oracles) = some (oracles.map (Option.map Oracle.reset)) ∧
      Archive.gold? (Archive.gold golds) = some golds := by
  constructor
  · exact asList?_map fun kept hkept => asOption?_ofOption (fun o _ => o.toData_ne_null)
      fun o ho => Oracle.ofData?_toData (horacles kept hkept o ho)
  · have hactions : ∀ kept ∈ golds, ∀ actions ∈ kept, asList? Action.ofData?
        (.list (actions.map Action.toData)) = some (actions.map id) :=
      fun kept hkept actions h =>
        asList?_map fun a ha => Action.ofData?_toData (hgolds kept hkept actions h a ha)
    have hkept : ∀ kept ∈ golds, asOption? (asList? Action.ofData?)
        (ofOption (fun as => .list (as.map Action.toData)) kept) = some (kept.map (List.map id)) :=
      fun kept hkept => asOption?_ofOption (fun _ _ => by simp) (hactions kept hkept)
    rw [gold?, gold, asList?_map hkept]
    simp

namespace Archive

/-- A look-up with its entry, and a rule that gives no meaning. -/
def sampleActions : List Action :=
  [.lookup ⟨0, 1⟩ ⟨["dogs"], ⟨.atom "N", some (.lam .entity (.var 0))⟩, .learned⟩,
    ⟨⟨0, 1⟩, .rule 3, ⟨.complex (.atom "S") .forward (.atom "NP"), none⟩, none⟩]

/-- A filter that was shown a search. -/
def sampleFilter : GoldFilter where
  kind := .exact
  target := .const "dog" .entity
  category := some ⟨.atom "N", some (.const "dog" .entity)⟩
  window := ⟨0, 1⟩
  gold := sampleActions
  parseTrees := 2
  cursor := 1
  earlyStates := [sampleActions]

/-- An oracle that is not built and one of every kind. -/
def sampleOracles : List (Option Oracle) :=
  [none, some .unreachable, some (.exact sampleFilter), some (.earlyUpdate sampleFilter),
    some (.discontiguous [sampleFilter, sampleFilter.reset])]

theorem stored_read_back_sample :
    filters? (filters sampleOracles) = some (sampleOracles.map (Option.map Oracle.reset)) ∧
      gold? (gold [none, some [], some sampleActions]) =
        some [none, some [], some sampleActions] :=
  stored_read_back _ _ (by decide) (by decide)

end Archive

end Categorial
