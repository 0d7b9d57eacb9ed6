import Categorial.Proofs.Redexes
import Categorial.Proofs.Relevance

/-!
# Substitution avoids capture

To contract a redex, the argument moves up past the binder that goes away and past each binder around
the variable that it replaces, and in the end everything moves down again. Nothing stops an index that
moves below zero or past the last word: it wraps around. Here the search for a normal form is written
once more with its arithmetic checked. It stops as soon as an index leaves its range, or indices close
the gap of a variable that still occurs. Moves down are never the first to go wrong: as long as no
number has moved past the last word, all is as with unbounded indices, and there the variable of a
binder that goes away does not occur any more. For a number to move past the last word, a free
variable and the binders around it must add up to the number of words.

* `Term.Slip`: what can go wrong with an index.
* `Term.shiftMod?`, `Term.substMod?`, `Term.betaMod?`, `Term.contractEta?`: checked substitution.
* `Term.checkedWith`, `Term.normalizeChecked?`: the search with checked arithmetic.
* `Term.Yields`: a checked result is right, or a number has moved past the last word.
* `Term.hasFreeMod_substMod`: a variable that has been replaced does not occur.
* `Term.yields_betaMod?`, `Term.yields_contractEta?`, `Term.contractEta?_of_lt`: one contraction.
* `Term.runs_normalizeChecked?`, `Term.exists_normalizeChecked?`: whole searches.
* **`substitution_avoids_capture`**: the checked search is the search, unless a number has moved past
  the last word; and which variables occur after a contraction.
-/

namespace Categorial

namespace Term

/-! ## Checked arithmetic -/

/-- What can go wrong with an index. -/
inductive Slip where
  /-- A number moves past the last word, under so many binders. -/
  | above (depth : Nat)
  /-- An index moves below zero. -/
  | below
  /-- Indices close the gap of a variable that still occurs. -/
  | occurs
deriving DecidableEq, Repr

/-- A slip as seen from outside of a binder. -/
def Slip.outward : Slip → Slip
  | above depth => above (depth + 1)
  | below => below
  | occurs => occurs

/-- What has been done under a binder. -/
def underBinder {α : Type} : Except Slip α → Except Slip α := Except.mapError Slip.outward

/-- Move an index by `d`, if it stays in the range of the words. -/
def moveIndex? (w k : Nat) (d : Int) : Except Slip Nat :=
  if (k : Int) + d < 0 then .error .below
  else if w = 0 ∨ (k : Int) + d < w then .ok ((k : Int) + d).toNat
  else .error (.above 0)

/-- Move the variables from `cutoff` on by `d`, with checked indices. -/
def shiftMod? (w : Nat) (d : Int) : (cutoff : Nat) → Term → Except Slip Term
  | _, const n ty => .ok (const n ty)
  | cutoff, var k => do
    if cutoff ≤ k then
      let k ← moveIndex? w k d
      return var k
    else return var k
  | cutoff, app f a => do
    let f ← shiftMod? w d cutoff f
    let a ← shiftMod? w d cutoff a
    return app f a
  | cutoff, lam ty b => do
    let cutoff ← moveIndex? w cutoff 1
    let b ← underBinder (shiftMod? w d cutoff b)
    return lam ty b

/-- Put `s` in place of variable `j`, with checked indices. -/
def substMod? (w : Nat) : Term → (j : Nat) → (s : Term) → Except Slip Term
  | const n ty, _, _ => .ok (const n ty)
  | var k, j, s => .ok (if k = j then s else var k)
  | app f a, j, s => do
    let f ← f.substMod? w j s
    let a ← a.substMod? w j s
    return app f a
  | lam ty b, j, s => do
    let j ← moveIndex? w j 1
    let s ← s.shiftMod? w 1 0
    let b ← underBinder (b.substMod? w j s)
    return lam ty b

/-- Variable `k` occurs free, with checked indices. -/
def hasFreeMod? (w : Nat) : (k : Nat) → Term → Except Slip Bool
  | _, const _ _ => .ok false
  | k, var i => .ok (i == k)
  | k, app f a => do
    if ← hasFreeMod? w k f then return true
    hasFreeMod? w k a
  | k, lam _ b => do
    let k ← moveIndex? w k 1
    underBinder (hasFreeMod? w k b)

/-- Close the gap of variable 0, if it does not occur. -/
def lower? (w : Nat) (t : Term) : Except Slip Term :=
  if t.hasFreeMod 0 0 then .error .occurs else t.shiftMod? w (-1) 0

/-- The body of an abstraction with its variable replaced by the argument, with checked indices. -/
def betaMod? (w : Nat) (body arg : Term) : Except Slip Term := do
  let arg ← arg.shiftMod? w 1 0
  let body ← body.substMod? w 0 arg
  lower? w body

/-- Drop a binder that only passes its variable on, with checked indices. -/
def contractEta? (w : Nat) (ty : Ty) : Term → Except Slip Term
  | t@(app f (var 0)) => do if ← f.hasFreeMod? w 0 then return lam ty t else lower? w f
  | t => .ok (lam ty t)

/-- Go on with the value, if the search has ended with one. -/
def andThen {α β : Type} (x : Option (Except Slip α)) (k : α → Option (Except Slip β)) :
    Option (Except Slip β) :=
  x.bind fun
    | .error e => some (.error e)
    | .ok v => k v

/-- One level of the search with checked indices, given how parts are brought to normal form. -/
def checkedWith (w : Nat) (norm : Term → Option (Except Slip Term)) :
    Term → Option (Except Slip Term)
  | const n ty => some (.ok (const n ty))
  | var k => some (.ok (var k))
  | app f a =>
    andThen (norm f) fun f =>
    andThen (norm a) fun a =>
    match f with
    | lam _ body => andThen (some (betaMod? w body a)) norm
    | f => some (.ok (app f a))
  | lam ty b => (norm b).map fun b => underBinder b >>= contractEta? w ty

theorem andThen_mono {α β : Type} {x y : Option (Except Slip α)} {k l : α → Option (Except Slip β)}
    (hx : ∀ r, x = some r → y = some r) (hk : ∀ v r, k v = some r → l v = some r)
    {r : Except Slip β} (h : andThen x k = some r) : andThen y l = some r := by
  obtain ⟨r', hr', h⟩ := Option.bind_eq_some_iff.mp h
  refine Option.bind_eq_some_iff.mpr ⟨r', hx r' hr', ?_⟩
  cases r' with
  | error e => exact h
  | ok v => exact hk v r h

/-- A search that ends on more parts ends with no other result. -/
theorem checkedWith_mono {w : Nat} {f g : Term → Option (Except Slip Term)}
    (h : ∀ t r, f t = some r → g t = some r) {t : Term} {r : Except Slip Term}
    (e : checkedWith w f t = some r) : checkedWith w g t = some r := by
  cases t with
  | const n ty => exact e
  | var k => exact e
  | app m n =>
    refine andThen_mono (h m) (fun m' r e => ?_) e
    refine andThen_mono (h n) (fun n' r e => ?_) e
    cases m' with
    | lam ty b => exact andThen_mono (fun _ hr => hr) h e
    | _ => exact e
  | lam ty b =>
    obtain ⟨rb, hb, rfl⟩ := Option.map_eq_some_iff.mp e
    exact Option.map_eq_some_iff.mpr ⟨rb, h b rb hb, rfl⟩

/-- The search for a normal form with checked indices. It stops at the first slip. -/
def normalizeChecked? (w : Nat) (t : Term) : Option (Except Slip Term) :=
  checkedWith w (by apply normalizeChecked?; exact w) t
partial_fixpoint monotonicity by
  intro f g h t
  dsimp only
  have hfg : ∀ t r, f t = some r → g t = some r := fun t r e => by
    have ht := h t
    rw [e] at ht
    generalize g t = v at ht
    cases ht
    rfl
  cases e : checkedWith w f t with
  | none => exact .bot
  | some r => rw [checkedWith_mono hfg e]; exact .refl

/-! ## Results of checked arithmetic -/

/-- A value as `P` says, or a number that has moved past the last word: a variable below `m` and the
binders around it add up to the number of words. -/
inductive Yields (w m : Nat) {α : Type} (P : α → Prop) : Except Slip α → Prop
  | value {v : α} : P v → Yields w m P (.ok v)
  | above {depth : Nat} : 0 < w → w ≤ m + depth + 1 → Yields w m P (.error (.above depth))

namespace Yields

variable {w m : Nat} {α β : Type} {P Q : α → Prop} {R : β → Prop} {r : Except Slip α}

theorem mono {n : Nat} (h : Yields w m P r) (hmn : m ≤ n) (himp : ∀ v, P v → Q v) :
    Yields w n Q r := by
  cases h with
  | value hv => exact .value (himp _ hv)
  | above hw hd => exact .above hw (by omega)

theorem bind {k : α → Except Slip β} (h : Yields w m P r) (hk : ∀ v, P v → Yields w m R (k v)) :
    Yields w m R (r >>= k) := by
  cases h with
  | value hv => exact hk _ hv
  | above hw hd => exact .above hw hd

/-- Under a binder one more variable is free. -/
theorem underBinder (h : Yields w (m + 1) P r) : Yields w m P (underBinder r) := by
  cases h with
  | value hv => exact .value hv
  | above hw hd => exact .above hw (by omega)

/-- The number of binders does not depend on how free variables are bounded. -/
theorem exists_value_or {C : Nat → Prop} (hC : ∃ m, C m) (h : ∀ m, C m → Yields w (m + 1) P r) :
    (∃ v, r = .ok v ∧ P v) ∨ ∃ depth, r = .error (.above depth) ∧ 0 < w ∧
      ∀ m, C m → w ≤ m + depth + 2 := by
  obtain ⟨m, hm⟩ := hC
  cases h m hm with
  | value hv => exact Or.inl ⟨_, rfl, hv⟩
  | above hw hd =>
    refine Or.inr ⟨_, rfl, hw, fun n hn => ?_⟩
    cases h n hn with
    | above _ hd => omega

end Yields

variable {w m : Nat}

theorem yields_moveIndex? {k : Nat} {d : Int} (hlow : 0 ≤ (k : Int) + d)
    (hm : (k : Int) + d ≤ m + 1) :
    Yields w m (fun i => i = moveIndex w k d ∧ i = moveIndex 0 k d) (moveIndex? w k d) := by
  rw [moveIndex?, if_neg (by omega)]
  split_ifs with hw
  · refine .value ⟨?_, (moveIndex_zero k d).symm⟩
    rcases hw with rfl | hw
    · exact (moveIndex_zero k d).symm
    · change ((k : Int) + d).toNat = (((k : Int) + d) % (w : Int)).toNat
      rw [Int.emod_eq_of_lt hlow hw]
  · exact .above (by omega) (by omega)

theorem moveIndex_one (w k : Nat) : moveIndex w k 1 = under w k := by
  change (((k : Int) + 1) % (w : Int)).toNat = (k + 1) % w
  rw [← Nat.cast_succ, ← Int.natCast_mod, Int.toNat_natCast]

/-- Binders are counted. -/
theorem yields_under {k : Nat} (hk : k ≤ m) :
    Yields w m (fun i => i = k + 1 ∧ under w k = k + 1) (moveIndex? w k 1) := by
  refine (yields_moveIndex? (by omega) (by omega)).mono le_rfl ?_
  rintro i ⟨hi, hzero⟩
  rw [moveIndex_one] at hi hzero
  rw [under_zero] at hzero
  exact ⟨hzero, hi.symm.trans hzero⟩

/-- Indices move up, or close the gap of a variable that does not occur. -/
theorem yields_shiftMod? {t : Term} {c : Nat} {d : Int} (hd : -1 ≤ d ∧ d ≤ 1)
    (ht : t.closedAt m = true) (hc : c ≤ m) (hfree : d < 0 → t.hasFreeMod 0 c = false) :
    Yields w m (fun u => u = t.shiftMod w d c ∧ u = t.shift d c) (t.shiftMod? w d c) := by
  induction t generalizing c m with
  | const x ty => exact .value ⟨rfl, rfl⟩
  | var k =>
    have hk : k < m := of_decide_eq_true ht
    rw [shiftMod?, shift_var, shiftMod]
    split_ifs with hck
    · have hlow : 0 ≤ (k : Int) + d := by
        by_cases hneg : d < 0
        · have hne : k ≠ c := by simpa [hasFreeMod] using hfree hneg
          omega
        · omega
      refine (yields_moveIndex? hlow (by omega)).bind ?_
      rintro i ⟨hi, hzero⟩
      exact .value ⟨congrArg var hi, congrArg var hzero⟩
    · exact .value ⟨rfl, rfl⟩
  | app f a ihf iha =>
    obtain ⟨hf, ha⟩ := closedAt_app.mp ht
    have hfree' : d < 0 → f.hasFreeMod 0 c = false ∧ a.hasFreeMod 0 c = false := by
      simpa only [hasFreeMod, Bool.or_eq_false_iff] using hfree
    rw [shiftMod?, shift_app, shiftMod]
    refine (ihf hf hc fun h => (hfree' h).1).bind ?_
    rintro f' ⟨hf', hf₀⟩
    refine (iha ha hc fun h => (hfree' h).2).bind ?_
    rintro a' ⟨ha', ha₀⟩
    exact .value ⟨congrArg₂ app hf' ha', congrArg₂ app hf₀ ha₀⟩
  | lam ty b ih =>
    rw [shiftMod?, shift_lam, shiftMod]
    refine (yields_under hc).bind ?_
    rintro _ ⟨rfl, hunder⟩
    have hb := ih ht (Nat.succ_le_succ hc) fun h => hasFreeMod_lam ▸ hfree h
    refine hb.underBinder.bind ?_
    rintro b' ⟨hb', hb₀⟩
    exact .value ⟨hunder ▸ congrArg (lam ty) hb', congrArg (lam ty) hb₀⟩

theorem yields_raise {t : Term} (ht : t.closedAt m = true) :
    Yields w m (fun u => u = t.shiftMod w 1 0 ∧ u = t.shift 1 0) (t.shiftMod? w 1 0) :=
  yields_shiftMod? (by omega) ht (Nat.zero_le m) fun h => absurd h (by omega)

theorem yields_lower? {t : Term} (ht : t.closedAt m = true) (hfree : t.hasFreeMod 0 0 = false) :
    Yields w m (fun u => u = t.shiftMod w (-1) 0 ∧ u = t.shift (-1) 0) (lower? w t) := by
  rw [lower?, hfree]
  exact yields_shiftMod? (by omega) ht (Nat.zero_le m) fun _ => hfree

/-! ## Substitution -/

theorem yields_substMod? (t : Term) {s : Term} {j : Nat} (hj : j ≤ m) (hs : s.closedAt m = true) :
    Yields w m (fun u => u = t.substMod w j s ∧ u = t.substMod 0 j s) (t.substMod? w j s) := by
  induction t generalizing s j m with
  | const x ty => exact .value ⟨rfl, rfl⟩
  | var k => exact .value ⟨rfl, rfl⟩
  | app f a ihf iha =>
    refine (ihf hj hs).bind ?_
    rintro f' ⟨hf', hf₀⟩
    refine (iha hj hs).bind ?_
    rintro a' ⟨ha', ha₀⟩
    exact .value ⟨congrArg₂ app hf' ha', congrArg₂ app hf₀ ha₀⟩
  | lam ty b ih =>
    rw [substMod?, substMod, substMod, under_zero]
    refine (yields_under hj).bind ?_
    rintro _ ⟨rfl, hunder⟩
    refine (yields_raise hs).bind ?_
    rintro s' ⟨hs', rfl⟩
    refine (ih (Nat.succ_le_succ hj) (closedAt_shift hs 1 0)).underBinder.bind ?_
    rintro b' ⟨hb', hb₀⟩
    rw [hunder, ← hs']
    exact .value ⟨congrArg (lam ty) hb', congrArg (lam ty) hb₀⟩

/-- A variable that has been replaced does not occur, unless it occurs in what it was replaced by. -/
theorem hasFreeMod_substMod (t : Term) {s : Term} {j : Nat} (hs : s.hasFreeMod 0 j = false) :
    (t.substMod 0 j s).hasFreeMod 0 j = false := by
  induction t generalizing s j with
  | const x ty => rfl
  | var k =>
    rw [substMod]
    split_ifs with hk
    · exact hs
    · exact beq_eq_false_iff_ne.mpr hk
  | app f a ihf iha => rw [substMod, hasFreeMod, ihf hs, iha hs, Bool.or_self]
  | lam ty b ih =>
    rw [substMod, hasFreeMod_lam, under_zero]
    refine ih (Bool.eq_false_iff.mpr fun h => ?_)
    obtain ⟨-, hj⟩ := (hasFreeMod_shift_iff s 1 (Nat.zero_le (j + 1))).mp h
    rw [Nat.add_sub_cancel, hs] at hj
    cases hj

theorem closedAt_substMod {t s : Term} {n j : Nat} (ht : t.closedAt n = true)
    (hs : s.closedAt n = true) : (t.substMod 0 j s).closedAt n = true := by
  induction t generalizing s n j with
  | const x ty => rfl
  | var k =>
    rw [substMod]
    split_ifs
    · exact hs
    · exact ht
  | app f a ihf iha =>
    obtain ⟨hf, ha⟩ := closedAt_app.mp ht
    exact closedAt_app.mpr ⟨ihf hf hs, iha ha hs⟩
  | lam ty b ih => exact ih ht (closedAt_shift hs 1 0)

/-- A redex is contracted as with unbounded indices: when everything moves down, the variable of the
binder that goes away has been replaced by a term that has moved up past it. -/
theorem yields_betaMod? {body arg : Term} (hbody : body.closedAt (m + 1) = true)
    (harg : arg.closedAt m = true) :
    Yields w (m + 1) (fun u => u = betaMod w body arg ∧ u = betaMod 0 body arg)
      (betaMod? w body arg) := by
  rw [betaMod?, betaMod, betaMod]
  -- the body is seen from under the binder, so the argument is bounded as it is there
  refine ((yields_raise harg).mono (Nat.le_succ m) fun _ h => h).bind ?_
  rintro arg' ⟨harg', rfl⟩
  have hraised : (arg.shift 1 0).closedAt (m + 1) = true := closedAt_shift harg 1 0
  refine (yields_substMod? body (Nat.zero_le _) hraised).bind ?_
  rintro body' ⟨hbody', rfl⟩
  rw [← harg', ← hbody']
  exact yields_lower? (closedAt_substMod hbody hraised)
    (hasFreeMod_substMod body (hasFreeMod_shift_one arg 0))

/-! ## Dropping a binder -/

theorem yields_hasFreeMod? (t : Term) {k : Nat} (hk : k ≤ m) :
    Yields w m (fun b => b = t.hasFreeMod w k ∧ b = t.hasFreeMod 0 k) (t.hasFreeMod? w k) := by
  induction t generalizing k m with
  | const x ty => exact .value ⟨rfl, rfl⟩
  | var i => exact .value ⟨rfl, rfl⟩
  | app f a ihf iha =>
    rw [hasFreeMod?, hasFreeMod, hasFreeMod]
    refine (ihf hk).bind ?_
    rintro b ⟨hb, hb₀⟩
    rw [← hb, ← hb₀]
    cases b with
    | true => exact .value ⟨rfl, rfl⟩
    | false => exact iha hk
  | lam ty b ih =>
    rw [hasFreeMod?, hasFreeMod, hasFreeMod, under_zero]
    refine (yields_under hk).bind ?_
    rintro _ ⟨rfl, hunder⟩
    rw [hunder]
    exact (ih (Nat.succ_le_succ hk)).underBinder

/-- A binder is dropped as with unbounded indices: the test has found that its variable does not
occur. -/
theorem yields_contractEta? {t : Term} (ht : t.closedAt m = true) (ty : Ty) :
    Yields w m (fun u => u = contractEta w ty t ∧ u = contractEta 0 ty t) (contractEta? w ty t) := by
  by_cases heta : ∃ f, t = app f (var 0)
  · obtain ⟨f, rfl⟩ := heta
    rw [contractEta?, contractEta, contractEta]
    refine (yields_hasFreeMod? f (Nat.zero_le m)).bind ?_
    rintro b ⟨hb, hb₀⟩
    rw [← hb, ← hb₀]
    cases b with
    | true => exact .value ⟨rfl, rfl⟩
    | false => exact yields_lower? (closedAt_app.mp ht).1 hb₀.symm
  · have hne : ∀ f, t = app f (var 0) → False := fun f h => heta ⟨f, h⟩
    rw [contractEta?.eq_2 w ty t hne, contractEta.eq_2 w ty t hne, contractEta.eq_2 0 ty t hne]
    exact .value ⟨rfl, rfl⟩

theorem moveIndex?_of_lt {k : Nat} {d : Int} (hlow : 0 ≤ (k : Int) + d) (hlt : (k : Int) + d < w) :
    moveIndex? w k d = .ok ((k : Int) + d).toNat := by
  rw [moveIndex?, if_neg (by omega), if_pos (Or.inr hlt)]

theorem moveIndex?_one_of_lt {k : Nat} (hlt : k + 1 < w) : moveIndex? w k 1 = .ok (k + 1) := by
  rw [moveIndex?_of_lt (by omega) (by omega)]
  rfl

theorem hasFreeMod?_of_lt {t : Term} {k : Nat} (h : k + t.nesting < w) :
    t.hasFreeMod? w k = .ok (t.hasFreeMod 0 k) := by
  induction t generalizing k with
  | const x ty => rfl
  | var i => rfl
  | app f a ihf iha =>
    rw [nesting] at h
    rw [hasFreeMod?, ihf (by omega), hasFreeMod]
    cases f.hasFreeMod 0 k with
    | true => rfl
    | false => exact iha (by omega)
  | lam ty b ih =>
    rw [nesting] at h
    rw [hasFreeMod?, moveIndex?_one_of_lt (by omega), hasFreeMod_lam]
    change underBinder (b.hasFreeMod? w (k + 1)) = _
    rw [ih (by omega)]
    rfl

/-- Indices close the gap of a variable that does not occur, and stay in range. -/
theorem shiftMod?_neg_one {t : Term} {c : Nat} (h : t.indicesBelow w = true)
    (hc : c + t.nesting < w) (hfree : t.hasFreeMod 0 c = false) :
    t.shiftMod? w (-1) c = .ok (t.shiftMod w (-1) c) := by
  induction t generalizing c with
  | const x ty => rfl
  | var k =>
    have hk : k < w := of_decide_eq_true h
    have hne : k ≠ c := by simpa [hasFreeMod] using hfree
    rw [shiftMod?, shiftMod]
    split_ifs with hle
    · rw [moveIndex?_of_lt (by omega) (by omega), moveIndex_neg_one_of_lt (by omega) hk,
        show ((k : Int) + -1).toNat = k - 1 by omega]
      rfl
    · rfl
  | app f a ihf iha =>
    obtain ⟨hf, ha⟩ := indicesBelow_app.mp h
    rw [nesting] at hc
    rw [hasFreeMod, Bool.or_eq_false_iff] at hfree
    rw [shiftMod?, shiftMod, ihf hf (by omega) hfree.1, iha ha (by omega) hfree.2]
    rfl
  | lam ty b ih =>
    rw [nesting] at hc
    rw [hasFreeMod_lam] at hfree
    rw [shiftMod?, shiftMod, moveIndex?_one_of_lt (by omega), under_of_lt (by omega)]
    change (do let b ← underBinder (b.shiftMod? w (-1) (c + 1)); return lam ty b) = _
    rw [ih h (by omega) hfree]
    rfl

/-- A binder of a term that fits into the words is dropped without a slip, whatever came before. -/
theorem contractEta?_of_lt {t : Term} (h : t.indicesBelow w = true) (hlt : t.nesting < w) (ty : Ty) :
    contractEta? w ty t = .ok (contractEta w ty t) := by
  by_cases heta : ∃ f, t = app f (var 0)
  · obtain ⟨f, rfl⟩ := heta
    rw [nesting, nesting, Nat.max_zero] at hlt
    have hf : 0 + f.nesting < w := by omega
    rw [contractEta?, contractEta, hasFreeMod?_of_lt hf, hasFreeMod_eq hf]
    cases hfree : f.hasFreeMod 0 0 with
    | true => rfl
    | false =>
      change lower? w f = _
      rw [lower?, hfree]
      exact shiftMod?_neg_one (indicesBelow_app.mp h).1 hf hfree
  · have hne : ∀ f, t = app f (var 0) → False := fun f h => heta ⟨f, h⟩
    rw [contractEta?.eq_2 w ty t hne, contractEta.eq_2 w ty t hne]

/-! ## The search -/

/-- Every term has finitely many free variables. -/
theorem exists_closedAt (t : Term) : ∃ n, t.closedAt n = true := by
  induction t with
  | const x ty => exact ⟨0, rfl⟩
  | var k => exact ⟨k + 1, decide_eq_true (Nat.lt_succ_self k)⟩
  | app f a ihf iha =>
    obtain ⟨n, hn⟩ := ihf
    obtain ⟨n', hn'⟩ := iha
    exact ⟨max n n', closedAt_app.mpr ⟨closedAt_mono (le_max_left n n') hn,
      closedAt_mono (le_max_right n n') hn'⟩⟩
  | lam ty b ih =>
    obtain ⟨n, hn⟩ := ih
    have hb : b.closedAt (n + 1) = true := closedAt_mono (Nat.le_succ n) hn
    exact ⟨n, hb⟩

/-- The search ends with `u`, with indices modulo `w` and with unbounded ones. -/
def Agrees (w : Nat) (t u : Term) : Prop := normalizeMod? w t = some u ∧ normalizeMod? 0 t = some u

theorem Agrees.closedAt {t u : Term} (h : Agrees w t u) (ht : t.closedAt m = true) :
    u.closedAt m = true :=
  (normalizes_of_eq_some h.2).closedAt ht

theorem Agrees.eq {n : Nat} {t u v : Term} (h : Agrees w t v) (hn : n = w ∨ n = 0)
    (hu : normalizeMod? n t = some u) : v = u := by
  rcases hn with rfl | rfl
  · exact Option.some.inj (h.1.symm.trans hu)
  · exact Option.some.inj (h.2.symm.trans hu)

/-- Whenever the search ends, then with a result as `Yields` says. -/
def Runs (w m : Nat) {α : Type} (P : α → Prop) (x : Option (Except Slip α)) : Prop :=
  ∀ r, x = some r → Yields w m P r

theorem Runs.andThen {α β : Type} {P : α → Prop} {Q : β → Prop} {x : Option (Except Slip α)}
    {k : α → Option (Except Slip β)} (h : Runs w m P x) (hk : ∀ v, P v → Runs w m Q (k v)) :
    Runs w m Q (andThen x k) := by
  intro r hr
  obtain ⟨r', hx, hr⟩ := Option.bind_eq_some_iff.mp hr
  cases h r' hx with
  | value hv => exact hk _ hv r hr
  | above hw hd => cases hr; exact .above hw hd

theorem Yields.runs {α : Type} {P : α → Prop} {r : Except Slip α} (h : Yields w m P r) :
    Runs w m P (some r) := by
  rintro _ ⟨⟩
  exact h

/-- What the checked search ends with is what the search ends with. -/
theorem runs_normalizeChecked? {t : Term} (ht : t.closedAt m = true) :
    Runs w (m + 1) (Agrees w t) (normalizeChecked? w t) := by
  intro r h
  refine normalizeChecked?.partial_correctness w (fun t r => ∀ m, t.closedAt m = true →
    Yields w (m + 1) (Agrees w t) r) (fun norm ih t r h m ht => ?_) t r h m ht
  have hnorm : ∀ t m, t.closedAt m = true → Runs w (m + 1) (Agrees w t) (norm t) :=
    fun t m ht r h => ih t r h m ht
  cases t with
  | const x ty =>
    cases h
    exact .value ⟨normalizeMod?_const w x ty, normalizeMod?_const 0 x ty⟩
  | var k =>
    cases h
    exact .value ⟨normalizeMod?_var w k, normalizeMod?_var 0 k⟩
  | app f a =>
    obtain ⟨hfm, ham⟩ := closedAt_app.mp ht
    refine Runs.andThen (hnorm f m hfm) (fun f' hf => ?_) r h
    refine Runs.andThen (hnorm a m ham) fun a' ha => ?_
    have ham' := ha.closedAt ham
    cases hlam : f'.isLam with
    | true =>
      obtain ⟨ty, b, rfl⟩ := exists_lam_of_isLam hlam
      have hb : b.closedAt (m + 1) = true := hf.closedAt hfm
      refine Runs.andThen (yields_betaMod? hb ham').runs ?_
      rintro t ⟨ht, ht₀⟩
      -- no variable becomes free, so the bound holds for what the search goes on with
      have htm : t.closedAt (m + 0) = true := by
        rw [ht₀, betaMod_zero]
        exact closedAt_instantiate ham' hb
      refine fun r hr => (hnorm t m htm r hr).mono le_rfl fun u hu => ⟨?_, ?_⟩
      · rw [normalizeMod?_redex hf.1 ha.1, ← ht, hu.1]
      · rw [normalizeMod?_redex hf.2 ha.2, ← ht₀, hu.2]
    | false =>
      have hend : Yields w (m + 1) (Agrees w (app f a)) (.ok (app f' a')) :=
        .value ⟨normalizeMod?_app hf.1 ha.1 hlam, normalizeMod?_app hf.2 ha.2 hlam⟩
      cases f' with
      | lam ty b => cases hlam
      | _ => exact hend.runs
  | lam ty b =>
    obtain ⟨rb, hb, rfl⟩ := Option.map_eq_some_iff.mp h
    have hbm : b.closedAt (m + 1) = true := ht
    refine (ih b rb hb (m + 1) hbm).underBinder.bind fun b' hb' => ?_
    refine (yields_contractEta? (hb'.closedAt hbm) ty).mono le_rfl ?_
    rintro u ⟨hu, hu₀⟩
    exact ⟨hu ▸ normalizeMod?_lam ty hb'.1, hu₀ ▸ normalizeMod?_lam ty hb'.2⟩

theorem exists_andThen {α β : Type} {P : α → Prop} {x : Option (Except Slip α)}
    {k : α → Option (Except Slip β)} (hx : ∃ r, x = some r) (hP : Runs w m P x)
    (hk : ∀ v, P v → ∃ r, k v = some r) : ∃ r, andThen x k = some r := by
  obtain ⟨r, rfl⟩ := hx
  cases hP r rfl with
  | value hv => exact hk _ hv
  | above hw hd => exact ⟨_, rfl⟩

/-- Where the search ends, with indices modulo `w` or with unbounded ones, the checked search ends. -/
theorem exists_normalizeChecked? {n : Nat} (hn : n = w ∨ n = 0) {t u : Term}
    (h : normalizeMod? n t = some u) : ∃ r, normalizeChecked? w t = some r := by
  -- that the search ends with `u` stays in the motive: what the checked search finds for the parts is
  -- compared with it
  refine (normalizeMod?.partial_correctness n (fun t u => normalizeMod? n t = some u ∧
    ∃ r, normalizeChecked? w t = some r) (fun norm ih t u h => ?_) t u h).2
  have hsearch : normalizeMod? n t = some u := by
    rw [normalizeMod?.eq_1]
    exact normalizeWith_mono (fun t u h => (ih t u h).1) h
  refine ⟨hsearch, ?_⟩
  cases t with
  | const x ty => exact ⟨_, by rw [normalizeChecked?.eq_1]; rfl⟩
  | var k => exact ⟨_, by rw [normalizeChecked?.eq_1]; rfl⟩
  | app f a =>
    simp only [normalizeWith, Option.bind_eq_bind, Option.bind_eq_some_iff] at h
    obtain ⟨f', hf, a', ha, h⟩ := h
    obtain ⟨hf, hfc⟩ := ih f f' hf
    obtain ⟨ha, hac⟩ := ih a a' ha
    obtain ⟨m, hm⟩ := exists_closedAt (app f a)
    obtain ⟨hfm, ham⟩ := closedAt_app.mp hm
    rw [normalizeChecked?.eq_1]
    refine exists_andThen hfc (runs_normalizeChecked? hfm) fun v hv => ?_
    obtain rfl := hv.eq hn hf
    refine exists_andThen hac (runs_normalizeChecked? ham) fun v' hv' => ?_
    obtain rfl := hv'.eq hn ha
    cases v with
    | lam ty body =>
      have hb : body.closedAt (m + 1) = true := hv.closedAt hfm
      refine exists_andThen ⟨_, rfl⟩ (yields_betaMod? hb (hv'.closedAt ham)).runs ?_
      rintro t ⟨ht, ht₀⟩
      obtain rfl : t = betaMod n body v' := by rcases hn with rfl | rfl <;> assumption
      exact (ih _ _ h).2
    | _ => exact ⟨_, rfl⟩
  | lam ty b =>
    simp only [normalizeWith, Option.bind_eq_bind, Option.bind_eq_some_iff] at h
    obtain ⟨b', hb, -⟩ := h
    obtain ⟨r, hr⟩ := (ih b b' hb).2
    rw [normalizeChecked?.eq_1, checkedWith, hr]
    exact ⟨_, rfl⟩

/-- What occurs free after a contraction occurred in the body, or in an argument that was put in. -/
theorem hasFreeMod_betaMod (body arg : Term) (i : Nat) :
    (betaMod 0 body arg).hasFreeMod 0 i = true ↔ body.hasFreeMod 0 (i + 1) = true ∨
      body.hasFreeMod 0 0 = true ∧ arg.hasFreeMod 0 i = true := by
  rw [betaMod_zero, hasFreeMod_instantiate, if_neg (Nat.not_lt_zero i), Nat.sub_zero]
  simp only [Nat.zero_le, true_and]

/-- The checked search is the search, or a number has moved past the last word. -/
theorem normalizeChecked?_cases (w : Nat) (t : Term) :
    (normalizeChecked? w t = (normalizeMod? w t).map .ok ∧ normalizeMod? w t = normalizeMod? 0 t) ∨
      ∃ depth, normalizeChecked? w t = some (.error (.above depth)) ∧ 0 < w ∧
        ∀ m, t.closedAt m = true → w ≤ m + depth + 2 := by
  cases hr : normalizeChecked? w t with
  | none =>
    have hnone : ∀ n, n = w ∨ n = 0 → normalizeMod? n t = none := by
      intro n hn
      rw [Option.eq_none_iff_forall_ne_some]
      intro u hu
      obtain ⟨r, hr'⟩ := exists_normalizeChecked? hn hu
      cases hr.symm.trans hr'
    rw [hnone w (Or.inl rfl), hnone 0 (Or.inr rfl)]
    exact Or.inl ⟨rfl, rfl⟩
  | some r =>
    obtain ⟨u, rfl, hu⟩ | ⟨depth, rfl, hw, hd⟩ :=
      Yields.exists_value_or (exists_closedAt t) fun m hm => runs_normalizeChecked? hm r hr
    · rw [hu.1, hu.2]
      exact Or.inl ⟨rfl, rfl⟩
    · exact Or.inr ⟨depth, rfl, hw, hd⟩

/-- A checked contraction is the contraction, or a number has moved past the last word. -/
theorem betaMod?_cases (w : Nat) (ty : Ty) (body arg : Term) :
    (betaMod? w body arg = .ok (betaMod w body arg) ∧ betaMod w body arg = betaMod 0 body arg) ∨
      ∃ depth, betaMod? w body arg = .error (.above depth) ∧ 0 < w ∧
        ∀ m, (app (lam ty body) arg).closedAt m = true → w ≤ m + depth + 2 := by
  have hyields : ∀ m, (app (lam ty body) arg).closedAt m = true → Yields w (m + 1)
      (fun u => u = betaMod w body arg ∧ u = betaMod 0 body arg) (betaMod? w body arg) :=
    fun m hm => yields_betaMod? (closedAt_app.mp hm).1 (closedAt_app.mp hm).2
  obtain ⟨u, hr, hu, hu₀⟩ | herror := Yields.exists_value_or (exists_closedAt _) hyields
  · exact Or.inl ⟨hu ▸ hr, hu.symm.trans hu₀⟩
  · exact Or.inr herror

end Term

/-- **Substitution avoids capture while numbers stay in the range of the words.** In every search for
a normal form, ending or not, from a term that may be open or untyped, indices close only gaps of
variables that do not occur, and no index moves below zero, unless a number has moved past the last
word before; until then all is as with unbounded indices. A contraction then leaves free exactly the
other free variables of the body and, if its own variable occurs, those of the argument. A number moves
past the last word only if a free variable and the binders around it are that many: never without a
modulus, and with free variables in the lower half of the words only under more binders than a machine
can hold. Where a binder is dropped, nothing goes wrong in any term that a machine can hold. -/
theorem substitution_avoids_capture (w : Nat) (t body arg : Term) (ty : Ty) :
    ((t.normalizeChecked? w = (t.normalizeMod? w).map .ok ∧
        t.normalizeMod? w = t.normalizeMod? 0) ∨
      ∃ depth, t.normalizeChecked? w = some (.error (.above depth)) ∧ 0 < w ∧
        ∀ m, t.closedAt m = true → w ≤ m + depth + 2) ∧
    (t.closedAt Bits.positives = true →
      t.normalizeChecked? t.modulus = t.normalize?.map .ok ∧
      (t.normalizeChecked? Bits.words = t.normalize?.map .ok ∨
        ∃ depth, t.normalizeChecked? Bits.words = some (.error (.above depth)) ∧
          Bits.positives ≤ depth + 2)) ∧
    ((Term.betaMod? w body arg = .ok (Term.betaMod w body arg) ∧
        ∀ i, (Term.betaMod w body arg).hasFreeMod 0 i = true ↔ body.hasFreeMod 0 (i + 1) = true ∨
          body.hasFreeMod 0 0 = true ∧ arg.hasFreeMod 0 i = true) ∨
      ∃ depth, Term.betaMod? w body arg = .error (.above depth) ∧ 0 < w ∧
        ∀ m, (Term.app (.lam ty body) arg).closedAt m = true → w ≤ m + depth + 2) ∧
    (t.InMemory →
      Term.contractEta? Bits.words ty t = .ok (Term.contractEta Bits.words ty t)) ∧
    ∀ i, (Term.betaMod 0 body arg).hasFreeMod 0 i = true ↔ body.hasFreeMod 0 (i + 1) = true ∨
      body.hasFreeMod 0 0 = true ∧ arg.hasFreeMod 0 i = true := by
  refine ⟨t.normalizeChecked?_cases w, fun ht => ?_, ?_,
    fun ht => Term.contractEta?_of_lt ht.indices ht.nesting_lt ty, Term.hasFreeMod_betaMod body arg⟩
  · have hmodulus : t.modulus = 0 := if_pos ht
    rw [Term.normalize?, hmodulus]
    constructor
    · obtain ⟨h, -⟩ | ⟨_, -, hw, -⟩ := t.normalizeChecked?_cases 0
      · exact h
      · exact absurd hw (Nat.lt_irrefl 0)
    · obtain ⟨h, hzero⟩ | ⟨depth, h, -, hd⟩ := t.normalizeChecked?_cases Bits.words
      · exact Or.inl (hzero ▸ h)
      · have hwords : Bits.words = Bits.positives + Bits.positives := rfl
        have hle := hd Bits.positives ht
        exact Or.inr ⟨depth, h, by omega⟩
  · obtain ⟨h, hzero⟩ | herror := Term.betaMod?_cases w ty body arg
    · exact Or.inl ⟨h, hzero ▸ Term.hasFreeMod_betaMod body arg⟩
    · exact Or.inr herror

/-- The open term `(λx:e.λy:e.y(x))(λz:e.v(z))` without a type. The argument loses its binder, so
that `v` goes down, and is put under another one, so that `v` goes up again and stays free. -/
theorem substitution_avoids_capture_swap :
    let body : Term := .lam .entity (.app (.var 0) (.var 1))
    let eta : Term := .app (.var 5) (.var 0)
    let t : Term := .app (.lam .entity body) (.lam .entity eta)
    let u : Term := .lam .entity (.app (.var 0) (.var 5))
    t.closedAt Bits.positives = true ∧ t.normalize? = some u ∧
      t.normalizeChecked? t.modulus = some (.ok u) ∧
      eta.InMemory ∧ Term.contractEta? Bits.words .entity eta = .ok (.var 4) ∧
      (Term.betaMod 0 body (.var 4)).hasFreeMod 0 4 = true := by
  intro body eta t u
  have ht : t.closedAt Bits.positives = true := by decide
  have hu : t.normalize? = some u := by cbv
  have heta : eta.InMemory := ⟨by decide, by decide⟩
  obtain ⟨-, hlow, -, -, hfree⟩ := substitution_avoids_capture 0 t body (.var 4) .entity
  obtain ⟨-, -, -, hdrop, -⟩ := substitution_avoids_capture 0 eta body (.var 4) .entity
  have hchecked := (hlow ht).1
  rw [hu] at hchecked
  exact ⟨ht, hu, hchecked, heta, hdrop heta, (hfree 4).mpr (Or.inr ⟨rfl, rfl⟩)⟩

/-- The last words are captured. In `(λx:e.λy:e.x)(v)`, where `v` is the last word but one, it moves
up past two binders and wraps around to the variable of the inner one: the result is `λy:e.y`. In
`(λx:e.x)(v)`, where `v` is the last word, it moves up to 0, and from there below zero. -/
theorem last_words_captured :
    let body : Term := .lam .entity (.var 1)
    let v : Nat := 0xFFFFFFFFFFFFFFFE
    (Term.app (.lam .entity body) (.var v)).normalize? = some (.lam .entity (.var 0)) ∧
    (¬ ((Term.betaMod Bits.words body (.var v)).hasFreeMod Bits.words v = true ↔
      body.hasFreeMod Bits.words (v + 1) = true ∨
        body.hasFreeMod Bits.words 0 = true ∧ (Term.var v).hasFreeMod Bits.words v = true)) ∧
    let s := (Term.var 0).substMod Bits.words 0 ((Term.var (v + 1)).shiftMod Bits.words 1 0)
    s.hasFreeMod Bits.words 0 = true ∧ s.shiftMod? Bits.words (-1) 0 = .error .below ∧
      (Term.app (.lam .entity (.var 0)) (.var (v + 1))).normalize? = some (.var (v + 1)) := by
  have hcaptured : (Term.app (.lam .entity (.lam .entity (.var 1)))
      (.var 0xFFFFFFFFFFFFFFFE)).normalize? = some (.lam .entity (.var 0)) := by cbv
  have hlast : (Term.app (.lam .entity (.var 0)) (.var 0xFFFFFFFFFFFFFFFF)).normalize? =
      some (.var 0xFFFFFFFFFFFFFFFF) := by cbv
  have hbelow : (Term.var 0).shiftMod? Bits.words (-1) 0 = .error .below := by decide
  exact ⟨hcaptured, by decide, by decide, hbelow, hlast⟩

end Categorial
