import Categorial.Proofs.NormalForm
import Mathlib.Logic.Relation

/-!
# Reduction and confluence

One step of reduction contracts a redex anywhere in a term. With types at the binders such steps are
not confluent: `λx:A.(λy:B.y)(x)` leads to `λx:A.x` and to `λy:B.y`. They are confluent once the types
at the binders are left out of account. Parallel reduction contracts any number of redexes at once and
may also change types at binders; every term has a reduct in which all its redexes are contracted, and
all other reducts lead there. So all normal forms of a term are equal up to types at binders, and the
search for a normal form ends with one of them.

* `Term.Reduces`: one contraction anywhere in a term.
* `Term.shift_instantiate`, `Term.instantiate_instantiate`: shifts and substitutions change places.
* `Term.Par`: parallel reduction up to types at binders; `Term.Par.shift`, `Term.Par.instantiate`.
* **`Term.exists_development`**: all parallel reducts of a term lead to one.
* `Term.skeleton`: a term without the types at its binders.
* **`Term.skeleton_eq_of_reductions`**: normal forms of a term are equal up to types at binders.
* `Term.Normalizes.reductions`: the search for a normal form reduces step by step.
-/

namespace Categorial.Term

/-! ## Reduction -/

/-- A redex anywhere in the term is contracted: the body of an abstraction takes the argument, or a
binder that only passes its variable on is dropped. -/
inductive Reduces : Term → Term → Prop
  | beta (ty : Ty) (b a : Term) : Reduces (app (lam ty b) a) (betaMod 0 b a)
  | eta (ty : Ty) {f : Term} (h : f.hasFreeMod 0 0 = false) :
      Reduces (lam ty (app f (var 0))) (f.shift (-1) 0)
  | fn {f f' : Term} (a : Term) : Reduces f f' → Reduces (app f a) (app f' a)
  | arg (f : Term) {a a' : Term} : Reduces a a' → Reduces (app f a) (app f a')
  | body (ty : Ty) {b b' : Term} : Reduces b b' → Reduces (lam ty b) (lam ty b')

/-- Any number of steps. -/
abbrev Reductions : Term → Term → Prop := Relation.ReflTransGen Reduces

/-! ## Shifts and substitutions -/

@[simp] theorem shift_zero (t : Term) (c : Nat) : t.shift (0 : Nat) c = t := by
  induction t generalizing c with
  | const x ty => rfl
  | var k => rw [shift_var, moveIndex_natCast, Nat.add_zero, ite_self]
  | app f a ihf iha => rw [shift_app, ihf, iha]
  | lam ty b ih => rw [shift_lam, ih]

theorem shift_one_neg_one (t : Term) (c : Nat) : (t.shift (1 : Nat) c).shift (-1) c = t := by
  have h := shift_shift_neg_one t 0 c c le_rfl le_rfl
  rwa [shift_zero] at h

theorem shift_one_injective {t u : Term} {c : Nat} (h : t.shift (1 : Nat) c = u.shift (1 : Nat) c) :
    t = u := by
  rw [← shift_one_neg_one t c, h, shift_one_neg_one]

theorem hasFreeMod_shift_one (t : Term) (c : Nat) : (t.shift (1 : Nat) c).hasFreeMod 0 c = false := by
  induction t generalizing c with
  | const x ty => rfl
  | var k =>
    rw [shift_var, moveIndex_natCast, hasFreeMod, beq_eq_false_iff_ne]
    split_ifs <;> omega
  | app f a ihf iha => rw [shift_app, hasFreeMod, ihf, iha]; rfl
  | lam ty b ih => rw [shift_lam, hasFreeMod, under_zero, ih]

/-- Two shifts change places. -/
theorem shift_exchange (t : Term) (m n : Nat) {c c' : Nat} (h : c ≤ c') :
    (t.shift m c).shift n (c' + m) = (t.shift n c').shift m c := by
  induction t generalizing c c' with
  | const x ty => rfl
  | var k =>
    simp only [shift_var, moveIndex_natCast]
    congr 1
    split_ifs <;> omega
  | app f a ihf iha => rw [shift_app, shift_app, shift_app, shift_app, ihf h, iha h]
  | lam ty b ih =>
    rw [shift_lam, shift_lam, shift_lam, shift_lam, ← ih (Nat.succ_le_succ h), Nat.add_right_comm]

/-- What is new in a term in two ways is new in both at once. -/
theorem exists_shift_of_shift_eq {f g : Term} {c : Nat}
    (h : f.shift (1 : Nat) (c + 1) = g.shift (1 : Nat) 0) :
    ∃ k : Term, f = k.shift (1 : Nat) 0 ∧ g = k.shift (1 : Nat) c := by
  have hfree : f.hasFreeMod 0 0 = false := by
    rw [← hasFreeMod_shift f 1 (Nat.succ_pos c), h, hasFreeMod_shift_one]
  have hf : (f.shift (-1) 0).shift (1 : Nat) 0 = f := shift_one_lower f 0 hfree
  refine ⟨f.shift (-1) 0, hf.symm, shift_one_injective (c := 0) ?_⟩
  rw [← h, ← shift_exchange _ 1 1 (Nat.zero_le c), hf]

theorem shift_instantiate (t s : Term) (n k c : Nat) :
    (t.instantiate s k).shift n (c + k) =
      (t.shift n (c + k + 1)).instantiate (s.shift n c) k := by
  induction t generalizing k with
  | const x ty => rfl
  | var i =>
    simp only [instantiate, shift_var, moveIndex_natCast]
    by_cases hi : i = k
    · rw [if_pos hi, if_neg (by omega : ¬ c + k + 1 ≤ i), if_pos hi]
      exact shift_exchange s k n (Nat.zero_le c)
    · split_ifs <;> simp only [shift_var, moveIndex_natCast] <;> congr 1 <;> split_ifs <;> omega
  | app f a ihf iha => rw [instantiate, shift_app, ihf, iha, shift_app, instantiate]
  | lam ty b ih => rw [instantiate, shift_lam, Nat.add_assoc, ih, shift_lam, instantiate]

/-- Nothing is put in place of a new variable. -/
theorem instantiate_shift_one (t s : Term) (k : Nat) : (t.shift (1 : Nat) k).instantiate s k = t := by
  induction t generalizing k with
  | const x ty => rfl
  | var i =>
    rw [shift_var, moveIndex_natCast, instantiate]
    split_ifs <;> first | omega | rfl
  | app f a ihf iha => rw [shift_app, instantiate, ihf, iha]
  | lam ty b ih => rw [shift_lam, instantiate, ih]

/-- A variable is put in place of itself. -/
theorem instantiate_var_zero (t : Term) (k : Nat) :
    (t.shift (1 : Nat) (k + 1)).instantiate (var 0) k = t := by
  induction t generalizing k with
  | const x ty => rfl
  | var i =>
    rw [shift_var, moveIndex_natCast, instantiate, shift_var, moveIndex_natCast]
    split_ifs <;> congr 1 <;> omega
  | app f a ihf iha => rw [shift_app, instantiate, ihf, iha]
  | lam ty b ih => rw [shift_lam, instantiate, ih]

theorem instantiate_shift (t s : Term) (n : Nat) {k c : Nat} (h : c ≤ k) :
    (t.shift n c).instantiate s (k + n) = (t.instantiate s k).shift n c := by
  induction t generalizing k c with
  | const x ty => rfl
  | var i =>
    simp only [instantiate, shift_var, moveIndex_natCast]
    by_cases hi : i = k
    · rw [if_pos hi, if_pos (by omega : c ≤ i), if_pos (by omega)]
      exact (shift_shift s k n 0 c (Nat.zero_le c) (by omega)).symm
    · split_ifs <;> simp only [shift_var, moveIndex_natCast] <;>
        first | omega | (congr 1; split_ifs <;> omega)
  | app f a ihf iha => rw [shift_app, instantiate, ihf h, iha h, instantiate, shift_app]
  | lam ty b ih =>
    rw [shift_lam, instantiate, Nat.add_right_comm, ih (Nat.succ_le_succ h), instantiate, shift_lam]

/-- Two substitutions change places. -/
theorem instantiate_instantiate (t a s : Term) (i k : Nat) :
    (t.instantiate a i).instantiate s (k + i) =
      (t.instantiate s (k + i + 1)).instantiate (a.instantiate s k) i := by
  induction t generalizing i with
  | const x ty => rfl
  | var j =>
    by_cases h₁ : j = i
    · rw [instantiate, if_pos h₁, instantiate, if_neg (by omega), if_neg (by omega), instantiate,
        if_pos h₁, instantiate_shift a s i (Nat.zero_le k)]
    · by_cases h₂ : j = k + i + 1
      · have hs : s.shift (k + i + 1 : Nat) 0 = (s.shift (k + i : Nat) 0).shift (1 : Nat) i :=
          (shift_shift s (k + i) 1 0 i (Nat.zero_le i) (by omega)).symm
        rw [instantiate, if_neg h₁, if_pos (by omega), instantiate, if_pos (by omega), instantiate,
          if_pos h₂, hs, instantiate_shift_one]
      · simp only [instantiate, if_neg h₁, if_neg h₂]
        split_ifs <;> simp only [instantiate] <;> split_ifs <;> first | omega | rfl
  | app f b ihf ihb => simp only [instantiate, ihf, ihb]
  | lam ty b ih =>
    have hb := ih (i + 1)
    rw [← Nat.add_assoc] at hb
    rw [instantiate, instantiate, hb, instantiate, instantiate]

/-! ## Parallel reduction -/

/-- Any number of redexes are contracted at once, and types at binders may change. -/
inductive Par : Term → Term → Prop
  | const (n : String) (ty : Ty) : Par (const n ty) (const n ty)
  | var (k : Nat) : Par (var k) (var k)
  | app {f f' a a' : Term} : Par f f' → Par a a' → Par (app f a) (app f' a')
  | lam (ty ty' : Ty) {b b' : Term} : Par b b' → Par (lam ty b) (lam ty' b')
  | beta (ty : Ty) {b b' a a' : Term} : Par b b' → Par a a' →
      Par (app (lam ty b) a) (b'.instantiate a' 0)
  | eta (ty : Ty) {f f' : Term} : Par f f' →
      Par (lam ty (app (f.shift (1 : Nat) 0) (var 0))) f'

namespace Par

theorem refl (t : Term) : Par t t := by
  induction t with
  | const n ty => exact .const n ty
  | var k => exact .var k
  | app f a ihf iha => exact .app ihf iha
  | lam ty b ih => exact .lam ty ty ih

protected theorem shift {t t' : Term} (h : Par t t') (n c : Nat) :
    Par (t.shift n c) (t'.shift n c) := by
  induction h generalizing c with
  | const x ty => exact .const x ty
  | var k => exact .refl _
  | app _ _ ihf iha => exact .app (ihf c) (iha c)
  | lam ty ty' _ ih =>
    rw [shift_lam, shift_lam]
    exact .lam ty ty' (ih (c + 1))
  | beta ty _ _ ihb iha =>
    rw [shift_app, shift_lam, show c = c + 0 from rfl, shift_instantiate]
    exact .beta ty (ihb (c + 1)) (iha c)
  | @eta ty f f' _ ih =>
    rw [shift_lam, shift_app, shift_exchange f 1 n (Nat.zero_le c)]
    exact .eta ty (ih c)

protected theorem instantiate {t t' s s' : Term} (h : Par t t') (hs : Par s s') (k : Nat) :
    Par (t.instantiate s k) (t'.instantiate s' k) := by
  induction h generalizing k with
  | const x ty => exact .const x ty
  | var i =>
    rw [Term.instantiate, Term.instantiate]
    split_ifs
    · exact hs.shift k 0
    · exact .var _
    · exact .var _
  | app _ _ ihf iha => exact .app (ihf k) (iha k)
  | lam ty ty' _ ih => exact .lam ty ty' (ih (k + 1))
  | @beta ty b b' a a' _ _ ihb iha =>
    have he := instantiate_instantiate b' a' s' 0 k
    rw [Nat.add_zero] at he
    rw [he]
    exact .beta ty (ihb (k + 1)) (iha k)
  | @eta ty f f' _ ih =>
    rw [Term.instantiate, Term.instantiate, instantiate_shift f s 1 (Nat.zero_le k)]
    exact .eta ty (ih k)

/-- A reduct of a term without a variable is without it. -/
theorem exists_of_shift {t u : Term} {c : Nat} (h : Par (t.shift (1 : Nat) c) u) :
    ∃ u', u = u'.shift (1 : Nat) c ∧ Par t u' := by
  generalize he : t.shift (1 : Nat) c = t' at h
  induction h generalizing t c with
  | const x ty =>
    cases t with
    | const y ty' => exact ⟨_, he.symm, .refl _⟩
    | _ => cases he
  | var k =>
    cases t with
    | var i => exact ⟨_, he.symm, .refl _⟩
    | _ => cases he
  | app _ _ ihf iha =>
    cases t with
    | app g b =>
      obtain ⟨hg, hb⟩ := app.inj he
      obtain ⟨g', rfl, hg'⟩ := ihf hg
      obtain ⟨b', rfl, hb'⟩ := iha hb
      exact ⟨.app g' b', rfl, .app hg' hb'⟩
    | _ => cases he
  | lam ty ty' _ ih =>
    cases t with
    | lam x b =>
      rw [shift_lam] at he
      obtain ⟨rfl, hb⟩ := lam.inj he
      obtain ⟨b', rfl, hb'⟩ := ih hb
      exact ⟨.lam ty' b', (shift_lam ..).symm, .lam x ty' hb'⟩
    | _ => cases he
  | beta ty _ _ ihb iha =>
    cases t with
    | app g a =>
      obtain ⟨hg, ha⟩ := app.inj he
      cases g with
      | lam x b =>
        obtain ⟨rfl, hb⟩ := lam.inj ((shift_lam x b _ c).symm.trans hg)
        obtain ⟨b', rfl, hb'⟩ := ihb hb
        obtain ⟨a', rfl, ha'⟩ := iha ha
        exact ⟨b'.instantiate a' 0, (shift_instantiate b' a' 1 0 c).symm, .beta x hb' ha'⟩
      | _ => cases hg
    | _ => cases he
  | eta ty _ ih =>
    cases t with
    | lam x b =>
      rw [shift_lam] at he
      obtain ⟨rfl, hb⟩ := lam.inj he
      cases b with
      | app g v =>
        obtain ⟨hg, hv⟩ := app.inj hb
        obtain ⟨k, rfl, rfl⟩ := exists_shift_of_shift_eq hg
        have hv' : v = .var 0 := shift_one_injective (c := c + 1) (hv.trans rfl)
        obtain ⟨f', rfl, hf'⟩ := ih rfl
        exact ⟨f', rfl, hv' ▸ .eta x hf'⟩
      | _ => cases hb
    | _ => cases he

end Par

/-! ## Developments -/

/-- The number of constants, variables, applications and abstractions. -/
def nodes : Term → Nat
  | const _ _ => 1
  | var _ => 1
  | app f a => f.nodes + a.nodes + 1
  | lam _ b => b.nodes + 1

@[simp] theorem nodes_shift (t : Term) (d : Int) (c : Nat) : (t.shift d c).nodes = t.nodes := by
  induction t generalizing c with
  | const x ty => rfl
  | var k => rfl
  | app f a ihf iha => rw [shift_app, nodes, nodes, ihf, iha]
  | lam ty b ih => rw [shift_lam, nodes, nodes, ih]

/-- All parallel reducts of the first term lead to the second. -/
def Develops (t d : Term) : Prop := ∀ u, Par t u → Par u d

theorem develops_redex {ty : Ty} {b a db da : Term} (hb : Develops b db) (ha : Develops a da) :
    Develops (app (lam ty b) a) (db.instantiate da 0) := by
  intro u hu
  cases hu with
  | beta _ hb' ha' => exact (hb _ hb').instantiate (ha _ ha') 0
  | app hf ha' =>
    cases hf with
    | lam _ ty' hb' => exact .beta ty' (hb _ hb') (ha _ ha')
    | @eta _ f f' hf' =>
      -- the function is `f` passed through a binder: contract the body instead
      have hpar := hb _ (.app (hf'.shift 1 0) (.var 0))
      have hinst := hpar.instantiate (ha _ ha') 0
      rwa [instantiate, instantiate_shift_one, instantiate, if_pos rfl, shift_zero] at hinst

theorem develops_etaRedex {ty : Ty} {f d : Term} (h : Develops f d) :
    Develops (lam ty (app (f.shift (1 : Nat) 0) (var 0))) d := by
  intro u hu
  generalize he : app (f.shift (1 : Nat) 0) (var 0) = b at hu
  cases hu with
  | eta _ hg =>
    obtain ⟨hfg, -⟩ := app.inj he
    cases shift_one_injective hfg
    exact h _ hg
  | lam _ ty' hb =>
    subst he
    generalize hg : f.shift (1 : Nat) 0 = g at hb
    cases hb with
    | app hf hv =>
      subst hg
      obtain ⟨f', rfl, hf'⟩ := hf.exists_of_shift
      cases hv
      exact .eta ty' (h _ hf')
    | @beta x c c' v v' hc hv =>
      cases hv
      -- the function is an abstraction: its binder could have been dropped as well
      cases f with
      | lam y b =>
        rw [shift_lam] at hg
        obtain ⟨rfl, rfl⟩ := lam.inj hg
        obtain ⟨b', rfl, hb'⟩ := hc.exists_of_shift
        rw [instantiate_var_zero]
        exact h _ (.lam y ty' hb')
      | _ => cases hg

/-- **All parallel reducts of a term lead to one.** -/
theorem exists_development (t : Term) : ∃ d, Develops t d := by
  induction hn : t.nodes using Nat.strong_induction_on generalizing t with
  | _ n ih =>
  cases t with
  | const x ty =>
    refine ⟨const x ty, fun u hu => ?_⟩
    cases hu
    exact .const x ty
  | var k =>
    refine ⟨var k, fun u hu => ?_⟩
    cases hu
    exact .var k
  | app f a =>
    rw [nodes] at hn
    obtain ⟨da, hda⟩ := ih a.nodes (by omega) a rfl
    cases hf : f.isLam with
    | true =>
      obtain ⟨ty, b, rfl⟩ := exists_lam_of_isLam hf
      rw [nodes] at hn
      obtain ⟨db, hdb⟩ := ih b.nodes (by omega) b rfl
      exact ⟨_, develops_redex hdb hda⟩
    | false =>
      obtain ⟨df, hdf⟩ := ih f.nodes (by omega) f rfl
      refine ⟨app df da, fun u hu => ?_⟩
      cases hu with
      | app hf' ha' => exact .app (hdf _ hf') (hda _ ha')
      | beta _ _ _ => cases hf
  | lam ty b =>
    rw [nodes] at hn
    by_cases hb : ∃ f : Term, b = app (f.shift (1 : Nat) 0) (var 0)
    · obtain ⟨f, rfl⟩ := hb
      rw [nodes, nodes_shift] at hn
      obtain ⟨d, hd⟩ := ih f.nodes (by omega) f rfl
      exact ⟨d, develops_etaRedex hd⟩
    · obtain ⟨db, hdb⟩ := ih b.nodes (by omega) b rfl
      refine ⟨lam ty db, fun u hu => ?_⟩
      cases hu with
      | lam _ ty' hb' => exact .lam ty' ty (hdb _ hb')
      | eta _ _ => exact (hb ⟨_, rfl⟩).elim

/-! ## Normal forms up to types at binders -/

/-- The term with one and the same type at all binders. -/
def skeleton : Term → Term
  | const n ty => const n ty
  | var k => var k
  | app f a => app f.skeleton a.skeleton
  | lam _ b => lam .entity b.skeleton

theorem hasFreeMod_skeleton (t : Term) (k : Nat) : t.skeleton.hasFreeMod 0 k = t.hasFreeMod 0 k := by
  induction t generalizing k with
  | const x ty => rfl
  | var i => rfl
  | app f a ihf iha => rw [skeleton, hasFreeMod, hasFreeMod, ihf, iha]
  | lam ty b ih => rw [skeleton, hasFreeMod, hasFreeMod, ih]

theorem isEtaBody_skeleton (t : Term) : t.skeleton.isEtaBody = t.isEtaBody := by
  cases t with
  | app f a =>
    cases a with
    | var k =>
      cases k with
      | zero => simp only [skeleton, isEtaBody, hasFreeMod_skeleton]
      | succ k => rfl
    | _ => rfl
  | _ => rfl

theorem isLam_skeleton (t : Term) : t.skeleton.isLam = t.isLam := by
  cases t <;> rfl

theorem isNormal_skeleton (t : Term) : t.skeleton.isNormal = t.isNormal := by
  induction t with
  | const x ty => rfl
  | var k => rfl
  | app f a ihf iha => rw [skeleton, isNormal, isNormal, isLam_skeleton, ihf, iha]
  | lam ty b ih => rw [skeleton, isNormal, isNormal, isEtaBody_skeleton, ih]

theorem isEtaBody_of_shift (f : Term) : (app (f.shift (1 : Nat) 0) (var 0)).isEtaBody = true := by
  rw [isEtaBody, hasFreeMod_shift_one]
  rfl

/-- Nothing but the types at binders can change in a normal term. -/
theorem Par.skeleton_eq {t u : Term} (h : Par t u) (hn : t.isNormal = true) :
    u.skeleton = t.skeleton := by
  induction h with
  | const x ty => rfl
  | var k => rfl
  | app _ _ ihf iha =>
    obtain ⟨-, hf, ha⟩ := isNormal_app.mp hn
    rw [skeleton, skeleton, ihf hf, iha ha]
  | lam ty ty' _ ih => rw [skeleton, skeleton, ih (isNormal_lam.mp hn).2]
  | beta ty _ _ _ _ => cases (isNormal_app.mp hn).1
  | @eta ty f f' _ _ =>
    have heta := (isNormal_lam.mp hn).1
    rw [isEtaBody_of_shift] at heta
    cases heta

theorem skeleton_eq_of_pars {t u : Term} (h : Relation.ReflTransGen Par t u)
    (hn : t.isNormal = true) : u.skeleton = t.skeleton := by
  induction h with
  | refl => rfl
  | tail _ hstep ih =>
    refine (hstep.skeleton_eq ?_).trans ih
    rw [← isNormal_skeleton, ih, isNormal_skeleton, hn]

theorem Reduces.par {t u : Term} (h : Reduces t u) : Par t u := by
  induction h with
  | beta ty b a =>
    rw [betaMod_zero]
    exact .beta ty (.refl b) (.refl a)
  | @eta ty f hf =>
    have hpar := Par.eta ty (Par.refl (f.shift (-1) 0))
    rwa [shift_one_lower f 0 hf] at hpar
  | fn a _ ih => exact .app ih (.refl a)
  | arg f _ ih => exact .app (.refl f) ih
  | body ty _ ih => exact .lam ty ty ih

theorem Reductions.pars {t u : Term} (h : Reductions t u) : Relation.ReflTransGen Par t u :=
  h.lift id fun _ _ hstep => hstep.par

/-- **The normal forms of a term are equal up to types at binders.** -/
theorem skeleton_eq_of_reductions {t u v : Term} (hu : Reductions t u) (hv : Reductions t v)
    (hun : u.isNormal = true) (hvn : v.isNormal = true) : u.skeleton = v.skeleton := by
  have hdiamond : ∀ a b c, Par a b → Par a c →
      ∃ d, Relation.ReflGen Par b d ∧ Relation.ReflTransGen Par c d := by
    intro a b c hb hc
    obtain ⟨d, hd⟩ := exists_development a
    exact ⟨d, .single (hd b hb), .single (hd c hc)⟩
  obtain ⟨w, huw, hvw⟩ := Relation.church_rosser hdiamond hu.pars hv.pars
  rw [← skeleton_eq_of_pars huw hun, skeleton_eq_of_pars hvw hvn]

/-! ## The search reduces -/

namespace Reductions

theorem app {f f' a a' : Term} (hf : Reductions f f') (ha : Reductions a a') :
    Reductions (.app f a) (.app f' a') :=
  (hf.lift (fun g => Term.app g a) fun _ _ h => Reduces.fn a h).trans
    (ha.lift (fun b => Term.app f' b) fun _ _ h => Reduces.arg f' h)

theorem lam (ty : Ty) {b b' : Term} (h : Reductions b b') :
    Reductions (.lam ty b) (.lam ty b') :=
  h.lift (Term.lam ty) fun _ _ h => Reduces.body ty h

theorem beta (ty : Ty) (b a : Term) : Reductions (.app (.lam ty b) a) (b.instantiate a 0) := by
  rw [← betaMod_zero]
  exact .single (.beta ty b a)

theorem contractEta (ty : Ty) (b : Term) : Reductions (.lam ty b) (contractEta 0 ty b) := by
  cases hb : b.isEtaBody with
  | true =>
    obtain ⟨f, rfl, hf, he⟩ := contractEta_of_isEtaBody hb ty
    rw [he]
    exact .single (.eta ty hf)
  | false =>
    rw [contractEta_of_not_isEtaBody hb]

end Reductions

/-- The search for a normal form reduces step by step. -/
theorem Normalizes.reductions {t u : Term} (h : Normalizes t u) : Reductions t u := by
  induction h with
  | const n ty => exact .refl
  | var k => exact .refl
  | redex _ _ _ ihf iha ihu => exact ((Reductions.app ihf iha).trans (Reductions.beta ..)).trans ihu
  | app _ _ _ ihf iha => exact Reductions.app ihf iha
  | lam _ ih => exact (Reductions.lam _ ih).trans (Reductions.contractEta ..)

end Categorial.Term
