import Refutation.Inference.Rule
import Refutation.Proofs.Renaming
import Mathlib.Data.List.InsertIdx
import Mathlib.Data.List.Perm.Basic

/-!
# The inference rules

What resolution and factoring return, in terms of the literals of their premises, and three
properties of each call of a rule.

* `Entry.resolve_eq_some_iff`, `Entry.factor_eq_some_iff` : the literals of the conclusion.
* `Call.models_result` : **soundness**, if the unifier of the call is acyclic.
* `Entry.exists_resolvent_of_isPartner`, `Entry.exists_factor_of_predicate_eq` : **lifting**, every
  inference between instances of the premises is an instance of an inference between the premises.
* `Call.isFlat_result` : without function symbols no unifier is cyclic.
-/

namespace Refutation

universe u

/-! ### Leaving out one literal -/

theorem perm_cons_eraseIdx {α : Type} {as : List α} {i : Nat} {a : α} (h : as[i]? = some a) :
    as.Perm (a :: as.eraseIdx i) := by
  obtain ⟨hi, rfl⟩ := List.getElem?_eq_some_iff.1 h
  exact (List.getElem_cons_eraseIdx_perm hi).symm

theorem eq_or_mem_eraseIdx {α : Type} {as : List α} {i : Nat} {a b : α} (h : as[i]? = some a)
    (hb : b ∈ as) : b = a ∨ b ∈ as.eraseIdx i :=
  List.mem_cons.1 ((perm_cons_eraseIdx h).mem_iff.1 hb)

theorem mem_eraseIdx_of_ne {α : Type} {as : List α} {i j : Nat} {a : α} (h : as[i]? = some a)
    (hij : i ≠ j) : a ∈ as.eraseIdx j := by
  rw [List.mem_eraseIdx_iff_getElem?]
  exact ⟨i, hij, h⟩

namespace Clause

theorem getElem?_signedAtoms (c : Clause) (i : Nat) :
    c.signedAtoms[i]? = c.literals[i]?.map (·.toSignedAtom) := by
  simp [signedAtoms]

@[simp] theorem literals_conclude (rule : String) (premises : List Entry) (ls : List Literal) :
    (conclude rule premises ls).literals = ls := rfl

@[simp] theorem signedAtoms_conclude (rule : String) (premises : List Entry) (ls : List Literal) :
    (conclude rule premises ls).signedAtoms = ls.map (·.toSignedAtom) := rfl

end Clause

theorem map_toSignedAtom_instantiate (ls : List Literal) (σ : Substitution) :
    (ls.map (·.instantiate σ)).map (·.toSignedAtom) =
      (ls.map (·.toSignedAtom)).map (·.subst σ.assign) := by
  simp

/-! ### What the rules return -/

theorem resolvent?_eq_some_iff {ls ms rs : List Literal} {i j : Nat} :
    resolvent? ls i ms j = some rs ↔ ∃ l m σ, ls[i]? = some l ∧ ms[j]? = some m ∧
      l.atom.unifier? m.atom = some σ ∧
      rs = (ls.eraseIdx i ++ ms.eraseIdx j).map (·.instantiate σ) := by
  simp only [resolvent?, bind, pure, Option.bind_eq_some_iff, Option.some.injEq]
  constructor
  · rintro ⟨l, hl, m, hm, σ, hσ, rfl⟩
    exact ⟨l, m, σ, hl, hm, hσ, rfl⟩
  · rintro ⟨l, m, σ, hl, hm, hσ, rfl⟩
    exact ⟨l, hl, m, hm, σ, hσ, rfl⟩

theorem factor?_eq_some_iff {ls rs : List Literal} {i j : Nat} :
    factor? ls i j = some rs ↔ ∃ l m σ, ls[i]? = some l ∧ ls[j]? = some m ∧
      l.atom.unifier? m.atom = some σ ∧ rs = (ls.eraseIdx j).map (·.instantiate σ) := by
  simp only [factor?, bind, pure, Option.bind_eq_some_iff, Option.some.injEq]
  constructor
  · rintro ⟨l, hl, m, hm, σ, hσ, rfl⟩
    exact ⟨l, m, σ, hl, hm, hσ, rfl⟩
  · rintro ⟨l, m, σ, hl, hm, hσ, rfl⟩
    exact ⟨l, hl, m, hm, σ, hσ, rfl⟩

theorem Literal.isPartner_iff {l m : Literal} :
    l.isPartner m = true ↔ l.negative ≠ m.negative ∧ l.predicate = m.predicate := by
  simp [isPartner]

theorem Literal.isPartner_comm (l m : Literal) : l.isPartner m = m.isPartner l := by
  rw [Bool.eq_iff_iff, isPartner_iff, isPartner_iff]
  exact ⟨fun h => ⟨h.1.symm, h.2.symm⟩, fun h => ⟨h.1.symm, h.2.symm⟩⟩

namespace Entry

variable {c d : Entry} {i j : Nat} {fresh : FreshVars} {r : Clause}

theorem resolve_eq_some_iff : (c.resolve i d j fresh).1 = some r ↔
    ∃ l m σ, c.clause.literals[i]? = some l ∧ d.clause.literals[j]? = some m ∧
      l.isPartner m = true ∧
      l.atom.unifier? (m.atom.subst (d.clause.freshening fresh)) = some σ ∧
      r = .conclude "resolution" [c, d] ((c.clause.literals.eraseIdx i ++
        (d.clause.freshCopy fresh).1.literals.eraseIdx j).map (·.instantiate σ)) := by
  unfold resolve
  cases hl : c.clause.literals[i]? with
  | none => simp
  | some l =>
    cases hm : d.clause.literals[j]? with
    | none => simp
    | some m =>
      by_cases hpartner : l.isPartner m = true
      · simp only [hpartner, if_true, Option.map_eq_some_iff, resolvent?_eq_some_iff, hl,
          Clause.literals_freshCopy, List.getElem?_map, hm, Option.map_some, Option.some.injEq]
        constructor
        · rintro ⟨_, ⟨_, _, σ, rfl, rfl, hσ, rfl⟩, rfl⟩
          exact ⟨l, m, σ, rfl, rfl, hpartner, hσ, rfl⟩
        · rintro ⟨_, _, σ, rfl, rfl, -, hσ, rfl⟩
          exact ⟨_, ⟨l, _, σ, rfl, rfl, hσ, rfl⟩, rfl⟩
      · simp only [hpartner, Option.some.injEq]
        constructor
        · simp
        · rintro ⟨_, _, _, rfl, rfl, h, -⟩
          exact absurd h hpartner

theorem factor_eq_some_iff : c.factor i j = some r ↔
    ∃ l m σ, c.clause.literals[i]? = some l ∧ c.clause.literals[j]? = some m ∧ i ≠ j ∧
      l.negative = m.negative ∧ l.predicate = m.predicate ∧ l.atom.unifier? m.atom = some σ ∧
      r = .conclude "factor" [c] ((c.clause.literals.eraseIdx j).map (·.instantiate σ)) := by
  unfold factor
  cases hl : c.clause.literals[i]? with
  | none => simp
  | some l =>
    cases hm : c.clause.literals[j]? with
    | none => simp
    | some m =>
      by_cases hfits : i ≠ j ∧ l.negative = m.negative ∧ l.predicate = m.predicate
      · simp only [hfits, if_true, Option.map_eq_some_iff, factor?_eq_some_iff, hl, hm, true_and,
          ne_eq, not_false_eq_true, Option.some.injEq]
        constructor
        · rintro ⟨_, ⟨_, _, σ, rfl, rfl, hσ, rfl⟩, rfl⟩
          exact ⟨l, m, σ, rfl, rfl, hfits.2.1, hfits.2.2, hσ, rfl⟩
        · rintro ⟨_, _, σ, rfl, rfl, -, -, hσ, rfl⟩
          exact ⟨_, ⟨l, m, σ, rfl, rfl, hσ, rfl⟩, rfl⟩
      · simp only [hfits, if_false, Option.some.injEq]
        constructor
        · simp
        · rintro ⟨_, _, _, rfl, rfl, h₁, h₂, h₃, -⟩
          exact absurd ⟨h₁, h₂, h₃⟩ hfits

theorem drawn_resolve (c : Entry) (i : Nat) (d : Entry) (j : Nat) (fresh : FreshVars) :
    (c.resolve i d j fresh).2.drawn = fresh.drawn ∨
    (c.resolve i d j fresh).2.drawn = fresh.drawn + d.clause.vars.length := by
  unfold resolve
  split
  · split_ifs
    · exact .inr Clause.drawn_freshCopy
    · exact .inl rfl
  · exact .inl rfl

end Entry

/-! ### Calls of the rules -/

/-- A call of an inference rule. -/
inductive Call where
  /-- Resolution of literal `i` of `c` with literal `j` of `d`, with the given fresh variables. -/
  | resolve (c : Entry) (i : Nat) (d : Entry) (j : Nat) (fresh : FreshVars)
  /-- Factoring of literals `i` and `j` of `c`. -/
  | factor (c : Entry) (i j : Nat)
deriving DecidableEq

namespace Call

/-- The clauses that the rule is applied to. -/
def premises : Call → List Entry
  | resolve c _ d _ _ => [c, d]
  | factor c _ _ => [c]

/-- What the call returns. -/
def result? : Call → Option Clause
  | resolve c i d j fresh => (c.resolve i d j fresh).1
  | factor c i j => c.factor i j

/-- The unifier that the call computes. -/
def unifier? : Call → Option Substitution
  | resolve c i d j fresh => do
    let l ← c.clause.literals[i]?
    let m ← (d.clause.freshCopy fresh).1.literals[j]?
    l.atom.unifier? m.atom
  | factor c i j => do
    let l ← c.clause.literals[i]?
    let m ← c.clause.literals[j]?
    l.atom.unifier? m.atom

/-- The unifier of the call, if there is one, is acyclic. -/
def IsAcyclic (k : Call) : Prop := ∀ σ, k.unifier? = some σ → σ.isCyclic = false

end Call

namespace Entry

variable {c d : Entry} {i j : Nat} {fresh : FreshVars} {r : Clause}

theorem signedAtoms_resolvent (σ : Substitution) :
    (Clause.conclude "resolution" [c, d] ((c.clause.literals.eraseIdx i ++
        (d.clause.freshCopy fresh).1.literals.eraseIdx j).map (·.instantiate σ))).signedAtoms =
      (c.clause.signedAtoms.eraseIdx i ++
        (d.clause.signedAtoms.eraseIdx j).map (·.subst (d.clause.freshening fresh))).map
          (·.subst σ.assign) := by
  rw [Clause.signedAtoms_conclude, map_toSignedAtom_instantiate, List.map_append,
    ← List.eraseIdx_map, ← List.eraseIdx_map]
  congr 2
  rw [← List.eraseIdx_map]
  exact congrArg (List.eraseIdx · j) Clause.signedAtoms_freshCopy

theorem signedAtoms_resolve (h : (c.resolve i d j fresh).1 = some r) :
    ∃ a b σ, c.clause.signedAtoms[i]? = some a ∧ d.clause.signedAtoms[j]? = some b ∧
      a.negative ≠ b.negative ∧ (Call.resolve c i d j fresh).unifier? = some σ ∧
      a.atom.unifier? (b.atom.subst (d.clause.freshening fresh)) = some σ ∧
      r.signedAtoms = (c.clause.signedAtoms.eraseIdx i ++
        (d.clause.signedAtoms.eraseIdx j).map (·.subst (d.clause.freshening fresh))).map
          (·.subst σ.assign) := by
  obtain ⟨l, m, σ, hl, hm, hpartner, hσ, rfl⟩ := resolve_eq_some_iff.1 h
  refine ⟨l.toSignedAtom, m.toSignedAtom, σ, ?_, ?_, (Literal.isPartner_iff.1 hpartner).1, ?_, hσ,
    signedAtoms_resolvent σ⟩
  · rw [Clause.getElem?_signedAtoms, hl, Option.map_some]
  · rw [Clause.getElem?_signedAtoms, hm, Option.map_some]
  · simp only [Call.unifier?, hl, Clause.literals_freshCopy, List.getElem?_map, hm, Option.map_some]
    exact hσ

theorem signedAtoms_factor (h : c.factor i j = some r) :
    ∃ a b σ, c.clause.signedAtoms[i]? = some a ∧ c.clause.signedAtoms[j]? = some b ∧ i ≠ j ∧
      a.negative = b.negative ∧ (Call.factor c i j).unifier? = some σ ∧
      a.atom.unifier? b.atom = some σ ∧
      r.signedAtoms = (c.clause.signedAtoms.eraseIdx j).map (·.subst σ.assign) := by
  obtain ⟨l, m, σ, hl, hm, hij, hsign, -, hσ, rfl⟩ := factor_eq_some_iff.1 h
  refine ⟨l.toSignedAtom, m.toSignedAtom, σ, ?_, ?_, hij, hsign, ?_, hσ, ?_⟩
  · rw [Clause.getElem?_signedAtoms, hl, Option.map_some]
  · rw [Clause.getElem?_signedAtoms, hm, Option.map_some]
  · simp only [Call.unifier?, hl, hm]
    exact hσ
  · rw [Clause.signedAtoms_conclude, map_toSignedAtom_instantiate, ← List.eraseIdx_map]
    rfl

end Entry

namespace Call

variable {k : Call} {r : Clause}

/-- Every literal of a conclusion is an instance of a literal of a premise. -/
theorem exists_of_mem_result (h : k.result? = some r) {a : SignedAtom} (ha : a ∈ r.signedAtoms) :
    ∃ e ∈ k.premises, ∃ b ∈ e.clause.signedAtoms, ∃ θ, a = b.subst θ := by
  cases k with
  | resolve c i d j fresh =>
    obtain ⟨_, _, σ, -, -, -, -, -, hr⟩ := Entry.signedAtoms_resolve h
    rw [hr] at ha
    obtain ⟨b, hb, rfl⟩ := List.mem_map.1 ha
    rcases List.mem_append.1 hb with hb | hb
    · exact ⟨c, by simp [premises], b, List.mem_of_mem_eraseIdx hb, _, rfl⟩
    · obtain ⟨b', hb', rfl⟩ := List.mem_map.1 hb
      exact ⟨d, by simp [premises], b', List.mem_of_mem_eraseIdx hb', _,
        SignedAtom.subst_subst _ _ _⟩
  | factor c i j =>
    obtain ⟨_, _, σ, -, -, -, -, -, -, hr⟩ := Entry.signedAtoms_factor h
    rw [hr] at ha
    obtain ⟨b, hb, rfl⟩ := List.mem_map.1 ha
    exact ⟨c, by simp [premises], b, List.mem_of_mem_eraseIdx hb, _, rfl⟩

/-- The tag and the flag of a literal of a conclusion are computed from its signed atom. -/
theorem toLiteral_toSignedAtom (h : k.result? = some r) :
    ∀ l ∈ r.literals, l.toSignedAtom.toLiteral = l := by
  have hinst : ∀ (ls : List Literal) (σ : Substitution),
      ∀ l ∈ ls.map (·.instantiate σ), l.toSignedAtom.toLiteral = l := by
    intro ls σ l hl
    obtain ⟨l', -, rfl⟩ := List.mem_map.1 hl
    rfl
  cases k with
  | resolve c i d j fresh =>
    obtain ⟨_, _, σ, -, -, -, -, rfl⟩ := Entry.resolve_eq_some_iff.1 h
    exact hinst _ σ
  | factor c i j =>
    obtain ⟨_, _, σ, -, -, -, -, -, -, rfl⟩ := Entry.factor_eq_some_iff.1 h
    exact hinst _ σ

theorem eligible_result (h : k.result? = some r) : ∀ l ∈ r.literals, l.eligible = true := by
  intro l hl
  rw [← toLiteral_toSignedAtom h l hl, SignedAtom.eligible_toLiteral]

/-! ### Soundness -/

/-- **A call with an acyclic unifier is sound.** -/
theorem models_result {D : Type u} {I : Interpretation D} (h : k.result? = some r)
    (hk : k.IsAcyclic) (hcompound : ∀ e ∈ k.premises, e.clause.HasCompoundAtoms)
    (hmodels : ∀ e ∈ k.premises, I.Models e.clause) : I.Models r := by
  cases k with
  | resolve c i d j fresh =>
    obtain ⟨a, b, σ, ha, hb, hsign, hunifier, hσ, hr⟩ := Entry.signedAtoms_resolve h
    have hatom := Term.subst_eq_of_unifier? hσ (hk σ hunifier)
    have hc := hcompound c (by simp [premises])
    have hd := hcompound d (by simp [premises])
    -- the renamed second premise is an instance of it, and so true
    have hcopy : I.Models (d.clause.freshCopy fresh).1 :=
      (hmodels d (by simp [premises])).of_instance hd (θ := d.clause.freshening fresh)
        fun b' hb' => by
          rw [Clause.signedAtoms_freshCopy]
          exact List.mem_map_of_mem hb'
    have hcopyCompound : (d.clause.freshCopy fresh).1.HasCompoundAtoms := by
      refine Clause.hasCompoundAtoms_iff.2 fun b' hb' => ?_
      rw [Clause.signedAtoms_freshCopy] at hb'
      obtain ⟨b'', hb'', rfl⟩ := List.mem_map.1 hb'
      exact Term.isVar_subst (Clause.hasCompoundAtoms_iff.1 hd b'' hb'') _
    refine Interpretation.models_resolvent (b := b.subst (d.clause.freshening fresh)) hc
      hcopyCompound hsign hatom (fun a' ha' => ?_) (fun b' hb' => ?_)
      (hmodels c (by simp [premises])) hcopy
    · refine (eq_or_mem_eraseIdx ha ha').imp_right fun ha' => ?_
      rw [hr]
      exact List.mem_map_of_mem (List.mem_append_left _ ha')
    · rw [Clause.signedAtoms_freshCopy] at hb'
      obtain ⟨b'', hb'', rfl⟩ := List.mem_map.1 hb'
      rcases eq_or_mem_eraseIdx hb hb'' with rfl | hb''
      · exact .inl rfl
      · rw [hr]
        exact .inr (List.mem_map_of_mem (List.mem_append_right _ (List.mem_map_of_mem hb'')))
  | factor c i j =>
    obtain ⟨a, b, σ, ha, hb, hij, hsign, hunifier, hσ, hr⟩ := Entry.signedAtoms_factor h
    have hatom := Term.subst_eq_of_unifier? hσ (hk σ hunifier)
    have hab : a.subst σ.assign = b.subst σ.assign := SignedAtom.ext hsign hatom
    refine Interpretation.models_factor (hcompound c (by simp [premises])) hab ?_ (fun a' ha' => ?_)
      (hmodels c (by simp [premises]))
    · rw [hr]
      exact List.mem_map_of_mem (mem_eraseIdx_of_ne ha hij)
    · refine (eq_or_mem_eraseIdx hb ha').imp_right fun ha' => ?_
      rw [hr]
      exact List.mem_map_of_mem ha'

end Call

/-! ### Clauses without function symbols -/

/-- All arguments of all atoms are variables and constants. -/
def Clause.IsFlat (c : Clause) : Prop := ∀ a ∈ c.signedAtoms, ∀ t ∈ a.atom.args, t.IsFlat

theorem Term.IsFlat.subst {t : Term} (ht : t.IsFlat) {θ : String → Term} (hθ : ∀ x, (θ x).IsFlat) :
    (t.subst θ).IsFlat := by
  cases t with
  | var x => exact hθ x
  | app f ts =>
    obtain rfl : ts = [] := ht
    rfl

theorem Term.isFlat_args_subst {t : Term} (hvar : t.isVar = false) (ht : ∀ u ∈ t.args, u.IsFlat)
    {θ : String → Term} (hθ : ∀ x, (θ x).IsFlat) : ∀ u ∈ (t.subst θ).args, u.IsFlat := by
  cases t with
  | var x => simp [isVar] at hvar
  | app f ts =>
    intro u hu
    simp only [Term.subst, substList_eq_map, args, List.mem_map] at hu
    obtain ⟨u, hu, rfl⟩ := hu
    exact (ht u hu).subst hθ

theorem Clause.isFlat_freshening (c : Clause) (fresh : FreshVars) (x : String) :
    (c.freshening fresh x).IsFlat := by
  rw [freshening, FreshVars.assign_renamingFor c.nodup_vars]
  split_ifs <;> trivial

theorem Term.isCyclic_unifier?_of_isFlat_args {s t : Term} {σ : Substitution} (hs : s.isVar = false)
    (ht : t.isVar = false) (hs' : ∀ u ∈ s.args, u.IsFlat) (ht' : ∀ u ∈ t.args, u.IsFlat)
    (h : s.unifier? t = some σ) : σ.isCyclic = false ∧ ∀ x, (σ.assign x).IsFlat := by
  cases s with
  | var x => simp [isVar] at hs
  | app p ss =>
    cases t with
    | var x => simp [isVar] at ht
    | app q ts => exact isCyclic_unifier?_of_flat hs' ht' h

/-- **Without function symbols no unifier is cyclic**, and conclusions are without them too. -/
theorem Call.isFlat_result {k : Call} {r : Clause} (h : k.result? = some r)
    (hcompound : ∀ e ∈ k.premises, e.clause.HasCompoundAtoms)
    (hflat : ∀ e ∈ k.premises, e.clause.IsFlat) : k.IsAcyclic ∧ r.IsFlat := by
  cases k with
  | resolve c i d j fresh =>
    obtain ⟨a, b, σ, ha, hb, -, hunifier, hσ, hr⟩ := Entry.signedAtoms_resolve h
    have hc := Clause.hasCompoundAtoms_iff.1 (hcompound c (by simp [premises]))
    have hd := Clause.hasCompoundAtoms_iff.1 (hcompound d (by simp [premises]))
    have hcf := hflat c (by simp [premises])
    have hdf := hflat d (by simp [premises])
    have hρ := d.clause.isFlat_freshening fresh
    have ha' := List.mem_of_getElem? ha
    have hb' := List.mem_of_getElem? hb
    obtain ⟨hacyclic, hσflat⟩ := Term.isCyclic_unifier?_of_isFlat_args (hc a ha')
      (Term.isVar_subst (hd b hb') _) (hcf a ha')
        (Term.isFlat_args_subst (hd b hb') (hdf b hb') hρ) hσ
    refine ⟨fun σ' hσ' => ?_, fun a'' ha'' => ?_⟩
    · rw [hunifier, Option.some.injEq] at hσ'
      exact hσ' ▸ hacyclic
    · rw [hr] at ha''
      obtain ⟨b'', hb'', rfl⟩ := List.mem_map.1 ha''
      rcases List.mem_append.1 hb'' with hb'' | hb''
      · have hmem := List.mem_of_mem_eraseIdx hb''
        exact Term.isFlat_args_subst (hc _ hmem) (hcf _ hmem) hσflat
      · obtain ⟨b₀, hb₀, rfl⟩ := List.mem_map.1 hb''
        have hmem := List.mem_of_mem_eraseIdx hb₀
        exact Term.isFlat_args_subst (Term.isVar_subst (hd _ hmem) _)
          (Term.isFlat_args_subst (hd _ hmem) (hdf _ hmem) hρ) hσflat
  | factor c i j =>
    obtain ⟨a, b, σ, ha, hb, -, -, hunifier, hσ, hr⟩ := Entry.signedAtoms_factor h
    have hc := Clause.hasCompoundAtoms_iff.1 (hcompound c (by simp [premises]))
    have hcf := hflat c (by simp [premises])
    have ha' := List.mem_of_getElem? ha
    have hb' := List.mem_of_getElem? hb
    obtain ⟨hacyclic, hσflat⟩ := Term.isCyclic_unifier?_of_isFlat_args (hc a ha') (hc b hb')
      (hcf a ha') (hcf b hb') hσ
    refine ⟨fun σ' hσ' => ?_, fun a'' ha'' => ?_⟩
    · rw [hunifier, Option.some.injEq] at hσ'
      exact hσ' ▸ hacyclic
    · rw [hr] at ha''
      obtain ⟨b'', hb'', rfl⟩ := List.mem_map.1 ha''
      have hmem := List.mem_of_mem_eraseIdx hb''
      exact Term.isFlat_args_subst (hc _ hmem) (hcf _ hmem) hσflat

/-! ### Variables of conclusions -/

/-- Every fresh variable of the clause has been drawn. -/
def Clause.IsDrawn (c : Clause) (fresh : FreshVars) : Prop :=
  ∀ n, FreshVars.varName n ∈ c.vars → n ≤ fresh.drawn

namespace Entry

variable {c d : Entry} {i j : Nat} {fresh : FreshVars} {r : Clause}

theorem drawn_le_resolve : fresh.drawn ≤ (c.resolve i d j fresh).2.drawn := by
  rcases drawn_resolve c i d j fresh with h | h <;> omega

/-- A resolution draws a name for every variable of the second clause, if the literals fit. -/
theorem drawn_resolve_of_isPartner {l m : Literal} (hl : c.clause.literals[i]? = some l)
    (hm : d.clause.literals[j]? = some m) (hpartner : l.isPartner m = true) :
    (c.resolve i d j fresh).2.drawn = fresh.drawn + d.clause.vars.length := by
  unfold resolve
  simp only [hl, hm, hpartner, if_true]
  exact Clause.drawn_freshCopy

theorem drawn_resolve_of_eq_some (h : (c.resolve i d j fresh).1 = some r) :
    (c.resolve i d j fresh).2.drawn = fresh.drawn + d.clause.vars.length := by
  obtain ⟨l, m, σ, hl, hm, hpartner, -⟩ := resolve_eq_some_iff.1 h
  exact drawn_resolve_of_isPartner hl hm hpartner

/-- A variable of a resolvent is one of the first premise or was just drawn. -/
theorem mem_vars_resolve (h : (c.resolve i d j fresh).1 = some r) {x : String} (hx : x ∈ r.vars) :
    x ∈ c.clause.vars ∨ ∃ n, n ≤ fresh.drawn + d.clause.vars.length ∧ x = FreshVars.varName n := by
  obtain ⟨a, b, σ, ha, hb, -, -, hσ, hr⟩ := signedAtoms_resolve h
  have hcopy : ∀ b' ∈ d.clause.signedAtoms,
      ∀ y ∈ (b'.atom.subst (d.clause.freshening fresh)).occurrences,
      ∃ n, n ≤ fresh.drawn + d.clause.vars.length ∧ y = FreshVars.varName n := by
    intro b' hb' y hy
    obtain ⟨z, hz, hy⟩ := Term.mem_occurrences_subst.1 hy
    obtain ⟨n, -, hn, hassign⟩ := FreshVars.exists_assign_renamingFor fresh
      d.clause.nodup_vars (Clause.mem_vars.2 ⟨b', hb', hz⟩)
    rw [Clause.freshening, hassign] at hy
    exact ⟨n, hn, by simpa [Term.occurrences] using hy⟩
  obtain ⟨a', ha', hx⟩ := Clause.mem_vars.1 hx
  rw [hr] at ha'
  obtain ⟨b', hb', rfl⟩ := List.mem_map.1 ha'
  obtain ⟨y, hy, hx⟩ := Term.mem_occurrences_subst.1 hx
  -- the unifier mentions only variables of the two atoms
  rcases Term.mem_of_mem_unifier? hσ hx with rfl | hx | hx
  · rcases List.mem_append.1 hb' with hb' | hb'
    · exact .inl (Clause.mem_vars.2 ⟨b', List.mem_of_mem_eraseIdx hb', hy⟩)
    · obtain ⟨b₀, hb₀, rfl⟩ := List.mem_map.1 hb'
      exact .inr (hcopy b₀ (List.mem_of_mem_eraseIdx hb₀) x hy)
  · exact .inl (Clause.mem_vars.2 ⟨a, List.mem_of_getElem? ha, hx⟩)
  · exact .inr (hcopy b (List.mem_of_getElem? hb) x hx)

theorem mem_vars_factor (h : c.factor i j = some r) {x : String} (hx : x ∈ r.vars) :
    x ∈ c.clause.vars := by
  obtain ⟨a, b, σ, ha, hb, -, -, -, hσ, hr⟩ := signedAtoms_factor h
  obtain ⟨a', ha', hx⟩ := Clause.mem_vars.1 hx
  rw [hr] at ha'
  obtain ⟨b', hb', rfl⟩ := List.mem_map.1 ha'
  obtain ⟨y, hy, hx⟩ := Term.mem_occurrences_subst.1 hx
  refine Clause.mem_vars.2 ?_
  rcases Term.mem_of_mem_unifier? hσ hx with rfl | hx | hx
  · exact ⟨b', List.mem_of_mem_eraseIdx hb', hy⟩
  · exact ⟨a, List.mem_of_getElem? ha, hx⟩
  · exact ⟨b, List.mem_of_getElem? hb, hx⟩

end Entry

/-- **A hereditary property of fresh variables passes from the atoms of the premises to those of the
conclusion.** -/
theorem Call.hereditary_result {Q : Term → Prop} (hQ : Term.Hereditary Q)
    (hfresh : ∀ n, Q (.var (FreshVars.varName n))) {k : Call} {r : Clause} (h : k.result? = some r)
    (hpremises : ∀ e ∈ k.premises, ∀ a ∈ e.clause.signedAtoms, Q a.atom) :
    ∀ a ∈ r.signedAtoms, Q a.atom := by
  cases k with
  | resolve c i d j fresh =>
    obtain ⟨a, b, σ, ha, hb, -, -, hσ, hr⟩ := Entry.signedAtoms_resolve h
    have hc := hpremises c (by simp [premises])
    have hd := hpremises d (by simp [premises])
    have hcopy : ∀ b ∈ d.clause.signedAtoms, Q (b.atom.subst (d.clause.freshening fresh)) := by
      intro b hb
      refine hQ.subst (hd b hb) fun x hx => ?_
      obtain ⟨n, -, -, hn⟩ := FreshVars.exists_assign_renamingFor fresh d.clause.nodup_vars
        (Clause.mem_vars.2 ⟨b, hb, hx⟩)
      rw [Clause.freshening, hn]
      exact hfresh n
    rw [hr]
    refine List.forall_mem_map.2 fun a' ha' =>
      hQ.subst_unifier? (hc a (List.mem_of_getElem? ha)) (hcopy b (List.mem_of_getElem? hb)) hσ ?_
    rcases List.mem_append.1 ha' with ha' | ha'
    · exact hc a' (List.mem_of_mem_eraseIdx ha')
    · obtain ⟨b', hb', rfl⟩ := List.mem_map.1 ha'
      exact hcopy b' (List.mem_of_mem_eraseIdx hb')
  | factor c i j =>
    obtain ⟨a, b, σ, ha, hb, -, -, -, hσ, hr⟩ := Entry.signedAtoms_factor h
    have hc := hpremises c (by simp [premises])
    rw [hr]
    exact List.forall_mem_map.2 fun a' ha' =>
      hQ.subst_unifier? (hc a (List.mem_of_getElem? ha)) (hc b (List.mem_of_getElem? hb)) hσ
        (hc a' (List.mem_of_mem_eraseIdx ha'))

namespace Entry

variable {c d : Entry} {i j : Nat} {fresh : FreshVars} {r : Clause}

/-! ### Lifting -/

theorem predicate_eq_of_subst_eq {l m : Literal} {θ η : String → Term} (hl : l.atom.isVar = false)
    (hm : m.atom.isVar = false) (h : l.atom.subst θ = m.atom.subst η) :
    l.predicate = m.predicate := by
  unfold Literal.predicate
  cases hla : l.atom with
  | var x => simp [hla, Term.isVar] at hl
  | app p ss =>
    cases hma : m.atom with
    | var x => simp [hma, Term.isVar] at hm
    | app q ts =>
      rw [hla, hma] at h
      simp only [Term.subst, Term.app.injEq] at h
      simp [Term.symbol?, h.1]

/-- **Lifting of resolution.**  If instances of two literals with opposite signs and the same
predicate have the same atom, and no name drawn for the second clause occurs in the first, then the
clauses can be resolved upon them, and what is left of the two instances is an instance of the
resolvent. -/
theorem exists_resolvent_of_isPartner {l m : Literal} {θ η : String → Term}
    (hl : c.clause.literals[i]? = some l) (hm : d.clause.literals[j]? = some m)
    (hpartner : l.isPartner m = true) (hatom : l.atom.subst θ = m.atom.subst η)
    (hfresh : ∀ x ∈ fresh.upcoming d.clause.vars.length, x ∉ c.clause.vars) :
    ∃ r δ, (c.resolve i d j fresh).1 = some r ∧ r.signedAtoms.map (·.subst δ) =
      (c.clause.signedAtoms.eraseIdx i).map (·.subst θ) ++
        (d.clause.signedAtoms.eraseIdx j).map (·.subst η) := by
  obtain ⟨δ, hδη, hδθ⟩ := FreshVars.exists_combination fresh d.clause.nodup_vars η θ
  have hcδ : ∀ a ∈ c.clause.signedAtoms, a.subst δ = a.subst θ := fun a ha =>
    SignedAtom.subst_congr fun x hx => hδθ x fun hupcoming =>
      hfresh x hupcoming (Clause.mem_vars.2 ⟨a, ha, hx⟩)
  have hdδ : ∀ b ∈ d.clause.signedAtoms,
      (b.subst (d.clause.freshening fresh)).subst δ = b.subst η := fun b hb => by
    rw [SignedAtom.subst_subst]
    exact SignedAtom.subst_congr fun x hx => hδη x (Clause.mem_vars.2 ⟨b, hb, hx⟩)
  have hlmem : l.toSignedAtom ∈ c.clause.signedAtoms :=
    List.mem_map_of_mem (List.mem_of_getElem? hl)
  have hmmem : m.toSignedAtom ∈ d.clause.signedAtoms :=
    List.mem_map_of_mem (List.mem_of_getElem? hm)
  have hunify : l.atom.subst δ = (m.atom.subst (d.clause.freshening fresh)).subst δ := by
    have hla := congrArg SignedAtom.atom (hcδ _ hlmem)
    have hma := congrArg SignedAtom.atom (hdδ _ hmmem)
    exact hla.trans (hatom.trans hma.symm)
  obtain ⟨σ, hσ, hfactor⟩ := Term.exists_unifier? hunify
  refine ⟨_, δ, resolve_eq_some_iff.2 ⟨l, m, σ, hl, hm, hpartner, hσ, rfl⟩, ?_⟩
  -- the unifier does not change what `δ` does
  have habsorb : ∀ a : SignedAtom, (a.subst σ.assign).subst δ = a.subst δ := fun a => by
    rw [SignedAtom.subst_subst]
    exact SignedAtom.subst_congr fun x _ => hfactor x
  rw [signedAtoms_resolvent, List.map_map, List.map_append, List.map_map]
  congr 1
  · refine List.map_congr_left fun a ha => ?_
    exact (habsorb a).trans (hcδ a (List.mem_of_mem_eraseIdx ha))
  · refine List.map_congr_left fun b hb => ?_
    exact (habsorb _).trans (hdδ b (List.mem_of_mem_eraseIdx hb))

/-- The same for atoms that are not variables and have a common instance: they have the same
predicate. -/
theorem exists_resolvent {l m : Literal} {θ η : String → Term}
    (hl : c.clause.literals[i]? = some l) (hm : d.clause.literals[j]? = some m)
    (hlv : l.atom.isVar = false) (hmv : m.atom.isVar = false) (hsign : l.negative ≠ m.negative)
    (hatom : l.atom.subst θ = m.atom.subst η) (hc : c.clause.IsDrawn fresh) :
    ∃ r δ, (c.resolve i d j fresh).1 = some r ∧ r.signedAtoms.map (·.subst δ) =
      (c.clause.signedAtoms.eraseIdx i).map (·.subst θ) ++
        (d.clause.signedAtoms.eraseIdx j).map (·.subst η) := by
  refine exists_resolvent_of_isPartner hl hm
    (Literal.isPartner_iff.2 ⟨hsign, predicate_eq_of_subst_eq hlv hmv hatom⟩) hatom
      fun x hx hxc => ?_
  obtain ⟨n, hlt, -, rfl⟩ := FreshVars.mem_upcoming.1 hx
  exact absurd (hc n hxc) (Nat.not_le_of_lt hlt)

/-- **Lifting of factoring.**  If the instances of two literals with the same predicate are equal,
then the clause can be factored upon them, and the instance without the second one is an instance of
the factor. -/
theorem exists_factor_of_predicate_eq {l m : Literal} {θ : String → Term}
    (hl : c.clause.literals[i]? = some l) (hm : c.clause.literals[j]? = some m) (hij : i ≠ j)
    (hsign : l.negative = m.negative) (hpredicate : l.predicate = m.predicate)
    (hatom : l.atom.subst θ = m.atom.subst θ) :
    ∃ r, c.factor i j = some r ∧ r.signedAtoms.map (·.subst θ) =
      (c.clause.signedAtoms.eraseIdx j).map (·.subst θ) := by
  obtain ⟨σ, hσ, hfactor⟩ := Term.exists_unifier? hatom
  have hresult := factor_eq_some_iff.2 ⟨l, m, σ, hl, hm, hij, hsign, hpredicate, hσ, rfl⟩
  refine ⟨_, hresult, ?_⟩
  rw [Clause.signedAtoms_conclude, map_toSignedAtom_instantiate, ← List.eraseIdx_map, List.map_map]
  refine List.map_congr_left fun a _ => ?_
  rw [Function.comp_apply, SignedAtom.subst_subst]
  exact SignedAtom.subst_congr fun x _ => hfactor x

theorem exists_factor {l m : Literal} {θ : String → Term} (hl : c.clause.literals[i]? = some l)
    (hm : c.clause.literals[j]? = some m) (hlv : l.atom.isVar = false) (hmv : m.atom.isVar = false)
    (hij : i ≠ j) (hsign : l.negative = m.negative) (hatom : l.atom.subst θ = m.atom.subst θ) :
    ∃ r, c.factor i j = some r ∧ r.signedAtoms.map (·.subst θ) =
      (c.clause.signedAtoms.eraseIdx j).map (·.subst θ) :=
  exists_factor_of_predicate_eq hl hm hij hsign (predicate_eq_of_subst_eq hlv hmv hatom) hatom

end Entry

end Refutation
