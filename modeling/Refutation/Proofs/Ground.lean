import Refutation.Proofs.Inference
import Refutation.Proofs.Subsumption

/-!
# Ground clauses

Substitutions do not change ground clauses.  So subsumption between them is inclusion with
multiplicity, and inferences from them only put literals together.

* `Clause.subsumes_iff_of_isGround` : subsumption by a ground clause.
* `Call.exists_mem_of_isGround` : a conclusion from ground clauses has no literals of its own.
* `Entry.signedAtoms_resolve_of_isGround`, `Entry.exists_resolvent_of_isGround` : resolution between
  ground clauses is possible exactly upon the same atom, and only leaves it out.
-/

namespace Refutation

theorem Term.isVar_of_isGround {t : Term} (h : t.isGround = true) : t.isVar = false := by
  cases t with
  | var x => simp [isGround, occurrences] at h
  | app f ts => rfl

theorem Term.subst_of_isGround {t : Term} (h : t.isGround = true) (θ : String → Term) :
    t.subst θ = t := by
  have hnone : t.occurrences = [] := List.isEmpty_iff.1 h
  conv_rhs => rw [← t.subst_var]
  exact subst_congr (by simp [hnone])

theorem SignedAtom.subst_of_isGround {a : SignedAtom} (h : a.atom.isGround = true)
    (θ : String → Term) : a.subst θ = a :=
  SignedAtom.ext rfl (Term.subst_of_isGround h θ)

theorem map_subst_of_isGround {as : List SignedAtom} (h : ∀ a ∈ as, a.atom.isGround = true)
    (θ : String → Term) : as.map (·.subst θ) = as := by
  conv_rhs => rw [← List.map_id as]
  exact List.map_congr_left fun a ha => SignedAtom.subst_of_isGround (h a ha) θ

theorem Unifier.Solves.eq_of_free_nil {free : List String} {eqs : List Equation}
    {σ τ : Substitution} (h : Solves free eqs σ τ) (hfree : free = []) : τ = σ := by
  induction h with
  | done => rfl
  | skip _ ih => exact ih hfree
  | bind _ hx => exact absurd (hfree ▸ hx) List.not_mem_nil
  | split _ _ ih => exact ih hfree

/-- **Ground terms are unified only if they are equal.** -/
theorem Term.eq_of_unifier? {s t : Term} {σ : Substitution} (hs : s.isGround = true)
    (ht : t.isGround = true) (h : s.unifier? t = some σ) : s = t := by
  have hfree : (s.occurrences ++ t.occurrences).eraseDups = [] := by
    rw [List.isEmpty_iff.1 hs, List.isEmpty_iff.1 ht]
    rfl
  obtain rfl := (solves_of_unifier? h).eq_of_free_nil hfree
  have heq := subst_eq_of_unifier? h rfl
  rwa [subst_of_isGround hs, subst_of_isGround ht] at heq

namespace Clause

variable {c d : Clause}

theorem isGround_iff : c.isGround = true ↔ ∀ a ∈ c.signedAtoms, a.atom.isGround = true := by
  simp [isGround, signedAtoms, Literal.isGround]

theorem hasCompoundAtoms_of_isGround (hc : c.isGround = true) : c.HasCompoundAtoms :=
  hasCompoundAtoms_iff.2 fun a ha => Term.isVar_of_isGround (isGround_iff.1 hc a ha)

theorem subsumes_of_subperm (h : c.signedAtoms.Subperm d.signedAtoms) : c.subsumes d = true := by
  refine subsumes_iff_subperm.2 ⟨.var, ?_⟩
  have hid : c.signedAtoms.map (·.subst .var) = c.signedAtoms := by simp [SignedAtom.subst_var]
  rwa [InstanceWithin, hid]

/-- **A ground clause subsumes exactly the clauses that have its literals.** -/
theorem subsumes_iff_of_isGround (hc : c.isGround = true) :
    c.subsumes d = true ↔ c.signedAtoms.Subperm d.signedAtoms := by
  refine ⟨fun h => ?_, subsumes_of_subperm⟩
  obtain ⟨θ, hθ⟩ := subsumes_iff_subperm.1 h
  rwa [InstanceWithin, map_subst_of_isGround (isGround_iff.1 hc)] at hθ

end Clause

/-- **A conclusion from ground clauses has only literals of its premises.** -/
theorem Call.exists_mem_of_isGround {k : Call} {r : Clause} (h : k.result? = some r)
    (hk : ∀ e ∈ k.premises, e.clause.isGround = true) {a : SignedAtom} (ha : a ∈ r.signedAtoms) :
    ∃ e ∈ k.premises, a ∈ e.clause.signedAtoms := by
  obtain ⟨e, he, b, hb, θ, rfl⟩ := exists_of_mem_result h ha
  rw [SignedAtom.subst_of_isGround (Clause.isGround_iff.1 (hk e he) b hb)]
  exact ⟨e, he, hb⟩

namespace Entry

variable {c d : Entry} {i j : Nat} {fresh : FreshVars} {r : Clause}

/-- **Resolution between ground clauses leaves out two opposite literals.** -/
theorem signedAtoms_resolve_of_isGround (hc : c.clause.isGround = true)
    (hd : d.clause.isGround = true) (h : (c.resolve i d j fresh).1 = some r) :
    ∃ a b, c.clause.signedAtoms[i]? = some a ∧ d.clause.signedAtoms[j]? = some b ∧
      a.negative ≠ b.negative ∧ a.atom = b.atom ∧
      r.signedAtoms = c.clause.signedAtoms.eraseIdx i ++ d.clause.signedAtoms.eraseIdx j := by
  obtain ⟨a, b, σ, ha, hb, hsign, -, hσ, hr⟩ := signedAtoms_resolve h
  have hc := Clause.isGround_iff.1 hc
  have hd := Clause.isGround_iff.1 hd
  rw [Term.subst_of_isGround (hd b (List.mem_of_getElem? hb))] at hσ
  rw [map_subst_of_isGround fun b' hb' => hd b' (List.mem_of_mem_eraseIdx hb'),
    map_subst_of_isGround]
    at hr
  · exact ⟨a, b, ha, hb, hsign, Term.eq_of_unifier? (hc a (List.mem_of_getElem? ha))
      (hd b (List.mem_of_getElem? hb)) hσ, hr⟩
  · intro a' ha'
    rcases List.mem_append.1 ha' with ha' | ha'
    · exact hc a' (List.mem_of_mem_eraseIdx ha')
    · exact hd a' (List.mem_of_mem_eraseIdx ha')

/-- **Factoring of a ground clause leaves out a repeated literal.** -/
theorem signedAtoms_factor_of_isGround (hc : c.clause.isGround = true) (h : c.factor i j = some r) :
    ∃ a, c.clause.signedAtoms[i]? = some a ∧ c.clause.signedAtoms[j]? = some a ∧ i ≠ j ∧
      r.signedAtoms = c.clause.signedAtoms.eraseIdx j := by
  obtain ⟨a, b, σ, ha, hb, hij, hsign, -, hσ, hr⟩ := signedAtoms_factor h
  have hc := Clause.isGround_iff.1 hc
  rw [map_subst_of_isGround fun a' ha' => hc a' (List.mem_of_mem_eraseIdx ha')] at hr
  have hatom := Term.eq_of_unifier? (hc a (List.mem_of_getElem? ha))
    (hc b (List.mem_of_getElem? hb)) hσ
  obtain rfl : a = b := SignedAtom.ext hsign hatom
  exact ⟨a, ha, hb, hij, hr⟩

/-- **Ground clauses with opposite literals can be resolved upon them.** -/
theorem exists_resolvent_of_isGround {l m : Literal} (hc : c.clause.isGround = true)
    (hd : d.clause.isGround = true) (hl : c.clause.literals[i]? = some l)
    (hm : d.clause.literals[j]? = some m) (hsign : l.negative ≠ m.negative)
    (hatom : l.atom = m.atom) (fresh : FreshVars) :
    ∃ r, (c.resolve i d j fresh).1 = some r ∧
      r.signedAtoms = c.clause.signedAtoms.eraseIdx i ++ d.clause.signedAtoms.eraseIdx j := by
  have hcompound := Clause.hasCompoundAtoms_of_isGround hc l (List.mem_of_getElem? hl)
  have hdrawn : c.clause.IsDrawn fresh := by
    intro n hn
    obtain ⟨a, ha, hx⟩ := Clause.mem_vars.1 hn
    rw [List.isEmpty_iff.1 (Clause.isGround_iff.1 hc a ha)] at hx
    exact absurd hx List.not_mem_nil
  obtain ⟨r, -, hr, -⟩ := exists_resolvent hl hm hcompound (hatom ▸ hcompound) hsign
    (congrArg (Term.subst .var) hatom) hdrawn
  obtain ⟨-, -, -, -, -, -, hatoms⟩ := signedAtoms_resolve_of_isGround hc hd hr
  exact ⟨r, hr, hatoms⟩

end Entry

end Refutation
