import Refutation.Proofs.Inference.Conclusions
import Refutation.Proofs.Unification.Symmetry

/-!
# Exchanging the premises of a resolution

Which premise of a resolution comes first decides which one is renamed, in which direction variables
are bound and whose literals stand first.  None of this matters: one permutation of the variables
turns the first premise into its fresh copy and, at the same time, the fresh copy of the second
premise back into it.  So the two unifications differ by this permutation and by the exchange of the
sides.

* `Clause.exists_perm_freshening` : a fresh copy is made by a permutation of the variables.
* `Clause.exists_perm_exchanging` : **one permutation renames the first premise and undoes the
  renaming of the second**, if the names are new.
* `Term.exists_unifier?_exchanged` : unification commutes with a permutation and the exchange of the
  sides.
* `resolution_symmetric` : the two resolvents are the same up to the names of variables and the
  order of their parts.
-/

namespace Refutation

variable {c d : Entry} {i j : Nat} {fresh fresh' : FreshVars} {r : Clause}

/-! ### One permutation for both copies -/

/-- A fresh copy is made by a permutation of the variables, which takes them to the next fresh
ones. -/
theorem Clause.exists_perm_freshening (c : Clause) (fresh : FreshVars) : ∃ π : Equiv.Perm String,
    ∀ x ∈ c.vars, c.freshening fresh x = .var (π x) ∧ π x ∈ fresh.upcoming c.vars.length := by
  have hinj : Set.InjOn (fun x => FreshVars.varName (fresh.drawn + 1 + c.vars.idxOf x))
      {x | x ∈ c.vars} := by
    intro x hx y hy hxy
    have hnumber := FreshVars.varName_inj.1 hxy
    exact (List.idxOf_inj hx).1 (by omega)
  obtain ⟨π, hπ⟩ := exists_perm_of_injOn hinj
  refine ⟨π, fun x hx => ⟨?_, ?_⟩⟩
  · rw [freshening, FreshVars.assign_renamingFor c.nodup_vars, if_pos hx, hπ x hx]
  · have hlt := List.idxOf_lt_length_of_mem hx
    rw [hπ x hx, FreshVars.mem_upcoming]
    exact ⟨_, by omega, by omega, rfl⟩

/-- **One permutation renames the first clause and undoes the renaming of the second**, if the names
drawn for each of them do not occur in the other. -/
theorem Clause.exists_perm_exchanging {c d : Clause}
    (hfresh : ∀ x ∈ fresh.upcoming d.vars.length, x ∉ c.vars)
    (hfresh' : ∀ x ∈ fresh'.upcoming c.vars.length, x ∉ d.vars) : ∃ π : Equiv.Perm String,
      (∀ l ∈ c.literals, (l.toSignedAtom.subst fun x => .var (π x)) =
        l.toSignedAtom.subst (c.freshening fresh')) ∧
      ∀ m ∈ d.literals, (m.toSignedAtom.subst (d.freshening fresh)).subst (fun x => .var (π x)) =
        m.toSignedAtom := by
  obtain ⟨πd, hπd⟩ := d.exists_perm_freshening fresh
  obtain ⟨πc, hπc⟩ := c.exists_perm_freshening fresh'
  have hdomains : ∀ x ∈ c.vars, x ∉ d.vars.map πd := by
    intro x hx hmem
    obtain ⟨y, hy, rfl⟩ := List.mem_map.1 hmem
    exact hfresh _ (hπd y hy).2 hx
  have hranges : ∀ x ∈ c.vars, ∀ z ∈ d.vars.map πd, πc x ≠ πd.symm z := by
    intro x hx z hz hxz
    obtain ⟨y, hy, rfl⟩ := List.mem_map.1 hz
    rw [Equiv.symm_apply_apply] at hxz
    exact hfresh' _ (hπc x hx).2 (hxz ▸ hy)
  obtain ⟨π, hxs, hys⟩ := exists_perm_combining πc πd.symm hdomains hranges
  refine ⟨π, fun l hl => SignedAtom.subst_congr fun x hx => ?_, fun m hm => ?_⟩
  · have hmem : x ∈ c.vars := mem_vars.2 ⟨_, mem_signedAtoms.2 ⟨l, hl, rfl⟩, hx⟩
    rw [(hπc x hmem).1, hxs x hmem]
  · calc (m.toSignedAtom.subst (d.freshening fresh)).subst (fun x => .var (π x)) =
        m.toSignedAtom.subst .var := by
          rw [SignedAtom.subst_subst]
          refine SignedAtom.subst_congr fun y hy => ?_
          have hmem : y ∈ d.vars := mem_vars.2 ⟨_, mem_signedAtoms.2 ⟨m, hm, rfl⟩, hy⟩
          rw [(hπd y hmem).1, Term.subst, hys _ (List.mem_map_of_mem hmem), Equiv.symm_apply_apply]
      _ = m.toSignedAtom := SignedAtom.subst_var _

/-! ### Unification from exchanged sides -/

/-- The second substitution does to renamed terms what the first does to the terms, up to another
renaming. -/
def Substitution.Carries (π η : Equiv.Perm String) (σ σ' : Substitution) : Prop :=
  ∀ u : Term, σ'.apply (u.rename π) = (σ.apply u).rename η

theorem Substitution.Carries.instantiate {π η : Equiv.Perm String} {σ σ' : Substitution}
    (h : Carries π η σ σ') {l l' : Literal}
    (hl : (l.toSignedAtom.subst fun x => .var (π x)) = l'.toSignedAtom) :
    l'.instantiate σ' = (l.instantiate σ).rename η := by
  have hatom : l'.toSignedAtom.subst σ'.assign =
      (l.toSignedAtom.subst σ.assign).subst fun x => .var (η x) := by
    rw [← hl]
    exact SignedAtom.ext rfl (h l.atom)
  rw [Literal.instantiate, hatom, SignedAtom.toLiteral_rename]
  rfl

/-- **Unification commutes with a permutation of the variables and the exchange of the sides.** -/
theorem Term.exists_unifier?_exchanged {s t : Term} {σ : Substitution} (h : s.unifier? t = some σ)
    (π : Equiv.Perm String) :
    ∃ σ' η, (t.rename π).unifier? (s.rename π) = some σ' ∧ Substitution.Carries π η σ σ' := by
  have hrename := Term.unifier?_rename π s t
  have hswap := Term.unifier?_swap (s.rename π) (t.rename π)
  rw [h] at hrename
  generalize (s.rename π).unifier? (t.rename π) = σ₁ at hrename hswap
  generalize (t.rename π).unifier? (s.rename π) = σ' at hswap ⊢
  cases hrename with
  | some hrename =>
    cases hswap with
    | some hswap =>
      obtain ⟨η, hη⟩ := hswap
      refine ⟨_, η * π, rfl, fun u => ?_⟩
      rw [hη, hrename.apply, Term.rename_rename, Equiv.Perm.coe_mul]

/-! ### The resolvents -/

namespace Entry

/-- The names that a resolution draws. -/
def drawnNames (c : Entry) (i : Nat) (d : Entry) (j : Nat) (fresh : FreshVars) : List String :=
  fresh.upcoming ((c.resolve i d j fresh).2.drawn - fresh.drawn)

theorem drawnNames_of_isPartner {l m : Literal} (hl : c.clause.literals[i]? = some l)
    (hm : d.clause.literals[j]? = some m) (hpartner : l.isPartner m = true) :
    c.drawnNames i d j fresh = fresh.upcoming d.clause.vars.length := by
  rw [drawnNames, drawn_resolve_of_isPartner hl hm hpartner, Nat.add_sub_cancel_left]

/-- **The premises of a resolution can be exchanged**, which exchanges the two parts of the
resolvent and renames its variables. -/
theorem exists_resolve_exchanged (h : (c.resolve i d j fresh).1 = some r)
    (hfresh : ∀ x ∈ c.drawnNames i d j fresh, x ∉ c.clause.vars)
    (hfresh' : ∀ x ∈ d.drawnNames j c i fresh', x ∉ d.clause.vars) :
    ∃ r', (d.resolve j c i fresh').1 = some r' ∧ ∃ η : Equiv.Perm String, ∃ ls ms : List Literal,
      ls.length + 1 = c.clause.size ∧ ms.length + 1 = d.clause.size ∧
      r.literals = ls ++ ms ∧ r'.literals = (ms ++ ls).map (·.rename η) := by
  obtain ⟨l, m, σ, hl, hm, hpartner, hσ, rfl⟩ := resolve_eq_some_iff.1 h
  have hpartner' : m.isPartner l = true := Literal.isPartner_comm l m ▸ hpartner
  rw [drawnNames_of_isPartner hl hm hpartner] at hfresh
  rw [drawnNames_of_isPartner hm hl hpartner'] at hfresh'
  obtain ⟨π, hπc, hπd⟩ := Clause.exists_perm_exchanging hfresh hfresh'
  have hla : l.atom.rename π = l.atom.subst (c.clause.freshening fresh') :=
    congrArg SignedAtom.atom (hπc l (List.mem_of_getElem? hl))
  have hmb : (m.atom.subst (d.clause.freshening fresh)).rename π = m.atom :=
    congrArg SignedAtom.atom (hπd m (List.mem_of_getElem? hm))
  obtain ⟨σ', η, hσ', hcarries⟩ := Term.exists_unifier?_exchanged hσ π
  rw [hla, hmb] at hσ'
  refine ⟨_, resolve_eq_some_iff.2 ⟨m, l, σ', hm, hl, hpartner', hσ', rfl⟩, η,
    (c.clause.literals.eraseIdx i).map (·.instantiate σ),
    ((d.clause.freshCopy fresh).1.literals.eraseIdx j).map (·.instantiate σ), ?_, ?_, ?_, ?_⟩
  · rw [List.length_map]
    exact List.length_eraseIdx_add_one (List.getElem?_eq_some_iff.1 hl).1
  · rw [List.length_map, Clause.literals_freshCopy, List.eraseIdx_map, List.length_map]
    exact List.length_eraseIdx_add_one (List.getElem?_eq_some_iff.1 hm).1
  · rw [Clause.literals_conclude, List.map_append]
  · simp only [Clause.literals_conclude, Clause.literals_freshCopy, List.eraseIdx_map,
      List.map_append, List.map_map]
    congr 1
    · exact List.map_congr_left fun k hk =>
        hcarries.instantiate (hπd k (List.mem_of_mem_eraseIdx hk))
    · exact List.map_congr_left fun k hk =>
        hcarries.instantiate (hπc k (List.mem_of_mem_eraseIdx hk))

end Entry

/-- **Resolution is symmetric in its premises.**  If the names that each of the two calls draws for
its second premise do not occur in its first one, both calls succeed or both fail; and the
resolvents, whether or not the unifiers are acyclic, are the same up to an injective renaming of the
variables and the exchange of what is left of the two premises. -/
theorem resolution_symmetric (c d : Entry) (i j : Nat) (fresh fresh' : FreshVars)
    (hfresh : ∀ x ∈ c.drawnNames i d j fresh, x ∉ c.clause.vars)
    (hfresh' : ∀ x ∈ d.drawnNames j c i fresh', x ∉ d.clause.vars) :
    ((c.resolve i d j fresh).1.isSome ↔ (d.resolve j c i fresh').1.isSome) ∧
    ∀ r r', (c.resolve i d j fresh).1 = some r → (d.resolve j c i fresh').1 = some r' →
      ∃ ρ : String → String, Function.Injective ρ ∧ ∃ ls ms : List Literal,
        ls.length + 1 = c.clause.size ∧ ms.length + 1 = d.clause.size ∧
        r.literals = ls ++ ms ∧ r'.literals = (ms ++ ls).map (·.rename ρ) := by
  constructor
  · rw [Option.isSome_iff_exists, Option.isSome_iff_exists]
    constructor
    · rintro ⟨r, hr⟩
      obtain ⟨r', hr', -⟩ := Entry.exists_resolve_exchanged hr hfresh hfresh'
      exact ⟨r', hr'⟩
    · rintro ⟨r', hr'⟩
      obtain ⟨r, hr, -⟩ := Entry.exists_resolve_exchanged hr' hfresh' hfresh
      exact ⟨r, hr⟩
  · intro r r' hr hr'
    obtain ⟨r'', hr'', η, ls, ms, hls, hms, hparts, hexchanged⟩ :=
      Entry.exists_resolve_exchanged hr hfresh hfresh'
    obtain rfl : r'' = r' := Option.some.inj (hr''.symm.trans hr')
    exact ⟨η, η.injective, ls, ms, hls, hms, hparts, hexchanged⟩

/-- The one call renames `Y` to `V_1` and binds `X` to it, the other renames `X` to `V_4` and binds
`Y` to it; the resolvents are `q(V_1) | r(V_1)` and `r(V_4) | q(V_4)`. -/
theorem resolution_symmetric_oppositeCopies :
    ∃ r r', ((choiceOf "X").resolve 0 restriction 0 .initial).1 = some r ∧
      (restriction.resolve 0 (choiceOf "X") 0 ⟨3⟩).1 = some r' ∧
      r.literals = [.pos (.app "q" [.var "V_1"]), .pos (.app "r" [.var "V_1"])] ∧
      r'.literals = [.pos (.app "r" [.var "V_4"]), .pos (.app "q" [.var "V_4"])] ∧
      ∃ ρ : String → String, Function.Injective ρ ∧ ∃ ls ms : List Literal,
        ls.length + 1 = 2 ∧ ms.length + 1 = 2 ∧
        r.literals = ls ++ ms ∧ r'.literals = (ms ++ ls).map (·.rename ρ) := by
  let r : Clause := .conclude "resolution" [choiceOf "X", restriction]
    [.pos (.app "q" [.var "V_1"]), .pos (.app "r" [.var "V_1"])]
  let r' : Clause := .conclude "resolution" [restriction, choiceOf "X"]
    [.pos (.app "r" [.var "V_4"]), .pos (.app "q" [.var "V_4"])]
  have hr : ((choiceOf "X").resolve 0 restriction 0 .initial).1 = some r := by cbv
  have hr' : (restriction.resolve 0 (choiceOf "X") 0 ⟨3⟩).1 = some r' := by cbv
  have hnames : (choiceOf "X").drawnNames 0 restriction 0 .initial = ["V_1"] := by cbv
  have hnames' : restriction.drawnNames 0 (choiceOf "X") 0 ⟨3⟩ = ["V_4", "V_5"] := by cbv
  have hvars : (choiceOf "X").clause.vars = ["X", "Y"] := by cbv
  have hvars' : restriction.clause.vars = ["Y"] := by cbv
  exact ⟨r, r', hr, hr', rfl, rfl, (resolution_symmetric (choiceOf "X") restriction 0 0 .initial ⟨3⟩
    (by rw [hnames, hvars]; decide) (by rw [hnames', hvars']; decide)).2 r r' hr hr'⟩

end Refutation
