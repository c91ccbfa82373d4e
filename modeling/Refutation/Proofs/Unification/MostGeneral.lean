import Refutation.Proofs.Unification

/-!
# Unifiers are most general

If two terms have a unifier, then each variable is bound to a term without it, whose variables are
all free.  Replacing the variable everywhere therefore makes it disappear, from the equations and
from the terms bound so far: the bindings are always in solved form, and a substitution in solved
form is acyclic and idempotent.  So a cyclic result means that there is no unifier, and an acyclic
one is a most general unifier.

* `Unifier.Solved` : the bound terms contain free variables only, and these are not bound.
* `Unifier.Solves.solved` : **solving equations with a unifier keeps the bindings in solved form.**
* `Term.isCyclic_unifier?_iff` : a result is acyclic exactly if the two terms have a unifier.
* `Substitution.IsMostGeneral` : an idempotent most general unifier without new variables.
* `unification_most_general` : terms have a unifier exactly if there is an acyclic result, which is
  such a unifier.
-/

namespace Refutation

namespace Unifier

/-! ### Solved form -/

/-- The bindings are in solved form: the bound terms contain free variables only, and these are not
bound. -/
structure Solved (free : List String) (σ : Substitution) : Prop where
  /-- A free variable is not bound. -/
  unbound : ∀ x ∈ free, σ.get? x = none
  /-- The bound terms contain free variables only. -/
  values : ∀ x u, σ.get? x = some u → ∀ y ∈ u.occurrences, y ∈ free

namespace Solved

variable {free : List String} {σ : Substitution}

theorem empty (free : List String) : Solved free .empty :=
  ⟨fun _ _ => rfl, fun _ _ hu => by cases hu⟩

/-- Binding a free variable to a term of other free variables keeps the solved form. -/
theorem bind (h : Solved free σ) (hnodup : free.Nodup) {x : String} {t : Term}
    (ht : ∀ y ∈ t.occurrences, y ∈ free) (hxt : x ∉ t.occurrences) :
    Solved (free.erase x) (σ.bind x t) := by
  have hnew : ∀ y ∈ t.occurrences, y ≠ x ∧ y ∈ free :=
    fun y hy => ⟨fun hyx => hxt (hyx ▸ hy), ht y hy⟩
  refine ⟨get?_bind_of_mem_erase hnodup h.unbound x t, fun z u hu y hy => ?_⟩
  rw [List.Nodup.mem_erase_iff hnodup]
  rw [Substitution.get?_bind] at hu
  split_ifs at hu
  · obtain rfl : t = u := by simpa using hu
    exact hnew y hy
  · obtain ⟨u', hu', rfl⟩ := Option.map_eq_some_iff.1 hu
    rcases Term.mem_occurrences_replace.1 hy with ⟨hy, hyx⟩ | ⟨-, hy⟩
    · exact ⟨hyx, h.values z u' hu' y hy⟩
    · exact hnew y hy

theorem not_mem_of_get? (h : Solved free σ) {x : String} {u : Term} (hu : σ.get? x = some u) :
    x ∉ u.occurrences := by
  intro hx
  rw [h.unbound x (h.values x u hu x hx)] at hu
  cases hu

theorem isCyclic_eq_false (h : Solved free σ) : σ.isCyclic = false := by
  rw [Substitution.isCyclic, List.any_eq_false]
  intro p hp
  rw [Term.occurs_eq_true_iff]
  exact h.not_mem_of_get? ((OrderedMap.mem_entries_iff _).1 hp)

theorem apply_apply (h : Solved free σ) (u : Term) : σ.apply (σ.apply u) = σ.apply u := by
  rw [Substitution.apply, Substitution.apply, Term.subst_subst]
  refine Term.subst_congr fun x _ => ?_
  cases hx : σ.get? x with
  | none => simp [Substitution.assign, hx, Term.subst]
  | some v =>
    have hassign : σ.assign x = v := by simp [Substitution.assign, hx]
    rw [hassign]
    calc v.subst σ.assign = v.subst .var := Term.subst_congr fun y hy => by
          simp [Substitution.assign, h.unbound y (h.values x v hx y hy)]
      _ = v := Term.subst_var v

end Solved

/-- **Solving equations with a unifier keeps the bindings in solved form.** -/
theorem Solves.solved {free : List String} {eqs : List Equation} {σ τ : Substitution}
    {θ : String → Term} (h : Solves free eqs σ τ) (hθ : Unifies θ eqs) (hnodup : free.Nodup)
    (hvars : VarsIn free eqs) (hσ : Solved free σ) : ∃ left, Solved left τ := by
  induction h with
  | done free σ => exact ⟨free, hσ⟩
  | skip _ ih => exact ih (unifies_cons.1 hθ).2 hnodup hvars.tail hσ
  | @bind free x t e rest σ τ he _ hne _ _ ih =>
    obtain ⟨heq, hrest⟩ := unifies_cons.1 hθ
    -- whichever side the variable is on, the unifier gives it the value of the other side
    have hx : θ x = t.subst θ := by
      rcases he with rfl | rfl
      · exact heq
      · exact heq.symm
    have ht : ∀ y ∈ t.occurrences, y ∈ free := by
      intro y hy
      rcases he with rfl | rfl
      · exact hvars.head y (List.mem_append_right _ hy)
      · exact hvars.head y (List.mem_append_left _ hy)
    have hxt := Term.not_mem_occurrences_of_subst_eq hne hx
    exact ih (hrest.map_replace hx) (hnodup.erase x) (hvars.tail.map_replace hnodup ht hxt)
      (hσ.bind hnodup ht hxt)
  | split hlen _ ih =>
    obtain ⟨heq, hrest⟩ := unifies_cons.1 hθ
    simp only [Term.subst, Term.substList_eq_map, Term.app.injEq, true_and] at heq
    exact ih (unifies_append.2 ⟨(unifies_zip hlen).2 heq, hrest⟩) hnodup hvars.zip hσ

theorem Solves.mem_free {free : List String} {eqs : List Equation} {σ τ : Substitution}
    (h : Solves free eqs σ τ) {x : String} (hσ : σ.get? x = none) {u : Term}
    (hu : τ.get? x = some u) : x ∈ free := by
  induction h with
  | done => rw [hσ] at hu; cases hu
  | skip _ ih => exact ih hσ hu
  | @bind free z t e rest σ τ _ hz _ _ _ ih =>
    by_cases hxz : x = z
    · exact hxz ▸ hz
    · exact List.mem_of_mem_erase (ih (Substitution.get?_bind_eq_none_iff.2 ⟨hxz, hσ⟩) hu)
  | split _ _ ih => exact ih hσ hu

end Unifier

/-! ### Unifiers of two terms -/

namespace Term

open Unifier

variable {s t : Term} {σ : Substitution}

theorem exists_solved_unifier? {θ : String → Term} (hθ : s.subst θ = t.subst θ)
    (h : s.unifier? t = some σ) : ∃ left, Solved left σ := by
  refine (solves_of_unifier? h).solved (θ := θ) ?_ (nodup_eraseDups _) ?_ (.empty _)
  · simpa [Unifies] using hθ
  · simp [VarsIn]

/-- **A result is acyclic exactly if the two terms have a unifier.** -/
theorem isCyclic_unifier?_iff (h : s.unifier? t = some σ) :
    σ.isCyclic = false ↔ ∃ θ : Substitution, θ.apply s = θ.apply t := by
  constructor
  · intro hσ
    exact ⟨σ, subst_eq_of_unifier? h hσ⟩
  · rintro ⟨θ, hθ⟩
    obtain ⟨left, hsolved⟩ := exists_solved_unifier? hθ h
    exact hsolved.isCyclic_eq_false

/-- The result binds variables of the two terms, to terms of such variables. -/
theorem mem_of_get?_unifier? (h : s.unifier? t = some σ) {x : String} {u : Term}
    (hu : σ.get? x = some u) {y : String} (hy : y = x ∨ y ∈ u.occurrences) :
    y ∈ s.occurrences ++ t.occurrences := by
  have hx : x ∈ s.occurrences ++ t.occurrences := by
    simpa using (solves_of_unifier? h).mem_free rfl hu
  rcases hy with rfl | hy
  · exact hx
  · have hassign : σ.assign x = u := by simp [Substitution.assign, hu]
    rcases mem_of_mem_unifier? h (hassign ▸ hy) with rfl | hy
    · exact hx
    · exact List.mem_append.2 hy

end Term

/-- The substitution is an idempotent most general unifier of the two terms, without new
variables. -/
structure Substitution.IsMostGeneral (σ : Substitution) (s t : Term) : Prop where
  /-- It makes the two terms equal. -/
  unifies : σ.apply s = σ.apply t
  /-- Applying it twice is applying it once. -/
  idempotent (u : Term) : σ.apply (σ.apply u) = σ.apply u
  /-- It binds variables of the two terms, to terms of such variables. -/
  vars {x : String} {u : Term} (hu : σ.get? x = some u) :
    x ∈ s.occurrences ++ t.occurrences ∧ ∀ y ∈ u.occurrences, y ∈ s.occurrences ++ t.occurrences
  /-- Every unifier factors through it, and is itself the other factor. -/
  factors (θ : Substitution) (hθ : θ.apply s = θ.apply t) (u : Term) :
    θ.apply (σ.apply u) = θ.apply u

/-- **Unification computes most general unifiers**, without an occurs check: two terms have a
unifier exactly if there is an acyclic result, and an acyclic result is an idempotent most general
unifier. -/
theorem unification_most_general (s t : Term) :
    ((∃ θ : Substitution, θ.apply s = θ.apply t) ↔
      ∃ σ, s.unifier? t = some σ ∧ σ.isCyclic = false) ∧
    ∀ σ, s.unifier? t = some σ → σ.isCyclic = false → σ.IsMostGeneral s t := by
  refine ⟨⟨?_, ?_⟩, ?_⟩
  · rintro ⟨θ, hθ⟩
    obtain ⟨σ, hσ, -⟩ := Term.exists_unifier? hθ
    exact ⟨σ, hσ, (Term.isCyclic_unifier?_iff hσ).2 ⟨θ, hθ⟩⟩
  · rintro ⟨σ, hσ, hacyclic⟩
    exact (Term.isCyclic_unifier?_iff hσ).1 hacyclic
  · intro σ hσ hacyclic
    have hunifies := Term.subst_eq_of_unifier? hσ hacyclic
    obtain ⟨left, hsolved⟩ := Term.exists_solved_unifier? hunifies hσ
    refine ⟨hunifies, hsolved.apply_apply, fun hu => ⟨?_, fun y hy => ?_⟩, fun θ hθ u => ?_⟩
    · exact Term.mem_of_get?_unifier? hσ hu (.inl rfl)
    · exact Term.mem_of_get?_unifier? hσ hu (.inr hy)
    · obtain ⟨σ', hσ', hfactor⟩ := Term.exists_unifier? hθ
      obtain rfl : σ = σ' := Option.some.inj (hσ.symm.trans hσ')
      rw [Substitution.apply, Substitution.apply, Term.subst_subst]
      exact Term.subst_congr fun x _ => hfactor x

/-- `p(X, f(Y), X)` and `p(f(Z), X, f(a))` have a most general unifier, which takes three bindings;
`X` and `f(X)` have none, although there is a result for them. -/
theorem unification_most_general_chain :
    (∃ σ, (Term.app "p" [.var "X", .app "f" [.var "Y"], .var "X"]).unifier?
        (.app "p" [.app "f" [.var "Z"], .var "X", .app "f" [.const "a"]]) = some σ ∧
      σ.isCyclic = false ∧ σ.size = 3 ∧
      σ.IsMostGeneral (.app "p" [.var "X", .app "f" [.var "Y"], .var "X"])
        (.app "p" [.app "f" [.var "Z"], .var "X", .app "f" [.const "a"]])) ∧
    ((Term.var "X").unifier? (.app "f" [.var "X"])).isSome = true ∧
      ¬∃ θ : Substitution, θ.apply (.var "X") = θ.apply (.app "f" [.var "X"]) := by
  let σ : Substitution := .ofList [("X", .app "f" [.const "a"]), ("Y", .const "a"),
    ("Z", .const "a")]
  have hσ : (Term.app "p" [.var "X", .app "f" [.var "Y"], .var "X"]).unifier?
      (.app "p" [.app "f" [.var "Z"], .var "X", .app "f" [.const "a"]]) = some σ := by cbv
  have hcyclic : (Term.var "X").unifier? (.app "f" [.var "X"]) =
      some (.ofList [("X", .app "f" [.var "X"])]) := by cbv
  refine ⟨⟨σ, hσ, by decide, by decide, (unification_most_general _ _).2 σ hσ (by decide)⟩,
    by rw [hcyclic]; rfl, fun h => ?_⟩
  obtain ⟨τ, hτ, hacyclic⟩ := (unification_most_general _ _).1.1 h
  obtain rfl := Option.some.inj (hcyclic.symm.trans hτ)
  exact absurd hacyclic (by decide)

end Refutation
