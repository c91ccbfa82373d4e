import Refutation.Proofs.Equivariance
import Refutation.Proofs.Unification.MostGeneral
import Mathlib.Data.List.Zip

/-!
# Unification is symmetric

Exchanging the two terms exchanges the sides of all equations.  An equation between a variable and
an application is then solved by the same binding; an equation between two variables is solved by
the opposite one, after which the two unifications differ by the exchange of these variables.  So
there is always a permutation of the variables that leads from the one to the other, and it grows by
one transposition with each equation between variables.  It takes the variables that may still be
bound to such variables, also when other bindings are cyclic, and so both unifications fail at the
same equation or at none.

* `Unifier.Mirrors` : two unifications from exchanged sides, up to a permutation of the variables.
* `Unifier.Mirrors.bind` : **opposite bindings keep this**, for the permutation that goes with them.
* `Unifier.solve_mirror` : so both succeed or both fail, and the results differ by a permutation.
* `unification_symmetric` : exchanging two terms changes neither whether there is a result nor
  whether it is cyclic, and changes what it does to terms by an injective renaming.
-/

namespace Refutation

variable {π π' : Equiv.Perm String}

/-- Binding two variables to each other, the one way or the other, gives the same up to their
exchange. -/
theorem Term.rename_replace_var {x y : String} (hxy : x ≠ y) (u : Term) :
    (u.rename π).replace (π y) (.var (π x)) =
      (u.replace x (.var y)).rename (π * Equiv.swap x y) := by
  simp only [rename, replace, subst_subst]
  refine subst_congr fun z _ => ?_
  by_cases hzx : z = x
  · subst hzx
    simp [single, subst, hxy]
  · by_cases hzy : z = y
    · subst hzy
      simp [single, subst, hzx]
    · simp [single, subst, hzx, hzy, Equiv.swap_apply_of_ne_of_ne hzx hzy]

/-- The substitutions do the same to every term, up to a permutation of the variables. -/
def Substitution.SameUpToRenaming (σ σ' : Substitution) : Prop :=
  ∃ π : Equiv.Perm String, ∀ u, σ'.apply u = (σ.apply u).rename π

namespace Unifier

/-- The equation with its sides exchanged and its variables renamed. -/
def mirror (π : Equiv.Perm String) (e : Equation) : Equation := (e.2.rename π, e.1.rename π)

theorem mirror_mk (s t : Term) : mirror π (s, t) = (t.rename π, s.rename π) := rfl

/-- The free variables and the bindings of two unifications are the same up to a permutation of the
variables. -/
structure Mirrors (π : Equiv.Perm String) (free free' : List String) (σ σ' : Substitution) :
    Prop where
  /-- No variable is free twice. -/
  nodup : free.Nodup
  /-- The same for the other unification. -/
  nodup' : free'.Nodup
  /-- The permutation takes free variables to free variables. -/
  mem_iff (x : String) : π x ∈ free' ↔ x ∈ free
  /-- A free variable is not bound. -/
  unbound : ∀ x ∈ free, σ.get? x = none
  /-- The same for the other unification. -/
  unbound' : ∀ x ∈ free', σ'.get? x = none
  /-- The bindings do the same up to the permutation. -/
  apply (u : Term) : σ'.apply u = (σ.apply u).rename π

namespace Mirrors

variable {free free' : List String} {σ σ' : Substitution} (h : Mirrors π free free' σ σ')

include h

theorem isClosedVar_rename (t : Term) : isClosedVar free' (t.rename π) = isClosedVar free t := by
  cases t with
  | var x => simp [isClosedVar, h.mem_iff]
  | app f ts => simp [isClosedVar]

/-- **Opposite bindings keep two unifications the same up to a permutation**, if replacing the one
variable and replacing the other differ by this permutation. -/
theorem bind {x x' : String} {t t' : Term} (hx : x ∈ free) (hx' : x' ∈ free')
    (hmem : ∀ z, (π' z ≠ x' ∧ π' z ∈ free') ↔ (z ≠ x ∧ z ∈ free))
    (hreplace : ∀ u : Term, (u.rename π).replace x' t' = (u.replace x t).rename π') :
    Mirrors π' (free.erase x) (free'.erase x') (σ.bind x t) (σ'.bind x' t') where
  nodup := h.nodup.erase x
  nodup' := h.nodup'.erase x'
  mem_iff z := by rw [List.Nodup.mem_erase_iff h.nodup', List.Nodup.mem_erase_iff h.nodup, hmem]
  unbound := get?_bind_of_mem_erase h.nodup h.unbound x t
  unbound' := get?_bind_of_mem_erase h.nodup' h.unbound' x' t'
  apply u := by
    rw [Substitution.apply_bind (h.unbound' x' hx'), Substitution.apply_bind (h.unbound x hx),
      h.apply, hreplace]

theorem bind_same {x : String} (hx : x ∈ free) (t : Term) :
    Mirrors π (free.erase x) (free'.erase (π x)) (σ.bind x t) (σ'.bind (π x) (t.rename π)) :=
  h.bind hx ((h.mem_iff x).2 hx) (fun z => by rw [h.mem_iff, π.injective.ne_iff])
    fun u => (u.rename_replace x t).symm

/-- Two variables are bound to each other in opposite directions. -/
theorem bind_swap {x y : String} (hx : x ∈ free) (hy : y ∈ free) (hxy : x ≠ y) :
    Mirrors (π * Equiv.swap x y) (free.erase x) (free'.erase (π y)) (σ.bind x (.var y))
      (σ'.bind (π y) (.var (π x))) := by
  refine h.bind hx ((h.mem_iff y).2 hy) (fun z => ?_) (Term.rename_replace_var hxy)
  rw [Equiv.Perm.mul_apply, h.mem_iff, π.injective.ne_iff]
  by_cases hzx : z = x
  · simp [hzx]
  · by_cases hzy : z = y
    · simp [hzy, hx, hy, hxy, Ne.symm hxy]
    · simp [Equiv.swap_apply_of_ne_of_ne hzx hzy, hzx, hzy]

end Mirrors

/-- Replacing in all equations goes with the mirror as replacing in a term goes with renaming. -/
theorem map_mirror_replace {x x' : String} {t t' : Term}
    (hreplace : ∀ u : Term, (u.rename π).replace x' t' = (u.replace x t).rename π')
    (eqs : List Equation) :
    (eqs.map (mirror π)).map (replace x' t') = (eqs.map (replace x t)).map (mirror π') := by
  simp [mirror, replace, hreplace]

theorem map_mirror_zip (ss ts : List Term) :
    (ss.zip ts).map (mirror π) = (ts.map (Term.rename π)).zip (ss.map (Term.rename π)) := by
  rw [List.zip_map, ← List.zip_swap ss ts, List.map_map]
  rfl

/-- **From exchanged sides both unifications succeed or both fail**, and the results do the same up
to a permutation of the variables. -/
theorem solve_mirror {free free' : List String} {eqs : List Equation} {σ σ' : Substitution}
    (h : Mirrors π free free' σ σ') :
    Option.Rel Substitution.SameUpToRenaming (solve free eqs σ)
      (solve free' (eqs.map (mirror π)) σ') := by
  have hinj : ∀ {π : Equiv.Perm String} {s t : Term}, s ≠ t → t.rename π ≠ s.rename π :=
    fun hne => (Term.rename_injective _).ne hne.symm
  -- along the first unification, for all permutations: the permutation changes with the bindings
  fun_induction solve free eqs σ generalizing π free' σ' with
  | case1 free σ =>
    rw [List.map_nil, solve]
    exact .some ⟨π, h.apply⟩
  | case2 free t rest σ ih =>
    rw [List.map_cons, mirror_mk, solve_self]
    exact ih h
  | case3 free s t rest σ hne hclosed =>
    rw [List.map_cons, mirror_mk, solve_closed (hinj hne)
      (by simpa only [h.isClosedVar_rename, Bool.or_comm] using hclosed)]
    exact .none
  | case4 free rest σ x t hx hne hclosed ih =>
    simp only [List.map_subtype, List.unattach_attach] at ih
    have hne' := hinj (π := π) hne
    have hclosed' :
        ¬(isClosedVar free' (t.rename π) || isClosedVar free' (Term.rename π (.var x))) = true := by
      simpa only [h.isClosedVar_rename, Bool.or_comm] using hclosed
    rw [List.map_cons, mirror_mk]
    rw [Term.rename_var] at hne' hclosed' ⊢
    cases t with
    | var y =>
      have hy : y ∈ free := by simpa [isClosedVar, hx] using hclosed
      have hxy : x ≠ y := by simpa using hne
      rw [Term.rename_var] at hne' hclosed' ⊢
      rw [solve_var_left hne' hclosed',
        map_mirror_replace (Term.rename_replace_var hxy)]
      exact ih (h.bind_swap hx hy hxy)
    | app f ts =>
      rw [solve_var_right (by simp) hclosed',
        map_mirror_replace fun u => (u.rename_replace x _).symm]
      exact ih (h.bind_same hx _)
  | case5 free rest σ x t hx hne hclosed => simp [isClosedVar, hx] at hclosed
  | case6 free rest σ s x hs hx hne hclosed ih =>
    simp only [List.map_subtype, List.unattach_attach] at ih
    have hne' := hinj (π := π) hne
    have hclosed' :
        ¬(isClosedVar free' (Term.rename π (.var x)) || isClosedVar free' (s.rename π)) = true := by
      simpa only [h.isClosedVar_rename, Bool.or_comm] using hclosed
    rw [Term.rename_var] at hne' hclosed'
    rw [List.map_cons, mirror_mk, Term.rename_var, solve_var_left hne' hclosed',
      map_mirror_replace fun u => (u.rename_replace x s).symm]
    exact ih (h.bind_same hx s)
  | case7 free rest σ s x hs hx hne hclosed => simp [isClosedVar, hx] at hclosed
  | case8 free rest σ f ss g ts hfg hne _ ih =>
    have hsplit := ih h
    rw [List.map_append, map_mirror_zip] at hsplit
    have hne' := hinj (π := π) hne
    rw [Term.rename_app, Term.rename_app] at hne'
    rw [List.map_cons, mirror_mk, Term.rename_app, Term.rename_app, solve_app hne',
      if_pos (by simpa [eq_comm] using hfg)]
    exact hsplit
  | case9 free rest σ f ss g ts hfg hne _ =>
    have hne' := hinj (π := π) hne
    rw [Term.rename_app, Term.rename_app] at hne'
    rw [List.map_cons, mirror_mk, Term.rename_app, Term.rename_app, solve_app hne',
      if_neg (by simpa [eq_comm] using hfg)]
    exact .none

end Unifier

/-- Exchanging two terms changes the result by a permutation of the variables. -/
theorem Term.unifier?_swap (s t : Term) :
    Option.Rel Substitution.SameUpToRenaming (s.unifier? t) (t.unifier? s) := by
  have h : Unifier.Mirrors 1 (s.occurrences ++ t.occurrences).eraseDups
      (t.occurrences ++ s.occurrences).eraseDups .empty .empty :=
    ⟨nodup_eraseDups _, nodup_eraseDups _, fun x => by simp [or_comm], fun _ _ => rfl,
      fun _ _ => rfl, fun u => by simpa using u.rename_id.symm⟩
  have hsolve : Option.Rel _ (s.unifier? t) _ := Unifier.solve_mirror h
  have hid : ∀ u : Term, u.rename (1 : Equiv.Perm String) = u := Term.rename_id
  rwa [List.map_singleton, Unifier.mirror_mk, hid, hid] at hsolve

/-- **Unification is symmetric**, with cyclic results too: exchanging the two terms changes neither
whether there is a result nor whether it is cyclic, and the results do the same to every term up to
an injective renaming of variables. -/
theorem unification_symmetric (s t : Term) :
    ((s.unifier? t).isSome = (t.unifier? s).isSome) ∧
    ∀ σ τ, s.unifier? t = some σ → t.unifier? s = some τ →
      σ.isCyclic = τ.isCyclic ∧
        ∃ ρ : String → String, Function.Injective ρ ∧ ∀ u, τ.apply u = (σ.apply u).rename ρ := by
  have hswap := Term.unifier?_swap s t
  constructor
  · generalize s.unifier? t = result at hswap
    generalize t.unifier? s = result' at hswap
    cases hswap <;> rfl
  · intro σ τ hσ hτ
    rw [hσ, hτ] at hswap
    obtain ⟨π, hπ⟩ : σ.SameUpToRenaming τ := by cases hswap; assumption
    refine ⟨?_, π, π.injective, hπ⟩
    -- a result is acyclic exactly if there is a unifier, on whichever side the terms are
    rw [Bool.eq_iff_iff, ← not_iff_not, Bool.not_eq_true, Bool.not_eq_true,
      Term.isCyclic_unifier?_iff hσ, Term.isCyclic_unifier?_iff hτ]
    exact exists_congr fun θ => eq_comm

/-- For `p(X, Y)` and `p(Y, f(X))` the first equation binds `X` to `Y` or `Y` to `X`, and the second
gives a cyclic binding of the variable that is left. -/
theorem unification_symmetric_oppositeBindings :
    ∃ σ τ, (Term.app "p" [.var "X", .var "Y"]).unifier?
        (.app "p" [.var "Y", .app "f" [.var "X"]]) = some σ ∧
      (Term.app "p" [.var "Y", .app "f" [.var "X"]]).unifier?
      (.app "p" [.var "X", .var "Y"]) = some τ ∧
      σ.apply (.var "X") = .app "f" [.var "Y"] ∧ τ.apply (.var "X") = .app "f" [.var "X"] ∧
      σ.isCyclic = true ∧ τ.isCyclic = true ∧
      ∃ ρ : String → String, Function.Injective ρ ∧ ∀ u, τ.apply u = (σ.apply u).rename ρ := by
  let σ : Substitution := .ofList [("X", .app "f" [.var "Y"]), ("Y", .app "f" [.var "Y"])]
  let τ : Substitution := .ofList [("X", .app "f" [.var "X"]), ("Y", .app "f" [.var "X"])]
  have hσ : (Term.app "p" [.var "X", .var "Y"]).unifier?
      (.app "p" [.var "Y", .app "f" [.var "X"]]) = some σ := by cbv
  have hτ : (Term.app "p" [.var "Y", .app "f" [.var "X"]]).unifier?
      (.app "p" [.var "X", .var "Y"]) = some τ := by cbv
  obtain ⟨hcyclic, hρ⟩ := (unification_symmetric _ _).2 σ τ hσ hτ
  have hσcyclic : σ.isCyclic = true := by decide
  exact ⟨σ, τ, hσ, hτ, by decide, by decide, hσcyclic, hcyclic ▸ hσcyclic, hρ⟩

end Refutation
