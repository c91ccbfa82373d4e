import Refutation.Inference.Rule
import Refutation.Proofs.Variant
import Mathlib.Data.Option.Defs

/-!
# Inferences between variants

Unification goes by the places of variables and not by their names, so that a permutation of all
variables can be applied before or after it.  A conclusion from variants of the premises is then a
variant of the conclusion; the premises of a resolution must not share variables, because each of
them has a renaming of its own.

* `Term.unifier?_rename` : **unification commutes with permutations of the variables.**
* `Entry.Variant.resolve`, `Entry.Variant.factor` : conclusions from variants are variants.
-/

namespace Refutation

variable {π : Equiv.Perm String}

/-! ### Unification -/

theorem Term.rename_replace (t : Term) (x : String) (u : Term) :
    (t.replace x u).rename π = (t.rename π).replace (π x) (u.rename π) := by
  change (t.subst (single x u)).subst (fun y => .var (π y)) =
    (t.subst fun y => .var (π y)).subst (single (π x) (u.rename π))
  rw [subst_subst, subst_subst]
  refine subst_congr fun y _ => ?_
  by_cases h : y = x
  · simp [h, single, subst, rename]
  · simp [h, single, subst]

/-- The second substitution binds the renamed variables to the renamed terms. -/
def Substitution.Renames (π : Equiv.Perm String) (σ σ' : Substitution) : Prop :=
  ∀ x, σ'.get? (π x) = (σ.get? x).map (Term.rename π)

namespace Substitution.Renames

variable {σ σ' : Substitution}

theorem empty : Renames π .empty .empty := fun _ => rfl

theorem bind (h : Renames π σ σ') (x : String) (u : Term) :
    Renames π (σ.bind x u) (σ'.bind (π x) (u.rename π)) := by
  intro y
  rw [get?_bind, get?_bind, h y]
  by_cases hyx : y = x
  · simp [hyx]
  · rw [if_neg hyx, if_neg (π.injective.ne hyx)]
    cases σ.get? y with
    | none => rfl
    | some t => exact congrArg some (t.rename_replace x u).symm

theorem assign (h : Renames π σ σ') (x : String) : σ'.assign (π x) = (σ.assign x).rename π := by
  rw [Substitution.assign, Substitution.assign, h x]
  cases σ.get? x <;> rfl

theorem apply (h : Renames π σ σ') (u : Term) : σ'.apply (u.rename π) = (σ.apply u).rename π := by
  rw [Substitution.apply, Substitution.apply, Term.rename, Term.rename, Term.subst_subst,
    Term.subst_subst]
  exact Term.subst_congr fun x _ => h.assign x

theorem instantiate (h : Renames π σ σ') (l : Literal) :
    (l.rename π).instantiate σ' = (l.instantiate σ).rename π := by
  have hatom : (l.rename π).toSignedAtom.subst σ'.assign =
      (l.toSignedAtom.subst σ.assign).subst fun x => .var (π x) :=
        SignedAtom.ext rfl (h.apply l.atom)
  rw [Literal.instantiate, hatom, SignedAtom.toLiteral_rename]
  rfl

end Substitution.Renames

namespace Unifier

/-- The equation with its variables renamed. -/
def rename (π : Equiv.Perm String) (e : Equation) : Equation := (e.1.rename π, e.2.rename π)

theorem isClosedVar_rename (free : List String) (t : Term) :
    isClosedVar (free.map π) (t.rename π) = isClosedVar free t := by
  cases t with
  | var x => simp [isClosedVar]
  | app f ts => simp [isClosedVar]

theorem map_rename_replace (eqs : List Equation) (x : String) (u : Term) :
    (eqs.map (replace x u)).map (rename π) =
      (eqs.map (rename π)).map (replace (π x) (u.rename π)) := by
  simp [rename, replace, Term.rename_replace]

theorem map_rename_zip (ss ts : List Term) :
    (ss.zip ts).map (rename π) = (ss.map (Term.rename π)).zip (ts.map (Term.rename π)) := by
  rw [List.zip_map]
  rfl

section Equations

variable {free : List String} {s t : Term} {x : String} {rest : List Equation} {σ : Substitution}

theorem solve_self : solve free ((t, t) :: rest) σ = solve free rest σ := by
  rw [solve.eq_def]
  simp

theorem solve_closed (hne : s ≠ t) (hclosed : (isClosedVar free s || isClosedVar free t) = true) :
    solve free ((s, t) :: rest) σ = none := by
  rw [solve.eq_def]
  simp only [if_neg hne, if_pos hclosed]

theorem isClosedVar_var_iff : isClosedVar free (.var x) = true ↔ x ∉ free := by
  simp [isClosedVar]

theorem solve_var_left (hne : .var x ≠ t)
    (hclosed : ¬(isClosedVar free (.var x) || isClosedVar free t) = true) :
    solve free ((.var x, t) :: rest) σ =
      solve (free.erase x) (rest.map (replace x t)) (σ.bind x t) := by
  have hx : x ∈ free := by
    rw [Bool.or_eq_true, isClosedVar_var_iff, not_or, not_not] at hclosed
    exact hclosed.1
  rw [solve.eq_def]
  simp only [if_neg hne, if_neg hclosed, if_pos hx]

theorem solve_var_right (hs : ∀ y, s ≠ .var y)
    (hclosed : ¬(isClosedVar free s || isClosedVar free (.var x)) = true) :
    solve free ((s, .var x) :: rest) σ =
      solve (free.erase x) (rest.map (replace x s)) (σ.bind x s) := by
  have hx : x ∈ free := by
    rw [Bool.or_eq_true, isClosedVar_var_iff, not_or, not_not] at hclosed
    exact hclosed.2
  cases s with
  | var y => exact absurd rfl (hs y)
  | app f ss =>
    rw [solve.eq_def]
    simp only [if_neg (hs x), if_neg hclosed, if_pos hx]

theorem solve_app {f g : String} {ss ts : List Term} (hne : Term.app f ss ≠ .app g ts) :
    solve free ((.app f ss, .app g ts) :: rest) σ =
      if f = g ∧ ss.length = ts.length then solve free (ss.zip ts ++ rest) σ else none := by
  rw [solve.eq_def]
  simp only [if_neg hne, isClosedVar, Bool.or_self, Bool.false_eq_true, if_false]

end Equations

/-- **The steps of the procedure commute with permutations of the variables.** -/
theorem solve_rename {free : List String} {eqs : List Equation} {σ σ' : Substitution}
    (hσ : σ.Renames π σ') : Option.Rel (Substitution.Renames π) (solve free eqs σ)
      (solve (free.map π) (eqs.map (rename π)) σ') := by
  have hinj : ∀ {s t : Term}, s ≠ t → s.rename π ≠ t.rename π := (Term.rename_injective π).ne
  fun_induction solve free eqs σ generalizing σ' with
  | case1 free σ =>
    rw [List.map_nil, solve]
    exact .some hσ
  | case2 free t rest σ ih =>
    rw [List.map_cons, rename, solve_self]
    exact ih hσ
  | case3 free s t rest σ hne hclosed =>
    rw [List.map_cons, rename,
      solve_closed (hinj hne) (by simpa only [isClosedVar_rename] using hclosed)]
    exact .none
  | case4 free rest σ x t hx hne hclosed ih =>
    simp only [List.map_subtype, List.unattach_attach] at ih
    have hbind := ih (hσ.bind x t)
    rw [List.map_erase π.injective, map_rename_replace] at hbind
    rw [List.map_cons, rename, Term.rename_var, solve_var_left (hinj hne)
      (by simpa only [← Term.rename_var π x, isClosedVar_rename] using hclosed)]
    exact hbind
  | case5 free rest σ x t hx hne hclosed => simp [isClosedVar_var_iff, hx] at hclosed
  | case6 free rest σ s x hs hx hne hclosed ih =>
    simp only [List.map_subtype, List.unattach_attach] at ih
    have hbind := ih (hσ.bind x s)
    rw [List.map_erase π.injective, map_rename_replace] at hbind
    have hs' : ∀ y, s.rename π ≠ .var y := by
      cases s with
      | var y => exact absurd rfl (hs y)
      | app f ss => simp
    rw [List.map_cons, rename, Term.rename_var, solve_var_right hs'
      (by simpa only [← Term.rename_var π x, isClosedVar_rename] using hclosed)]
    exact hbind
  | case7 free rest σ s x hs hx hne hclosed => simp [isClosedVar_var_iff, hx] at hclosed
  | case8 free rest σ f ss g ts hfg hne _ ih =>
    have hsplit := ih hσ
    rw [List.map_append, map_rename_zip] at hsplit
    have hne' := hinj hne
    rw [Term.rename_app, Term.rename_app] at hne'
    rw [List.map_cons, rename, Term.rename_app, Term.rename_app, solve_app hne',
      if_pos (by simpa using hfg)]
    exact hsplit
  | case9 free rest σ f ss g ts hfg hne _ =>
    have hne' := hinj hne
    rw [Term.rename_app, Term.rename_app] at hne'
    rw [List.map_cons, rename, Term.rename_app, Term.rename_app, solve_app hne',
      if_neg (by simpa using hfg)]
    exact .none

end Unifier

/-- **Unification commutes with permutations of the variables.** -/
theorem Term.unifier?_rename (π : Equiv.Perm String) (s t : Term) :
    Option.Rel (Substitution.Renames π) (s.unifier? t) ((s.rename π).unifier? (t.rename π)) := by
  have h : Option.Rel (Substitution.Renames π)
      (Unifier.solve (s.occurrences ++ t.occurrences).eraseDups [(s, t)] .empty) _ :=
    Unifier.solve_rename .empty
  rw [← eraseDups_map π.injective, List.map_append] at h
  rwa [unifier?, unifier?, occurrences_rename, occurrences_rename]

/-! ### The rules -/

theorem instances_rename (s t : Term) (ls : List Literal) :
    ((s.rename π).unifier? (t.rename π)).bind
        (fun σ => some ((ls.map (·.rename π)).map (·.instantiate σ))) =
      ((s.unifier? t).bind fun σ => some (ls.map (·.instantiate σ))).map (·.map (·.rename π)) := by
  have h := Term.unifier?_rename π s t
  generalize s.unifier? t = σ at h
  generalize (s.rename π).unifier? (t.rename π) = σ' at h
  cases h with
  | none => rfl
  | some h =>
    simp only [Option.bind_some, Option.map_some, List.map_map, Option.some.injEq]
    exact List.map_congr_left fun l _ => h.instantiate l

theorem resolvent?_rename (ls : List Literal) (i : Nat) (ms : List Literal) (j : Nat) :
    resolvent? (ls.map (·.rename π)) i (ms.map (·.rename π)) j =
      (resolvent? ls i ms j).map (·.map (·.rename π)) := by
  simp only [resolvent?, bind, pure, List.getElem?_map, List.eraseIdx_map, ← List.map_append]
  cases ls[i]? with
  | none => rfl
  | some l =>
    cases ms[j]? with
    | none => rfl
    | some m => exact instances_rename l.atom m.atom (ls.eraseIdx i ++ ms.eraseIdx j)

theorem factor?_rename (ls : List Literal) (i j : Nat) :
    factor? (ls.map (·.rename π)) i j = (factor? ls i j).map (·.map (·.rename π)) := by
  simp only [factor?, bind, pure, List.getElem?_map, List.eraseIdx_map]
  cases ls[i]? with
  | none => rfl
  | some l =>
    cases ls[j]? with
    | none => rfl
    | some m => exact instances_rename l.atom m.atom (ls.eraseIdx j)

/-- Two entries with one number are variants if their clauses are. -/
structure Entry.Variant (e e' : Entry) : Prop where
  number : e.number = e'.number
  clause : e.clause.Variant e'.clause

theorem Clause.variant_conclude (rule : String) {premises premises' : List Entry}
    (hparents : premises.map (·.asParent) = premises'.map (·.asParent)) (ls : List Literal) :
    (conclude rule premises ls).Variant (conclude rule premises' (ls.map (·.rename π))) := by
  refine variant_iff.2 ⟨π, ?_⟩
  simp [conclude, rename, Clause.of, hparents]

namespace Entry.Variant

variable {c c' d d' : Entry} (hc : c.Variant c')

include hc

theorem asParent_eq : c.asParent = c'.asParent := by
  obtain ⟨hnumber, ρ, -, hclause⟩ := hc
  rw [asParent, asParent, hnumber, hclause]
  rfl

/-- **A factor of a variant is a variant of the factor.** -/
theorem factor (i j : Nat) : Option.Rel Clause.Variant (c.factor i j) (c'.factor i j) := by
  have hparent := hc.asParent_eq
  obtain ⟨-, hclause⟩ := hc
  obtain ⟨π, hπ⟩ := Clause.variant_iff.1 hclause
  simp only [Entry.factor, hπ, Clause.literals_rename, List.getElem?_map]
  cases c.clause.literals[i]? with
  | none => exact .none
  | some l =>
    cases c.clause.literals[j]? with
    | none => exact .none
    | some m =>
      simp only [Option.map_some, Literal.negative_rename, Literal.predicate_rename, factor?_rename]
      split
      · cases factor? c.clause.literals i j with
        | none => exact .none
        | some ls => exact .some (Clause.variant_conclude "factor" (by simp [hparent]) ls)
      · exact .none

/-- **A resolvent of variants is a variant of the resolvent**, if the first premise and the fresh
copy of the second have no variable in common. -/
theorem resolve (hd : d.Variant d') (i j : Nat) {fresh : FreshVars}
    (hdisjoint : ∀ x ∈ c.clause.vars, x ∉ (d.clause.freshCopy fresh).1.vars)
    (hdisjoint' : ∀ x ∈ c'.clause.vars, x ∉ (d'.clause.freshCopy fresh).1.vars) :
    Option.Rel Clause.Variant (c.resolve i d j fresh).1 (c'.resolve i d' j fresh).1 ∧
      (c.resolve i d j fresh).2 = (c'.resolve i d' j fresh).2 := by
  have hparents : [c, d].map (·.asParent) = [c', d'].map (·.asParent) := by
    simp [hc.asParent_eq, hd.asParent_eq]
  obtain ⟨-, hclause⟩ := hc
  obtain ⟨-, hclause'⟩ := hd
  obtain ⟨π, hπ⟩ := Clause.variant_iff.1 hclause
  obtain ⟨π', hπ'⟩ := Clause.variant_iff.1 hclause'
  have hcopy : d'.clause.freshCopy fresh = d.clause.freshCopy fresh := by
    rw [hπ', Clause.freshCopy_rename]
  rw [hcopy, hπ, Clause.vars_rename] at hdisjoint'
  -- one permutation renames the first premise and leaves the copy as it is
  obtain ⟨η, hη, hηcopy⟩ := exists_perm_combining π 1 hdisjoint fun x hx y hy hxy =>
    hdisjoint' _ (List.mem_map_of_mem hx) (hxy ▸ hy)
  have hliterals : c'.clause.literals = c.clause.literals.map (·.rename η) := by
    rw [hπ, ← Clause.rename_congr hη, Clause.literals_rename]
  have hcopyLiterals : (d.clause.freshCopy fresh).1.literals =
      (d.clause.freshCopy fresh).1.literals.map (·.rename η) := by
    have hid : (d.clause.freshCopy fresh).1.rename η = (d.clause.freshCopy fresh).1 :=
      (Clause.rename_congr hηcopy).trans (Clause.rename_id _)
    exact congrArg Clause.literals hid.symm
  have hpartner : d'.clause.literals = d.clause.literals.map (·.rename π') := by
    rw [hπ', Clause.literals_rename]
  simp only [Entry.resolve, hliterals, hpartner, hcopy, List.getElem?_map]
  cases c.clause.literals[i]? with
  | none => exact ⟨.none, rfl⟩
  | some l =>
    cases d.clause.literals[j]? with
    | none => exact ⟨.none, rfl⟩
    | some m =>
      have hiff : (l.rename η).isPartner (m.rename π') = l.isPartner m := by
        simp [Literal.isPartner]
      simp only [Option.map_some, hiff]
      split
      · refine ⟨?_, rfl⟩
        rw [hcopyLiterals, resolvent?_rename, ← hcopyLiterals]
        cases resolvent? c.clause.literals i (d.clause.freshCopy fresh).1.literals j with
        | none => exact .none
        | some ls => exact .some (Clause.variant_conclude "resolution" hparents ls)
      · exact ⟨.none, rfl⟩

end Entry.Variant

end Refutation
