import Refutation.Unifier
import Mathlib.Data.List.Permutation

/-!
# Correctness of unification

`Unifier.solve` has no occurs check, but a variable that is bound to a term containing it stays so
to the end.  Hence an acyclic result was built by acyclic bindings only, and is a unifier; and terms
with a unifier are never bound cyclically.

* `Unifier.Solves` : the steps of `solve` as a relation, one constructor for each step.
* `Term.subst_eq_of_unifier?` : an acyclic result makes the two terms equal.
* `Term.exists_unifier?` : for every unifier `θ` there is a result through which `θ` factors.
* `Unifier.Solves.values` : a property of terms that replacement and subterms keep passes from the
  equations to the result.
* `Term.Hereditary.subst_unifier?` : a property of terms that subterms and substitution keep passes
  to instances by a unifier.
* `Term.isCyclic_unifier?_of_flat` : the arguments of two atoms being variables and constants, the
  result is not cyclic.
-/

namespace Refutation

theorem nodup_eraseDups {α : Type} [DecidableEq α] (as : List α) : as.eraseDups.Nodup := by
  induction as using eraseDups_induct with
  | nil => simp
  | cons a as ih =>
    rw [List.eraseDups_cons, List.nodup_cons]
    exact ⟨by simp, ih⟩

namespace Term

/-! ### Replacing one variable -/

theorem mem_occurrences_app {x f : String} {ts : List Term} :
    x ∈ (Term.app f ts).occurrences ↔ ∃ t ∈ ts, x ∈ t.occurrences := by
  simp [occurrences]

theorem mem_occurrences_subst {y : String} {θ : String → Term} {t : Term} :
    y ∈ (t.subst θ).occurrences ↔ ∃ x ∈ t.occurrences, y ∈ (θ x).occurrences := by
  induction t with
  | var x => simp [subst, occurrences]
  | app f ts ih =>
    simp only [subst, substList_eq_map, mem_occurrences_app, List.mem_map]
    constructor
    · rintro ⟨_, ⟨t, ht, rfl⟩, hy⟩
      obtain ⟨x, hx, hy⟩ := (ih t ht).1 hy
      exact ⟨x, ⟨t, ht, hx⟩, hy⟩
    · rintro ⟨x, ⟨t, ht, hx⟩, hy⟩
      exact ⟨_, ⟨t, ht, rfl⟩, (ih t ht).2 ⟨x, hx, hy⟩⟩

theorem single_self (x : String) (u : Term) : single x u x = u := by simp [single]

theorem single_of_ne {x y : String} (h : y ≠ x) (u : Term) : single x u y = .var y := by
  simp [single, h]

theorem mem_occurrences_replace {x y : String} {t u : Term} :
    y ∈ (t.replace x u).occurrences ↔
      (y ∈ t.occurrences ∧ y ≠ x) ∨ (x ∈ t.occurrences ∧ y ∈ u.occurrences) := by
  simp only [replace, mem_occurrences_subst]
  constructor
  · rintro ⟨z, hz, hy⟩
    by_cases hzx : z = x
    · subst hzx
      rw [single_self] at hy
      exact .inr ⟨hz, hy⟩
    · rw [single_of_ne hzx] at hy
      obtain rfl : y = z := by simpa [occurrences] using hy
      exact .inl ⟨hz, hzx⟩
  · rintro (⟨hy, hyx⟩ | ⟨hx, hy⟩)
    · exact ⟨y, hy, by simp [single_of_ne hyx, occurrences]⟩
    · exact ⟨x, hx, by rwa [single_self]⟩

theorem replace_of_not_mem {x : String} {t : Term} (h : x ∉ t.occurrences) (u : Term) :
    t.replace x u = t := by
  calc t.replace x u = t.subst .var := by
        refine subst_congr fun y hy => single_of_ne ?_ u
        rintro rfl
        exact h hy
    _ = t := subst_var t

/-- An assignment that gives `x` and `u` the same value does not notice that `x` is replaced by
`u`. -/
theorem subst_replace {θ : String → Term} {x : String} {u : Term} (h : θ x = u.subst θ) (t : Term) :
    (t.replace x u).subst θ = t.subst θ := by
  rw [replace, subst_subst]
  refine subst_congr fun y _ => ?_
  by_cases hy : y = x
  · subst hy
    rw [single_self, h]
  · rw [single_of_ne hy]
    rfl

theorem size_le_sizeList {t : Term} {ts : List Term} (h : t ∈ ts) : t.size ≤ sizeList ts := by
  induction ts with
  | nil => simp at h
  | cons s ts ih =>
    rw [sizeList]
    rcases List.mem_cons.1 h with rfl | h
    · omega
    · have := ih h
      omega

theorem size_le_size_subst {x : String} {t : Term} (h : x ∈ t.occurrences) (θ : String → Term) :
    (θ x).size ≤ (t.subst θ).size := by
  induction t with
  | var y =>
    obtain rfl : x = y := by simpa [occurrences] using h
    exact Nat.le_refl _
  | app f ts ih =>
    obtain ⟨t, ht, hx⟩ := mem_occurrences_app.1 h
    have hmem : t.subst θ ∈ substList θ ts := by
      rw [substList_eq_map]
      exact List.mem_map_of_mem ht
    have hle := size_le_sizeList hmem
    have := ih t ht hx
    rw [subst, size]
    omega

theorem not_mem_occurrences_of_subst_eq {x : String} {t : Term} {θ : String → Term}
    (hne : t ≠ .var x) (h : θ x = t.subst θ) : x ∉ t.occurrences := by
  intro hx
  cases t with
  | var y =>
    obtain rfl : x = y := by simpa [occurrences] using hx
    exact hne rfl
  | app f ts =>
    obtain ⟨t, ht, hx⟩ := mem_occurrences_app.1 hx
    have hmem : t.subst θ ∈ substList θ ts := by
      rw [substList_eq_map]
      exact List.mem_map_of_mem ht
    have hle := size_le_sizeList hmem
    have hlt := size_le_size_subst hx θ
    rw [h, subst, size] at hlt
    omega

end Term

namespace Unifier

/-! ### The steps of the procedure -/

/-- The procedure solves the equations with the variables `free` and the bindings `σ` and ends with
the bindings `τ`. -/
inductive Solves : List String → List Equation → Substitution → Substitution → Prop where
  /-- Nothing is left to solve. -/
  | done (free : List String) (σ : Substitution) : Solves free [] σ σ
  /-- The two sides are equal. -/
  | skip {free : List String} {t : Term} {rest : List Equation} {σ τ : Substitution}
      (h : Solves free rest σ τ) : Solves free ((t, t) :: rest) σ τ
  /-- One side is a variable, which is bound to the other side. -/
  | bind {free : List String} {x : String} {t : Term} {e : Equation} {rest : List Equation}
      {σ τ : Substitution} (he : e = (.var x, t) ∨ e = (t, .var x)) (hx : x ∈ free)
      (hne : t ≠ .var x) (ht : isClosedVar free t = false)
      (h : Solves (free.erase x) (rest.map (replace x t)) (σ.bind x t) τ) :
      Solves free (e :: rest) σ τ
  /-- Both sides are applications of one symbol. -/
  | split {free : List String} {f : String} {ss ts : List Term} {rest : List Equation}
      {σ τ : Substitution} (hlen : ss.length = ts.length)
      (h : Solves free (ss.zip ts ++ rest) σ τ) :
      Solves free ((.app f ss, .app f ts) :: rest) σ τ

theorem solves_of_solve {free : List String} {eqs : List Equation} {σ τ : Substitution}
    (h : solve free eqs σ = some τ) : Solves free eqs σ τ := by
  fun_induction solve free eqs σ with
  | case1 free σ =>
    obtain rfl : σ = τ := by simpa using h
    exact .done free σ
  | case2 free t rest σ ih => exact .skip (ih h)
  | case3 => simp at h
  | case4 free rest σ x t hx hne hclosed ih =>
    simp only [Bool.or_eq_true, not_or, Bool.not_eq_true] at hclosed
    simp only [List.map_subtype, List.unattach_attach] at ih
    exact .bind (.inl rfl) hx (Ne.symm hne) hclosed.2 (ih h)
  | case5 => simp at h
  | case6 free rest σ s x _ hx hne hclosed ih =>
    simp only [Bool.or_eq_true, not_or, Bool.not_eq_true] at hclosed
    simp only [List.map_subtype, List.unattach_attach] at ih
    exact .bind (.inr rfl) hx hne hclosed.1 (ih h)
  | case7 => simp at h
  | case8 free rest σ f ss g ts hfg _ _ ih =>
    obtain ⟨rfl, hlen⟩ := hfg
    exact .split hlen (ih h)
  | case9 => simp at h

/-! ### Acyclic results are unifiers -/

/-- The assignment makes both sides of every equation equal. -/
def Unifies (θ : String → Term) (eqs : List Equation) : Prop :=
  ∀ e ∈ eqs, e.1.subst θ = e.2.subst θ

theorem unifies_cons {θ : String → Term} {e : Equation} {eqs : List Equation} :
    Unifies θ (e :: eqs) ↔ e.1.subst θ = e.2.subst θ ∧ Unifies θ eqs := by
  simp [Unifies]

theorem unifies_append {θ : String → Term} {eqs eqs' : List Equation} :
    Unifies θ (eqs ++ eqs') ↔ Unifies θ eqs ∧ Unifies θ eqs' := by
  simp only [Unifies, List.mem_append]
  exact ⟨fun h => ⟨fun e he => h e (.inl he), fun e he => h e (.inr he)⟩,
    fun h e he => he.elim (h.1 e) (h.2 e)⟩

theorem unifies_zip {θ : String → Term} {ss ts : List Term} (hlen : ss.length = ts.length) :
    Unifies θ (ss.zip ts) ↔ ss.map (Term.subst θ) = ts.map (Term.subst θ) := by
  induction ss generalizing ts with
  | nil =>
    cases ts with
    | nil => simp [Unifies]
    | cons t ts => simp at hlen
  | cons s ss ih =>
    cases ts with
    | nil => simp at hlen
    | cons t ts =>
      rw [List.zip_cons_cons, unifies_cons, ih (by simpa using hlen)]
      simp

theorem unifies_map_replace {θ : String → Term} {x : String} {t : Term} {eqs : List Equation} :
    Unifies θ (eqs.map (replace x t)) ↔ Unifies (fun y => (Term.single x t y).subst θ) eqs := by
  simp only [Unifies, List.forall_mem_map, replace, Term.replace, Term.subst_subst]

/-- A unifier that gives `x` and `t` the same value stays one when `x` is replaced by `t`. -/
theorem Unifies.map_replace {θ : String → Term} {x : String} {t : Term} {eqs : List Equation}
    (h : Unifies θ eqs) (hx : θ x = t.subst θ) : Unifies θ (eqs.map (replace x t)) := by
  simpa only [Unifies, List.forall_mem_map, replace, Term.subst_replace hx] using h

theorem Solves.cyclic {free : List String} {eqs : List Equation} {σ τ : Substitution}
    (h : Solves free eqs σ τ) {y : String} (hy : y ∉ free) {u : Term} (hu : σ.get? y = some u)
    (hyu : y ∈ u.occurrences) : ∃ u', τ.get? y = some u' ∧ y ∈ u'.occurrences := by
  induction h generalizing u with
  | done => exact ⟨u, hu, hyu⟩
  | skip _ ih => exact ih hy hu hyu
  | @bind free x t _ _ σ _ _ hx _ _ _ ih =>
    have hyx : y ≠ x := by
      rintro rfl
      exact hy hx
    have hu' : (σ.bind x t).get? y = some (u.replace x t) := by
      rw [Substitution.get?_bind, if_neg hyx, hu]
      rfl
    exact ih (fun hmem => hy (List.mem_of_mem_erase hmem)) hu'
      (Term.mem_occurrences_replace.2 (.inl ⟨hyu, hyx⟩))
  | split _ _ ih => exact ih hy hu hyu

theorem isCyclic_of_get? {σ : Substitution} {x : String} {u : Term} (hu : σ.get? x = some u)
    (hx : x ∈ u.occurrences) : σ.isCyclic = true := by
  rw [Substitution.isCyclic, List.any_eq_true]
  exact ⟨(x, u), (OrderedMap.mem_entries_iff _).2 hu, Term.occurs_eq_true_iff.2 hx⟩

theorem get?_bind_of_mem_erase {free : List String} {σ : Substitution} (hnodup : free.Nodup)
    (hσ : ∀ x ∈ free, σ.get? x = none) (x : String) (t : Term) :
    ∀ y ∈ free.erase x, (σ.bind x t).get? y = none := by
  intro y hy
  obtain ⟨hyx, hy⟩ := (List.Nodup.mem_erase_iff hnodup).1 hy
  exact Substitution.get?_bind_eq_none_iff.2 ⟨hyx, hσ y hy⟩

/-- **An acyclic result is the bindings made so far, followed by a unifier of the equations.** -/
theorem Solves.exists_unifies {free : List String} {eqs : List Equation} {σ τ : Substitution}
    (h : Solves free eqs σ τ) (hτ : τ.isCyclic = false) (hnodup : free.Nodup)
    (hfree : ∀ x ∈ free, σ.get? x = none) :
    ∃ δ, Unifies δ eqs ∧ ∀ x, τ.assign x = (σ.assign x).subst δ := by
  induction h with
  | done => exact ⟨.var, by simp [Unifies], fun x => (Term.subst_var _).symm⟩
  | skip _ ih =>
    obtain ⟨δ, hδ, hfactor⟩ := ih hτ hnodup hfree
    exact ⟨δ, unifies_cons.2 ⟨rfl, hδ⟩, hfactor⟩
  | @bind free x t e rest σ τ he hx hne ht hsolves ih =>
    -- a cyclic binding would still be there at the end
    have hxt : x ∉ t.occurrences := by
      intro hmem
      obtain ⟨u, hu, hxu⟩ := hsolves.cyclic (hnodup.not_mem_erase)
        (by rw [Substitution.get?_bind, if_pos rfl]) hmem
      rw [isCyclic_of_get? hu hxu] at hτ
      cases hτ
    obtain ⟨δ, hδ, hfactor⟩ := ih hτ (hnodup.erase x) (get?_bind_of_mem_erase hnodup hfree x t)
    have hxδ : (Term.var x).subst (fun y => (Term.single x t y).subst δ) =
        t.subst fun y => (Term.single x t y).subst δ := by
      have htδ := Term.subst_subst (Term.single x t) δ t
      rw [← htδ]
      change (Term.single x t x).subst δ = (t.replace x t).subst δ
      rw [Term.single_self, Term.replace_of_not_mem hxt]
    refine ⟨fun y => (Term.single x t y).subst δ, unifies_cons.2 ⟨?_, unifies_map_replace.1 hδ⟩, ?_⟩
    · rcases he with rfl | rfl
      · exact hxδ
      · exact hxδ.symm
    · intro y
      have hbind := Substitution.apply_bind (hfree x hx) t (.var y)
      rw [hfactor y, ← Term.subst_subst]
      exact congrArg (Term.subst δ) hbind
  | @split free f ss ts rest σ τ hlen hsolves ih =>
    obtain ⟨δ, hδ, hfactor⟩ := ih hτ hnodup hfree
    obtain ⟨hzip, hrest⟩ := unifies_append.1 hδ
    refine ⟨δ, unifies_cons.2 ⟨?_, hrest⟩, hfactor⟩
    simp [Term.subst, (unifies_zip hlen).1 hzip]

/-! ### Equations with a unifier are solved -/

/-- The variables of the equations are among `vars`. -/
def VarsIn (vars : List String) (eqs : List Equation) : Prop :=
  ∀ e ∈ eqs, ∀ x ∈ e.1.occurrences ++ e.2.occurrences, x ∈ vars

theorem VarsIn.head {vars : List String} {e : Equation} {eqs : List Equation}
    (h : VarsIn vars (e :: eqs)) : ∀ x ∈ e.1.occurrences ++ e.2.occurrences, x ∈ vars :=
  h e List.mem_cons_self

theorem VarsIn.tail {vars : List String} {e : Equation} {eqs : List Equation}
    (h : VarsIn vars (e :: eqs)) : VarsIn vars eqs :=
  fun e' he' => h e' (List.mem_cons_of_mem _ he')

theorem VarsIn.zip {vars : List String} {f g : String} {ss ts : List Term} {rest : List Equation}
    (h : VarsIn vars ((.app f ss, .app g ts) :: rest)) : VarsIn vars (ss.zip ts ++ rest) := by
  intro e he x hx
  rcases List.mem_append.1 he with he | he
  · obtain ⟨hs, ht⟩ := List.of_mem_zip (a := e.1) (b := e.2) he
    refine h.head x ?_
    rcases List.mem_append.1 hx with hx | hx
    · exact List.mem_append_left _ (Term.mem_occurrences_app.2 ⟨_, hs, hx⟩)
    · exact List.mem_append_right _ (Term.mem_occurrences_app.2 ⟨_, ht, hx⟩)
  · exact h.tail e he x hx

theorem VarsIn.replaced {vars vars' : List String} {x : String} {t : Term} {eqs : List Equation}
    (h : VarsIn vars eqs) (hvars : ∀ y ∈ vars, y ≠ x → y ∈ vars')
    (ht : ∀ y ∈ t.occurrences, y ∈ vars') :
    VarsIn vars' (eqs.map (replace x t)) := by
  have hterm : ∀ u : Term, (∀ y ∈ u.occurrences, y ∈ vars) →
      ∀ y ∈ (u.replace x t).occurrences, y ∈ vars' := by
    intro u hu y hy
    rcases Term.mem_occurrences_replace.1 hy with ⟨hy, hyx⟩ | ⟨-, hy⟩
    · exact hvars y (hu y hy) hyx
    · exact ht y hy
  intro e he y hy
  obtain ⟨e', he', rfl⟩ := List.mem_map.1 he
  rcases List.mem_append.1 hy with hy | hy
  · exact hterm e'.1 (fun z hz => h e' he' z (List.mem_append_left _ hz)) y hy
  · exact hterm e'.2 (fun z hz => h e' he' z (List.mem_append_right _ hz)) y hy

/-- Once a variable is replaced by a term without it, it is gone from the equations. -/
theorem VarsIn.map_replace {free : List String} {x : String} {t : Term} {eqs : List Equation}
    (hnodup : free.Nodup) (h : VarsIn free eqs) (ht : ∀ y ∈ t.occurrences, y ∈ free)
    (hxt : x ∉ t.occurrences) : VarsIn (free.erase x) (eqs.map (replace x t)) :=
  h.replaced (fun _ hy hyx => (List.Nodup.mem_erase_iff hnodup).2 ⟨hyx, hy⟩) fun y hy =>
    (List.Nodup.mem_erase_iff hnodup).2 ⟨fun hyx => hxt (hyx ▸ hy), ht y hy⟩

theorem isClosedVar_eq_false {free : List String} {t : Term}
    (h : ∀ x ∈ t.occurrences, x ∈ free) : isClosedVar free t = false := by
  cases t with
  | var x => simpa [isClosedVar] using h x (by simp [Term.occurrences])
  | app f ts => rfl

/-- Binding a variable to a term of the same value keeps a factorisation. -/
theorem assign_bind_subst {σ : Substitution} {x : String} {t : Term} {θ : String → Term}
    (hσ : ∀ y, (σ.assign y).subst θ = θ y) (hx : θ x = t.subst θ) (y : String) :
    ((σ.bind x t).assign y).subst θ = θ y := by
  have hy := hσ y
  unfold Substitution.assign at hy ⊢
  rw [Substitution.get?_bind]
  by_cases hyx : y = x
  · subst hyx
    simpa using hx.symm
  · cases hget : σ.get? y with
    | none => simp [hyx, Term.subst]
    | some u =>
      rw [hget] at hy
      simp only [hyx, if_false, Option.map_some, Option.getD_some] at hy ⊢
      rw [Term.subst_replace hx, hy]

/-- **Equations with a unifier are solved, and every unifier factors through the result.** -/
theorem exists_solve {free : List String} {eqs : List Equation} {σ : Substitution}
    {θ : String → Term} (hθ : Unifies θ eqs) (hnodup : free.Nodup) (hvars : VarsIn free eqs)
    (hσ : ∀ x, (σ.assign x).subst θ = θ x) :
    ∃ τ, solve free eqs σ = some τ ∧ ∀ x, (τ.assign x).subst θ = θ x := by
  fun_induction solve free eqs σ with
  | case1 free σ => exact ⟨σ, rfl, hσ⟩
  | case2 free t rest σ ih => exact ih (unifies_cons.1 hθ).2 hnodup hvars.tail hσ
  | case3 free s t rest σ hne hclosed =>
    -- every variable of the equations is still free
    rw [isClosedVar_eq_false fun x hx => hvars.head x (List.mem_append_left _ hx),
      isClosedVar_eq_false fun x hx => hvars.head x (List.mem_append_right _ hx)] at hclosed
    simp at hclosed
  | case4 free rest σ x t hx hne _ ih =>
    obtain ⟨heq, hrest⟩ := unifies_cons.1 hθ
    have hxt : θ x = t.subst θ := heq
    have ht : ∀ y ∈ t.occurrences, y ∈ free := fun y hy =>
      hvars.head y (List.mem_append_right _ hy)
    simp only [List.map_subtype, List.unattach_attach] at ih
    have hfresh := Term.not_mem_occurrences_of_subst_eq (Ne.symm hne) hxt
    exact ih (hrest.map_replace hxt) (hnodup.erase x) (hvars.tail.map_replace hnodup ht hfresh)
      (assign_bind_subst hσ hxt)
  | case5 free rest σ x t hx => exact absurd (hvars.head x (by simp [Term.occurrences])) hx
  | case6 free rest σ s x _ hx hne _ ih =>
    obtain ⟨heq, hrest⟩ := unifies_cons.1 hθ
    have hxs : θ x = s.subst θ := heq.symm
    have hs : ∀ y ∈ s.occurrences, y ∈ free := fun y hy =>
      hvars.head y (List.mem_append_left _ hy)
    simp only [List.map_subtype, List.unattach_attach] at ih
    have hfresh := Term.not_mem_occurrences_of_subst_eq hne hxs
    exact ih (hrest.map_replace hxs) (hnodup.erase x) (hvars.tail.map_replace hnodup hs hfresh)
      (assign_bind_subst hσ hxs)
  | case7 free rest σ s x _ hx => exact absurd (hvars.head x (by simp [Term.occurrences])) hx
  | case8 free rest σ f ss g ts hfg _ _ ih =>
    obtain ⟨heq, hrest⟩ := unifies_cons.1 hθ
    simp only [Term.subst, Term.substList_eq_map, Term.app.injEq] at heq
    exact ih (unifies_append.2 ⟨(unifies_zip hfg.2).2 heq.2, hrest⟩) hnodup hvars.zip hσ
  | case9 free rest σ f ss g ts hfg =>
    obtain ⟨heq, -⟩ := unifies_cons.1 hθ
    simp only [Term.subst, Term.substList_eq_map, Term.app.injEq] at heq
    exact absurd ⟨heq.1, by simpa using congrArg List.length heq.2⟩ hfg

/-! ### Properties of the bound terms -/

/-- **A property of terms that replacement and subterms keep passes from the equations to the
result.** -/
theorem Solves.values {Q : Term → Prop} (hargs : ∀ f ts, Q (.app f ts) → ∀ t ∈ ts, Q t)
    (hreplace : ∀ x u t, Q u → Q t → Q (u.replace x t)) {free : List String} {eqs : List Equation}
    {σ τ : Substitution} (h : Solves free eqs σ τ) (heqs : ∀ e ∈ eqs, Q e.1 ∧ Q e.2)
    (hσ : ∀ x u, σ.get? x = some u → Q u) : ∀ x u, τ.get? x = some u → Q u := by
  induction h with
  | done => exact hσ
  | skip _ ih => exact ih (fun e he => heqs e (List.mem_cons_of_mem _ he)) hσ
  | @bind free x t e rest σ τ he _ _ _ _ ih =>
    have ht : Q t := by
      have := heqs e List.mem_cons_self
      rcases he with rfl | rfl
      · exact this.2
      · exact this.1
    refine ih (fun e' he' => ?_) fun y u hu => ?_
    · obtain ⟨e'', he'', rfl⟩ := List.mem_map.1 he'
      have := heqs e'' (List.mem_cons_of_mem _ he'')
      exact ⟨hreplace _ _ _ this.1 ht, hreplace _ _ _ this.2 ht⟩
    · rw [Substitution.get?_bind] at hu
      split_ifs at hu with hyx
      · obtain rfl : t = u := by simpa using hu
        exact ht
      · obtain ⟨u', hu', rfl⟩ := Option.map_eq_some_iff.1 hu
        exact hreplace _ _ _ (hσ y u' hu') ht
  | split _ _ ih =>
    refine ih (fun e he => ?_) hσ
    rcases List.mem_append.1 he with he | he
    · obtain ⟨hs, ht⟩ := List.of_mem_zip (a := e.1) (b := e.2) he
      have := heqs _ List.mem_cons_self
      exact ⟨hargs _ _ this.1 _ hs, hargs _ _ this.2 _ ht⟩
    · exact heqs e (List.mem_cons_of_mem _ he)

end Unifier

namespace Term

/-- A variable or a constant. -/
def IsFlat : Term → Prop
  | .var _ => True
  | .app _ ts => ts = []

theorem IsFlat.replace {u t : Term} (hu : u.IsFlat) (ht : t.IsFlat) (x : String) :
    (u.replace x t).IsFlat := by
  cases u with
  | var y =>
    by_cases hy : y = x
    · simpa [Term.replace, subst, hy, single] using ht
    · simp [Term.replace, subst, hy, single, IsFlat]
  | app f ts =>
    obtain rfl : ts = [] := hu
    rfl

end Term

namespace Unifier

/-- No variable is bound to itself. -/
def NoLoop (σ : Substitution) : Prop := ∀ x, σ.get? x ≠ some (.var x)

theorem replace_eq_var_iff {u t : Term} {x y : String} (hu : u.IsFlat) :
    u.replace x t = .var y ↔ (u = .var x ∧ t = .var y) ∨ (u = .var y ∧ y ≠ x) := by
  cases u with
  | var z =>
    by_cases hz : z = x
    · subst hz
      simp only [Term.replace, Term.subst, Term.single_self, true_and, Term.var.injEq]
      exact ⟨.inl, fun h => h.elim id fun h => absurd h.1.symm h.2⟩
    · simp only [Term.replace, Term.subst, Term.single_of_ne hz, Term.var.injEq, hz, false_and,
        false_or]
      exact ⟨fun h => ⟨h, h ▸ hz⟩, And.left⟩
  | app f ts => simp [Term.replace, Term.subst]

/-- Between variables and constants no cycle arises: the only one could be a variable bound to
itself, and a bound variable is never bound to again. -/
theorem Solves.noLoop {free : List String} {eqs : List Equation} {σ τ : Substitution}
    (h : Solves free eqs σ τ) (hnodup : free.Nodup) (heqs : ∀ e ∈ eqs, e.1.IsFlat ∧ e.2.IsFlat)
    (hflat : ∀ x u, σ.get? x = some u → u.IsFlat) (hfree : ∀ x ∈ free, σ.get? x = none)
    (hσ : NoLoop σ) : NoLoop τ := by
  induction h with
  | done => exact hσ
  | skip _ ih => exact ih hnodup (fun e he => heqs e (List.mem_cons_of_mem _ he)) hflat hfree hσ
  | @bind free x t e rest σ τ he hx hne hclosed _ ih =>
    have ht : t.IsFlat := by
      have := heqs e List.mem_cons_self
      rcases he with rfl | rfl
      · exact this.2
      · exact this.1
    refine ih (hnodup.erase x) (fun e' he' => ?_) (fun y u hu => ?_)
      (get?_bind_of_mem_erase hnodup hfree x t) fun y hy => ?_
    · obtain ⟨e'', he'', rfl⟩ := List.mem_map.1 he'
      have := heqs e'' (List.mem_cons_of_mem _ he'')
      exact ⟨this.1.replace ht x, this.2.replace ht x⟩
    · rw [Substitution.get?_bind] at hu
      split_ifs at hu with hyx
      · obtain rfl : t = u := by simpa using hu
        exact ht
      · obtain ⟨u', hu', rfl⟩ := Option.map_eq_some_iff.1 hu
        exact (hflat y u' hu').replace ht x
    · rw [Substitution.get?_bind] at hy
      split_ifs at hy with hyx
      · subst hyx
        exact hne (by simpa using hy)
      · obtain ⟨u, hu, huy⟩ := Option.map_eq_some_iff.1 hy
        rcases (replace_eq_var_iff (hflat y u hu)).1 huy with ⟨-, rfl⟩ | ⟨rfl, -⟩
        · -- `y` is bound, hence not free, and an equation with such a side is not solved
          have hyfree : y ∉ free := fun hmem => by simp [hfree y hmem] at hu
          simp [isClosedVar, hyfree] at hclosed
        · exact hσ y hu
  | @split free f ss ts rest σ τ hlen _ ih =>
    refine ih hnodup (fun e he => ?_) hflat hfree hσ
    rcases List.mem_append.1 he with he | he
    · obtain ⟨hs, -⟩ := List.of_mem_zip (a := e.1) (b := e.2) he
      obtain rfl : ss = [] := (heqs _ List.mem_cons_self).1
      simp at hs
    · exact heqs e (List.mem_cons_of_mem _ he)

end Unifier

/-! ### Unifiers of two terms -/

namespace Term

open Unifier

variable {s t : Term} {σ : Substitution}

theorem solves_of_unifier? (h : s.unifier? t = some σ) :
    Solves (s.occurrences ++ t.occurrences).eraseDups [(s, t)] .empty σ :=
  solves_of_solve h

/-- **An acyclic result makes the two terms equal.** -/
theorem subst_eq_of_unifier? (h : s.unifier? t = some σ) (hσ : σ.isCyclic = false) :
    s.subst σ.assign = t.subst σ.assign := by
  obtain ⟨δ, hδ, hfactor⟩ := (solves_of_unifier? h).exists_unifies hσ (nodup_eraseDups _)
    fun _ _ => rfl
  have hassign : σ.assign = δ := funext fun x => by rw [hfactor x]; rfl
  rw [hassign]
  exact hδ (s, t) List.mem_cons_self

/-- **Terms with a unifier have a result, and every unifier factors through it.** -/
theorem exists_unifier? {θ : String → Term} (h : s.subst θ = t.subst θ) :
    ∃ σ, s.unifier? t = some σ ∧ ∀ x, (σ.assign x).subst θ = θ x := by
  refine exists_solve (fun e he => ?_) (nodup_eraseDups _) (fun e he x hx => ?_) fun x => rfl
  · obtain rfl : e = (s, t) := by simpa using he
    exact h
  · obtain rfl : e = (s, t) := by simpa using he
    simpa using hx

theorem mem_of_mem_unifier? (h : s.unifier? t = some σ) {x y : String}
    (hy : y ∈ (σ.assign x).occurrences) : y = x ∨ y ∈ s.occurrences ∨ y ∈ t.occurrences := by
  have hvalues := (solves_of_unifier? h).values
    (Q := fun u => ∀ z ∈ u.occurrences, z ∈ s.occurrences ∨ z ∈ t.occurrences)
    (fun f ts hf u hu z hz => hf z (mem_occurrences_app.2 ⟨u, hu, hz⟩))
    (fun x u v hu hv z hz => (mem_occurrences_replace.1 hz).elim (fun hz => hu z hz.1)
      fun hz => hv z hz.2)
    (fun e he => by
      obtain rfl : e = (s, t) := by simpa using he
      exact ⟨fun _ => .inl, fun _ => .inr⟩)
    (fun x u hu => by cases hu)
  unfold Substitution.assign at hy
  cases hget : σ.get? x with
  | none =>
    rw [hget] at hy
    exact .inl (by simpa [occurrences] using hy)
  | some u =>
    rw [hget] at hy
    exact .inr (hvalues x u hget y hy)

/-- A property of terms that subterms inherit and substitution keeps. -/
structure Hereditary (Q : Term → Prop) : Prop where
  /-- The arguments of a term have the property. -/
  arg {f : String} {ts : List Term} (h : Q (.app f ts)) {t : Term} (ht : t ∈ ts) : Q t
  /-- So has a term whose variables are replaced by terms with the property. -/
  subst {t : Term} {θ : String → Term} (h : Q t) (hθ : ∀ x ∈ t.occurrences, Q (θ x)) : Q (t.subst θ)

theorem Hereditary.var {Q : Term → Prop} (hQ : Hereditary Q) {t : Term} (h : Q t) {x : String}
    (hx : x ∈ t.occurrences) : Q (.var x) := by
  induction t with
  | var y =>
    obtain rfl : x = y := by simpa [occurrences] using hx
    exact h
  | app f ts ih =>
    obtain ⟨t, ht, hx⟩ := mem_occurrences_app.1 hx
    exact ih t ht (hQ.arg h ht) hx

/-- **Instances by a unifier of terms with the property have it.** -/
theorem Hereditary.subst_unifier? {Q : Term → Prop} (hQ : Hereditary Q) (hs : Q s) (ht : Q t)
    (h : s.unifier? t = some σ) {u : Term} (hu : Q u) : Q (u.subst σ.assign) := by
  have hvalues := (solves_of_unifier? h).values (Q := Q) (fun f ts hf t ht => hQ.arg hf ht)
    (fun x u t hu ht => hQ.subst hu fun y hy => by
      by_cases hyx : y = x
      · rwa [hyx, single_self]
      · rw [single_of_ne hyx]
        exact hQ.var hu hy)
    (fun e he => by
      obtain rfl : e = (s, t) := by simpa using he
      exact ⟨hs, ht⟩)
    (fun x u hu => by cases hu)
  refine hQ.subst hu fun x hx => ?_
  unfold Substitution.assign
  cases hget : σ.get? x with
  | none => exact hQ.var hu hx
  | some v => exact hvalues x v hget

/-- The equations between the arguments of two atoms lead to the result. -/
theorem exists_solves_zip {p q : String} {ss ts : List Term}
    (h : (Term.app p ss).unifier? (.app q ts) = some σ) :
    ∃ free : List String, free.Nodup ∧ Solves free (ss.zip ts) .empty σ := by
  refine ⟨_, nodup_eraseDups ((Term.app p ss).occurrences ++ (Term.app q ts).occurrences), ?_⟩
  cases solves_of_unifier? h with
  | skip h =>
    cases h
    -- equal atoms have equal arguments, which are skipped one after the other
    have hskip : ∀ us : List Term, Solves
        ((Term.app p ss).occurrences ++ (Term.app p ss).occurrences).eraseDups (us.zip us)
        .empty .empty := by
      intro us
      induction us with
      | nil => exact .done _ _
      | cons u us ih => exact .skip ih
    exact hskip ss
  | bind he => rcases he with he | he <;> simp at he
  | split _ h => simpa using h

/-- **The arguments being variables and constants, the result is not cyclic** and binds variables to
variables and constants only. -/
theorem isCyclic_unifier?_of_flat {p q : String} {ss ts : List Term} (hs : ∀ s ∈ ss, s.IsFlat)
    (ht : ∀ t ∈ ts, t.IsFlat) (h : (Term.app p ss).unifier? (.app q ts) = some σ) :
    σ.isCyclic = false ∧ ∀ x, (σ.assign x).IsFlat := by
  obtain ⟨free, hnodup, hsolves⟩ := exists_solves_zip h
  have heqs : ∀ e ∈ ss.zip ts, e.1.IsFlat ∧ e.2.IsFlat := fun e he =>
    have := List.of_mem_zip (a := e.1) (b := e.2) he
    ⟨hs _ this.1, ht _ this.2⟩
  have hempty : ∀ (x : String) (u : Term), Substitution.empty.get? x = some u → u.IsFlat :=
    fun x u hu => by cases hu
  have hflat := hsolves.values (Q := IsFlat)
    (fun f ts hf t ht => by
      obtain rfl : ts = [] := hf
      simp at ht)
    (fun x u t hu ht => hu.replace ht x) heqs hempty
  have hloop := hsolves.noLoop hnodup heqs hempty (fun _ _ => rfl) fun x hx => by cases hx
  constructor
  · by_contra hcyclic
    rw [Bool.not_eq_false, Substitution.isCyclic, List.any_eq_true] at hcyclic
    obtain ⟨⟨x, u⟩, hmem, hx⟩ := hcyclic
    have hget : σ.get? x = some u := (OrderedMap.mem_entries_iff _).1 hmem
    rw [occurs_eq_true_iff] at hx
    cases u with
    | var y =>
      obtain rfl : x = y := by simpa [occurrences] using hx
      exact hloop x hget
    | app f us =>
      obtain rfl : us = [] := hflat x _ hget
      simp [occurrences] at hx
  · intro x
    unfold Substitution.assign
    cases hget : σ.get? x with
    | none => trivial
    | some u => exact hflat x u hget

end Term

end Refutation
