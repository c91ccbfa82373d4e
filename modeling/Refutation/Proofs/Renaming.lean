import Refutation.Proofs.Interpretation
import Refutation.Proofs.Unification
import Mathlib.Data.List.Basic

/-!
# Renaming apart

The renaming that a fresh copy uses maps the variables of a clause, in order, to the next names of
the source of fresh variables.

* `FreshVars.varName_inj` : fresh variables with different numbers are different.
* `FreshVars.assign_renamingFor` : the name that each variable gets.
* `FreshVars.exists_combination` : any two assignments, one for the renamed variables and one for
  all names that were not drawn, can be combined.
* `Clause.signedAtoms_freshCopy` : a fresh copy is an instance of the clause.
* `Clause.mem_vars_freshCopy` : its variables are the next fresh ones.
-/

namespace Refutation

theorem toString_inj {m n : Nat} : toString m = toString n ↔ m = n := by
  refine ⟨fun h => ?_, congrArg toString⟩
  have hdigits : Nat.toDigits 10 m = Nat.toDigits 10 n := by
    simpa [Nat.toList_repr] using congrArg String.toList h
  rw [← Nat.ofDigitChars_ten_toDigits (n := m), hdigits, Nat.ofDigitChars_ten_toDigits]

namespace FreshVars

theorem varName_inj {m n : Nat} : varName m = varName n ↔ m = n :=
  (String.append_right_inj _).trans toString_inj

/-- The next `n` names. -/
def upcoming (fresh : FreshVars) (n : Nat) : List String :=
  (List.range' (fresh.drawn + 1) n).map varName

theorem mem_upcoming {fresh : FreshVars} {n : Nat} {x : String} : x ∈ fresh.upcoming n ↔
    ∃ k, fresh.drawn < k ∧ k ≤ fresh.drawn + n ∧ x = varName k := by
  simp only [upcoming, List.mem_map, List.mem_range'_1]
  constructor
  · rintro ⟨k, ⟨hlt, hle⟩, rfl⟩
    exact ⟨k, by omega, by omega, rfl⟩
  · rintro ⟨k, hlt, hle, rfl⟩
    exact ⟨k, by omega, rfl⟩

theorem get?_foldl_insert {vars : List String} (hnodup : vars.Nodup) (σ : Substitution)
    (fresh : FreshVars) :
    let drawn := vars.foldl (fun (p : Substitution × FreshVars) x =>
      (p.1.insert x (.var p.2.next.1), p.2.next.2)) (σ, fresh)
    drawn.2.drawn = fresh.drawn + vars.length ∧ ∀ x, drawn.1.get? x =
      if x ∈ vars then some (.var (varName (fresh.drawn + 1 + vars.idxOf x))) else σ.get? x := by
  induction vars generalizing σ fresh with
  | nil => simp
  | cons x vars ih =>
    obtain ⟨hx, hnodup⟩ := List.nodup_cons.1 hnodup
    obtain ⟨hdrawn, hget⟩ := ih hnodup (σ.insert x (.var fresh.next.1)) fresh.next.2
    refine ⟨?_, fun y => ?_⟩
    · rw [List.foldl_cons, hdrawn]
      simp only [next, List.length_cons]
      omega
    · rw [List.foldl_cons, hget y]
      by_cases hyx : y = x
      · subst hyx
        simp [hx, Substitution.get?, Substitution.insert, next]
      · have hxy : (x == y) = false := by simpa using Ne.symm hyx
        have hold : (σ.insert x (.var fresh.next.1)).get? y = σ.get? y :=
          OrderedMap.get?_insert_of_ne _ _ hyx
        rw [hold]
        simp only [List.mem_cons, hyx, false_or, List.idxOf_cons, hxy, next, cond_false]
        split_ifs with hy
        · congr 3
          omega
        · rfl

variable {fresh : FreshVars} {vars : List String}

theorem drawn_renamingFor (hnodup : vars.Nodup) :
    (fresh.renamingFor vars).2.drawn = fresh.drawn + vars.length :=
  (get?_foldl_insert hnodup .empty fresh).1

/-- The variables of the list get the next names, in order; all others stay. -/
theorem assign_renamingFor (hnodup : vars.Nodup) (x : String) :
    (fresh.renamingFor vars).1.assign x =
      if x ∈ vars then .var (varName (fresh.drawn + 1 + vars.idxOf x)) else .var x := by
  have hget := (get?_foldl_insert hnodup .empty fresh).2 x
  have hget' : (fresh.renamingFor vars).1.get? x =
      if x ∈ vars then some (.var (varName (fresh.drawn + 1 + vars.idxOf x))) else none := hget
  unfold Substitution.assign
  rw [hget']
  split_ifs <;> rfl

theorem exists_assign_renamingFor (fresh : FreshVars) (hnodup : vars.Nodup) {x : String}
    (hx : x ∈ vars) :
    ∃ k, fresh.drawn < k ∧ k ≤ fresh.drawn + vars.length ∧
      (fresh.renamingFor vars).1.assign x = .var (varName k) := by
  have hlt := List.idxOf_lt_length_of_mem hx
  exact ⟨fresh.drawn + 1 + vars.idxOf x, by omega, by omega,
    by rw [assign_renamingFor hnodup, if_pos hx]⟩

theorem assign_renamingFor_inj (hnodup : vars.Nodup) {x y : String} (hx : x ∈ vars) (hy : y ∈ vars)
    (h : (fresh.renamingFor vars).1.assign x = (fresh.renamingFor vars).1.assign y) : x = y := by
  rw [assign_renamingFor hnodup, assign_renamingFor hnodup, if_pos hx, if_pos hy, Term.var.injEq,
    varName_inj] at h
  exact (List.idxOf_inj hx).1 (by omega)

/-- **Two assignments can be combined**, one for the variables before they are renamed, the other
for all names that were not drawn for them. -/
theorem exists_combination (fresh : FreshVars) (hnodup : vars.Nodup) (θ η : String → Term) :
    ∃ δ : String → Term,
      (∀ x ∈ vars, ((fresh.renamingFor vars).1.assign x).subst δ = θ x) ∧
      ∀ y, y ∉ fresh.upcoming vars.length → δ y = η y := by
  let source (y : String) : Option String :=
    vars.find? fun x => (fresh.renamingFor vars).1.assign x = .var y
  refine ⟨fun y => match source y with
    | some x => θ x
    | none => η y, fun x hx => ?_, fun y hy => ?_⟩
  · obtain ⟨k, -, -, hk⟩ := exists_assign_renamingFor fresh hnodup hx
    rw [hk]
    simp only [Term.subst]
    cases hsource : source (varName k) with
    | none =>
      have hnone := List.find?_eq_none.1 hsource x hx
      simp [hk] at hnone
    | some x' =>
      have hx' := List.mem_of_find?_eq_some hsource
      have heq : (fresh.renamingFor vars).1.assign x' = .var (varName k) := by
        simpa using List.find?_some hsource
      rw [assign_renamingFor_inj hnodup hx' hx (heq.trans hk.symm)]
  · have hsource : source y = none := by
      refine List.find?_eq_none.2 fun x hx heq => ?_
      obtain ⟨k, hlt, hle, hk⟩ := exists_assign_renamingFor fresh hnodup hx
      rw [decide_eq_true_eq, hk, Term.var.injEq] at heq
      exact hy (mem_upcoming.2 ⟨k, hlt, hle, heq.symm⟩)
    simp only [hsource]

end FreshVars

namespace Clause

variable {c : Clause} {fresh : FreshVars}

theorem nodup_vars (c : Clause) : c.vars.Nodup := nodup_eraseDups _

theorem mem_vars {x : String} : x ∈ c.vars ↔ ∃ a ∈ c.signedAtoms, x ∈ a.atom.occurrences := by
  simp [vars, occurrences, signedAtoms]

/-- The renaming that makes the fresh copy. -/
def freshening (c : Clause) (fresh : FreshVars) : String → Term :=
  (fresh.renamingFor c.vars).1.assign

theorem literals_freshCopy : (c.freshCopy fresh).1.literals = c.literals.map fun l =>
    { l.instantiate (fresh.renamingFor c.vars).1 with eligible := l.eligible } := rfl

theorem signedAtoms_freshCopy : (c.freshCopy fresh).1.signedAtoms =
    c.signedAtoms.map (·.subst (c.freshening fresh)) := by
  simp [signedAtoms, literals_freshCopy, freshening]

/-- **The variables of a fresh copy are the next fresh ones**, as many as the clause has
variables. -/
theorem mem_vars_freshCopy {x : String} :
    x ∈ (c.freshCopy fresh).1.vars ↔ x ∈ fresh.upcoming c.vars.length := by
  have hassign : ∀ y ∈ c.vars, c.freshening fresh y =
      .var (FreshVars.varName (fresh.drawn + 1 + c.vars.idxOf y)) := by
    intro y hy
    rw [freshening, FreshVars.assign_renamingFor c.nodup_vars, if_pos hy]
  rw [mem_vars, signedAtoms_freshCopy, FreshVars.mem_upcoming]
  constructor
  · rintro ⟨_, ha, hx⟩
    obtain ⟨b, hb, rfl⟩ := List.mem_map.1 ha
    obtain ⟨y, hy, hx⟩ := Term.mem_occurrences_subst.1 hx
    have hmem : y ∈ c.vars := mem_vars.2 ⟨b, hb, hy⟩
    have hlt := List.idxOf_lt_length_of_mem hmem
    rw [hassign y hmem, Term.occurrences, List.mem_singleton] at hx
    exact ⟨_, by omega, by omega, hx⟩
  · rintro ⟨k, hlt, hle, rfl⟩
    -- the name with this number is drawn for the variable at this place
    have hi : k - (fresh.drawn + 1) < c.vars.length := by omega
    obtain ⟨b, hb, hy⟩ := mem_vars.1 (List.getElem_mem hi)
    refine ⟨_, List.mem_map_of_mem hb, Term.mem_occurrences_subst.2 ⟨_, hy, ?_⟩⟩
    rw [hassign _ (List.getElem_mem hi), c.nodup_vars.idxOf_getElem _ hi, Term.occurrences,
      List.mem_singleton]
    congr 1
    omega

theorem drawn_freshCopy : (c.freshCopy fresh).2.drawn = fresh.drawn + c.vars.length :=
  FreshVars.drawn_renamingFor c.nodup_vars

end Clause

end Refutation
