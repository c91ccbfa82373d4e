import Refutation.OrderedMap
import Refutation.Term.Basic

/-!
# Substitutions

A substitution binds finitely many variables to terms.  It acts on a term by replacing all bound
variables at once (`Substitution.apply`), so a bound variable inside a bound term stays as it is.

* `Substitution.apply_compose` : composition is composition of the actions.
* `Substitution.apply_bind` : binding a further variable acts like the substitution followed by the
  replacement of that variable.
* `Substitution.exists_assign_eq` : an assignment of finitely many variables is a substitution.
-/

namespace Refutation

/-- Finitely many variables with the terms bound to them. -/
structure Substitution where
  /-- The bindings, by variable. -/
  bindings : OrderedMap String Term
deriving DecidableEq

namespace Substitution

/-- The substitution that binds nothing. -/
def empty : Substitution := ⟨.empty⟩

instance : Inhabited Substitution := ⟨empty⟩

variable (σ τ : Substitution)

/-- The term bound to a variable. -/
def get? (x : String) : Option Term := σ.bindings.get? x

def isBound (x : String) : Bool := σ.bindings.contains x

/-- The number of bound variables. -/
def size : Nat := σ.bindings.size

def isEmpty : Bool := σ.bindings.isEmpty

/-- The bound variables in increasing order. -/
def domain : List String := σ.bindings.keys

/-- What the substitution puts in place of a variable: the term bound to it, or the variable. -/
def assign (x : String) : Term := (σ.get? x).getD (.var x)

/-- The term with all bound variables replaced, in one pass. -/
def apply (t : Term) : Term := t.subst σ.assign

/-- The substitution with `x` bound to `u`, in place of any earlier binding of `x`. -/
def insert (x : String) (u : Term) : Substitution := ⟨σ.bindings.insert x u⟩

/-- The substitution with the given bindings; of two bindings of one variable the later counts. -/
def ofList (bindings : List (String × Term)) : Substitution := ⟨.ofList bindings⟩

/-- Bind `x` to `u` after replacing `x` by `u` in all terms bound so far. -/
def bind (x : String) (u : Term) : Substitution :=
  ⟨(σ.bindings.map (·.replace x u)).insert x u⟩

/-- First `σ`, then `τ`. -/
def compose : Substitution := ⟨(σ.bindings.map τ.apply).union τ.bindings⟩

/-- Some variable is bound to a term in which it occurs. -/
def isCyclic : Bool := σ.bindings.entries.any fun p => p.2.occurs p.1

/-- The text of a single binding. -/
def renderBinding (p : String × Term) : String := p.1 ++ "<-" ++ p.2.render

/-- The bindings in increasing order of variables, in braces. -/
def render : String :=
  "\x7b" ++ String.intercalate ", " (σ.bindings.entries.map renderBinding) ++ "\x7d"

variable {σ τ}

@[simp] theorem assign_empty : empty.assign = Term.var := rfl

@[simp] theorem apply_empty (t : Term) : empty.apply t = t := by simp [apply]

@[simp] theorem get?_compose (x : String) :
    (σ.compose τ).get? x = ((σ.get? x).map τ.apply).or (τ.get? x) := by
  simp [compose, get?]

theorem assign_compose (x : String) : (σ.compose τ).assign x = τ.apply (σ.assign x) := by
  unfold assign
  rw [get?_compose]
  cases σ.get? x with
  | none => rfl
  | some t => rfl

/-- **Composition of substitutions is composition of their actions.** -/
theorem apply_compose (t : Term) : (σ.compose τ).apply t = τ.apply (σ.apply t) := by
  simp only [apply, Term.subst_subst]
  exact Term.subst_congr fun x _ => assign_compose x

theorem get?_bind (x : String) (u : Term) (y : String) :
    (σ.bind x u).get? y = if y = x then some u else (σ.get? y).map (·.replace x u) := by
  by_cases h : y = x
  · subst h
    simp [bind, get?]
  · simp [bind, get?, OrderedMap.get?_insert_of_ne _ _ h, h]

theorem get?_bind_eq_none_iff {x : String} {u : Term} {y : String} :
    (σ.bind x u).get? y = none ↔ y ≠ x ∧ σ.get? y = none := by
  rw [get?_bind]
  by_cases h : y = x <;> simp [h]

theorem assign_insert (x : String) (u : Term) (y : String) :
    (σ.insert x u).assign y = if y = x then u else σ.assign y := by
  by_cases h : y = x
  · subst h
    simp [assign, insert, get?]
  · simp [assign, insert, get?, OrderedMap.get?_insert_of_ne _ _ h, h]

theorem exists_assign_eq (vars : List String) (θ : String → Term) :
    ∃ σ : Substitution, ∀ x ∈ vars, σ.assign x = θ x := by
  induction vars with
  | nil => exact ⟨.empty, by simp⟩
  | cons x vars ih =>
    obtain ⟨σ, hσ⟩ := ih
    refine ⟨σ.insert x (θ x), fun y hy => ?_⟩
    rw [assign_insert]
    by_cases hyx : y = x
    · rw [if_pos hyx, hyx]
    · rw [if_neg hyx]
      exact hσ y ((List.mem_cons.1 hy).resolve_left hyx)

theorem isBound_eq_false_iff {x : String} : σ.isBound x = false ↔ σ.get? x = none := by
  simp [isBound, get?, OrderedMap.contains]

theorem mem_domain_iff {x : String} : x ∈ σ.domain ↔ σ.get? x ≠ none := by
  simp [domain, get?, OrderedMap.mem_keys_iff, Option.isSome_iff_ne_none]

/-- Binding an unbound variable acts as the substitution followed by the replacement of the
variable. -/
theorem apply_bind {x : String} (hx : σ.get? x = none) (u t : Term) :
    (σ.bind x u).apply t = (σ.apply t).replace x u := by
  simp only [apply, Term.replace, Term.subst_subst]
  refine Term.subst_congr fun y _ => ?_
  unfold assign
  rw [get?_bind]
  by_cases h : y = x
  · subst h
    simp [hx, Term.subst, Term.single]
  · cases hy : σ.get? y with
    | none => simp [h, Term.subst, Term.single]
    | some s => simp [h, Term.replace]

end Substitution

end Refutation
