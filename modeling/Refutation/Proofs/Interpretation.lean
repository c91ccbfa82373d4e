import Refutation.Clause.Basic

/-!
# Interpretations

First-order interpretations of terms, literals and clauses.  A clause stands for the universal
closure of the disjunction of its literals; equality is a predicate like any other.

* `Interpretation.eval_subst`, `Interpretation.holds_subst` : replacing variables is a change of the
  valuation.
* `Interpretation.Models.of_instance` : a clause that contains an instance of a true clause is true.
* `Interpretation.models_resolvent`, `Interpretation.models_factor` : the conclusions of resolution
  and factoring upon a common instance of two atoms are true if the premises are.
* `Interpretation.termModel` : the interpretation in which every term denotes itself.
-/

namespace Refutation

universe u

/-! ### The literals of a clause without tags and flags -/

namespace Term

@[simp] theorem isVar_subst_app (θ : String → Term) (f : String) (ts : List Term) :
    ((Term.app f ts).subst θ).isVar = false := rfl

theorem isVar_subst {t : Term} (h : t.isVar = false) (θ : String → Term) :
    (t.subst θ).isVar = false := by
  cases t with
  | var x => simp [isVar] at h
  | app f ts => rfl

end Term

namespace SignedAtom

attribute [ext] SignedAtom

@[simp] theorem negative_subst (a : SignedAtom) (θ : String → Term) :
    (a.subst θ).negative = a.negative := rfl

@[simp] theorem atom_subst (a : SignedAtom) (θ : String → Term) :
    (a.subst θ).atom = a.atom.subst θ := rfl

theorem subst_subst (a : SignedAtom) (θ η : String → Term) :
    (a.subst θ).subst η = a.subst fun x => (θ x).subst η := by
  simp [subst]

theorem subst_var (a : SignedAtom) : a.subst .var = a := by
  simp [subst]

/-- Assignments that agree on the variables of a signed atom act on it alike. -/
theorem subst_congr {θ η : String → Term} {a : SignedAtom}
    (h : ∀ x ∈ a.atom.occurrences, θ x = η x) : a.subst θ = a.subst η := by
  simp [subst, Term.subst_congr h]

end SignedAtom

namespace Clause

/-- The literals of a clause without tags and flags. -/
def signedAtoms (c : Clause) : List SignedAtom := c.literals.map (·.toSignedAtom)

/-- No atom of the clause is a variable. -/
def HasCompoundAtoms (c : Clause) : Prop := ∀ l ∈ c.literals, l.atom.isVar = false

instance (c : Clause) : Decidable c.HasCompoundAtoms :=
  inferInstanceAs (Decidable (∀ l ∈ c.literals, l.atom.isVar = false))

theorem mem_signedAtoms {c : Clause} {a : SignedAtom} :
    a ∈ c.signedAtoms ↔ ∃ l ∈ c.literals, l.toSignedAtom = a := by
  simp [signedAtoms]

theorem hasCompoundAtoms_iff {c : Clause} :
    c.HasCompoundAtoms ↔ ∀ a ∈ c.signedAtoms, a.atom.isVar = false := by
  simp [HasCompoundAtoms, signedAtoms]

theorem hasOpposites_iff {ls : List Literal} :
    hasOpposites ls = true ↔ ∃ l ∈ ls, ∃ m ∈ ls, l.negative ≠ m.negative ∧ l.atom = m.atom := by
  induction ls with
  | nil => simp [hasOpposites]
  | cons l ls ih =>
    rw [hasOpposites, Bool.or_eq_true, List.any_eq_true, ih]
    simp only [Literal.isOpposite, Bool.and_eq_true, bne_iff_ne, decide_eq_true_eq]
    constructor
    · rintro (⟨m, hm, hopposite⟩ | ⟨l', hl', m, hm, hopposite⟩)
      · exact ⟨l, List.mem_cons_self, m, List.mem_cons_of_mem _ hm, hopposite⟩
      · exact ⟨l', List.mem_cons_of_mem _ hl', m, List.mem_cons_of_mem _ hm, hopposite⟩
    · rintro ⟨l', hl', m, hm, hsign, hatom⟩
      rw [List.mem_cons] at hl' hm
      rcases hl' with rfl | hl' <;> rcases hm with rfl | hm
      · exact absurd rfl hsign
      · exact .inl ⟨m, hm, hsign, hatom⟩
      · exact .inl ⟨l', hl', hsign.symm, hatom.symm⟩
      · exact .inr ⟨l', hl', m, hm, hsign, hatom⟩

end Clause

/-! ### Interpretations -/

/-- A domain of values, with a function for each function symbol and a relation for each predicate
symbol.  The domain is not empty, because a constant has a value. -/
structure Interpretation (D : Type u) where
  /-- The meaning of function symbols. -/
  func : String → List D → D
  /-- The meaning of predicate symbols. -/
  rel : String → List D → Prop

namespace Interpretation

variable {D : Type u} (I : Interpretation D)

mutual

/-- The value of a term. -/
def eval (v : String → D) : Term → D
  | .var x => v x
  | .app f ts => I.func f (evalList v ts)

/-- The values of a list of terms. -/
def evalList (v : String → D) : List Term → List D
  | [] => []
  | t :: ts => eval v t :: evalList v ts

end

/-- The truth of an atom.  A variable is not an atom, and never true. -/
def HoldsAtom (v : String → D) : Term → Prop
  | .var _ => False
  | .app p ts => I.rel p (ts.map (I.eval v))

/-- The truth of a signed atom. -/
def Holds (v : String → D) (a : SignedAtom) : Prop :=
  if a.negative then ¬I.HoldsAtom v a.atom else I.HoldsAtom v a.atom

/-- The universal closure of the clause is true. -/
def Models (c : Clause) : Prop := ∀ v, ∃ a ∈ c.signedAtoms, I.Holds v a

variable {I}

@[simp] theorem evalList_eq_map (v : String → D) (ts : List Term) :
    I.evalList v ts = ts.map (I.eval v) := by
  induction ts with
  | nil => rfl
  | cons t ts ih => simp [evalList, ih]

theorem eval_subst (v : String → D) (θ : String → Term) (t : Term) :
    I.eval v (t.subst θ) = I.eval (fun x => I.eval v (θ x)) t := by
  induction t with
  | var x => rfl
  | app f ts ih =>
    simp only [Term.subst, Term.substList_eq_map, eval, evalList_eq_map, List.map_map]
    congr 1
    exact List.map_congr_left ih

theorem holdsAtom_subst {t : Term} (ht : t.isVar = false) (v : String → D) (θ : String → Term) :
    I.HoldsAtom v (t.subst θ) ↔ I.HoldsAtom (fun x => I.eval v (θ x)) t := by
  cases t with
  | var x => simp [Term.isVar] at ht
  | app p ts =>
    have hargs : (ts.map (Term.subst θ)).map (I.eval v) =
        ts.map (I.eval fun x => I.eval v (θ x)) := by
      rw [List.map_map]
      exact List.map_congr_left fun t _ => eval_subst v θ t
    simp only [Term.subst, Term.substList_eq_map, HoldsAtom, hargs]

theorem holds_subst {a : SignedAtom} (ha : a.atom.isVar = false) (v : String → D)
    (θ : String → Term) : I.Holds v (a.subst θ) ↔ I.Holds (fun x => I.eval v (θ x)) a := by
  simp only [Holds, SignedAtom.negative_subst, SignedAtom.atom_subst, holdsAtom_subst ha]

/-- Two signed atoms with the same atom and opposite signs are not both true. -/
theorem not_holds_of_opposite {a b : SignedAtom} (hsign : a.negative ≠ b.negative)
    (hatom : a.atom = b.atom) {v : String → D} (ha : I.Holds v a) : ¬I.Holds v b := by
  simp only [Holds, hatom] at ha ⊢
  cases hn : a.negative <;> cases hm : b.negative <;> simp_all

/-! ### Clauses that contain instances of others -/

theorem Models.of_instance {c d : Clause} (hm : I.Models c) (hc : c.HasCompoundAtoms)
    {θ : String → Term} (h : ∀ a ∈ c.signedAtoms, a.subst θ ∈ d.signedAtoms) : I.Models d := by
  intro v
  obtain ⟨a, ha, hv⟩ := hm fun x => I.eval v (θ x)
  exact ⟨a.subst θ, h a ha, (holds_subst (Clause.hasCompoundAtoms_iff.1 hc a ha) v θ).2 hv⟩

theorem Models.of_subset {c d : Clause} (hm : I.Models c)
    (h : ∀ a ∈ c.signedAtoms, a ∈ d.signedAtoms) : I.Models d := fun v =>
  (hm v).imp fun a ha => ⟨h a ha.1, ha.2⟩

/-- **Resolution upon a common instance of two atoms is sound.**  The clause `r` contains the
instances of all literals of `c` but `a`, and of all literals of `d` but `b`. -/
theorem models_resolvent {c d r : Clause} {a b : SignedAtom} {θ : String → Term}
    (hc : c.HasCompoundAtoms) (hd : d.HasCompoundAtoms) (hsign : a.negative ≠ b.negative)
    (hatom : a.atom.subst θ = b.atom.subst θ)
    (hcr : ∀ a' ∈ c.signedAtoms, a' = a ∨ a'.subst θ ∈ r.signedAtoms)
    (hdr : ∀ b' ∈ d.signedAtoms, b' = b ∨ b'.subst θ ∈ r.signedAtoms)
    (hmc : I.Models c) (hmd : I.Models d) : I.Models r := by
  intro v
  obtain ⟨a', ha', hva⟩ := hmc fun x => I.eval v (θ x)
  obtain ⟨b', hb', hvb⟩ := hmd fun x => I.eval v (θ x)
  have hva' := (holds_subst (Clause.hasCompoundAtoms_iff.1 hc a' ha') v θ).2 hva
  have hvb' := (holds_subst (Clause.hasCompoundAtoms_iff.1 hd b' hb') v θ).2 hvb
  rcases hcr a' ha' with rfl | har
  · rcases hdr b' hb' with rfl | hbr
    · exact absurd hvb' (not_holds_of_opposite (a := a'.subst θ) (b := b'.subst θ) hsign hatom hva')
    · exact ⟨_, hbr, hvb'⟩
  · exact ⟨_, har, hva'⟩

/-- **Factoring upon a common instance of two literals is sound.**  The clause `r` contains the
instances of all literals of `c` but `b`, whose instance is that of another literal `a`. -/
theorem models_factor {c r : Clause} {a b : SignedAtom} {θ : String → Term}
    (hc : c.HasCompoundAtoms) (hab : a.subst θ = b.subst θ) (ha : a.subst θ ∈ r.signedAtoms)
    (hcr : ∀ a' ∈ c.signedAtoms, a' = b ∨ a'.subst θ ∈ r.signedAtoms)
    (hm : I.Models c) : I.Models r := by
  refine hm.of_instance (θ := θ) hc fun a' ha' => ?_
  rcases hcr a' ha' with rfl | har
  · exact hab ▸ ha
  · exact har

end Interpretation

/-! ### Consequence and satisfiability -/

/-- The clause is true in every interpretation in which all of `S` is true. -/
def Entails (S : List Clause) (c : Clause) : Prop :=
  ∀ (D : Type u) (I : Interpretation D), (∀ d ∈ S, I.Models d) → I.Models c

/-- All clauses of `S` are true in some interpretation. -/
def Satisfiable (S : List Clause) : Prop :=
  ∃ (D : Type u) (I : Interpretation D), ∀ c ∈ S, I.Models c

theorem not_satisfiable_of_entails {S : List Clause} {c : Clause} (hc : c.isEmpty = true)
    (h : Entails.{u} S c) : ¬Satisfiable.{u} S := by
  rintro ⟨D, I, hI⟩
  -- any valuation will do, so let every variable be the value of some constant
  obtain ⟨a, ha, -⟩ := h D I hI fun _ => I.func "" []
  simp only [Clause.isEmpty, List.isEmpty_iff] at hc
  simp [Clause.signedAtoms, hc] at ha

/-! ### The interpretation by terms -/

namespace Interpretation

/-- Every term denotes itself, and the atoms of `T` are true. -/
def termModel (T : Term → Prop) : Interpretation Term := ⟨.app, fun p ts => T (.app p ts)⟩

@[simp] theorem eval_termModel (T : Term → Prop) (v : String → Term) (t : Term) :
    (termModel T).eval v t = t.subst v := by
  induction t with
  | var x => rfl
  | app f ts ih =>
    simp only [eval, evalList_eq_map, Term.subst, Term.substList_eq_map]
    exact congrArg (Term.app f) (List.map_congr_left ih)

theorem holdsAtom_termModel {T : Term → Prop} {t : Term} (ht : t.isVar = false)
    (v : String → Term) : (termModel T).HoldsAtom v t ↔ T (t.subst v) := by
  cases t with
  | var x => simp [Term.isVar] at ht
  | app p ts =>
    have hargs : ts.map ((termModel T).eval v) = ts.map (Term.subst v) :=
      List.map_congr_left fun t _ => eval_termModel T v t
    simp only [HoldsAtom, hargs, Term.subst, Term.substList_eq_map]
    rfl

end Interpretation

end Refutation
