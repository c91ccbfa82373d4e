import Refutation.Equality
import Refutation.Proofs.Interpretation
import Refutation.Proofs.Renaming
import Refutation.Proofs.Signature
import Mathlib.Data.List.Forall2
import Mathlib.Data.List.Nodup
import Mathlib.Data.Quot

/-!
# The axioms of equality

In an interpretation of the axioms of equality the predicate `=` need not be identity, but it is an
equivalence relation that the functions and predicates of the signature do not see through.  Values
that are equal in this sense are made identical by passing to equivalence classes.

* `Interpretation.Respects` : equality is a congruence for a signature.
* `Interpretation.models_axioms_iff` : the axioms of equality say exactly this.
* `Interpretation.quotient` : the interpretation by classes of equal values, which is normal
  (`Interpretation.Respects.isNormal_quotient`) and in which the same clauses are true
  (`Interpretation.Respects.models_quotient`).
* `equality_axioms_exact` : **clauses are satisfiable together with the axioms exactly if they are
  true in an interpretation in which equality is identity.**
-/

namespace Refutation

universe u

/-! ### Values for the variables of an axiom -/

theorem exists_valuation {D : Type u} (v : String → D) {xs : List String} (hnodup : xs.Nodup)
    {ds : List D} (hlength : xs.length = ds.length) : ∃ v' : String → D, xs.map v' = ds := by
  induction xs generalizing ds with
  | nil =>
    cases ds with
    | nil => exact ⟨v, rfl⟩
    | cons d ds => cases hlength
  | cons x xs ih =>
    cases ds with
    | nil => cases hlength
    | cons d ds =>
      obtain ⟨hx, hnodup⟩ := List.nodup_cons.1 hnodup
      obtain ⟨v', hv'⟩ := ih hnodup (Nat.succ.inj hlength)
      refine ⟨fun y => if y = x then d else v' y, ?_⟩
      rw [List.map_cons, if_pos rfl, ← hv']
      congr 1
      refine List.map_congr_left fun y hy => if_neg ?_
      rintro rfl
      exact hx hy

namespace Equality

/-- The names with the beginning `base` and the numbers 1, 2, …, `n`. -/
def numberedNames (base : String) (n : Nat) : List String :=
  (List.range n).map fun i => base ++ toString (i + 1)

theorem numbered_eq (base : String) (n : Nat) :
    numbered base n = (numberedNames base n).map .var := by
  simp [numbered, numberedNames]

theorem length_numberedNames (base : String) (n : Nat) : (numberedNames base n).length = n := by
  simp [numberedNames]

theorem nodup_numberedNames (base : String) (n : Nat) : (numberedNames base n).Nodup := by
  refine List.Nodup.map_on (fun i _ j _ h => ?_) List.nodup_range
  exact Nat.succ.inj (toString_inj.1 ((String.append_right_inj base).1 h))

/-- The variables of an axiom of compatibility are all different. -/
theorem nodup_axiomVars (n : Nat) : (numberedNames "X" n ++ numberedNames "Y" n).Nodup := by
  refine List.nodup_append.2 ⟨nodup_numberedNames _ _, nodup_numberedNames _ _, ?_⟩
  intro x hx y hy hxy
  obtain ⟨i, -, rfl⟩ := List.mem_map.1 hx
  obtain ⟨j, -, rfl⟩ := List.mem_map.1 hy
  have := congrArg String.toList hxy
  simp at this

end Equality

open Equality

namespace Interpretation

variable {D : Type u} {I : Interpretation D} {S : Signature}

/-- The two values are equal in the sense of the interpretation. -/
def Equates (I : Interpretation D) (a b : D) : Prop := I.rel equality [a, b]

/-- Equality is identity. -/
def IsNormal (I : Interpretation D) : Prop := ∀ a b, I.Equates a b ↔ a = b

/-- Equality is an equivalence relation that the symbols of the signature respect. -/
structure Respects (S : Signature) (I : Interpretation D) : Prop where
  refl : ∀ a, I.Equates a a
  symm : ∀ {a b}, I.Equates a b → I.Equates b a
  trans : ∀ {a b c}, I.Equates a b → I.Equates b c → I.Equates a c
  /-- A function has equal values at equal arguments. -/
  func : ∀ {f n}, (f, n) ∈ S.functions → ∀ {as bs}, as.length = n → List.Forall₂ I.Equates as bs →
    I.Equates (I.func f as) (I.func f bs)
  /-- A predicate other than equality that holds of some arguments holds of equal ones. -/
  rel : ∀ {p n}, (p, n) ∈ S.predicates → p ≠ equality → ∀ {as bs}, as.length = n →
    List.Forall₂ I.Equates as bs → I.rel p as → I.rel p bs

/-! ### What the axioms say -/

@[simp] theorem holds_equation (v : String → D) (s t : Term) :
    I.Holds v (Literal.equation s t).toSignedAtom ↔ I.Equates (I.eval v s) (I.eval v t) := Iff.rfl

@[simp] theorem holds_disequation (v : String → D) (s t : Term) :
    I.Holds v (Literal.disequation s t).toSignedAtom ↔ ¬I.Equates (I.eval v s) (I.eval v t) :=
  Iff.rfl

@[simp] theorem holds_pos (v : String → D) (p : String) (ts : List Term) :
    I.Holds v (Literal.pos (.app p ts)).toSignedAtom ↔ I.rel p (ts.map (I.eval v)) := Iff.rfl

@[simp] theorem holds_neg (v : String → D) (p : String) (ts : List Term) :
    I.Holds v (Literal.neg (.app p ts)).toSignedAtom ↔ ¬I.rel p (ts.map (I.eval v)) := Iff.rfl

theorem models_iff {c : Clause} :
    I.Models c ↔ ∀ v, ∃ l ∈ c.literals, I.Holds v l.toSignedAtom := by
  simp [Models, Clause.signedAtoms]

/-- Some of the disequations is true, unless the values are equal position by position. -/
theorem exists_holds_disequations (v : String → D) {xs ys : List Term}
    (hlength : xs.length = ys.length) :
    (∃ l ∈ disequations xs ys, I.Holds v l.toSignedAtom) ↔
      ¬List.Forall₂ I.Equates (xs.map (I.eval v)) (ys.map (I.eval v)) := by
  induction xs generalizing ys with
  | nil =>
    cases ys with
    | nil => simp [disequations]
    | cons y ys => cases hlength
  | cons x xs ih =>
    cases ys with
    | nil => cases hlength
    | cons y ys =>
      have hrest := ih (Nat.succ.inj hlength)
      simp only [disequations] at hrest
      simp only [disequations, List.zipWith_cons_cons, List.exists_mem_cons_iff,
        holds_disequation, hrest, List.map_cons, List.forall₂_cons]
      tauto

/-- The truth of an axiom of compatibility, with the conclusion `last`. -/
theorem models_compatibility {name : String} {n : Nat} {last : List Literal}
    {Q : List D → List D → Prop}
    (hlast : ∀ v, (∃ l ∈ last, I.Holds v l.toSignedAtom) ↔
      Q ((numbered "X" n).map (I.eval v)) ((numbered "Y" n).map (I.eval v))) :
    I.Models (axiomNamed name (disequations (numbered "X" n) (numbered "Y" n) ++ last)) ↔
      ∀ as bs, as.length = n → List.Forall₂ I.Equates as bs → Q as bs := by
  have hvalues : ∀ (v : String → D) base,
      (numbered base n).map (I.eval v) = (numberedNames base n).map v := by
    intro v base
    rw [numbered_eq, List.map_map]
    rfl
  have hlength : (numbered "X" n).length = (numbered "Y" n).length := by simp [numbered]
  simp only [models_iff, axiomNamed, List.mem_append, or_and_right, exists_or,
    exists_holds_disequations _ hlength, hlast, hvalues]
  constructor
  · intro h as bs has hequates
    have hbs : bs.length = n := hequates.length_eq.symm.trans has
    have hvars : (numberedNames "X" n ++ numberedNames "Y" n).length = (as ++ bs).length := by
      simp [length_numberedNames, has, hbs]
    obtain ⟨v, hv⟩ := exists_valuation (fun _ => I.func "" []) (nodup_axiomVars n) hvars
    rw [List.map_append] at hv
    obtain ⟨rfl, rfl⟩ := List.append_inj hv (by simp [length_numberedNames, has])
    exact (h v).resolve_left (not_not_intro hequates)
  · intro h v
    exact or_iff_not_imp_left.2 fun hequates =>
      h _ _ (by simp [length_numberedNames]) (not_not.1 hequates)

theorem models_functionAxiom {f : String} {n : Nat} : I.Models (functionAxiom f n) ↔
    ∀ as bs, as.length = n → List.Forall₂ I.Equates as bs → I.Equates (I.func f as) (I.func f bs) :=
  models_compatibility (Q := fun as bs => I.Equates (I.func f as) (I.func f bs)) fun v => by
    simp [eval]

theorem models_predicateAxiom {p : String} {n : Nat} : I.Models (predicateAxiom p n) ↔
    ∀ as bs, as.length = n → List.Forall₂ I.Equates as bs → I.rel p as → I.rel p bs :=
  models_compatibility (Q := fun as bs => I.rel p as → I.rel p bs) fun v => by
    simp [imp_iff_not_or]

theorem models_equivalence : (∀ c ∈ equivalence, I.Models c) ↔ (∀ a, I.Equates a a) ∧
    (∀ a b, I.Equates a b → I.Equates b a) ∧
    ∀ a b c, I.Equates a b → I.Equates b c → I.Equates a c := by
  simp only [equivalence, axiomNamed, List.forall_mem_cons, models_iff, List.exists_mem_cons_iff,
    List.not_mem_nil, false_and, exists_false, or_false, holds_equation, holds_disequation, eval,
    IsEmpty.forall_iff, implies_true, and_true, ← imp_iff_not_or]
  refine and_congr ?_ (and_congr ?_ ?_)
  · exact ⟨fun h a => h fun _ => a, fun h v => h _⟩
  · refine ⟨fun h a b hab => ?_, fun h v => h _ _⟩
    have := h fun x => if x = "X" then a else b
    exact this hab
  · refine ⟨fun h a b c hab hbc => ?_, fun h v => h _ _ _⟩
    have := h fun x => if x = "X" then a else if x = "Y" then b else c
    exact this hab hbc

/-- **The axioms of equality say that equality is a congruence for the signature.** -/
theorem models_axioms_iff : (∀ c ∈ axioms S, I.Models c) ↔ I.Respects S := by
  simp only [axioms, compatibility, List.forall_mem_append, List.forall_mem_map, List.mem_filter,
    decide_eq_true_eq, models_equivalence, models_functionAxiom, models_predicateAxiom]
  constructor
  · rintro ⟨⟨hrefl, hsymm, htrans⟩, hfunc, hrel⟩
    refine ⟨hrefl, hsymm _ _, htrans _ _ _, fun {f n} hf as bs has hequates => ?_,
      fun {p n} hp hne as bs has hequates => ?_⟩
    · -- a constant is equal to itself without an axiom
      rcases Nat.eq_zero_or_pos n with rfl | hn
      · obtain rfl := List.length_eq_zero_iff.1 has
        cases hequates
        exact hrefl _
      · exact hfunc (f, n) ⟨hf, hn⟩ as bs has hequates
    · rcases Nat.eq_zero_or_pos n with rfl | hn
      · obtain rfl := List.length_eq_zero_iff.1 has
        cases hequates
        exact id
      · exact hrel (p, n) ⟨hp, hne, hn⟩ as bs has hequates
  · intro h
    refine ⟨⟨h.refl, fun _ _ => h.symm, fun _ _ _ => h.trans⟩, ?_, ?_⟩
    · rintro ⟨f, n⟩ ⟨hf, -⟩ as bs has hequates
      exact h.func hf has hequates
    · rintro ⟨p, n⟩ ⟨hp, hne, -⟩ as bs has hequates
      exact h.rel hp hne has hequates

theorem IsNormal.respects (h : I.IsNormal) (S : Signature) : I.Respects S := by
  have hidentity : I.Equates = Eq := by
    funext a b
    exact propext (h a b)
  have hargs : ∀ {as bs : List D}, List.Forall₂ I.Equates as bs → as = bs := by
    intro as bs hequates
    rwa [hidentity, List.forall₂_eq_eq_eq] at hequates
  refine ⟨fun a => (h a a).2 rfl, fun hab => ?_, fun hab hbc => ?_, ?_, ?_⟩
  · exact (h _ _).2 ((h _ _).1 hab).symm
  · exact (h _ _).2 (((h _ _).1 hab).trans ((h _ _).1 hbc))
  · intro f n _ as bs _ hequates
    rw [hargs hequates]
    exact (h _ _).2 rfl
  · intro p n _ _ as bs _ hequates
    rw [hargs hequates]
    exact id

/-! ### Classes of equal values -/

/-- Equality as an equivalence relation. -/
def Respects.setoid (h : I.Respects S) : Setoid D := ⟨I.Equates, h.refl, h.symm, h.trans⟩

/-- The interpretation by classes of values.  Functions and predicates look at a value chosen from
each class. -/
noncomputable def quotient (I : Interpretation D) (s : Setoid D) : Interpretation (Quotient s) where
  func f ds := Quotient.mk s (I.func f (ds.map Quotient.out))
  rel p ds := I.rel p (ds.map Quotient.out)

namespace Respects

variable (h : I.Respects S) (v : String → D)

theorem equates_out (a : D) : I.Equates (Quotient.mk h.setoid a).out a :=
  Quotient.mk_out (s := h.setoid) a

theorem forall₂_out (as : List D) :
    List.Forall₂ I.Equates ((as.map (Quotient.mk h.setoid)).map Quotient.out) as := by
  rw [List.map_map, List.forall₂_map_left_iff, List.forall₂_same]
  exact fun a _ => h.equates_out a

theorem eval_quotient {t : Term} (ht : ∀ o ∈ t.functionOccurrences, S.Knows o) :
    (I.quotient h.setoid).eval (fun x => Quotient.mk h.setoid (v x)) t =
      Quotient.mk h.setoid (I.eval v t) := by
  induction t with
  | var x => rfl
  | app f ts ih =>
    simp only [Term.functionOccurrences, Term.functionOccurrencesList_eq_flatMap,
      List.forall_mem_cons, List.mem_flatMap] at ht
    have hargs : ts.map ((I.quotient h.setoid).eval fun x => Quotient.mk h.setoid (v x)) =
        (ts.map (I.eval v)).map (Quotient.mk h.setoid) := by
      rw [List.map_map]
      exact List.map_congr_left fun t hmem => ih t hmem fun o ho => ht.2 o ⟨t, hmem, ho⟩
    simp only [eval, evalList_eq_map, hargs]
    exact Quotient.sound (s := h.setoid) (h.func ht.1.mem (by simp) (h.forall₂_out _))

include h in
/-- Arguments and equal ones satisfy the same predicates of the signature. -/
theorem rel_iff {p : String} {n : Nat} (hp : S.Knows ⟨.predicate, p, n⟩)
    (hequality : S.Knows ⟨.predicate, equality, 2⟩) {as bs : List D} (has : as.length = n)
    (hequates : List.Forall₂ I.Equates as bs) : I.rel p as ↔ I.rel p bs := by
  by_cases hne : p = equality
  · -- equality has two arguments, and is transitive
    subst hne
    obtain rfl : n = 2 := hp.arity_eq hequality rfl rfl
    obtain ⟨a, a', rfl⟩ := List.length_eq_two.1 has
    obtain ⟨b, _, hab, hrest, rfl⟩ := List.forall₂_cons_left_iff.1 hequates
    obtain ⟨b', _, hab', hnil, rfl⟩ := List.forall₂_cons_left_iff.1 hrest
    obtain rfl := List.forall₂_nil_left_iff.1 hnil
    exact ⟨fun haa => h.trans (h.symm hab) (h.trans haa hab'),
      fun hbb => h.trans hab (h.trans hbb (h.symm hab'))⟩
  · have hback : List.Forall₂ I.Equates bs as := hequates.flip.imp fun _ _ => h.symm
    exact ⟨h.rel hp.mem hne has hequates,
      h.rel hp.mem hne (hequates.length_eq.symm.trans has) hback⟩

theorem holdsAtom_quotient {l : Literal} (hl : ∀ o ∈ l.symbolOccurrences, S.Knows o)
    (hequality : S.Knows ⟨.predicate, equality, 2⟩) (hatom : l.atom.isVar = false) :
    (I.quotient h.setoid).HoldsAtom (fun x => Quotient.mk h.setoid (v x)) l.atom ↔
      I.HoldsAtom v l.atom := by
  cases hterm : l.atom with
  | var x => simp [hterm, Term.isVar] at hatom
  | app p ts =>
    simp only [Literal.symbolOccurrences, Literal.predicate, Literal.arity, Term.arity, hterm,
      Term.symbol?, Option.getD_some, Term.args, List.forall_mem_cons, List.mem_flatMap] at hl
    have hargs : ts.map ((I.quotient h.setoid).eval fun x => Quotient.mk h.setoid (v x)) =
        (ts.map (I.eval v)).map (Quotient.mk h.setoid) := by
      rw [List.map_map]
      exact List.map_congr_left fun t ht => h.eval_quotient v fun o ho => hl.2 o ⟨t, ht, ho⟩
    simp only [HoldsAtom, hargs]
    exact h.rel_iff hl.1 hequality (by simp) (h.forall₂_out _)

/-- **A clause over the signature that is true stays true** when equal values are made identical. -/
theorem models_quotient {c : Clause} (hc : c.HasCompoundAtoms)
    (hknows : ∀ o ∈ c.symbolOccurrences, S.Knows o) (hequality : S.Knows ⟨.predicate, equality, 2⟩)
    (hmodels : I.Models c) : (I.quotient h.setoid).Models c := by
  rw [models_iff] at hmodels ⊢
  intro v
  -- every valuation by classes comes from one by values
  obtain ⟨l, hl, hholds⟩ := hmodels fun x => (v x).out
  have hv : (fun x => Quotient.mk h.setoid (v x).out) = v := funext fun x => Quotient.out_eq (v x)
  have hatom := h.holdsAtom_quotient (fun x => (v x).out)
    (fun o ho => hknows o (List.mem_flatMap.2 ⟨l, hl, ho⟩)) hequality (hc l hl)
  rw [hv] at hatom
  refine ⟨l, hl, ?_⟩
  unfold Holds at hholds ⊢
  rwa [hatom]

/-- **In the interpretation by classes equality is identity.** -/
theorem isNormal_quotient : (I.quotient h.setoid).IsNormal := fun _ _ =>
  Quotient.out_equiv_out (s := h.setoid)

end Respects

end Interpretation

/-! ### Satisfiability -/

/-- All clauses of `S` are true in some interpretation in which equality is identity. -/
def NormallySatisfiable (S : List Clause) : Prop :=
  ∃ (D : Type u) (I : Interpretation D), I.IsNormal ∧ ∀ c ∈ S, I.Models c

/-- **The axioms of equality axiomatise equality exactly.** -/
theorem equality_axioms_exact {S : List Clause} (hS : ∀ c ∈ S, c.HasCompoundAtoms)
    {signature : Signature} (hsignature : Signature.ofClauses S = .ok signature)
    (hequality : signature.predicates.lookup equality = some 2) :
    Satisfiable.{u} (S ++ axioms signature) ↔ NormallySatisfiable.{u} S := by
  constructor
  · rintro ⟨D, I, hI⟩
    obtain ⟨hclauses, haxioms⟩ := List.forall_mem_append.1 hI
    have hrespects := Interpretation.models_axioms_iff.1 haxioms
    exact ⟨_, I.quotient hrespects.setoid, hrespects.isNormal_quotient, fun c hc =>
      hrespects.models_quotient (hS c hc)
        (fun _ => Signature.knows_of_ofClauses hsignature hc) hequality (hclauses c hc)⟩
  · rintro ⟨D, I, hnormal, hclauses⟩
    have haxioms := Interpretation.models_axioms_iff.2 (hnormal.respects signature)
    exact ⟨D, I, List.forall_mem_append.2 ⟨hclauses, haxioms⟩⟩

/-- One thing under two names, and a property that it has under the first name only. -/
def twoNames : List Clause :=
  [⟨"same", .axiomatic, [.equation (.const "a") (.const "b")], none⟩,
    ⟨"first", .axiomatic, [.pos (.app "p" [.app "f" [.const "a"]])], none⟩,
    ⟨"second", .negatedConjecture, [.neg (.app "p" [.app "f" [.const "b"]])], none⟩]

/-- The clauses are satisfiable as long as equality is any relation; the axioms make them
unsatisfiable. -/
theorem equality_axioms_exact_twoNames : (∀ c ∈ twoNames, c.HasCompoundAtoms) ∧
    Signature.ofClauses twoNames = .ok ⟨[("a", 0), ("b", 0), ("f", 1)], [(equality, 2), ("p", 1)]⟩ ∧
    Satisfiable.{u} twoNames ∧
    ¬Satisfiable.{u}
      (twoNames ++ axioms ⟨[("a", 0), ("b", 0), ("f", 1)], [(equality, 2), ("p", 1)]⟩) := by
  have hcompound : ∀ c ∈ twoNames, c.HasCompoundAtoms := by decide
  have hsignature : Signature.ofClauses twoNames =
      .ok ⟨[("a", 0), ("b", 0), ("f", 1)], [(equality, 2), ("p", 1)]⟩ := rfl
  refine ⟨hcompound, hsignature, ?_, fun hsatisfiable => ?_⟩
  · -- the two names have different values, and `f` keeps its argument
    let I : Interpretation (ULift.{u} Bool) :=
      ⟨fun f ds => ds.headD ⟨f == "a"⟩, fun p ds => p = equality ∨ ds = [⟨true⟩]⟩
    refine ⟨_, I, fun c hc => ?_⟩
    simp only [twoNames, List.mem_cons, List.not_mem_nil, or_false] at hc
    rcases hc with rfl | rfl | rfl <;>
      simp [Interpretation.models_iff, Interpretation.Equates, Interpretation.eval, Term.const,
        I, equality]
  · obtain ⟨D, I, hnormal, hI⟩ := (equality_axioms_exact hcompound hsignature rfl).1 hsatisfiable
    simp only [twoNames, List.forall_mem_cons, Interpretation.models_iff, List.exists_mem_cons_iff,
      List.not_mem_nil, false_and, exists_false, or_false, Interpretation.holds_equation,
      Term.const, Interpretation.holds_pos, Interpretation.holds_neg, Interpretation.eval,
      Interpretation.evalList_eq_map, List.map_cons, List.map_nil] at hI
    obtain ⟨hsame, hfirst, hsecond, -⟩ := hI
    have hnames := (hnormal _ _).1 (hsame fun _ => I.func "" [])
    exact hsecond (fun _ => I.func "" []) (hnames ▸ hfirst fun _ => I.func "" [])

end Refutation
