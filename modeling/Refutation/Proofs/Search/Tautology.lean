import Refutation.Equality
import Refutation.Proofs.Search.Completeness

/-!
# Deleting tautologies

A search may drop tautologies: clauses with opposite literals, and clauses with an equation between
a term and itself.  The former are redundant.  The latter are not, because equality is an ordinary
predicate that says nothing without its axioms, and reflexivity itself is dropped.  So a refutation
can be lost only where a clause was dropped because of such an equation.

* `Search.Policy.MeetsTrivial` : a clause is dropped only because of an equation between a term and
  itself.
* `Search.Run.meetsTrivial` : else no search for a refutation of unsatisfiable clauses ends
  saturated.
* `Search.Run.usesEquations` : without equations there are no such clauses.
* `Search.tautology_deletion_keeps_refutations` : deleting tautologies hides no other refutations.
* `Search.tautology_deletion_may_hide_refutations` : none of the conditions can be left out.
-/

namespace Refutation

/-! ### Two kinds of tautologies -/

theorem SignedAtom.tag_subst {a : SignedAtom} (ha : a.atom.isVar = false) (θ : String → Term) :
    (a.subst θ).tag = a.tag := by
  obtain ⟨negative, atom⟩ := a
  cases atom with
  | var x => cases ha
  | app f ts =>
    simp [tag, isEquation, subst, Term.subst, Term.substList_eq_map, Term.symbol?,
      Term.arity, Term.args]

theorem Literal.tag_of_isTrivial {l : Literal} (h : l.isTrivial = true) : l.tag = some .equal := by
  unfold isTrivial at h
  split at h
  · assumption
  · cases h

namespace Clause

variable {c : Clause}

theorem isComplementary_of_hasOpposites (h : hasOpposites c.literals = true) :
    IsComplementary c.signedAtoms := by
  obtain ⟨l, hl, m, hm, hsign, hatom⟩ := hasOpposites_iff.1 h
  have hl' : l.toSignedAtom ∈ c.signedAtoms := List.mem_map_of_mem hl
  have hm' : m.toSignedAtom ∈ c.signedAtoms := List.mem_map_of_mem hm
  cases hneg : l.negative with
  | true => exact ⟨_, hl', _, hm', hneg, by simpa [hneg] using hsign, hatom⟩
  | false => exact ⟨_, hm', _, hl', by simpa [hneg] using hsign, hneg, hatom.symm⟩

/-- The clause is a tautology only because of an equation between a term and itself. -/
structure IsTrivial (c : Clause) : Prop where
  /-- No literals are opposite. -/
  hasOpposites : hasOpposites c.literals = false
  /-- There is such an equation. -/
  equation : ∃ l ∈ c.literals, l.isTrivial = true

theorem isComplementary_or_isTrivial (h : c.isTautology = true) :
    IsComplementary c.signedAtoms ∨ c.IsTrivial := by
  rw [isTautology, Bool.or_eq_true, List.any_eq_true] at h
  cases hopposites : hasOpposites c.literals with
  | true => exact .inl (isComplementary_of_hasOpposites hopposites)
  | false => exact .inr ⟨hopposites, h.resolve_left (by simp [hopposites])⟩

end Clause

namespace Search

variable {policy : Policy} {S : List Clause}

/-- A clause that the search starts with, or a conclusion that it comes to, is a tautology only
because of an equation between a term and itself. -/
def Policy.MeetsTrivial (policy : Policy) (S : List Clause) (h : History) : Prop :=
  (∃ c ∈ S, c.IsTrivial) ∨ ∃ k ∈ h.calls, ∃ r, k.result? = some r ∧ (policy.tidy r).IsTrivial

/-- Some literal is a positive equation, or is marked as one. -/
def UsesEquations (S : List Clause) : Prop :=
  ∃ c ∈ S, ∃ l ∈ c.literals, l.tag = some .equal ∨ l.toSignedAtom.tag = some .equal

theorem Policy.dropsComplementary_of_not_meetsTrivial {h : History}
    (hnone : ¬policy.MeetsTrivial S h) :
    policy.DropsComplementary S h := by
  obtain ⟨hinput, hconcluded⟩ := not_or.1 hnone
  constructor
  · intro c hc _ htautology
    exact (Clause.isComplementary_or_isTrivial htautology).resolve_right fun htrivial =>
      hinput ⟨c, hc, htrivial⟩
  · intro k hk r hr _ htautology
    exact (Clause.isComplementary_or_isTrivial htautology).resolve_right fun htrivial =>
      hconcluded ⟨k, hk, r, hr, htrivial⟩

/-! ### Refutations -/

section

variable {P U : Type} [ClauseStore P] [ClauseQueue U] [LawfulStore P] [LawfulQueue U]
    {s₀ s : State P U}
  {h : History}

/-- A refutation without cyclic unifiers shows that the clauses are unsatisfiable. -/
theorem Run.not_satisfiable (hs₀ : s₀.Consistent (.start s₀))
    (hstart : s₀.snapshot [] (.start s₀) = .start S) (hcompound : ∀ c ∈ S, c.HasCompoundAtoms)
    (run : Run policy s₀ (.start s₀) s h) (hproof : s.status = .proofFound)
    (hacyclic : ∀ e, s.result = some e → ∀ k, h.Uses e.number k → k.IsAcyclic) :
    ¬Satisfiable.{0} S := by
  obtain ⟨e, hresult, hempty⟩ := (run.moves hs₀).2.snapshot.proofFound hproof
  have hsound := run.sound hs₀ hstart hcompound
  exact not_satisfiable_of_entails hempty
    (hsound.entails e (.inr (.inr hresult)) (hacyclic e hresult))

/-- **A search that ends saturated with unsatisfiable clauses** has met a clause that is a tautology
only because of an equation between a term and itself. -/
theorem Run.meetsTrivial (hs₀ : s₀.Consistent (.start s₀))
    (hstart : s₀.snapshot [] (.start s₀) = .start S) (hcompound : ∀ c ∈ S, c.HasCompoundAtoms)
    (heligible : ∀ c ∈ S, ∀ l ∈ c.literals, l.eligible = true)
    (hvars : ∀ c ∈ S, ∀ n, FreshVars.varName n ∉ c.vars) (hunsatisfiable : ¬Satisfiable.{0} S)
    (run : Run policy s₀ (.start s₀) s h) (hsaturated : s.status = .saturated) :
    policy.MeetsTrivial S h := by
  by_contra hnone
  have hdrops := Policy.dropsComplementary_of_not_meetsTrivial hnone
  exact hunsatisfiable
    (run.satisfiable_of_dropsComplementary hs₀ hstart hdrops hcompound heligible hvars hsaturated)

/-- Where such a clause is met, there was an equation from the start. -/
theorem Run.usesEquations (hs₀ : s₀.Consistent (.start s₀))
    (hstart : s₀.snapshot [] (.start s₀) = .start S) (hcompound : ∀ c ∈ S, c.HasCompoundAtoms)
    (run : Run policy s₀ (.start s₀) s h) (hmeets : policy.MeetsTrivial S h) : UsesEquations S := by
  rcases hmeets with ⟨c, hc, -, l, hl, htrivial⟩ | ⟨k, hk, r, hr, -, l, hl, htrivial⟩
  · exact ⟨c, hc, l, hl, .inl (Literal.tag_of_isTrivial htrivial)⟩
  by_contra hnone
  obtain ⟨hmoves, hs⟩ := run.moves hs₀
  rw [hstart] at hmoves
  have hcons := hs.snapshot
  -- an instance of a compound atom is an equation only if the atom is one
  have hinput : ∀ c ∈ S, ∀ a ∈ c.signedAtoms, a.atom.isVar = false ∧ a.tag ≠ some .equal := by
    intro c hc a ha
    obtain ⟨m, hm, rfl⟩ := Clause.mem_signedAtoms.1 ha
    exact ⟨hcompound c hc m hm, fun htag => hnone ⟨c, hc, m, hm, .inr htag⟩⟩
  have hinherit : ∀ (a : SignedAtom) (θ : String → Term),
      a.atom.isVar = false ∧ a.tag ≠ some .equal →
      (a.subst θ).atom.isVar = false ∧ (a.subst θ).tag ≠ some .equal := fun a θ ⟨hvar, htag⟩ =>
    ⟨Term.isVar_subst hvar θ, SignedAtom.tag_subst hvar θ ▸ htag⟩
  have hmem := (policy.tidy_sublist r).subset hl
  obtain ⟨e, he, b, hb, θ, hinstance⟩ :=
    Call.exists_of_mem_result hr (Clause.mem_signedAtoms.2 ⟨l, hmem, rfl⟩)
  have hpremise := (Snapshot.Explained.moves hmoves).forall_signedAtoms hcons hinherit hinput
    (hcons.premises k hk e he) b hb
  have htag : l.toSignedAtom.tag = some .equal := by
    have hcomputed := congrArg Literal.tag (Call.toLiteral_toSignedAtom hr l hmem)
    exact hcomputed.trans (Literal.tag_of_isTrivial htrivial)
  exact (hinherit b θ hpremise).2 (hinstance ▸ htag)

end

/-! ### Full searches -/

/-- The parameters with the deletion of tautologies switched on or off. -/
def Params.deleting (params : Params) (delete : Bool) : Params :=
  { params with deleteTautologies := delete }

/-- **Deleting tautologies hides no refutation** but by deleting equations between a term and
itself: where a search refutes clauses without cyclic unifiers, the search that deletes tautologies
ends saturated only if it has met such an equation. -/
theorem tautology_deletion_keeps_refutations (params : Params)
    (hcompound : ∀ c ∈ S, c.HasCompoundAtoms)
    (heligible : ∀ c ∈ S, ∀ l ∈ c.literals, l.eligible = true)
    (hvars : ∀ c ∈ S, ∀ n, FreshVars.varName n ∉ c.vars) {s₀ s : FullState} {h : History}
    (hstart : startFull (params.deleting false) S = .ok s₀)
    (run : Run (params.deleting false).policy s₀ (.start s₀) s h) (hproof : s.status = .proofFound)
    (hacyclic : ∀ e, s.result = some e → ∀ k, h.Uses e.number k → k.IsAcyclic) :
    startFull (params.deleting true) S = .ok s₀ ∧
      ∀ t h', Run (params.deleting true).policy s₀ (.start s₀) t h' → t.status = .saturated →
        (params.deleting true).policy.MeetsTrivial S h' ∧ UsesEquations S := by
  obtain ⟨hsnapshot, hs₀⟩ := startFull_spec hstart
  have hunsatisfiable := run.not_satisfiable hs₀ hsnapshot hcompound hproof hacyclic
  refine ⟨hstart, fun t h' run' hsaturated => ?_⟩
  have hmeets :=
    run'.meetsTrivial hs₀ hsnapshot hcompound heligible hvars hunsatisfiable hsaturated
  exact ⟨hmeets, run'.usesEquations hs₀ hsnapshot hcompound hmeets⟩

/-- The denial of `a = a`, and what makes equality an equivalence relation. -/
def irreflexive : List Clause :=
  ⟨"irreflexive", .negatedConjecture, [.disequation (.app "a" []) (.app "a" [])], none⟩ ::
    Equality.equivalence

/-- The refutation of `a ≠ a` uses no cyclic unifier; it is lost, because reflexivity is dropped. -/
theorem tautology_deletion_keeps_refutations_irreflexive :
    (∀ c ∈ irreflexive, c.HasCompoundAtoms) ∧
    (∀ c ∈ irreflexive, ∀ l ∈ c.literals, l.eligible = true) ∧
    (∀ c ∈ irreflexive, ∀ n, FreshVars.varName n ∉ c.vars) ∧
    ∃ params : Params, ∃ s₀ s h t h', startFull (params.deleting false) irreflexive = .ok s₀ ∧
      Run (params.deleting false).policy s₀ (.start s₀) s h ∧ s.status = .proofFound ∧
      (∀ e, s.result = some e → ∀ k, h.Uses e.number k → k.IsAcyclic) ∧
      Run (params.deleting true).policy s₀ (.start s₀) t h' ∧ t.status = .saturated ∧
      (params.deleting true).policy.MeetsTrivial irreflexive h' ∧ UsesEquations irreflexive := by
  have hcompound : ∀ c ∈ irreflexive, c.HasCompoundAtoms := by decide
  have heligible : ∀ c ∈ irreflexive, ∀ l ∈ c.literals, l.eligible = true := by decide
  have hvars : ∀ c ∈ irreflexive, ∀ n, FreshVars.varName n ∉ c.vars :=
    varName_not_mem_vars (by decide +kernel)
  have harity : ∀ c ∈ irreflexive, ∀ o ∈ c.symbolOccurrences, o.kind = .function → o.arity = 0 := by
    decide
  let params : Params := { selection := some .first }
  let s₀ : FullState := .start .empty (.empty params.heuristic.schedule) irreflexive
  obtain ⟨h, run⟩ := run_saturate (params.deleting false).policy 5 s₀ (.start s₀)
  obtain ⟨h', run'⟩ := run_saturate (params.deleting true).policy 5 s₀ (.start s₀)
  have hproof : (s₀.saturate (params.deleting false).policy 5).status = .proofFound := by cbv
  have hsaturated : (s₀.saturate (params.deleting true).policy 5).status = .saturated := by cbv
  have hstart : startFull (params.deleting false) irreflexive = .ok s₀ := rfl
  obtain ⟨hsnapshot, hs₀⟩ := startFull_spec hstart
  have hacyclic : ∀ e, (s₀.saturate (params.deleting false).policy 5).result = some e →
      ∀ k, h.Uses e.number k → k.IsAcyclic :=
    fun e _ k hk => run.isAcyclic_of_arity hs₀ hsnapshot hcompound harity hk
  obtain ⟨-, hkeeps⟩ := tautology_deletion_keeps_refutations params hcompound heligible
    hvars hstart run
    hproof hacyclic
  exact ⟨hcompound, heligible, hvars, params, s₀, _, h, _, h', hstart, run, hproof, hacyclic, run',
    hsaturated, hkeeps _ h' run' hsaturated⟩

/-! ### Why the conditions are needed -/

/-- A search finds a refutation, and if it deletes tautologies it ends saturated. -/
def Params.HidesRefutation (params : Params) (S : List Clause) : Prop :=
  ∃ s₀ n, startFull params S = .ok s₀ ∧
    (s₀.saturate (params.deleting false).policy n).status = .proofFound ∧
    (s₀.saturate (params.deleting true).policy n).status = .saturated

/-- The refutation unifies `p(Y,Y)` with `p(X,f(X))`, and the unifier is cyclic. -/
def cyclicStep : List Clause :=
  [⟨"irreflexive", .axiomatic, [.neg (.app "p" [.var "Y", .var "Y"])], none⟩,
    ⟨"either", .axiomatic, [.pos (.app "p" [.var "X", .app "f" [.var "X"]]),
      .neg (.app "p" [.var "X", .app "f" [.var "X"]])], none⟩,
    ⟨"fact", .axiomatic, [.pos (.app "p" [.app "f" [.app "a" []],
      .app "f" [.app "f" [.app "a" []]]])], none⟩]

/-- One of the variables looks like a fresh one. -/
def freshLooking : List Clause :=
  [⟨"fact", .axiomatic, [.pos (.app "p" [.var "X", .app "b" []])], none⟩,
    ⟨"goal", .negatedConjecture, [.neg (.app "p" [.app "c" [], .var "V_1"])], none⟩,
    ⟨"either", .axiomatic,
      [.pos (.app "p" [.var "X", .var "Y"]), .neg (.app "p" [.var "X", .var "Y"])], none⟩]

/-- Inferences may use one literal of each clause. -/
def halfEligible : List Clause :=
  let p := Literal.pos (.app "p" [])
  let q := Literal.pos (.app "q" [])
  let barred : Literal → Literal := fun l => { l with eligible := false }
  [⟨"c1", .axiomatic, [barred p, q], none⟩, ⟨"c2", .axiomatic, [p, barred q.negate], none⟩,
    ⟨"c3", .axiomatic, [p.negate, barred q], none⟩,
    ⟨"c4", .axiomatic, [barred p.negate, q.negate], none⟩]

/-- Some atoms are variables. -/
def variableAtoms : List Clause :=
  [⟨"all", .axiomatic, [.pos (.var "X")], none⟩,
    ⟨"rule", .axiomatic, [.neg (.var "Y"), .neg (.app "r" [.var "Y"])], none⟩,
    ⟨"fact", .axiomatic, [.pos (.app "r" [.app "c" []])], none⟩,
    ⟨"either", .axiomatic, [.pos (.var "Z"), .neg (.var "Z"), .pos (.app "s" [.var "Z"])], none⟩,
    ⟨"goal", .negatedConjecture, [.neg (.app "s" [.app "c" []])], none⟩]

/-- **A refutation can be hidden** where there are equations, cyclic unifiers, variables that look
fresh, literals that inferences may not use, or variables for atoms. -/
theorem tautology_deletion_may_hide_refutations :
    ({ selection := some .first } : Params).HidesRefutation irreflexive ∧
    ({} : Params).HidesRefutation cyclicStep ∧
    ({} : Params).HidesRefutation freshLooking ∧
    ({} : Params).HidesRefutation halfEligible ∧
    ({ selection := some .largest } : Params).HidesRefutation variableAtoms := by
  refine ⟨⟨_, 5, rfl, ?_, ?_⟩, ⟨_, 7, rfl, ?_, ?_⟩, ⟨_, 5, rfl, ?_, ?_⟩, ⟨_, 12, rfl, ?_, ?_⟩,
    ⟨_, 9, rfl, ?_, ?_⟩⟩ <;> cbv

end Search

end Refutation
