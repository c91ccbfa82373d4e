import Refutation.Proofs.Inference

/-!
# Conclusions: sound and most general

Two properties of single inferences, for whatever clauses, positions and fresh variables.  A
conclusion follows from its premises if the unifier is acyclic, also if the names drawn for the
second premise occur in the first: the copy is an instance of the premise in any case.  And a
conclusion is as general as can be: whatever is inferred from instances of the premises is an
instance of it, if no name drawn for the second premise occurs in the first.

* `Entry.size_resolve`, `Entry.size_factor` : the number of literals of a conclusion.
* `inference_sound` : conclusions follow from their premises.
* `inference_lifts` : **inferences between instances are instances of inferences.**
-/

namespace Refutation

universe u

/-! ### Instances -/

namespace Clause

theorem map_instantiate (ls : List Literal) (τ : Substitution) : ls.map (·.instantiate τ) =
    ((ls.map (·.toSignedAtom)).map (·.subst τ.assign)).map (·.toLiteral) := by
  simp [Literal.instantiate]

/-- An instance of a clause by an assignment is one by a substitution. -/
theorem exists_map_instantiate_eq (c : Clause) (δ : String → Term) : ∃ τ : Substitution,
    c.literals.map (·.instantiate τ) = (c.signedAtoms.map (·.subst δ)).map (·.toLiteral) := by
  obtain ⟨τ, hτ⟩ := Substitution.exists_assign_eq c.vars δ
  refine ⟨τ, ?_⟩
  rw [map_instantiate]
  refine congrArg _ (List.map_congr_left fun a ha => ?_)
  exact SignedAtom.subst_congr fun x hx => hτ x (mem_vars.2 ⟨a, ha, hx⟩)

theorem map_instantiate_eraseIdx (c : Clause) (i : Nat) (θ : Substitution) :
    (c.literals.eraseIdx i).map (·.instantiate θ) =
      ((c.signedAtoms.eraseIdx i).map (·.subst θ.assign)).map (·.toLiteral) := by
  rw [map_instantiate, ← List.eraseIdx_map]
  rfl

end Clause

/-! ### The size of conclusions -/

namespace Entry

variable {c d : Entry} {i j : Nat} {fresh : FreshVars} {r : Clause}

theorem size_resolve (h : (c.resolve i d j fresh).1 = some r) :
    r.size + 2 = c.clause.size + d.clause.size := by
  obtain ⟨l, m, σ, hl, hm, -, -, rfl⟩ := resolve_eq_some_iff.1 h
  have hc := List.length_eraseIdx_add_one (List.getElem?_eq_some_iff.1 hl).1
  have hd := List.length_eraseIdx_add_one (List.getElem?_eq_some_iff.1 hm).1
  simp only [Clause.size, Clause.literals_conclude, Clause.literals_freshCopy, List.eraseIdx_map,
    List.length_map, List.length_append]
  omega

theorem size_factor (h : c.factor i j = some r) : r.size + 1 = c.clause.size := by
  obtain ⟨l, m, σ, -, hm, -, -, -, -, rfl⟩ := factor_eq_some_iff.1 h
  rw [Clause.size, Clause.literals_conclude, List.length_map]
  exact List.length_eraseIdx_add_one (List.getElem?_eq_some_iff.1 hm).1

end Entry

/-! ### Soundness -/

/-- **Inferences are sound step by step**: if its unifier is acyclic, a conclusion follows from the
premises, whichever names are drawn for the second one; and it has all their literals but those
inferred upon. -/
theorem inference_sound :
    (∀ (c d : Entry) (i j : Nat) (fresh : FreshVars) (r : Clause),
      (c.resolve i d j fresh).1 = some r → r.size + 2 = c.clause.size + d.clause.size ∧
        (c.clause.HasCompoundAtoms → d.clause.HasCompoundAtoms →
          (Call.resolve c i d j fresh).IsAcyclic →
          Entails.{u} [c.clause, d.clause] r)) ∧
    ∀ (c : Entry) (i j : Nat) (f : Clause),
      c.factor i j = some f → f.size + 1 = c.clause.size ∧
        (c.clause.HasCompoundAtoms → (Call.factor c i j).IsAcyclic → Entails.{u} [c.clause] f) := by
  constructor
  · intro c d i j fresh r hr
    refine ⟨Entry.size_resolve hr, fun hc hd hacyclic D I hI => ?_⟩
    exact Call.models_result (k := .resolve c i d j fresh) hr hacyclic
      (by simpa [Call.premises] using ⟨hc, hd⟩) (by simpa [Call.premises] using hI)
  · intro c i j f hf
    refine ⟨Entry.size_factor hf, fun hc hacyclic D I hI => ?_⟩
    exact Call.models_result (k := .factor c i j) hf hacyclic
      (by simpa [Call.premises] using hc) (by simpa [Call.premises] using hI)

/-- `p(x, Y) | q(x)`, for a variable `x`. -/
def choiceOf (x : String) : Entry :=
  ⟨0, .of [.pos (.app "p" [.var x, .var "Y"]), .pos (.app "q" [.var x])]⟩

/-- `~p(Y, b) | r(Y)`. -/
def restriction : Entry :=
  ⟨1, .of [.neg (.app "p" [.var "Y", .const "b"]), .pos (.app "r" [.var "Y"])]⟩

/-- `p(X) | p(f(Y)) | q(X)`. -/
def twoOffers : Entry :=
  ⟨2, .of [.pos (.app "p" [.var "X"]), .pos (.app "p" [.app "f" [.var "Y"]]),
    .pos (.app "q" [.var "X"])]⟩

/-- The name drawn for `Y` is a variable of the first clause, and still the resolvent `q(V_1) |
r(V_1)` follows. -/
theorem inference_sound_sameNames :
    (∃ r, ((choiceOf "V_1").resolve 0 restriction 0 .initial).1 = some r ∧ r.size + 2 = 2 + 2 ∧
      "V_1" ∈ (restriction.clause.freshCopy .initial).1.vars ∧
      "V_1" ∈ (choiceOf "V_1").clause.vars ∧
      Entails.{u} [(choiceOf "V_1").clause, restriction.clause] r) ∧
    ∃ f, twoOffers.factor 0 1 = some f ∧ f.size + 1 = 3 ∧ Entails.{u} [twoOffers.clause] f := by
  let r : Clause := .conclude "resolution" [choiceOf "V_1", restriction]
    [.pos (.app "q" [.var "V_1"]), .pos (.app "r" [.var "V_1"])]
  let f : Clause := .conclude "factor" [twoOffers]
    [.pos (.app "p" [.app "f" [.var "Y"]]), .pos (.app "q" [.app "f" [.var "Y"]])]
  have hr : ((choiceOf "V_1").resolve 0 restriction 0 .initial).1 = some r := by cbv
  have hf : twoOffers.factor 0 1 = some f := by cbv
  have hrσ : (Call.resolve (choiceOf "V_1") 0 restriction 0 .initial).unifier? =
    some (.ofList [("Y", .const "b")]) := by cbv
  have hfσ : (Call.factor twoOffers 0 1).unifier? =
      some (.ofList [("X", .app "f" [.var "Y"])]) := by cbv
  have hcopy : (restriction.clause.freshCopy .initial).1.vars = ["V_1"] := by cbv
  have hvars : (choiceOf "V_1").clause.vars = ["V_1", "Y"] := by cbv
  obtain ⟨hrsize, hrentails⟩ := inference_sound.1 _ _ _ _ _ _ hr
  obtain ⟨hfsize, hfentails⟩ := inference_sound.2 _ _ _ _ hf
  refine ⟨⟨r, hr, hrsize, by simp [hcopy], by simp [hvars], hrentails (by decide) (by decide)
    fun σ hσ => ?_⟩,
    f, hf, hfsize, hfentails (by decide) fun σ hσ => ?_⟩
  · obtain rfl := Option.some.inj (hrσ.symm.trans hσ)
    decide
  · obtain rfl := Option.some.inj (hfσ.symm.trans hσ)
    decide

/-! ### Generality -/

/-- **Conclusions are most general.**  If instances of two literals with opposite signs and the same
predicate have the same atom, then the clauses can be resolved upon them, and what is left of the
two instances is an instance of the resolvent; no name drawn for the second clause may occur in the
first.  If an instance makes two literals with the same sign and predicate equal, then the clause
can be factored upon them, and the instance without the second literal is an instance of the
factor. -/
theorem inference_lifts :
    (∀ (c d : Entry) (i j : Nat) (l m : Literal) (fresh : FreshVars),
      c.clause.literals[i]? = some l → d.clause.literals[j]? = some m →
      l.negative ≠ m.negative → l.predicate = m.predicate →
      (∀ x ∈ fresh.upcoming d.clause.vars.length, x ∉ c.clause.vars) →
      ∀ θ₁ θ₂ : Substitution, θ₁.apply l.atom = θ₂.apply m.atom →
        ∃ r, (c.resolve i d j fresh).1 = some r ∧ ∃ τ : Substitution,
          r.literals.map (·.instantiate τ) =
            (c.clause.literals.eraseIdx i).map (·.instantiate θ₁) ++
              (d.clause.literals.eraseIdx j).map (·.instantiate θ₂)) ∧
    ∀ (c : Entry) (i j : Nat) (l m : Literal),
      c.clause.literals[i]? = some l → c.clause.literals[j]? = some m → i ≠ j →
      l.negative = m.negative → l.predicate = m.predicate →
      ∀ θ : Substitution, θ.apply l.atom = θ.apply m.atom →
        ∃ f, c.factor i j = some f ∧ ∃ τ : Substitution,
          f.literals.map (·.instantiate τ) =
            (c.clause.literals.eraseIdx j).map (·.instantiate θ) := by
  constructor
  · intro c d i j l m fresh hl hm hsign hpredicate hfresh θ₁ θ₂ hatom
    obtain ⟨r, δ, hr, hδ⟩ := Entry.exists_resolvent_of_isPartner hl hm
      (Literal.isPartner_iff.2 ⟨hsign, hpredicate⟩) hatom hfresh
    obtain ⟨τ, hτ⟩ := r.exists_map_instantiate_eq δ
    refine ⟨r, hr, τ, ?_⟩
    rw [hτ, hδ, List.map_append, Clause.map_instantiate_eraseIdx, Clause.map_instantiate_eraseIdx]
  · intro c i j l m hl hm hij hsign hpredicate θ hatom
    obtain ⟨f, hf, hθ⟩ := Entry.exists_factor_of_predicate_eq hl hm hij hsign hpredicate hatom
    refine ⟨f, hf, θ, ?_⟩
    rw [Clause.map_instantiate_eraseIdx, ← hθ, Clause.map_instantiate]
    rfl

/-- The clauses share the variable `Y`, which stands for `b` in the instance of the one and for
`f(a)` in that of the other. -/
theorem inference_lifts_sharedVariable :
    (∃ r, ((choiceOf "X").resolve 0 restriction 0 .initial).1 = some r ∧ ∃ τ : Substitution,
      r.literals.map (·.instantiate τ) =
        [.pos (.app "q" [.app "f" [.const "a"]]), .pos (.app "r" [.app "f" [.const "a"]])]) ∧
    ∃ f, twoOffers.factor 0 1 = some f ∧ ∃ τ : Substitution, f.literals.map (·.instantiate τ) =
      [.pos (.app "p" [.app "f" [.const "a"]]), .pos (.app "q" [.app "f" [.const "a"]])] := by
  have hnames : FreshVars.initial.upcoming restriction.clause.vars.length = ["V_1"] := by cbv
  have hvars : (choiceOf "X").clause.vars = ["X", "Y"] := by cbv
  constructor
  · exact inference_lifts.1 _ _ 0 0 _ _ .initial rfl rfl (by decide) (by decide)
      (by rw [hnames, hvars]; decide) (.ofList [("X", .app "f" [.const "a"]), ("Y", .const "b")])
      (.ofList [("Y", .app "f" [.const "a"])]) (by decide)
  · exact inference_lifts.2 _ 0 1 _ _ rfl rfl (by decide) (by decide) (by decide)
      (.ofList [("X", .app "f" [.const "a"]), ("Y", .const "a")]) (by decide)

end Refutation
