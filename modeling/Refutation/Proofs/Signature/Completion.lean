import Refutation.Equality
import Refutation.Proofs.Signature.Collection
import Refutation.Search.Start

/-!
# The signature of clauses with the axioms of equality

The axioms of equality are written with the symbols of the clauses they complete, each with its
arity, and with the predicate `=` of two arguments.  So they add nothing to the signature, and a
search starts from the completed clauses as it does from the clauses alone, provided that the
clauses use `=` with two arguments.  Nothing checks this: for the axioms to be added it is enough
that a predicate has the name `=`, and if it has another number of arguments, the first axiom
contradicts the signature.

* `Signature.Lists.declareAll_of_mem` : symbols that are listed are accepted and change nothing.
* `Equality.symbols_axioms` : the symbols of the axioms.
* `equality_axioms_keep_signature` : **the completed clauses have the same signature exactly if `=`
  is not a predicate with other than two arguments.**
* `unary_equality_is_refused` : clauses that have a signature without the axioms and none with them.
-/

namespace Refutation

namespace Signature

variable {S S' : Signature} {o : Occurrence} {os done : List Occurrence}

namespace Lists

/-- A symbol that is listed is accepted with its own arity only, and changes nothing. -/
theorem declare_of_mem (hS : S.Lists done) (hdone : Compatible done) {kind : SymbolKind}
    {name : String} {arity : Nat} (h : ⟨kind, name, arity⟩ ∈ done) (n : Nat) :
    S.declare ⟨kind, name, n⟩ =
      if arity = n then .ok S else .error (.arityMismatch name arity n) := by
  have hclash : ¬S.clashes ⟨kind, name, n⟩ = true := by
    rw [hS.clashes_iff hdone]
    rintro ⟨o', ho', hsymbol, hkind⟩
    obtain rfl : o' = ⟨kind, name, arity⟩ := hdone o' ho' _ h hsymbol
    exact hkind rfl
  have hlookup : (S.symbols kind).lookup name = some arity := (hS.knows_iff hdone).2 h
  rw [declare, if_neg hclash]
  simp only [hlookup]

theorem declareAll_of_mem (hS : S.Lists done) (hdone : Compatible done) (hos : ∀ o ∈ os, o ∈ done) :
    S.declareAll os = (S, none) := by
  induction os with
  | nil => rfl
  | cons o os ih =>
    obtain ⟨ho, hos⟩ := List.forall_mem_cons.1 hos
    rw [declareAll, hS.declare_of_mem hdone ho, if_pos rfl]
    exact ih hos

end Lists

/-- Once occurrences are entered, further ones are entered after them. -/
theorem declareAll_append (h : S.declareAll os = (S', none)) (os' : List Occurrence) :
    S.declareAll (os ++ os') = S'.declareAll os' := by
  induction os generalizing S with
  | nil =>
    obtain rfl : S = S' := (Prod.mk.inj h).1
    rfl
  | cons o os ih =>
    rw [List.cons_append, declareAll]
    rw [declareAll] at h
    cases hdeclare : S.declare o with
    | ok S₁ =>
      rw [hdeclare] at h
      exact ih h
    | error e =>
      rw [hdeclare] at h
      cases (Prod.mk.inj h).2

theorem ofClauses_append_eq_ok {cs ds : List Clause} (h : ofClauses cs = .ok S)
    (hds : S.declareAll (ds.flatMap (·.symbolOccurrences)) = (S', none)) :
    ofClauses (cs ++ ds) = .ok S' := by
  rw [ofClauses_eq_ok_iff, List.flatMap_append, declareAll_append (ofClauses_eq_ok_iff.1 h), hds]

theorem ofClauses_append_eq_error {cs ds : List Clause} {e : Error} (h : ofClauses cs = .ok S)
    (hds : S.declareAll (ds.flatMap (·.symbolOccurrences)) = (S', some e)) :
    ofClauses (cs ++ ds) = .error e := by
  rw [ofClauses, List.flatMap_append, declareAll_append (ofClauses_eq_ok_iff.1 h), hds]

end Signature

/-! ### The symbols of the axioms -/

namespace Equality

/-- The predicate of equations. -/
def binary : Occurrence := ⟨.predicate, equality, 2⟩

/-- The occurrence is that of a symbol of the signature, or of the predicate of equations. -/
def Uses (S : Signature) (o : Occurrence) : Prop :=
  o = binary ∨ (o.symbol, o.arity) ∈ S.symbols o.kind

theorem functionOccurrences_numbered (base : String) (n : Nat) :
    (numbered base n).flatMap (·.functionOccurrences) = [] := by
  simp [numbered, List.flatMap_map, Term.functionOccurrences]

theorem length_numbered (base : String) (n : Nat) :
    (numbered base n).length = n := by simp [numbered]

/-- Between variables an equation of either sign has no other symbol. -/
theorem symbols_disequations (n : Nat) :
    ∀ l ∈ disequations (numbered "X" n) (numbered "Y" n), l.symbolOccurrences = [binary] := by
  intro l hl
  obtain ⟨i, hi, rfl⟩ := List.mem_iff_getElem.1 hl
  simp only [disequations, numbered, List.getElem_zipWith, List.getElem_map]
  rfl

theorem symbols_equivalence : ∀ c ∈ equivalence, ∀ o ∈ c.symbolOccurrences, o = binary := by decide

/-- An axiom of compatibility has no symbols but those of its conclusion and equality. -/
theorem symbols_compatibility {S : Signature} {name : String} {n : Nat} {last : List Literal}
    (hlast : ∀ l ∈ last, ∀ o ∈ l.symbolOccurrences, Uses S o) :
    ∀ o ∈ (axiomNamed name
      (disequations (numbered "X" n) (numbered "Y" n) ++ last)).symbolOccurrences,
      Uses S o := by
  intro o ho
  obtain ⟨l, hl, ho⟩ := List.mem_flatMap.1 ho
  rcases List.mem_append.1 hl with hl | hl
  · rw [symbols_disequations n l hl] at ho
    exact .inl (List.mem_singleton.1 ho)
  · exact hlast l hl o ho

theorem symbols_functionAxiom {S : Signature} {f : String} {n : Nat} (hf : (f, n) ∈ S.functions) :
    ∀ o ∈ (functionAxiom f n).symbolOccurrences, Uses S o := by
  refine symbols_compatibility (List.forall_mem_singleton.2 ?_)
  have hvalue : ∀ base, (Term.app f (numbered base n)).functionOccurrences =
      [⟨.function, f, n⟩] := by
    intro base
    rw [Term.functionOccurrences, Term.functionOccurrencesList_eq_flatMap,
      functionOccurrences_numbered, length_numbered]
  have hsymbols : (Literal.equation (.app f (numbered "X" n))
      (.app f (numbered "Y" n))).symbolOccurrences =
      [binary, ⟨.function, f, n⟩, ⟨.function, f, n⟩] := by
    change binary :: [Term.app f (numbered "X" n), Term.app f (numbered "Y" n)].flatMap _ = _
    simp [hvalue]
  rw [hsymbols]
  rintro o (_ | ⟨_, _ | ⟨_, _ | ⟨_, ⟨⟩⟩⟩⟩)
  · exact .inl rfl
  · exact .inr hf
  · exact .inr hf

theorem symbols_predicateAxiom {S : Signature} {p : String} {n : Nat} (hp : (p, n) ∈ S.predicates) :
    ∀ o ∈ (predicateAxiom p n).symbolOccurrences, Uses S o := by
  have hatom : ∀ negative base,
      ∀ o ∈ (Literal.of negative (.app p (numbered base n))).symbolOccurrences,
      Uses S o := by
    intro negative base o ho
    have hsymbols : (Literal.of negative (.app p (numbered base n))).symbolOccurrences =
        ⟨.predicate, p, (numbered base n).length⟩ ::
          (numbered base n).flatMap (·.functionOccurrences) := rfl
    rw [hsymbols, functionOccurrences_numbered, length_numbered, List.mem_singleton] at ho
    exact .inr (ho ▸ hp)
  exact symbols_compatibility (List.forall_mem_cons.2 ⟨hatom true "X",
    List.forall_mem_singleton.2 (hatom false "Y")⟩)

/-- **The axioms for a signature use its symbols and the equality of two terms.** -/
theorem symbols_axioms {S : Signature} : ∀ c ∈ axioms S, ∀ o ∈ c.symbolOccurrences, Uses S o := by
  simp only [axioms, compatibility, List.forall_mem_append, List.forall_mem_map, List.mem_filter]
  refine ⟨fun c hc o ho => .inl (symbols_equivalence c hc o ho), ?_, ?_⟩
  · rintro ⟨f, n⟩ ⟨hf, -⟩
    exact symbols_functionAxiom hf
  · rintro ⟨p, n⟩ ⟨hp, -⟩
    exact symbols_predicateAxiom hp

theorem exists_symbols_axioms (S : Signature) :
    ∃ os, (axioms S).flatMap (·.symbolOccurrences) = binary :: os := ⟨_, rfl⟩

theorem exists_of_axiomsFor {cs axs : List Clause} (h : axiomsFor cs = .ok axs) :
    ∃ S, Signature.ofClauses cs = .ok S ∧
      axs = if S.isPredicate equality then axioms S else [] := by
  rw [axiomsFor] at h
  cases hS : Signature.ofClauses cs with
  | error e =>
    rw [hS] at h
    cases h
  | ok S =>
    rw [hS] at h
    exact ⟨S, rfl, (Except.ok.inj h).symm⟩

end Equality

open Equality

/-! ### Completed clauses -/

section Completed

variable {cs : List Clause} {S : Signature}

/-- The axioms add nothing to a signature in which `=` has two arguments. -/
theorem ofClauses_append_axioms (hS : Signature.ofClauses cs = .ok S)
    (hequality : S.predicates.lookup equality = some 2) :
    Signature.ofClauses (cs ++ axioms S) = .ok S := by
  have hlists := Signature.lists_ofClauses hS
  have hcompatible := Signature.exists_ofClauses_iff.1 ⟨S, hS⟩
  have hlisted : ∀ o, (o.symbol, o.arity) ∈ S.symbols o.kind →
      o ∈ cs.flatMap (·.symbolOccurrences) := by
    intro o ho
    rwa [hlists o.kind, mem_symbolsOf] at ho
  have hknown : ∀ o ∈ (axioms S).flatMap (·.symbolOccurrences),
      o ∈ cs.flatMap (·.symbolOccurrences) := by
    intro o ho
    obtain ⟨c, hc, ho⟩ := List.mem_flatMap.1 ho
    rcases symbols_axioms c hc o ho with rfl | ho
    · exact (hlists.knows_iff hcompatible).1 hequality
    · exact hlisted o ho
  exact Signature.ofClauses_append_eq_ok hS (hlists.declareAll_of_mem hcompatible hknown)

/-- With another number of arguments of `=` the first axiom is refused. -/
theorem ofClauses_append_axioms_of_ne (hS : Signature.ofClauses cs = .ok S) {n : Nat}
    (hequality : S.predicates.lookup equality = some n) (hn : n ≠ 2) :
    Signature.ofClauses (cs ++ axioms S) = .error (.arityMismatch equality n 2) := by
  have hlists := Signature.lists_ofClauses hS
  have hcompatible := Signature.exists_ofClauses_iff.1 ⟨S, hS⟩
  have hmem : ⟨.predicate, equality, n⟩ ∈ cs.flatMap (·.symbolOccurrences) :=
    (hlists.knows_iff hcompatible).1 hequality
  obtain ⟨os, hos⟩ := exists_symbols_axioms S
  have hdeclare : S.declare binary = .error (.arityMismatch equality n 2) :=
    (hlists.declare_of_mem hcompatible hmem 2).trans (if_neg hn)
  exact Signature.ofClauses_append_eq_error hS (by rw [hos, Signature.declareAll, hdeclare])

end Completed

theorem Search.start_iff_signature (params : Search.Params) (cs : List Clause) :
    ((∃ s, Search.startFull params cs = .ok s) ↔ ∃ S, Signature.ofClauses cs = .ok S) ∧
      ((∃ s, Search.startPlain cs = .ok s) ↔ ∃ S, Signature.ofClauses cs = .ok S) := by
  rw [Search.startFull, Search.startPlain]
  cases Signature.ofClauses cs with
  | error e => simp [Except.map]
  | ok S => simp [Except.map]

/-- **Completion by the axioms of equality keeps the signature exactly if `=` is not a predicate
with other than two arguments.**  Then a search starts from the completed clauses; otherwise none
does. -/
theorem equality_axioms_keep_signature {cs axs : List Clause} (h : axiomsFor cs = .ok axs) :
    ∃ S, Signature.ofClauses cs = .ok S ∧
      ((∀ n, S.predicates.lookup equality = some n → n = 2) →
        Signature.ofClauses (cs ++ axs) = .ok S ∧
        (∀ params, ∃ s, Search.startFull params (cs ++ axs) = .ok s) ∧
        ∃ s, Search.startPlain (cs ++ axs) = .ok s) ∧
      ∀ n, S.predicates.lookup equality = some n → n ≠ 2 →
        Signature.ofClauses (cs ++ axs) = .error (.arityMismatch equality n 2) ∧
        (∀ params, Search.startFull params (cs ++ axs) = .error (.arityMismatch equality n 2)) ∧
        Search.startPlain (cs ++ axs) = .error (.arityMismatch equality n 2) := by
  obtain ⟨S, hS, rfl⟩ := exists_of_axiomsFor h
  refine ⟨S, hS, fun hbinary => ?_, fun n hequality hn => ?_⟩
  · have hcompleted : Signature.ofClauses
        (cs ++ if S.isPredicate equality then axioms S else []) = .ok S := by
      cases hlookup : S.predicates.lookup equality with
      | none => simpa [Signature.isPredicate, hlookup] using hS
      | some n =>
        obtain rfl := hbinary n hlookup
        simpa [Signature.isPredicate, hlookup] using ofClauses_append_axioms hS hlookup
    exact ⟨hcompleted, fun params => ((Search.start_iff_signature params _).1).2 ⟨S, hcompleted⟩,
      ((Search.start_iff_signature {} _).2).2 ⟨S, hcompleted⟩⟩
  · have haxioms : (if S.isPredicate equality then axioms S else []) = axioms S := by
      simp [Signature.isPredicate, hequality]
    have hrefused := ofClauses_append_axioms_of_ne hS hequality hn
    rw [haxioms, Search.startPlain, hrefused]
    exact ⟨rfl, fun params => by rw [Search.startFull, hrefused]; rfl, rfl⟩

/-- A value of a function, and a property of its argument. -/
def valueAndProperty : List Clause :=
  [⟨"value", .axiomatic, [.equation (.app "f" [.const "a"]) (.const "b")], none⟩,
    ⟨"property", .axiomatic, [.pos (.app "p" [.const "a"])], none⟩]

/-- The clauses are completed by five axioms, over the same symbols. -/
theorem equality_axioms_keep_signature_valueAndProperty :
    ∃ axs, axiomsFor valueAndProperty = .ok axs ∧ axs.length = 5 ∧
      Signature.ofClauses (valueAndProperty ++ axs) =
        .ok ⟨[("f", 1), ("a", 0), ("b", 0)], [(equality, 2), ("p", 1)]⟩ ∧
      ∃ s, Search.startFull {} (valueAndProperty ++ axs) = .ok s := by
  have hS : Signature.ofClauses valueAndProperty =
      .ok ⟨[("f", 1), ("a", 0), ("b", 0)], [(equality, 2), ("p", 1)]⟩ := rfl
  have haxioms : axiomsFor valueAndProperty =
      .ok (axioms ⟨[("f", 1), ("a", 0), ("b", 0)], [(equality, 2), ("p", 1)]⟩) := rfl
  obtain ⟨S, hS', hkeep, -⟩ := equality_axioms_keep_signature haxioms
  obtain rfl := Except.ok.inj (hS.symm.trans hS')
  obtain ⟨hcompleted, hfull, -⟩ := hkeep fun n hn => (Option.some.inj hn).symm
  exact ⟨_, haxioms, rfl, hcompleted, hfull {}⟩

/-- A clause that uses `=` with one argument. -/
def unaryEquality : Clause := ⟨"odd", .axiomatic, [.pos (.app equality [.const "a"])], none⟩

/-- The clause has a signature, and a search starts from it.  The axioms are added although they
cannot be about this predicate, and then there is no signature and no search. -/
theorem unary_equality_is_refused :
    ∃ axs, axiomsFor [unaryEquality] = .ok axs ∧
      Signature.ofClauses [unaryEquality] = .ok ⟨[("a", 0)], [(equality, 1)]⟩ ∧
      (∃ s, Search.startFull {} [unaryEquality] = .ok s) ∧
      Signature.ofClauses ([unaryEquality] ++ axs) = .error (.arityMismatch equality 1 2) ∧
      ¬∃ s, Search.startFull {} ([unaryEquality] ++ axs) = .ok s := by
  have hS : Signature.ofClauses [unaryEquality] = .ok ⟨[("a", 0)], [(equality, 1)]⟩ := rfl
  have hrefused := ofClauses_append_axioms_of_ne hS (n := 1) rfl (by decide)
  refine ⟨_, rfl, hS, (Search.start_iff_signature {} _).1.2 ⟨_, hS⟩, hrefused, ?_⟩
  rw [(Search.start_iff_signature {} _).1]
  rintro ⟨S, hcompleted⟩
  cases hcompleted.symm.trans hrefused

end Refutation
