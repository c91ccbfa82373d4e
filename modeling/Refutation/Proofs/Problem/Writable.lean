import Refutation.Equality
import Refutation.Proofs.Problem.RoundTrip
import Refutation.Proofs.Signature
import Refutation.Proofs.Unification

/-!
# What can be printed

Whatever a reader has returned can be printed so that it is read back, and so can the axioms of
equality for it.

* `Clause.IsPrintable` : a clause that makes a step of a proof that can be read back.
* `Term.hereditary_isWritable` : instances of writable terms by writable ones are writable.
* `isPrintable_of_readClauses` : **clauses that were read are printable.**
* `Equality.isPrintable_of_axiomsFor` : so are the axioms of equality for them.
-/

namespace Refutation

/-! ### Words -/

namespace Symbol

theorem ne_empty_of_isLowerWord {name : String} (h : isLowerWord name = true) : name ≠ "" := by
  rintro rfl
  exact absurd h (by decide)

theorem ne_empty_of_isNumber {name : String} (h : isNumber name = true) : name ≠ "" := by
  rintro rfl
  exact absurd h (by decide)

theorem isVariableWord_append_toString {base : String} (h : isVariableWord base = true) (n : Nat) :
    isVariableWord (base ++ toString n) = true := by
  obtain ⟨c, cs, rfl, hc, hcs⟩ := isVariableWord_iff.1 h
  refine isVariableWord_iff.2 ⟨c, cs ++ Nat.toDigits 10 n, ?_, hc, fun d hd => ?_⟩
  · exact String.toList_inj.1 (by simp [Nat.toList_repr])
  · rcases List.mem_append.1 hd with hd | hd
    · exact hcs d hd
    · have hdigit := Nat.isDigit_of_mem_toDigits (by decide) (by decide) hd
      simp [isWordChar, Char.isAlphanum, hdigit]

end Symbol

theorem FreshVars.isVariableWord_varName (n : Nat) : Symbol.isVariableWord (varName n) = true :=
  Symbol.isVariableWord_append_toString (by decide) n

theorem Token.ne_empty_of_isLegal {t : Token} (ht : t.IsLegal) {name : String}
    (h : t.name? = some name) :
    name ≠ "" := by
  cases t with
  | lower word => exact Option.some.inj h ▸ Symbol.ne_empty_of_isLowerWord ht
  | number digits => exact Option.some.inj h ▸ Symbol.ne_empty_of_isNumber ht
  | quoted word => exact Option.some.inj h ▸ ht
  | _ => cases h

/-! ### Writable terms -/

namespace Term

theorem isWritable_var {x : String} (hx : Symbol.isVariableWord x = true) :
    (Term.var x).IsWritable where
  symbols := by simp [functionOccurrences]
  vars := by simpa [occurrences] using hx

theorem isWritable_app {f : String} {ts : List Term} (hf : f ≠ "") (hts : ∀ t ∈ ts, t.IsWritable) :
    (Term.app f ts).IsWritable where
  symbols o ho := by
    rw [functionOccurrences, functionOccurrencesList_eq_flatMap] at ho
    rcases List.mem_cons.1 ho with rfl | ho
    · exact hf
    · obtain ⟨t, ht, ho⟩ := List.mem_flatMap.1 ho
      exact (hts t ht).symbols o ho
  vars x hx := by
    obtain ⟨t, ht, hx⟩ := mem_occurrences_app.1 hx
    exact (hts t ht).vars x hx

theorem IsWritable.symbol_ne {f : String} {ts : List Term} (h : (Term.app f ts).IsWritable) :
    f ≠ "" :=
  h.symbols ⟨.function, f, ts.length⟩ (by simp [functionOccurrences])

theorem hereditary_isWritable : Hereditary IsWritable where
  arg h _ ht := h.arg ht
  subst {t θ} h hθ := by
    induction t with
    | var x => exact hθ x (by simp [occurrences])
    | app f ts ih =>
      rw [Term.subst, substList_eq_map]
      refine isWritable_app h.symbol_ne (List.forall_mem_map.2 fun t ht => ?_)
      exact ih t ht (h.arg ht) fun x hx => hθ x (mem_occurrences_app.2 ⟨t, ht, hx⟩)

end Term

/-! ### Printable clauses -/

/-- A literal that can be printed so that it is read back, whether inferences may use it or not. -/
structure Literal.IsWritable (l : Literal) : Prop where
  compound : l.atom.isVar = false
  atom : l.atom.IsWritable
  tag : l.tag = l.toSignedAtom.tag

theorem Literal.isWritable_of {negative : Bool} {atom : Term} (hcompound : atom.isVar = false)
    (hatom : atom.IsWritable) : (Literal.of negative atom).IsWritable :=
  ⟨hcompound, hatom, rfl⟩

theorem Literal.isWritable_equation {l r : Term} (hl : l.IsWritable) (hr : r.IsWritable)
    (negative : Bool) : (Literal.of negative (.app equality [l, r])).IsWritable :=
  isWritable_of rfl (Term.isWritable_app (by decide) (by simpa using ⟨hl, hr⟩))

/-- A clause that makes a step of a proof that can be read back. -/
structure Clause.IsPrintable (c : Clause) : Prop where
  name : c.name ≠ ""
  literals : ∀ l ∈ c.literals, l.IsWritable
  derivation : ∀ d ∈ c.derivation, d.IsWritable

/-- The clause whose literals inferences may all use. -/
def Clause.released (c : Clause) : Clause :=
  { c with literals := c.literals.map fun l => { l with eligible := true } }

theorem Clause.symbolOccurrences_released (c : Clause) :
    c.released.symbolOccurrences = c.symbolOccurrences :=
  List.flatMap_map ..

theorem Clause.IsPrintable.isWritable_released {c : Clause} (hc : c.IsPrintable) :
    c.released.IsWritable where
  name := hc.name
  symbols o ho := by
    obtain ⟨l, hl, ho⟩ := List.mem_flatMap.1 (c.symbolOccurrences_released ▸ ho)
    obtain ⟨hcompound, hatom, -⟩ := hc.literals l hl
    cases hterm : l.atom with
    | var x => simp [hterm, Term.isVar] at hcompound
    | app f ts =>
      rw [hterm] at hatom
      simp only [Literal.symbolOccurrences, Literal.predicate, hterm, Term.symbol?,
        Option.getD_some, Term.args, List.mem_cons] at ho
      rcases ho with rfl | ho
      · exact hatom.symbol_ne
      · obtain ⟨t, ht, ho⟩ := List.mem_flatMap.1 ho
        exact (hatom.arg ht).symbols o ho
  vars x hx := by
    simp only [Clause.occurrences, released, List.flatMap_map, List.mem_flatMap] at hx
    obtain ⟨l, hl, hx⟩ := hx
    exact (hc.literals l hl).atom.vars x hx
  atoms := List.forall_mem_map.2 fun l hl => (hc.literals l hl).compound
  literals := List.forall_mem_map.2 fun l hl => by
    simp only [(hc.literals l hl).tag]
    rfl

/-! ### What was read is writable -/

theorem Token.Written.isLegal {ts : List Token} {cs : List Char} (h : Written ts cs) :
    ∀ t ∈ ts, t.IsLegal := by
  induction h with
  | done => exact List.forall_mem_nil _
  | token _ hlegal _ _ ih => exact List.forall_mem_cons.2 ⟨hlegal, ih⟩

theorem SeparatedBy.forall_mem {α : Type} {sep : Token} {R : List Token → α → Prop} {p : α → Prop}
    (hR : ∀ ts a, R ts a → (∀ t ∈ ts, t.IsLegal) → p a) {ts : List Token} {as : List α}
    (h : SeparatedBy sep R ts as) (hts : ∀ t ∈ ts, t.IsLegal) : ∀ a ∈ as, p a := by
  induction h with
  | single h => exact List.forall_mem_singleton.2 (hR _ _ h hts)
  | cons h _ ih =>
    obtain ⟨hfirst, hrest⟩ := List.forall_mem_append.1 hts
    exact List.forall_mem_cons.2 ⟨hR _ _ h hfirst, ih (List.forall_mem_cons.1 hrest).2⟩

theorem IsTerm.isWritable {ts : List Token} {t : Term} (h : IsTerm ts t)
    (hts : ∀ u ∈ ts, u.IsLegal) :
    t.IsWritable := by
  refine h.induct (P := fun ts t => (∀ u ∈ ts, u.IsLegal) → t.IsWritable) ?_ ?_ ?_ hts
  · exact fun x hts => Term.isWritable_var (hts _ List.mem_cons_self)
  · intro u f hf hts
    exact Term.isWritable_app (Token.ne_empty_of_isLegal (hts u List.mem_cons_self) hf)
      (List.forall_mem_nil _)
  · intro u f us args hf hargs hts
    obtain ⟨hu, hus⟩ := List.forall_mem_cons.1 hts
    have hus' := (List.forall_mem_append.1 (List.forall_mem_cons.1 hus).2).1
    exact Term.isWritable_app (Token.ne_empty_of_isLegal hu hf)
      (hargs.forall_mem (fun _ _ h => h) hus')

theorem IsAtom.isWritable {ts : List Token} {a : Term × Bool} (h : IsAtom ts a)
    (hts : ∀ u ∈ ts, u.IsLegal) (negative : Bool) : (Literal.of negative a.1).IsWritable := by
  cases h with
  | term h ht => exact Literal.isWritable_of ht (h.isWritable hts)
  | equation hl hr | disequation hl hr =>
    obtain ⟨hleft, hright⟩ := List.forall_mem_append.1 hts
    exact Literal.isWritable_equation (hl.isWritable hleft)
      (hr.isWritable (List.forall_mem_cons.1 hright).2) negative

theorem IsLiteral.isWritable {ts : List Token} {ls : List Literal} (h : IsLiteral ts ls)
    (hts : ∀ u ∈ ts, u.IsLegal) : ∀ l ∈ ls, l.IsWritable := by
  cases h with
  | absurdity => exact List.forall_mem_nil _
  | plain h => exact List.forall_mem_singleton.2 (h.isWritable hts _)
  | negated h => exact List.forall_mem_singleton.2 (h.isWritable (List.forall_mem_cons.1 hts).2 _)

theorem IsDisjunct.isWritable {ts : List Token} {ls : List Literal} (h : IsDisjunct IsLiteral ts ls)
    (hts : ∀ u ∈ ts, u.IsLegal) : ∀ l ∈ ls, l.IsWritable := by
  refine h.induct (P := fun ts ls => (∀ u ∈ ts, u.IsLegal) → ∀ l ∈ ls, l.IsWritable)
    (fun h => h.isWritable) (fun h hts l hl => ?_) hts
  obtain ⟨part, hpart, hl⟩ := List.mem_flatten.1 hl
  have hts' := (List.forall_mem_append.1 (List.forall_mem_cons.1 hts).2).1
  exact h.forall_mem (fun _ _ h => h) hts' part hpart l hl

theorem IsStatement.isPrintable {ts : List Token} {c : Clause} (h : IsStatement ts c)
    (hts : ∀ u ∈ ts, u.IsLegal) : c.IsPrintable := by
  obtain ⟨name, role, literals, derivation⟩ := c
  obtain ⟨hstates, rfl⟩ := h
  cases hstates with
  | @cnf n _ word _ body note parts hname _ hbody _ =>
    have hbodyLegal : ∀ u ∈ body, u.IsLegal := fun u hu => hts u (by simp [hu])
    refine ⟨Token.ne_empty_of_isLegal (hts n (by simp)) hname, fun l hl => ?_, nofun⟩
    obtain ⟨part, hpart, hl⟩ := List.mem_flatten.1 hl
    exact hbody.forall_mem (fun _ _ h => h.isWritable) hbodyLegal part hpart l hl

/-- **Clauses that were read are printable**, and have no parents. -/
theorem isPrintable_of_readClauses {text : String} {cs : List Clause}
    (h : readClauses text = .ok cs) :
    ∀ c ∈ cs, c.IsPrintable ∧ c.parents = [] := by
  obtain ⟨ts, hwritten, groups, rfl, hgroups⟩ := readClauses_eq_ok_iff.1 h
  have hlegal := hwritten.isLegal
  clear hwritten h
  induction hgroups with
  | nil => exact List.forall_mem_nil _
  | cons hc _ ih =>
    rw [List.flatten_cons] at hlegal
    obtain ⟨hfirst, hrest⟩ := List.forall_mem_append.1 hlegal
    refine List.forall_mem_cons.2 ⟨⟨hc.isPrintable hfirst, ?_⟩, ih hrest⟩
    simp [Clause.parents, show _ = none from hc.2]

theorem readClauses_of_readProblem {text : String} {P : Problem} (h : readProblem text = .ok P) :
    readClauses text = .ok P.clauses := by
  unfold readProblem at h
  cases hstatus : readStatus text with
  | error e => simp [hstatus, bind, Except.bind] at h
  | ok expected =>
    cases hclauses : readClauses text with
    | error e => simp [hstatus, hclauses, bind, Except.bind] at h
    | ok cs =>
      simp only [hstatus, hclauses, bind, Except.bind, pure, Except.pure, Except.ok.injEq] at h
      rw [← h]

/-! ### Axioms of equality -/

namespace Equality

theorem isPrintable_axiomNamed {name : String} {literals : List Literal} (hname : name ≠ "")
    (hliterals : ∀ l ∈ literals, l.IsWritable) : (axiomNamed name literals).IsPrintable where
  name := hname
  literals := hliterals
  derivation d hd := by
    obtain rfl := Option.some.inj hd
    exact ⟨by decide, rfl, List.forall_mem_nil _⟩

theorem isWritable_of_mem_numbered {base : String} (hbase : Symbol.isVariableWord base = true)
    {n : Nat} :
    ∀ t ∈ numbered base n, t.IsWritable := by
  intro t ht
  obtain ⟨i, -, rfl⟩ := List.mem_map.1 ht
  exact Term.isWritable_var (Symbol.isVariableWord_append_toString hbase _)

theorem isWritable_of_mem_disequations {xs ys : List Term} (hxs : ∀ t ∈ xs, t.IsWritable)
    (hys : ∀ t ∈ ys, t.IsWritable) : ∀ l ∈ disequations xs ys, l.IsWritable := by
  intro l hl
  rw [disequations, ← List.map_uncurry_zip_eq_zipWith] at hl
  obtain ⟨⟨x, y⟩, hxy, rfl⟩ := List.mem_map.1 hl
  obtain ⟨hx, hy⟩ := List.of_mem_zip hxy
  exact Literal.isWritable_equation (hxs x hx) (hys y hy) true

theorem isPrintable_of_mem_equivalence : ∀ c ∈ equivalence, c.IsPrintable := by
  have hx : (Term.var "X").IsWritable := Term.isWritable_var (by decide)
  have hy : (Term.var "Y").IsWritable := Term.isWritable_var (by decide)
  have hz : (Term.var "Z").IsWritable := Term.isWritable_var (by decide)
  have hxy := Literal.isWritable_equation hx hy
  refine List.forall_mem_cons.2 ⟨?_, List.forall_mem_cons.2 ⟨?_, List.forall_mem_singleton.2 ?_⟩⟩
  · exact isPrintable_axiomNamed (by decide)
      (List.forall_mem_singleton.2 (Literal.isWritable_equation hx hx _))
  · exact isPrintable_axiomNamed (by decide) (List.forall_mem_cons.2
      ⟨hxy _, List.forall_mem_singleton.2 (Literal.isWritable_equation hy hx _)⟩)
  · exact isPrintable_axiomNamed (by decide) (List.forall_mem_cons.2
      ⟨hxy _, List.forall_mem_cons.2 ⟨Literal.isWritable_equation hy hz _,
        List.forall_mem_singleton.2 (Literal.isWritable_equation hx hz _)⟩⟩)

section

variable {symbol : String} (hsymbol : symbol ≠ "") (n : Nat)

include hsymbol

theorem isWritable_app_numbered {base : String} (hbase : Symbol.isVariableWord base = true) :
    (Term.app symbol (numbered base n)).IsWritable :=
  Term.isWritable_app hsymbol (isWritable_of_mem_numbered hbase)

theorem isPrintable_functionAxiom : (functionAxiom symbol n).IsPrintable := by
  have hxs : ∀ t ∈ numbered "X" n, t.IsWritable := isWritable_of_mem_numbered (by decide)
  have hys : ∀ t ∈ numbered "Y" n, t.IsWritable := isWritable_of_mem_numbered (by decide)
  refine isPrintable_axiomNamed (by simp) (List.forall_mem_append.2
    ⟨isWritable_of_mem_disequations hxs hys, List.forall_mem_singleton.2 ?_⟩)
  exact Literal.isWritable_equation (isWritable_app_numbered hsymbol n (by decide))
    (isWritable_app_numbered hsymbol n (by decide)) false

theorem isPrintable_predicateAxiom : (predicateAxiom symbol n).IsPrintable := by
  have hxs : ∀ t ∈ numbered "X" n, t.IsWritable := isWritable_of_mem_numbered (by decide)
  have hys : ∀ t ∈ numbered "Y" n, t.IsWritable := isWritable_of_mem_numbered (by decide)
  refine isPrintable_axiomNamed (by simp) (List.forall_mem_append.2
    ⟨isWritable_of_mem_disequations hxs hys, List.forall_mem_cons.2
      ⟨?_, List.forall_mem_singleton.2 ?_⟩⟩)
  · exact Literal.isWritable_of rfl (isWritable_app_numbered hsymbol n (by decide))
  · exact Literal.isWritable_of rfl (isWritable_app_numbered hsymbol n (by decide))

end

/-- **The axioms of equality for printable clauses are printable**, and have no parents. -/
theorem isPrintable_of_axiomsFor {cs axs : List Clause} (hcs : ∀ c ∈ cs, c.IsPrintable)
    (h : axiomsFor cs = .ok axs) : ∀ c ∈ axs, c.IsPrintable ∧ c.parents = [] := by
  unfold axiomsFor at h
  cases hS : Signature.ofClauses cs with
  | error e => simp [hS, Except.map] at h
  | ok S =>
    have hsymbols : ∀ kind, ∀ s ∈ S.symbols kind, s.1 ≠ "" := by
      intro kind s hs
      obtain ⟨c, hc, o, ho, rfl⟩ := Signature.exists_occurrence_of_ofClauses hS hs
      exact (hcs c hc).isWritable_released.symbols o (c.symbolOccurrences_released ▸ ho)
    simp only [hS, Except.map, Except.ok.injEq] at h
    split at h
    · subst h
      refine List.forall_mem_append.2 ⟨fun c hc => ⟨isPrintable_of_mem_equivalence c hc, ?_⟩,
        List.forall_mem_append.2 ⟨List.forall_mem_map.2 fun s hs => ⟨?_, rfl⟩,
          List.forall_mem_map.2 fun s hs => ⟨?_, rfl⟩⟩⟩
      · exact (by decide : ∀ c ∈ equivalence, c.parents = []) c hc
      · exact isPrintable_functionAxiom (hsymbols .function s (List.mem_of_mem_filter hs)) s.2
      · exact isPrintable_predicateAxiom (hsymbols .predicate s (List.mem_of_mem_filter hs)) s.2
    · subst h
      exact List.forall_mem_nil _

end Equality

end Refutation
