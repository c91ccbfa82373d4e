import Refutation.Proofs.Problem.Language
import Refutation.Signature

/-!
# Printed clauses are read back

The tokens of a printed clause follow the rules of the notation, whatever its names are: plain names
are words or numbers, all others are quoted.  Where the names are not empty and the variables are
words of the right shape, the text spells these tokens, so the reader returns the same clauses.

* `isStatement_tokens` : the tokens of a clause are a statement of it.
* `isLegal_of_mem_tokens` : its tokens can stand in a text.
* `written_renderAll` : the text of a list of clauses spells their tokens.
-/

namespace Refutation

/-! ### Printed tokens follow the rules -/

theorem SeparatedBy.of_separated {α : Type} {sep : Token} {R : List Token → α → Prop}
    {f : α → List Token} {as : List α} (hne : as ≠ []) (h : ∀ a ∈ as, R (f a) a) :
    SeparatedBy sep R (Token.separated sep (as.map f)) as := by
  induction as with
  | nil => exact absurd rfl hne
  | cons a as ih =>
    cases as with
    | nil => exact .single (h a List.mem_cons_self)
    | cons b as =>
      exact .cons (h a List.mem_cons_self)
        (ih (by simp) fun c hc => h c (List.mem_cons_of_mem _ hc))

theorem Term.tokens_app {f : String} {ts : List Term} (hne : ts ≠ []) : (Term.app f ts).tokens =
    .ofName f :: .openParen :: (Token.separated .comma (ts.map tokens) ++ [.closeParen]) := by
  cases ts with
  | nil => exact absurd rfl hne
  | cons t ts => simp [tokens]

theorem Term.isTerm_tokens (t : Term) : IsTerm t.tokens t := by
  induction t with
  | var x => exact .var x
  | app f ts ih =>
    by_cases hne : ts = []
    · subst hne
      exact .const (Token.name?_ofName f)
    · rw [tokens_app hne]
      exact .app (Token.name?_ofName f) (.of_separated hne ih)

theorem SignedAtom.exists_args {a : SignedAtom} (h : a.isEquation = true) :
    ∃ s t, a.atom = .app equality [s, t] := by
  obtain ⟨negative, atom⟩ := a
  obtain ⟨hsymbol, harity⟩ : atom.symbol? = some equality ∧ atom.arity = 2 := by
    simpa [isEquation] using h
  cases atom with
  | var x => simp [Term.symbol?] at hsymbol
  | app f ts =>
    obtain rfl : f = equality := by simpa [Term.symbol?] using hsymbol
    obtain ⟨s, t, rfl⟩ := List.length_eq_two.1 harity
    exact ⟨s, t, rfl⟩

theorem SignedAtom.isLiteral_tokens {a : SignedAtom} (ha : a.atom.isVar = false) :
    IsLiteral a.toLiteral.tokens [a.toLiteral] := by
  by_cases heq : a.isEquation = true
  · obtain ⟨s, t, hargs⟩ := a.exists_args heq
    obtain ⟨negative, _⟩ := a
    obtain rfl := hargs
    cases negative with
    | false => exact .plain (.equation s.isTerm_tokens t.isTerm_tokens)
    | true => exact .plain (.disequation s.isTerm_tokens t.isTerm_tokens)
  · have htag : a.tag = none := by simp [tag, heq]
    obtain ⟨negative, atom⟩ := a
    have hatom : IsAtom atom.tokens (atom, false) := .term atom.isTerm_tokens ha
    cases negative with
    | false => simpa [Literal.tokens, toLiteral, htag, Literal.of] using IsLiteral.plain hatom
    | true => simpa [Literal.tokens, toLiteral, htag, Literal.of] using IsLiteral.negated hatom

/-- What can be printed so that it is read back. -/
structure Clause.IsWritable (c : Clause) : Prop where
  name : c.name ≠ ""
  symbols : ∀ o ∈ c.symbolOccurrences, o.symbol ≠ ""
  vars : ∀ x ∈ occurrences c.literals, Symbol.isVariableWord x = true
  atoms : ∀ l ∈ c.literals, l.atom.isVar = false
  literals : ∀ l ∈ c.literals, l = Literal.of l.negative l.atom

/-- An annotation that can be printed so that it is read back. -/
structure Derivation.IsWritable (d : Derivation) : Prop where
  rule : Symbol.isLowerWord d.rule = true
  status : d.status = none
  parents : ∀ p ∈ d.parents, p.name ≠ ""

theorem Clause.IsWritable.isDisjunction_literalTokens {c : Clause} (hc : c.IsWritable) :
    ∃ parts, SeparatedBy .bar (IsDisjunct IsLiteral) (literalTokens c.literals) parts ∧
      parts.flatten = c.literals := by
  rw [literalTokens]
  split
  · next h => exact ⟨[[]], .single (.literal .absurdity), by simpa using h⟩
  · next h =>
    have hseparated : SeparatedBy .bar (fun ts l => IsDisjunct IsLiteral ts [l])
        (Token.separated .bar (c.literals.map (·.tokens))) c.literals := by
      refine .of_separated (by simpa using h) fun l hl => .literal ?_
      have hliteral := SignedAtom.isLiteral_tokens (hc.atoms l hl)
      rwa [← Literal.of, ← hc.literals l hl] at hliteral
    refine ⟨c.literals.map fun l => [l], hseparated.map (f := fun l => [l]) fun _ _ h => h, ?_⟩
    rw [← List.flatMap_def, List.flatMap_singleton']

theorem Derivation.isNoteHead_tokens (d : Derivation) : IsNoteHead d.tokens () := by
  rw [tokens]
  split
  · exact .app rfl (.single (.single (.word rfl)))
  · next h =>
    have hstatus : IsNoteHead [.openBracket, .lower "status", .openParen,
        .lower (d.status.getD "thm"), .closeParen, .closeBracket] () :=
      .list (.single (.single (.app rfl (.single (.single (.word rfl))))))
    have hparent : ∀ p ∈ d.parents, IsNoteHead [Token.ofName p.name] () := fun p _ => .word (by
      rw [Token.ofName]
      split
      · rfl
      · split <;> rfl)
    have hparents : SeparatedBy .comma
        (fun ts (_ : Parent) => SeparatedBy .colon IsNoteHead ts [()])
        (Token.separated .comma (d.parents.map fun p => [.ofName p.name])) d.parents :=
      .of_separated (by simpa using h) fun p hp => .single (hparent p hp)
    have hlist := IsNoteHead.list (hparents.map (f := fun _ => [()]) fun _ _ h => h)
    have hnotes : SeparatedBy .comma (SeparatedBy .colon IsNoteHead) ([.lower d.rule] ++ .comma :: (
        [.openBracket, .lower "status", .openParen, .lower (d.status.getD "thm"), .closeParen,
          .closeBracket] ++ .comma :: .openBracket ::
        (Token.separated .comma (d.parents.map fun p => [.ofName p.name]) ++ [.closeBracket])))
        [[()], [()], [()]] :=
      .cons (.single (.word rfl)) (.cons (.single hstatus) (.single (.single hlist)))
    have happ : IsNoteHead (.lower "inference" :: _) () := .app rfl hnotes
    simpa using happ

/-- The tokens of the annotation of a clause, if it is printed. -/
def Clause.noteTokens (c : Clause) (annotated : Bool) : List Token :=
  match annotated, c.derivation with
  | true, some d => .comma :: d.tokens
  | _, _ => []

theorem Clause.tokens_eq (c : Clause) (annotated : Bool) : c.tokens annotated =
    [.lower "cnf", .openParen, .ofName (if c.name.isEmpty then "unnamed" else c.name), .comma,
      .lower c.role.name, .comma] ++ literalTokens c.literals ++ c.noteTokens annotated ++
      [.closeParen, .dot] := rfl

theorem Clause.isAnnotation_noteTokens (c : Clause) (annotated : Bool) :
    IsAnnotation (c.noteTokens annotated) := by
  unfold noteTokens
  split
  · next d _ => exact .notes (.single (.single d.isNoteHead_tokens))
  · exact .absent

/-- **The tokens of a clause are a statement of it.** -/
theorem Clause.IsWritable.isStatement_tokens {c : Clause} (hc : c.IsWritable) (annotated : Bool) :
    IsStatement (c.tokens annotated) { c with derivation := none } := by
  obtain ⟨parts, hparts, hflatten⟩ := hc.isDisjunction_literalTokens
  have hname : (if c.name.isEmpty then "unnamed" else c.name) = c.name := by simp [hc.name]
  have hstates := States.cnf (Token.name?_ofName c.name) (Role.ofName?_name c.role) hparts
    (c.isAnnotation_noteTokens annotated)
  rw [hflatten] at hstates
  refine ⟨?_, rfl⟩
  rwa [tokens_eq, hname]

/-! ### Printed tokens can stand in a text -/

theorem Token.isLegal_ofName {name : String} (h : name ≠ "") : (ofName name).IsLegal := by
  rw [ofName]
  split
  · next hlower => exact hlower
  · split
    · next hnumber => exact hnumber
    · exact h

theorem Token.forall_mem_separated {P : Token → Prop} {sep : Token} (hsep : P sep)
    {groups : List (List Token)} (h : ∀ group ∈ groups, ∀ t ∈ group, P t) :
    ∀ t ∈ separated sep groups, P t := by
  fun_induction separated sep groups with
  | case1 => simp
  | case2 group => exact h group (by simp)
  | case3 group groups _ ih =>
    have hgroups := ih fun g hg => h g (List.mem_cons_of_mem _ hg)
    exact List.forall_mem_append.2 ⟨h group (by simp), List.forall_mem_cons.2 ⟨hsep, hgroups⟩⟩

/-- The names in a term can be written. -/
structure Term.IsWritable (t : Term) : Prop where
  symbols : ∀ o ∈ t.functionOccurrences, o.symbol ≠ ""
  vars : ∀ x ∈ t.occurrences, Symbol.isVariableWord x = true

theorem Term.IsWritable.arg {f : String} {ts : List Term} (h : (Term.app f ts).IsWritable)
    {t : Term} (ht : t ∈ ts) : t.IsWritable := by
  constructor
  · intro o ho
    refine h.symbols o ?_
    rw [functionOccurrences, functionOccurrencesList_eq_flatMap]
    exact List.mem_cons_of_mem _ (List.mem_flatMap.2 ⟨t, ht, ho⟩)
  · intro x hx
    refine h.vars x ?_
    rw [occurrences, occurrencesList_eq_flatMap]
    exact List.mem_flatMap.2 ⟨t, ht, hx⟩

/-- What holds of punctuation, of the names and of the variables holds of all tokens of a term. -/
theorem Term.forall_mem_tokens {P : Token → Prop} (hP : ∀ t, t.isPunctuation = true → P t)
    {t : Term} (hnames : ∀ o ∈ t.functionOccurrences, P (.ofName o.symbol))
    (hvars : ∀ x ∈ t.occurrences, P (.upper x)) : ∀ u ∈ t.tokens, P u := by
  induction t with
  | var x => simpa [tokens] using hvars x (by simp [occurrences])
  | app f ts ih =>
    simp only [functionOccurrences, functionOccurrencesList_eq_flatMap, occurrences,
      occurrencesList_eq_flatMap, List.forall_mem_cons, List.mem_flatMap] at hnames hvars
    by_cases hne : ts = []
    · subst hne
      simpa [tokens] using hnames.1
    · have hargs : ∀ u ∈ Token.separated .comma (ts.map tokens), P u := by
        refine Token.forall_mem_separated (hP _ rfl) (List.forall_mem_map.2 fun t ht => ?_)
        exact ih t ht (fun o ho => hnames.2 o ⟨t, ht, ho⟩) fun x hx => hvars x ⟨t, ht, hx⟩
      rw [tokens_app hne]
      simpa [or_imp, forall_and] using ⟨hnames.1, hP _ rfl, hargs, hP _ rfl⟩

theorem Literal.forall_mem_tokens {P : Token → Prop} (hP : ∀ t, t.isPunctuation = true → P t)
    {l : Literal} (hnames : ∀ o ∈ l.atom.functionOccurrences, P (.ofName o.symbol))
    (hvars : ∀ x ∈ l.atom.occurrences, P (.upper x)) : ∀ t ∈ l.tokens, P t := by
  have hargs : ∀ t ∈ l.atom.args, ∀ u ∈ t.tokens, P u := by
    intro t ht
    cases ha : l.atom with
    | var x => simp [ha, Term.args] at ht
    | app f ts =>
      simp only [ha, Term.args, Term.functionOccurrences, Term.functionOccurrencesList_eq_flatMap,
        Term.occurrences, Term.occurrencesList_eq_flatMap, List.forall_mem_cons,
        List.mem_flatMap] at ht hnames hvars
      exact Term.forall_mem_tokens hP (fun o ho => hnames.2 o ⟨t, ht, ho⟩) fun x hx =>
        hvars x ⟨t, ht, hx⟩
  rw [tokens]
  split
  · next hst =>
    simp only [hst, List.forall_mem_cons] at hargs
    simpa [or_imp, forall_and] using ⟨hargs.1, hP _ rfl, hargs.2.1⟩
  · next hst =>
    simp only [hst, List.forall_mem_cons] at hargs
    simpa [or_imp, forall_and] using ⟨hargs.1, hP _ rfl, hargs.2.1⟩
  · have hatom := Term.forall_mem_tokens hP hnames hvars
    split
    · exact List.forall_mem_cons.2 ⟨hP _ rfl, hatom⟩
    · exact hatom

theorem Clause.IsWritable.atom {c : Clause} (hc : c.IsWritable) {l : Literal}
    (hl : l ∈ c.literals) :
    l.atom.IsWritable := by
  have hvar := hc.atoms l hl
  refine ⟨fun o ho => ?_, fun x hx => hc.vars x (List.mem_flatMap.2 ⟨l, hl, hx⟩)⟩
  have hsymbols : ∀ o ∈ l.symbolOccurrences, o.symbol ≠ "" :=
    fun o ho => hc.symbols o (List.mem_flatMap.2 ⟨l, hl, ho⟩)
  cases hatom : l.atom with
  | var x => simp [hatom, Term.isVar] at hvar
  | app f ts =>
    -- the predicate of the literal is the outermost symbol of its atom
    simp only [Literal.symbolOccurrences, Literal.predicate, hatom, Term.symbol?, Option.getD_some,
      Term.args, List.mem_cons, forall_eq_or_imp] at hsymbols
    simp only [hatom, Term.functionOccurrences, Term.functionOccurrencesList_eq_flatMap,
      List.mem_cons] at ho
    rcases ho with rfl | ho
    · exact hsymbols.1
    · exact hsymbols.2 o ho

theorem Literal.isLegal_of_mem_tokens {l : Literal} (h : l.atom.IsWritable) :
    ∀ t ∈ l.tokens, t.IsLegal :=
  forall_mem_tokens (fun _ => Token.isLegal_of_isPunctuation)
    (fun o ho => Token.isLegal_ofName (h.symbols o ho)) h.vars

theorem Derivation.IsWritable.isLegal_of_mem_tokens {d : Derivation} (h : d.IsWritable) :
    ∀ t ∈ d.tokens, t.IsLegal := by
  have hparents : ∀ t ∈ Token.separated .comma (d.parents.map fun p => [.ofName p.name]),
      t.IsLegal :=
    Token.forall_mem_separated trivial
      (List.forall_mem_map.2 fun p hp => by simpa using Token.isLegal_ofName (h.parents p hp))
  have hwords : ∀ w ∈ ["introduced", "inference", "status", "thm"],
      Symbol.isLowerWord w = true := by
    decide
  rw [tokens]
  split
  · simp [Token.IsLegal, h.rule, hwords]
  · simpa [or_imp, forall_and, Token.IsLegal, h.rule, h.status, hwords] using hparents

theorem Role.isLowerWord_name (r : Role) : Symbol.isLowerWord r.name = true := by
  cases r <;> decide

theorem Clause.IsWritable.isLegal_of_mem_literalTokens {c : Clause} (hc : c.IsWritable) :
    ∀ t ∈ literalTokens c.literals, t.IsLegal := by
  rw [literalTokens]
  split
  · have hfalse : Symbol.isLowerWord "false" = true := by decide
    simpa [Token.IsLegal] using hfalse
  · exact Token.forall_mem_separated trivial
      (List.forall_mem_map.2 fun l hl => Literal.isLegal_of_mem_tokens (hc.atom hl))

theorem Clause.IsWritable.isLegal_of_mem_tokens {c : Clause} (hc : c.IsWritable) {annotated : Bool}
    (hd : annotated = true → ∀ d ∈ c.derivation, d.IsWritable) :
    ∀ t ∈ c.tokens annotated, t.IsLegal := by
  have hcnf : Symbol.isLowerWord "cnf" = true := by decide
  have hname := Token.isLegal_ofName hc.name
  have hnote : ∀ t ∈ c.noteTokens annotated, t.IsLegal := by
    unfold noteTokens
    split
    · next d hderivation =>
      exact List.forall_mem_cons.2 ⟨trivial, (hd rfl d hderivation).isLegal_of_mem_tokens⟩
    · simp
  rw [tokens_eq]
  refine List.forall_mem_append.2 ⟨List.forall_mem_append.2 ⟨List.forall_mem_append.2
    ⟨?_, hc.isLegal_of_mem_literalTokens⟩, hnote⟩, by simp [Token.IsLegal]⟩
  simpa [Token.IsLegal, hcnf, hc.name, Role.isLowerWord_name] using hname

/-! ### Whole texts -/

theorem Clause.toList_renderAll_cons (annotated : Bool) (c : Clause) (cs : List Clause) :
    (renderAll annotated (c :: cs)).toList =
      (Token.spellAll (c.tokens annotated)).toList ++ '\n' :: (renderAll annotated cs).toList := by
  simp [renderAll, render, String.join_cons]

theorem Clause.written_renderAll {annotated : Bool} {cs : List Clause}
    (hcs : ∀ c ∈ cs, c.IsWritable)
    (hd : annotated = true → ∀ c ∈ cs, ∀ d ∈ c.derivation, d.IsWritable) :
    Token.Written (cs.flatMap (·.tokens annotated)) (renderAll annotated cs).toList := by
  induction cs with
  | nil => exact .done (.nothing [])
  | cons c cs ih =>
    have hc := hcs c List.mem_cons_self
    have hrest := ih (fun e he => hcs e (List.mem_cons_of_mem _ he))
      fun hannotated e he => hd hannotated e (List.mem_cons_of_mem _ he)
    rw [toList_renderAll_cons, List.flatMap_cons]
    refine Token.written_append (hc.isStatement_tokens annotated).1.wellSpaced
      (hc.isLegal_of_mem_tokens fun hannotated => hd hannotated c List.mem_cons_self) ?_
      (.skip (.blank (by decide) (.nothing _)) hrest)
    intro d hd
    obtain rfl : '\n' = d := by simpa using hd
    decide

theorem Clause.isDocument_tokens {annotated : Bool} {cs : List Clause}
    (hcs : ∀ c ∈ cs, c.IsWritable) :
    IsDocument (cs.flatMap (·.tokens annotated))
      (cs.map fun c => { c with derivation := none }) := by
  refine ⟨cs.map (·.tokens annotated), by rw [List.flatMap_def], ?_⟩
  rw [List.forall₂_map_left_iff, List.forall₂_map_right_iff, List.forall₂_same]
  exact fun c hc => (hcs c hc).isStatement_tokens annotated

/-- **Printed clauses are read back**: the same clauses in the same order, with equal names, roles
and literals.  Annotations are read over. -/
theorem printed_clauses_read_back (annotated : Bool) (cs : List Clause)
    (hcs : ∀ c ∈ cs, c.IsWritable)
    (hd : annotated = true → ∀ c ∈ cs, ∀ d ∈ c.derivation, d.IsWritable) :
    ∃ ds, readClauses (Clause.renderAll annotated cs) = .ok ds ∧
      List.Forall₂ (fun d c => d.name = c.name ∧ d.role = c.role ∧
        d.literals = c.literals) ds cs := by
  refine ⟨cs.map fun c => { c with derivation := none }, ?_, ?_⟩
  · exact readClauses_eq_ok_iff.2
      ⟨_, Clause.written_renderAll hcs hd, Clause.isDocument_tokens hcs⟩
  · rw [List.forall₂_map_left_iff, List.forall₂_same]
    exact fun c _ => ⟨rfl, rfl, rfl⟩

/-- Clauses whose names need quotes and escapes: a disequation, a predicate `=` that is no equation,
and an empty clause, all with annotations. -/
def oddlyNamed : List Clause :=
  [⟨"it's", .axiomatic, [Literal.pos (.app "p\\q" [.var "_X1", .const "50%"]),
      Literal.neg (.app equality [.const "1", .const "two\nlines"]),
      Literal.neg (.app equality [.var "Y"])],
      some (.inference "resolution" [⟨0, "A"⟩, ⟨1, "b c"⟩])⟩,
    ⟨"007", .negatedConjecture, [], some (.introduced "axiom_of_choice")⟩]

theorem isWritable_oddlyNamed : ∀ c ∈ oddlyNamed, c.IsWritable := by
  intro c hc
  obtain rfl | rfl : c = oddlyNamed[0] ∨ c = oddlyNamed[1] := by simpa [oddlyNamed] using hc
  · exact ⟨by decide, by decide, by decide, by decide, by decide⟩
  · exact ⟨by decide, by decide, by decide, by decide, by decide⟩

theorem isWritable_derivation_oddlyNamed : ∀ c ∈ oddlyNamed, ∀ d ∈ c.derivation, d.IsWritable := by
  intro c hc d hd
  obtain rfl | rfl : c = oddlyNamed[0] ∨ c = oddlyNamed[1] := by simpa [oddlyNamed] using hc
  · obtain rfl := Option.some.inj hd
    exact ⟨by decide, by decide, by decide⟩
  · obtain rfl := Option.some.inj hd
    exact ⟨by decide, by decide, by decide⟩

theorem printed_clauses_read_back_oddlyNamed :
    (∀ c ∈ oddlyNamed, c.IsWritable) ∧ (∀ c ∈ oddlyNamed, ∀ d ∈ c.derivation, d.IsWritable) ∧
      ∃ ds, readClauses (Clause.renderAll true oddlyNamed) = .ok ds ∧
        List.Forall₂ (fun d c => d.name = c.name ∧ d.role = c.role ∧ d.literals = c.literals) ds
          oddlyNamed :=
  ⟨isWritable_oddlyNamed, isWritable_derivation_oddlyNamed,
    printed_clauses_read_back true oddlyNamed isWritable_oddlyNamed
      fun _ => isWritable_derivation_oddlyNamed⟩

end Refutation
