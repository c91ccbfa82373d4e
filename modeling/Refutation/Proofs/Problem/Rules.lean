import Refutation.Clause.Basic
import Refutation.Proofs.Problem.Spelling
import Mathlib.Data.List.Forall2

/-!
# The rules of the clause notation

The grammar as relations between lists of tokens and what they denote, one constructor for each
alternative of a rule.  Nothing says in which order alternatives are tried or how far a phrase
reaches; that a phrase can be read in one way only is a theorem
(`Refutation.Proofs.Problem.Reading`).

    document     ::=  statement*
    statement    ::=  cnf ( name , role , disjunction annotations ) .
    disjunction  ::=  disjunct ('|' disjunct)*
    disjunct     ::=  ( disjunction ) | literal
    literal      ::=  $false | ~ atom | atom
    atom         ::=  term | term = term | term != term        (a term alone is no variable)
    term         ::=  variable | name | name ( term (, term)* )
    annotations  ::=  nothing | , note (, note)*
    note         ::=  head (: head)*
    head         ::=  [ ] | [ note (, note)* ] | word | word ( ) | word ( note (, note)* )

Disjuncts are stated for any reading of literals.  With `IsLiteral` they denote literals; with
`IsPhrase` they denote the texts of their literals, which is what stays when parentheses are added
or taken away.
-/

namespace Refutation

/-- One or more phrases of the kind `R` with the token `sep` between them. -/
inductive SeparatedBy (sep : Token) {α : Type} (R : List Token → α → Prop) :
    List Token → List α → Prop
  | single {ts : List Token} {a : α} (h : R ts a) : SeparatedBy sep R ts [a]
  | cons {ts us : List Token} {a : α} {as : List α} (h : R ts a) (hs : SeparatedBy sep R us as) :
      SeparatedBy sep R (ts ++ sep :: us) (a :: as)

/-! ### Terms and literals -/

inductive IsTerm : List Token → Term → Prop
  | var (x : String) : IsTerm [.upper x] (.var x)
  | const {t : Token} {f : String} (hf : t.name? = some f) : IsTerm [t] (.const f)
  | app {t : Token} {f : String} {ts : List Token} {args : List Term} (hf : t.name? = some f)
      (hargs : SeparatedBy .comma IsTerm ts args) :
      IsTerm (t :: .openParen :: (ts ++ [.closeParen])) (.app f args)

/-- An atom; the flag tells a disequation. -/
inductive IsAtom : List Token → Term × Bool → Prop
  | term {ts : List Token} {t : Term} (h : IsTerm ts t) (ht : t.isVar = false) :
      IsAtom ts (t, false)
  | equation {ts us : List Token} {l r : Term} (hl : IsTerm ts l) (hr : IsTerm us r) :
      IsAtom (ts ++ .equal :: us) (.app equality [l, r], false)
  | disequation {ts us : List Token} {l r : Term} (hl : IsTerm ts l) (hr : IsTerm us r) :
      IsAtom (ts ++ .notEqual :: us) (.app equality [l, r], true)

/-- A literal; the constant `$false` contributes none. -/
inductive IsLiteral : List Token → List Literal → Prop
  | absurdity : IsLiteral [.dollar "false"] []
  | plain {ts : List Token} {a : Term} {n : Bool} (h : IsAtom ts (a, n)) :
      IsLiteral ts [Literal.of n a]
  | negated {ts : List Token} {a : Term} {n : Bool} (h : IsAtom ts (a, n)) :
      IsLiteral (.tilde :: ts) [Literal.of (!n) a]

/-- The tokens of a literal, taken as they stand. -/
def IsPhrase (ts : List Token) (phrases : List (List Token)) : Prop :=
  (∃ ls, IsLiteral ts ls) ∧ phrases = [ts]

/-! ### Disjunctions -/

inductive IsDisjunct {α : Type} (L : List Token → List α → Prop) : List Token → List α → Prop
  | literal {ts : List Token} {as : List α} (h : L ts as) : IsDisjunct L ts as
  | paren {ts : List Token} {parts : List (List α)} (h : SeparatedBy .bar (IsDisjunct L) ts parts) :
      IsDisjunct L (.openParen :: (ts ++ [.closeParen])) parts.flatten

/-! ### Annotations -/

/-- A word at the head of a note. -/
def Token.isWord : Token → Bool
  | lower _ | upper _ | number _ | quoted _ | dollar _ => true
  | _ => false

/-- The head of a note.  Notes say nothing, so their value is trivial. -/
inductive IsNoteHead : List Token → Unit → Prop
  | emptyList : IsNoteHead [.openBracket, .closeBracket] ()
  | list {ts : List Token} {vs : List (List Unit)}
      (h : SeparatedBy .comma (SeparatedBy .colon IsNoteHead) ts vs) :
      IsNoteHead (.openBracket :: (ts ++ [.closeBracket])) ()
  | word {t : Token} (ht : t.isWord = true) : IsNoteHead [t] ()
  | emptyApp {t : Token} (ht : t.isWord = true) : IsNoteHead [t, .openParen, .closeParen] ()
  | app {t : Token} {ts : List Token} {vs : List (List Unit)} (ht : t.isWord = true)
      (h : SeparatedBy .comma (SeparatedBy .colon IsNoteHead) ts vs) :
      IsNoteHead (t :: .openParen :: (ts ++ [.closeParen])) ()

inductive IsAnnotation : List Token → Prop
  | absent : IsAnnotation []
  | notes {ts : List Token} {vs : List (List Unit)}
      (h : SeparatedBy .comma (SeparatedBy .colon IsNoteHead) ts vs) : IsAnnotation (.comma :: ts)

/-! ### Statements -/

/-- A statement, with its name, its role and what its disjunction denotes. -/
inductive States {α : Type} (L : List Token → List α → Prop) :
    List Token → String → Role → List α → Prop
  | cnf {n : Token} {name word : String} {role : Role} {body note : List Token}
      {parts : List (List α)} (hname : n.name? = some name) (hrole : Role.ofName? word = some role)
      (hbody : SeparatedBy .bar (IsDisjunct L) body parts) (hnote : IsAnnotation note) :
      States L ([.lower "cnf", .openParen, n, .comma, .lower word, .comma] ++ body ++ note ++
        [.closeParen, .dot]) name role parts.flatten

/-- A statement of the notation: an input clause. -/
def IsStatement (ts : List Token) (c : Clause) : Prop :=
  States IsLiteral ts c.name c.role c.literals ∧ c.derivation = none

/-- A sequence of statements. -/
def IsDocument (ts : List Token) (cs : List Clause) : Prop :=
  ∃ groups : List (List Token), ts = groups.flatten ∧ List.Forall₂ IsStatement groups cs

/-! ### Induction over nested phrases -/

theorem IsTerm.induct {P : List Token → Term → Prop} (var : ∀ x, P [.upper x] (.var x))
    (const : ∀ {t f}, Token.name? t = some f → P [t] (.const f))
    (app : ∀ {t f ts args}, Token.name? t = some f → SeparatedBy .comma P ts args →
      P (t :: .openParen :: (ts ++ [.closeParen])) (.app f args))
    {ts : List Token} {t : Term} (h : IsTerm ts t) : P ts t :=
  @IsTerm.rec (fun ts t _ => P ts t) (fun ts args _ => SeparatedBy .comma P ts args) var
    (fun hf => const hf) (fun hf _ hargs => app hf hargs) (fun _ h => .single h)
    (fun _ _ h hs => .cons h hs) ts t h

theorem IsDisjunct.induct {α : Type} {L P : List Token → List α → Prop}
    (literal : ∀ {ts as}, L ts as → P ts as)
    (paren : ∀ {ts parts}, SeparatedBy .bar P ts parts →
      P (.openParen :: (ts ++ [.closeParen])) parts.flatten)
    {ts : List Token} {as : List α} (h : IsDisjunct L ts as) : P ts as :=
  @IsDisjunct.rec α L (fun ts as _ => P ts as) (fun ts parts _ => SeparatedBy .bar P ts parts)
    (fun h => literal h) (fun _ h => paren h) (fun _ h => .single h) (fun _ _ h hs => .cons h hs)
    ts as h

theorem IsNoteHead.induct {P : List Token → Unit → Prop}
    (emptyList : P [.openBracket, .closeBracket] ())
    (list : ∀ {ts vs}, SeparatedBy .comma (SeparatedBy .colon P) ts vs →
      P (.openBracket :: (ts ++ [.closeBracket])) ())
    (word : ∀ {t}, Token.isWord t = true → P [t] ())
    (emptyApp : ∀ {t}, Token.isWord t = true → P [t, .openParen, .closeParen] ())
    (app : ∀ {t ts vs}, Token.isWord t = true → SeparatedBy .comma (SeparatedBy .colon P) ts vs →
      P (t :: .openParen :: (ts ++ [.closeParen])) ())
    {ts : List Token} {v : Unit} (h : IsNoteHead ts v) : P ts v :=
  @IsNoteHead.rec (fun ts v _ => P ts v)
    (fun ts vs _ => SeparatedBy .comma (SeparatedBy .colon P) ts vs)
    (fun ts vs _ => SeparatedBy .colon P ts vs) emptyList (fun _ h => list h) (fun h => word h)
    (fun h => emptyApp h) (fun ht _ h => app ht h) (fun _ h => .single h)
    (fun _ _ h hs => .cons h hs) (fun _ h => .single h) (fun _ _ h hs => .cons h hs) ts v h

/-! ### Phrases are well spaced -/

section WellSpaced

open Token

theorem ne_stray_of_name? {t : Token} {f : String} (h : t.name? = some f) (c : Char) :
    t ≠ .stray c := by
  rintro rfl
  simp [name?] at h

theorem ne_stray_of_isWord {t : Token} (h : t.isWord = true) (c : Char) : t ≠ .stray c := by
  rintro rfl
  simp [isWord] at h

theorem SeparatedBy.wellSpaced {α : Type} {sep : Token} {R : List Token → α → Prop}
    (hsep : sep.isPunctuation = true) (hR : ∀ ts a, R ts a → WellSpaced ts) {ts : List Token}
    {as : List α} (h : SeparatedBy sep R ts as) : WellSpaced ts := by
  induction h with
  | single h => exact hR _ _ h
  | cons h _ ih => exact (hR _ _ h).append_cons hsep ih

theorem IsTerm.wellSpaced {ts : List Token} {t : Term} (h : IsTerm ts t) : WellSpaced ts := by
  refine h.induct (P := fun ts _ => WellSpaced ts) ?_ ?_ ?_
  · exact fun x => wellSpaced_singleton (by simp)
  · exact fun hf => wellSpaced_singleton (ne_stray_of_name? hf)
  · intro t f ts args hf hargs
    have hclosed : WellSpaced (ts ++ [closeParen]) :=
      (hargs.wellSpaced rfl fun _ _ h => h).append_cons rfl wellSpaced_nil
    exact (wellSpaced_singleton (ne_stray_of_name? hf)).append_cons rfl hclosed

theorem IsAtom.wellSpaced {ts : List Token} {a : Term × Bool} (h : IsAtom ts a) :
    WellSpaced ts := by
  cases h with
  | term h _ => exact h.wellSpaced
  | equation hl hr => exact hl.wellSpaced.append_cons rfl hr.wellSpaced
  | disequation hl hr => exact hl.wellSpaced.append_cons rfl hr.wellSpaced

theorem IsLiteral.wellSpaced {ts : List Token} {ls : List Literal} (h : IsLiteral ts ls) :
    WellSpaced ts := by
  cases h with
  | absurdity => exact wellSpaced_singleton (by simp)
  | plain h => exact h.wellSpaced
  | negated h => exact h.wellSpaced.cons rfl

theorem IsDisjunct.wellSpaced {ts : List Token} {ls : List Literal}
    (h : IsDisjunct IsLiteral ts ls) :
    WellSpaced ts := by
  refine h.induct (P := fun ts _ => WellSpaced ts) (fun h => h.wellSpaced) fun h => ?_
  exact ((h.wellSpaced rfl fun _ _ h => h).append_cons rfl wellSpaced_nil).cons rfl

theorem IsNoteHead.wellSpaced {ts : List Token} {v : Unit} (h : IsNoteHead ts v) :
    WellSpaced ts := by
  have hnotes : ∀ {us : List Token} {vs : List (List Unit)},
      SeparatedBy .comma (SeparatedBy .colon fun ts _ => WellSpaced ts) us vs → WellSpaced us :=
    fun h => h.wellSpaced rfl fun _ _ h => h.wellSpaced rfl fun _ _ h => h
  have hword : ∀ {t : Token}, t.isWord = true → WellSpaced [t] :=
    fun ht => wellSpaced_singleton (ne_stray_of_isWord ht)
  have hclose : ∀ {t : Token}, t.isPunctuation = true → WellSpaced [t] :=
    fun ht => wellSpaced_nil.cons ht
  refine h.induct (P := fun ts _ => WellSpaced ts) ((hclose rfl).cons rfl) ?_ hword ?_ ?_
  · exact fun h => ((hnotes h).append_cons rfl wellSpaced_nil).cons rfl
  · exact fun ht => (hword ht).append_cons rfl (hclose rfl)
  · exact fun ht h => (hword ht).append_cons rfl ((hnotes h).append_cons rfl wellSpaced_nil)

theorem States.wellSpaced {ts : List Token} {name : String} {role : Role} {ls : List Literal}
    (h : States IsLiteral ts name role ls) : WellSpaced ts := by
  cases h with
  | @cnf n name word role body note parts hname _ hbody hnote =>
    have hend : WellSpaced (body ++ note ++ [.closeParen, .dot]) := by
      have hbody := hbody.wellSpaced rfl fun _ _ h => h.wellSpaced
      have hdot : WellSpaced [dot] := wellSpaced_nil.cons rfl
      cases hnote with
      | absent =>
        rw [List.append_nil]
        exact hbody.append_cons rfl hdot
      | notes h =>
        have hnotes := h.wellSpaced rfl fun _ _ h => h.wellSpaced rfl fun _ _ h => h.wellSpaced
        rw [List.append_assoc]
        exact hbody.append_cons rfl (hnotes.append_cons rfl hdot)
    have hrole : WellSpaced ([lower word] ++ comma :: (body ++ note ++ [.closeParen, .dot])) :=
      (wellSpaced_singleton (by simp)).append_cons rfl hend
    have hname : WellSpaced ([n] ++ comma :: lower word :: comma ::
        (body ++ note ++ [.closeParen, .dot])) :=
      (wellSpaced_singleton (ne_stray_of_name? hname)).append_cons rfl hrole
    have hcnf : WellSpaced ([lower "cnf"] ++ openParen :: n :: comma :: lower word :: comma ::
        (body ++ note ++ [.closeParen, .dot])) :=
      (wellSpaced_singleton (by simp)).append_cons rfl hname
    simpa using hcnf

theorem IsDocument.noStray {ts : List Token} {cs : List Clause} (h : IsDocument ts cs) :
    ∀ t ∈ ts, ∀ c, t ≠ .stray c := by
  obtain ⟨groups, rfl, h⟩ := h
  induction h with
  | nil => simp
  | cons h _ ih =>
    intro t ht
    rcases List.mem_append.1 ht with ht | ht
    · exact h.1.wellSpaced.noStray t ht
    · exact ih t ht

end WellSpaced

end Refutation
