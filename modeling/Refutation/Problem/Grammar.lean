import Refutation.Clause.Basic
import Refutation.Parsed

/-!
# The grammar of the clause notation

One reader for each rule of the notation.  Each looks at the first tokens to decide how to go on and
never takes a decision back.  Readers that try one alternative after the other on the characters of
a text accept the same (`Refutation.Proofs.Problem.Agreement`).

    statement    ::=  cnf ( name , role , disjunction annotations? ) .
    disjunction  ::=  disjunct | disjunct '|' disjunction
    disjunct     ::=  ( disjunction ) | literal
    literal      ::=  $false | ~ atom | atom
    atom         ::=  term | term = term | term != term        (a term alone is no variable)
    term         ::=  variable | name | name ( terms )
    annotations  ::=  , notes
    note         ::=  head | head : note
    head         ::=  [ ] | [ notes ] | word | word ( ) | word ( notes )
-/

namespace Refutation

/-- Read a name. -/
def readName : (ts : List Token) → Option (Parsed String ts)
  | [] => none
  | t :: rest => t.name?.map fun name => .first name t rest

/-! ### Terms -/

mutual

/-- Read a term. -/
def readTerm (ts : List Token) : Option (Parsed Term ts) :=
  match ts with
  | [] => none
  | .upper x :: rest => some (.first (.var x) (.upper x) rest)
  | t :: rest =>
    match readName (t :: rest) with
    | none => none
    | some name =>
      match name.token? .openParen with
      | none => some (name.map .const)
      | some opened =>
        match readTerms opened.rest with
        | none => none
        | some args => ((opened.after args).map (.app name.value)).token? .closeParen
termination_by (ts.length, 0)
decreasing_by exact Prod.Lex.left _ _ opened.shorter

/-- Read one or more terms separated by commas. -/
def readTerms (ts : List Token) : Option (Parsed (List Term) ts) :=
  match readTerm ts with
  | none => none
  | some t =>
    match t.token? .comma with
    | none => some (t.map ([·]))
    | some next =>
      match readTerms next.rest with
      | none => none
      | some us => some ((next.after us).map (t.value :: ·))
termination_by (ts.length, 1)
decreasing_by
  · exact Prod.Lex.right _ Nat.zero_lt_one
  · exact Prod.Lex.left _ _ next.shorter

end

/-! ### Literals -/

/-- Read an atom or an equation; the flag tells a disequation. -/
def readAtom (ts : List Token) : Option (Parsed (Term × Bool) ts) :=
  match readTerm ts with
  | none => none
  | some l =>
    match l.token? .equal, l.token? .notEqual with
    | some next, _ =>
      (readTerm next.rest).map fun r =>
        (next.after r).map fun r => (.app equality [l.value, r], false)
    | none, some next =>
      (readTerm next.rest).map fun r =>
        (next.after r).map fun r => (.app equality [l.value, r], true)
    | none, none => if l.value.isVar then none else some (l.map (·, false))

/-- Read a literal; the constant `$false` counts as no literal. -/
def readLiteral (ts : List Token) : Option (Parsed (Option Literal) ts) :=
  match readToken (.dollar "false") ts with
  | some absurdity => some (absurdity.map fun _ => none)
  | none =>
    match readToken .tilde ts with
    | some tilde =>
      (readAtom tilde.rest).map fun a =>
        (tilde.after a).map fun (atom, negated) => some (Literal.of (!negated) atom)
    | none => (readAtom ts).map fun a => a.map fun (atom, negated) => some (Literal.of negated atom)

/-! ### Disjunctions -/

mutual

/-- Read a literal, or a disjunction in parentheses. -/
def readDisjunct (ts : List Token) : Option (Parsed (List Literal) ts) :=
  match readToken .openParen ts with
  | none => (readLiteral ts).map fun l => l.map Option.toList
  | some opened =>
    match readDisjunction opened.rest with
    | none => none
    | some ls => (opened.after ls).token? .closeParen
termination_by (ts.length, 0)
decreasing_by exact Prod.Lex.left _ _ opened.shorter

/-- Read one or more disjuncts separated by bars. -/
def readDisjunction (ts : List Token) : Option (Parsed (List Literal) ts) :=
  match readDisjunct ts with
  | none => none
  | some ls =>
    match ls.token? .bar with
    | none => some ls
    | some next =>
      match readDisjunction next.rest with
      | none => none
      | some ms => some ((next.after ms).map (ls.value ++ ·))
termination_by (ts.length, 1)
decreasing_by
  · exact Prod.Lex.right _ Nat.zero_lt_one
  · exact Prod.Lex.left _ _ next.shorter

end

/-! ### Annotations -/

/-- Read the word at the head of a note. -/
def readNoteWord : (ts : List Token) → Option (Parsed Unit ts)
  | .lower w :: rest => some (.first () (.lower w) rest)
  | .upper w :: rest => some (.first () (.upper w) rest)
  | .number w :: rest => some (.first () (.number w) rest)
  | .quoted w :: rest => some (.first () (.quoted w) rest)
  | .dollar w :: rest => some (.first () (.dollar w) rest)
  | _ => none

mutual

/-- Read a note, which is discarded. -/
def readNote (ts : List Token) : Option (Parsed Unit ts) :=
  match readNoteHead ts with
  | none => none
  | some head =>
    match head.token? .colon with
    | none => some head
    | some next =>
      match readNote next.rest with
      | none => none
      | some note => some (next.after note)
termination_by (ts.length, 1)
decreasing_by
  · exact Prod.Lex.right _ Nat.zero_lt_one
  · exact Prod.Lex.left _ _ next.shorter

/-- Read notes in brackets, or a word with its arguments. -/
def readNoteHead (ts : List Token) : Option (Parsed Unit ts) :=
  match readToken .openBracket ts with
  | some opened =>
    match opened.token? .closeBracket with
    | some closed => some closed
    | none =>
      match readNotes opened.rest with
      | none => none
      | some notes => (opened.after notes).token? .closeBracket
  | none =>
    match readNoteWord ts with
    | none => none
    | some word =>
      match word.token? .openParen with
      | none => some word
      | some opened =>
        match opened.token? .closeParen with
        | some closed => some closed
        | none =>
          match readNotes opened.rest with
          | none => none
          | some notes => (opened.after notes).token? .closeParen
termination_by (ts.length, 0)
decreasing_by all_goals exact Prod.Lex.left _ _ opened.shorter

/-- Read one or more notes separated by commas. -/
def readNotes (ts : List Token) : Option (Parsed Unit ts) :=
  match readNote ts with
  | none => none
  | some note =>
    match note.token? .comma with
    | none => some note
    | some next =>
      match readNotes next.rest with
      | none => none
      | some notes => some (next.after notes)
termination_by (ts.length, 2)
decreasing_by
  · exact Prod.Lex.right _ (by omega)
  · exact Prod.Lex.left _ _ next.shorter

end

/-- Skip the annotations after a value, if there are any. -/
def readAnnotations {α : Type} {ts : List Token} (p : Parsed α ts) : Option (Parsed α ts) :=
  match p.token? .comma with
  | none => some p
  | some next => (readNotes next.rest).map fun notes => (next.after notes).map fun _ => p.value

/-! ### Statements -/

/-- Read the role of a clause. -/
def readRole : (ts : List Token) → Option (Parsed Role ts)
  | .lower word :: rest => (Role.ofName? word).map fun role => .first role (.lower word) rest
  | _ => none

/-- Read a statement. -/
def readStatement (ts : List Token) : Option (Parsed Clause ts) := do
  let opened ← (← readToken (.lower "cnf") ts).token? .openParen
  let name ← (← readName opened.rest).token? .comma
  let role ← (← readRole name.rest).token? .comma
  let literals ← readDisjunction role.rest
  let closed ← (← (← readAnnotations literals).token? .closeParen).token? .dot
  return (opened.after (name.after (role.after closed))).map fun literals =>
    ⟨name.value, role.value, literals, none⟩

end Refutation
