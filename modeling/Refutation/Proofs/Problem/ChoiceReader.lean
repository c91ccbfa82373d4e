import Refutation.Problem.Reader
import Refutation.Proofs.Problem.OrderedChoice
import Refutation.Proofs.Problem.Rules

/-!
# The clause notation read with ordered choice

A second reader of problem texts, which works on characters and is put together from readers with
ordered choice, one for each rule of the notation.  Layout is skipped after every token.  What each
of these readers takes as a token is a token as `Token.spell` writes it (`TextReader.symbolName_iff`
and the like); how the rules themselves fit together is the subject of
`Refutation.Proofs.Problem.Agreement`.

* `TextReader.junk_eq` : layout is skipped as the lexer does it.
* `TextReader.term_eq`, `TextReader.disjunct_eq`, `TextReader.generalTerm_eq` : the recursive rules.
* `TextReader.parseClauses` : the clauses of a text.
-/

namespace Refutation

namespace TextReader

/-! ### Tokens -/

/-- Blanks, a line comment or a block comment. -/
def junkPiece : TextReader Unit :=
  alt (value () (takeWhile1 Token.isLayout))
    (alt (value () (pair (char '%') (opt (takeWhile1 Token.isInLine))))
      (value () (pair (tag "/*") (pair (takeUntil "*/") (tag "*/")))))

/-- Layout. -/
def junk : TextReader Unit := value () (many0 junkPiece)

/-- A punctuation mark. -/
def sym (c : Char) : TextReader Char := terminated (char c) junk

/-- A word given by its first character and the others, which go as far as they can. -/
def wordOf (first others : Char → Bool) : TextReader String :=
  map String.ofList (recognize (pair (satisfy first) (takeWhile others)))

def lowerWord : TextReader String := wordOf Char.isLower Symbol.isWordChar

def upperWord : TextReader String := wordOf Symbol.isVariableStart Symbol.isWordChar

def dollarWord : TextReader String := map String.ofList (recognize (pair (char '$') lowerWord))

def digits : TextReader String := map String.ofList (takeWhile1 Char.isDigit)

/-- A character that stands for itself between quotes. -/
def isOrdinary (c : Char) : Bool := c != '\\' && c != '\''

/-- What may follow a backslash between quotes. -/
def escapedChar : TextReader (List Char) :=
  alt (value ['\\'] (char '\\')) (value ['\''] (char '\''))

/-- A name in quotes. -/
def singleQuoted : TextReader String :=
  map String.ofList
    (delimited (char '\'') (escapedTransform (takeWhile1 isOrdinary) '\\' escapedChar) (char '\''))

/-- The name of a function, a predicate or a clause. -/
def symbolName : TextReader String := terminated (alt singleQuoted (alt lowerWord digits)) junk

/-! ### Terms and literals -/

def variableTerm : TextReader Term := map .var (terminated upperWord junk)

/-- Arguments in parentheses, each read by `p`. -/
def arguments (p : TextReader Term) : TextReader (List Term) :=
  delimited (sym '(') (separatedList1 (sym ',') p) (sym ')')

/-- A term whose arguments are read by `p`. -/
def termRule (p : TextReader Term) : TextReader Term :=
  alt variableTerm (map (fun r => .app r.1 (r.2.getD [])) (pair symbolName (opt (arguments p))))

def term : TextReader Term := fix termRule

/-- The second half of an equation; the flag tells a disequation. -/
def equalityTail : TextReader (Bool × Term) :=
  pair
    (alt (value true (terminated (tag "!=") junk)) (value false (terminated (tag "=") junk))) term

/-- An atom or an equation; the flag tells a disequation. -/
def atom : TextReader (Term × Bool) :=
  map (fun r => r.2.elim (r.1, false) fun tail => (.app equality [r.1, tail.2], tail.1))
    (verify (fun r => r.2.isSome || !r.1.isVar) (pair term (opt equalityTail)))

/-- A literal; the constant `$false` counts as no literal. -/
def literal : TextReader (Option Literal) :=
  alt (value none (terminated (tag "$false") junk))
    (map (fun r => some (Literal.of (r.1.isSome != r.2.2) r.2.1)) (pair (opt (sym '~')) atom))

/-! ### Disjunctions -/

/-- Disjuncts with bars between them, each read by `p`. -/
def disjunctionOf (p : TextReader (List (Option Literal))) : TextReader (List (Option Literal)) :=
  map List.flatten (separatedList1 (sym '|') p)

/-- A literal, or a disjunction in parentheses whose disjuncts are read by `p`. -/
def disjunctRule (p : TextReader (List (Option Literal))) : TextReader (List (Option Literal)) :=
  alt (delimited (sym '(') (disjunctionOf p) (sym ')')) (map ([·]) literal)

def disjunct : TextReader (List (Option Literal)) := fix disjunctRule

/-! ### Statements -/

def role : TextReader Role := terminated (mapRes Role.ofName? lowerWord) junk

/-- The word at the head of a note. -/
def noteWord : TextReader Unit :=
  terminated (alt (value () singleQuoted) (alt (value () lowerWord) (alt (value () upperWord)
    (alt (value () dollarWord) (value () digits))))) junk

/-- A list in brackets, or a word with its arguments; the notes in it are read by `p`. -/
def noteHead (p : TextReader Unit) : TextReader Unit :=
  alt (value () (delimited (sym '[') (separatedList0 (sym ',') p) (sym ']')))
    (value () (pair noteWord (opt (delimited (sym '(') (separatedList0 (sym ',') p) (sym ')')))))

/-- A note whose parts are read by `p`. -/
def generalTermRule (p : TextReader Unit) : TextReader Unit :=
  value () (pair (noteHead p) (opt (preceded (sym ':') p)))

/-- A note, which is discarded. -/
def generalTerm : TextReader Unit := fix generalTermRule

def annotations : TextReader Unit :=
  value () (preceded (sym ',') (separatedList1 (sym ',') generalTerm))

/-- A statement, with the layout after it. -/
def cnfStatement : TextReader Clause := fun cs => do
  let (_, cs) ← terminated (tag "cnf") junk cs
  let (_, cs) ← sym '(' cs
  let (name, cs) ← symbolName cs
  let (_, cs) ← sym ',' cs
  let (role, cs) ← role cs
  let (_, cs) ← sym ',' cs
  let (literals, cs) ← disjunctionOf disjunct cs
  let (_, cs) ← opt annotations cs
  let (_, cs) ← sym ')' cs
  let (_, cs) ← sym '.' cs
  return (⟨name, role, literals.filterMap id, none⟩, cs)

end TextReader

/-! ### Tokens in a text -/

namespace Token

/-- The token stands at the beginning of a text, and `raw` follows it. -/
structure Opens (t : Token) (cs raw : List Char) : Prop where
  spelled : cs = t.spell.toList ++ raw
  legal : t.IsLegal
  maximal : t.EndsBefore raw

/-- The token stands at the beginning of a text, and after it and some layout comes `rest`. -/
def StandsAt (t : Token) (cs rest : List Char) : Prop :=
  ∃ raw, t.Opens cs raw ∧ rest = skipLayout raw

variable {t u : Token} {cs raw rest : List Char}

theorem Opens.exists_scan (h : t.Opens cs raw) :
    ∃ c cs', cs = c :: cs' ∧ skipLayout cs = cs ∧ scan c cs' = (t, raw) := by
  obtain ⟨c, cs', hspell, hskip, hscan⟩ := scan_spell h.legal h.maximal
  rw [h.spelled, hspell]
  exact ⟨c, cs', rfl, hskip, hscan⟩

/-- **At most one token stands at the beginning of a text.** -/
theorem StandsAt.unique {rest' : List Char} (h : t.StandsAt cs rest) (h' : u.StandsAt cs rest') :
    t = u ∧ rest = rest' := by
  obtain ⟨raw, hopens, rfl⟩ := h
  obtain ⟨raw', hopens', rfl⟩ := h'
  obtain ⟨c, cs', rfl, -, hscan⟩ := hopens.exists_scan
  obtain ⟨d, ds, heq, -, hscan'⟩ := hopens'.exists_scan
  obtain ⟨rfl, rfl⟩ := List.cons.inj heq
  obtain ⟨rfl, rfl⟩ := Prod.mk.inj (hscan.symm.trans hscan')
  exact ⟨rfl, rfl⟩

theorem StandsAt.length_lt (h : t.StandsAt cs rest) : rest.length < cs.length := by
  obtain ⟨raw, hopens, rfl⟩ := h
  obtain ⟨c, cs', rfl, -, hscan⟩ := hopens.exists_scan
  have hraw : raw.length ≤ cs'.length := by
    have hle := length_scan_le c cs'
    rwa [hscan] at hle
  exact Nat.lt_succ_of_le (Nat.le_trans (length_skipLayout_le raw) hraw)

theorem standsAt_of_isPunctuation (h : t.isPunctuation = true) (raw : List Char) :
    t.StandsAt (t.spell.toList ++ raw) (skipLayout raw) :=
  ⟨raw, ⟨rfl, isLegal_of_isPunctuation h, endsBefore_of_isPunctuation h raw⟩, rfl⟩

end Token

namespace TextReader

open Token (skipLayout)

variable {cs raw rest : List Char}

/-! ### Layout -/

theorem skips_dropWhile (cs : List Char) : Token.Skips cs (cs.dropWhile Token.isLayout) := by
  induction cs with
  | nil => exact .nothing _
  | cons c cs ih =>
    rw [List.dropWhile_cons]
    split
    · next hc => exact .blank hc ih
    · exact .nothing _

theorem takeUntil_tag (cs : List Char) : (pair (takeUntil "*/") (tag "*/") cs).map (·.2) =
    Token.afterBlock? cs := by
  fun_induction Token.afterBlock? cs with
  | case1 => rfl
  | case2 cs => rfl
  | case3 c cs hc ih =>
    have hnot : "*/".toList.isPrefixOf (c :: cs) = false := by
      rw [Bool.eq_false_iff, ne_eq, List.isPrefixOf_iff_prefix]
      rintro ⟨more, hmore⟩
      obtain ⟨rfl, rfl⟩ := List.cons.inj hmore
      exact hc more rfl rfl
    rw [← ih, pair, takeUntil, hnot, pair]
    cases takeUntil "*/" cs with
    | none => rfl
    | some r => cases h : tag "*/" r.2 <;> simp [h]

theorem takeWhile1_eq_some_iff {ok : Char → Bool} {text : List Char} :
    takeWhile1 ok cs = some (text, rest) ↔ ∃ c cs', cs = c :: cs' ∧ ok c = true ∧
      text = c :: cs'.takeWhile ok ∧ rest = cs'.dropWhile ok := by
  cases cs with
  | nil => simp [takeWhile1]
  | cons c cs =>
    simp only [takeWhile1, Option.ite_none_right_eq_some, Option.some.injEq, Prod.mk.injEq]
    constructor
    · rintro ⟨hc, rfl, rfl⟩
      exact ⟨c, cs, rfl, hc, rfl, rfl⟩
    · rintro ⟨c, cs, heq, hc, rfl, rfl⟩
      obtain ⟨rfl, rfl⟩ := List.cons.inj heq
      exact ⟨hc, rfl, rfl⟩

theorem takeWhile1_eq_none_iff {ok : Char → Bool} :
    takeWhile1 ok cs = none ↔ ∀ c ∈ cs.head?, ok c = false := by
  cases cs with
  | nil => simp [takeWhile1]
  | cons c cs => simp [takeWhile1]

theorem opt_takeWhile1 {ok : Char → Bool} {o : Option (List Char)}
    (h : opt (takeWhile1 ok) cs = some (o, rest)) : rest = cs.dropWhile ok := by
  rcases opt_eq_some_iff.1 h with ⟨text, htext, -⟩ | ⟨hnone, -, rfl⟩
  · obtain ⟨c, cs', rfl, hc, -, rfl⟩ := takeWhile1_eq_some_iff.1 htext
    rw [List.dropWhile_cons_of_pos hc]
  · exact (Token.dropWhile_eq_self (takeWhile1_eq_none_iff.1 hnone)).symm

theorem skips_of_junkPiece {u : Unit} (h : junkPiece cs = some (u, rest)) :
    Token.Skips cs rest ∧ rest.length < cs.length := by
  simp only [junkPiece, alt_eq_some_iff, value_eq_some_iff] at h
  rcases h with ⟨-, text, hblanks⟩ | ⟨-, ⟨-, r, hline⟩ | ⟨-, -, r, hblock⟩⟩
  · obtain ⟨c, cs, rfl, hc, -, rfl⟩ := takeWhile1_eq_some_iff.1 hblanks
    exact ⟨.blank hc (skips_dropWhile cs), Nat.lt_succ_of_le (Token.length_dropWhile_le _ _)⟩
  · obtain ⟨mid, hpercent, hmid⟩ := pair_eq_some_iff.1 hline
    obtain ⟨-, rfl⟩ := char_eq_some_iff.1 hpercent
    obtain rfl := opt_takeWhile1 hmid
    have hskips := Token.Skips.line (Token.of_mem_takeWhile Token.isInLine mid)
      (Token.of_mem_head?_dropWhile Token.isInLine mid) (.nothing _)
    rw [List.takeWhile_append_dropWhile] at hskips
    exact ⟨hskips, Nat.lt_succ_of_le (Token.length_dropWhile_le _ _)⟩
  · obtain ⟨mid, hopen, hmid⟩ := pair_eq_some_iff.1 hblock
    obtain rfl := tag_eq_some_iff.1 hopen
    have hafter : Token.afterBlock? mid = some rest := by rw [← takeUntil_tag, hmid]; rfl
    obtain ⟨body, hbody, heq⟩ := Token.eq_of_afterBlock? hafter
    refine ⟨heq ▸ .block hbody (.nothing rest), ?_⟩
    have hle := Token.length_afterBlock?_le hafter
    change rest.length < mid.length + 2
    omega

theorem skipLayout_of_junkPiece (h : junkPiece cs = none) : skipLayout cs = cs := by
  simp only [junkPiece, alt, Option.or_eq_none_iff, value, map, Option.map_eq_none_iff] at h
  obtain ⟨hblanks, hline, hblock⟩ := h
  rw [skipLayout.eq_def]
  split
  · rfl
  · next cs =>
    obtain ⟨⟨o, rest⟩, ho⟩ :=
      Option.isSome_iff_exists.1 (isSome_opt (takeWhile1 Token.isInLine) cs)
    have hread : pair (char '%') (opt (takeWhile1 Token.isInLine)) ('%' :: cs) =
        some (('%', o), rest) :=
      pair_eq_some_iff.2 ⟨cs, char_eq_some_iff.2 ⟨rfl, rfl⟩, ho⟩
    rw [hline] at hread
    cases hread
  · next cs =>
    have hafter : Token.afterBlock? cs = none := by
      rw [← takeUntil_tag]
      simpa [pair, tag, Text.after?] using hblock
    rw [hafter]
  · next c cs _ _ =>
    have hc : Token.isLayout c = false := takeWhile1_eq_none_iff.1 hblanks c rfl
    rw [hc]
    rfl

/-- **Layout is skipped as the lexer does it**, and this never fails. -/
theorem junk_eq (cs : List Char) : junk cs = some ((), skipLayout cs) := by
  suffices h : ∃ us, many0 junkPiece cs = some (us, skipLayout cs) by
    obtain ⟨us, hus⟩ := h
    simp [junk, value, map, hus]
  induction hlen : cs.length using Nat.strongRecOn generalizing cs with
  | ind n ih =>
    rw [many0]
    split
    · next hnone => exact ⟨[], by rw [skipLayout_of_junkPiece hnone]⟩
    · next u rest hpiece =>
      obtain ⟨hskips, hlt⟩ := skips_of_junkPiece hpiece
      obtain ⟨us, hus⟩ := ih _ (hlen ▸ hlt) rest rfl
      rw [if_pos hlt, hus, Token.skipLayout_of_skips hskips]
      exact ⟨u :: us, rfl⟩

theorem terminated_junk_iff {α : Type} {p : TextReader α} {a : α} :
    terminated p junk cs = some (a, rest) ↔
      ∃ raw, p cs = some (a, raw) ∧ rest = skipLayout raw := by
  simp only [terminated_eq_some_iff, junk_eq]
  constructor
  · rintro ⟨u, raw, hp, heq⟩
    exact ⟨raw, hp, (Prod.mk.inj (Option.some.inj heq)).2.symm⟩
  · rintro ⟨raw, hp, rfl⟩
    exact ⟨(), raw, hp, rfl⟩

/-! ### Tokens -/

theorem sym_iff {c x : Char} {t : Token} (hspell : t.spell.toList = [c])
    (ht : t.isPunctuation = true) :
    sym c cs = some (x, rest) ↔ x = c ∧ t.StandsAt cs rest := by
  simp only [sym, terminated_junk_iff, char_eq_some_iff]
  constructor
  · rintro ⟨raw, ⟨rfl, rfl⟩, rfl⟩
    have hstands := Token.standsAt_of_isPunctuation ht raw
    rw [hspell] at hstands
    exact ⟨rfl, hstands⟩
  · rintro ⟨rfl, raw, hopens, rfl⟩
    have hspelled := hopens.spelled
    rw [hspell] at hspelled
    exact ⟨raw, ⟨rfl, hspelled⟩, rfl⟩

theorem eq_takeWhile_iff {ok : Char → Bool} {run : List Char} :
    run = cs.takeWhile ok ∧ rest = cs.dropWhile ok ↔
      cs = run ++ rest ∧ (∀ d ∈ run, ok d = true) ∧ ∀ d ∈ rest.head?, ok d = false := by
  constructor
  · rintro ⟨rfl, rfl⟩
    exact ⟨List.takeWhile_append_dropWhile.symm, Token.of_mem_takeWhile _ _,
      Token.of_mem_head?_dropWhile _ _⟩
  · rintro ⟨rfl, hrun, hrest⟩
    rw [List.takeWhile_append_of_pos hrun, List.dropWhile_append_of_pos hrun,
      Token.takeWhile_eq_nil hrest, Token.dropWhile_eq_self hrest, List.append_nil]
    exact ⟨rfl, rfl⟩

/-- A first character and others that go as far as they can, in a text. -/
def IsWordAt (first others : Char → Bool) (w : String) (cs raw : List Char) : Prop :=
  ∃ c run, w = String.ofList (c :: run) ∧ cs = c :: (run ++ raw) ∧ first c = true ∧
    (∀ d ∈ run, others d = true) ∧ ∀ d ∈ raw.head?, others d = false

theorem recognize_eq_some_iff {α : Type} {p : TextReader α} {text : List Char} :
    recognize p cs = some (text, rest) ↔
      text = cs.take (cs.length - rest.length) ∧ ∃ a, p cs = some (a, rest) := by
  simp only [recognize, Option.map_eq_some_iff, Prod.exists, Prod.mk.injEq]
  constructor
  · rintro ⟨a, rest, hp, rfl, rfl⟩
    exact ⟨rfl, a, hp⟩
  · rintro ⟨rfl, a, hp⟩
    exact ⟨a, rest, hp, rfl, rfl⟩

theorem take_append_length (text rest : List Char) :
    (text ++ rest).take ((text ++ rest).length - rest.length) = text := by simp

theorem wordOf_iff {first others : Char → Bool} {w : String} :
    wordOf first others cs = some (w, raw) ↔ IsWordAt first others w cs raw := by
  simp only [wordOf, map_eq_some_iff, recognize_eq_some_iff, pair_eq_some_iff, satisfy_eq_some_iff,
    takeWhile, Option.some.injEq, Prod.mk.injEq]
  constructor
  · rintro ⟨text, ⟨htext, ⟨c, run⟩, mid, ⟨rfl, hc⟩, hrun, hraw⟩, rfl⟩
    obtain ⟨rfl, hothers, hend⟩ := eq_takeWhile_iff.1 ⟨hrun.symm, hraw.symm⟩
    obtain rfl : text = c :: run := htext.trans (take_append_length (c :: run) raw)
    exact ⟨c, run, rfl, rfl, hc, hothers, hend⟩
  · rintro ⟨c, run, rfl, rfl, hc, hothers, hend⟩
    obtain ⟨hrun, hraw⟩ := eq_takeWhile_iff.2 ⟨rfl, hothers, hend⟩
    exact ⟨c :: run, ⟨(take_append_length (c :: run) raw).symm, (c, run), run ++ raw,
      ⟨rfl, hc⟩, hrun.symm, hraw.symm⟩, rfl⟩

theorem lowerWord_iff {w : String} :
    lowerWord cs = some (w, raw) ↔ (Token.lower w).Opens cs raw := by
  rw [lowerWord, wordOf_iff]
  constructor
  · rintro ⟨c, run, rfl, rfl, hc, hrun, hend⟩
    exact ⟨by simp [Token.spell], Symbol.isLowerWord_iff.2 ⟨c, run, rfl, hc, hrun⟩, hend⟩
  · rintro ⟨rfl, hlegal, hend⟩
    obtain ⟨c, run, rfl, hc, hrun⟩ := Symbol.isLowerWord_iff.1 hlegal
    exact ⟨c, run, rfl, by simp [Token.spell], hc, hrun, hend⟩

theorem upperWord_iff {w : String} :
    upperWord cs = some (w, raw) ↔ (Token.upper w).Opens cs raw := by
  rw [upperWord, wordOf_iff]
  constructor
  · rintro ⟨c, run, rfl, rfl, hc, hrun, hend⟩
    exact ⟨by simp [Token.spell], Symbol.isVariableWord_iff.2 ⟨c, run, rfl, hc, hrun⟩, hend⟩
  · rintro ⟨rfl, hlegal, hend⟩
    obtain ⟨c, run, rfl, hc, hrun⟩ := Symbol.isVariableWord_iff.1 hlegal
    exact ⟨c, run, rfl, by simp [Token.spell], hc, hrun, hend⟩

theorem digits_iff {w : String} : digits cs = some (w, raw) ↔ (Token.number w).Opens cs raw := by
  simp only [digits, map_eq_some_iff, takeWhile1_eq_some_iff]
  constructor
  · rintro ⟨text, ⟨c, cs, rfl, hc, rfl, rfl⟩, rfl⟩
    exact ⟨by simp [Token.spell], Symbol.isNumber_iff.2 ⟨c, _, rfl, hc, Token.of_mem_takeWhile _ _⟩,
      Token.of_mem_head?_dropWhile _ _⟩
  · rintro ⟨rfl, hlegal, hend⟩
    obtain ⟨c, run, rfl, hc, hrun⟩ := Symbol.isNumber_iff.1 hlegal
    obtain ⟨hrun', hraw⟩ := eq_takeWhile_iff.2 ⟨rfl, hrun, hend⟩
    exact ⟨c :: run, ⟨c, run ++ raw, by simp [Token.spell], hc, by rw [← hrun'], hraw⟩, rfl⟩

theorem dollarWord_iff {w : String} : dollarWord cs = some (w, raw) ↔
    ∃ word, w = "$" ++ word ∧ (Token.dollar word).Opens cs raw := by
  simp only [dollarWord, map_eq_some_iff, recognize_eq_some_iff, pair_eq_some_iff, char_eq_some_iff,
    lowerWord_iff, Prod.exists]
  constructor
  · rintro ⟨text, ⟨htext, d, word, mid, ⟨-, rfl⟩, hword⟩, rfl⟩
    obtain ⟨rfl, hlegal, hend⟩ := hword
    obtain rfl : text = '$' :: word.toList :=
      htext.trans (take_append_length ('$' :: word.toList) raw)
    exact ⟨word, by simp, by simp [Token.spell], hlegal, hend⟩
  · rintro ⟨word, rfl, hspelled, hlegal, hend⟩
    obtain rfl : cs = '$' :: (word.toList ++ raw) := hspelled.trans (by simp [Token.spell])
    exact ⟨'$' :: word.toList, ⟨(take_append_length ('$' :: word.toList) raw).symm, '$', word, _,
      ⟨rfl, rfl⟩, rfl, hlegal, hend⟩, by simp⟩

/-! ### Quoted names -/

/-- The pieces between quotes. -/
def quotedPieces (first : Bool) : TextReader (List Char) :=
  escapedTransform.go (takeWhile1 isOrdinary) '\\' escapedChar first

theorem quotedPieces_run {c : Char} (hc : isOrdinary c = true) (first : Bool) (cs : List Char) :
    quotedPieces first (c :: cs) = (quotedPieces false (cs.dropWhile isOrdinary)).map fun r =>
      (c :: cs.takeWhile isOrdinary ++ r.1, r.2) := by
  have hlt : (cs.dropWhile isOrdinary).length < cs.length + 1 :=
    Nat.lt_succ_of_le (Token.length_dropWhile_le _ _)
  rw [quotedPieces, escapedTransform.go, takeWhile1, if_pos hc]
  simp only [if_pos hlt]
  rfl

theorem quotedPieces_ordinary {c : Char} (hc : isOrdinary c = true) (first : Bool)
    (cs : List Char) :
    quotedPieces first (c :: cs) = (quotedPieces false cs).map fun r => (c :: r.1, r.2) := by
  rw [quotedPieces_run hc]
  cases cs with
  | nil => rfl
  | cons d cs =>
    by_cases hd : isOrdinary d = true
    · rw [quotedPieces_run hd, List.dropWhile_cons_of_pos hd, List.takeWhile_cons_of_pos hd,
        Option.map_map]
      rfl
    · rw [List.dropWhile_cons_of_neg hd, List.takeWhile_cons_of_neg hd]
      rfl

theorem quotedPieces_nil (first : Bool) : quotedPieces first [] = some ([], []) := by
  rw [quotedPieces, escapedTransform.go]

theorem quotedPieces_quote (first : Bool) (cs : List Char) :
    quotedPieces first ('\'' :: cs) = if first then none else some ([], '\'' :: cs) := by
  have hnormal : takeWhile1 isOrdinary ('\'' :: cs) = none := rfl
  rw [quotedPieces, escapedTransform.go, hnormal]
  rfl

theorem quotedPieces_backslash (first : Bool) : quotedPieces first ['\\'] = none := by
  have hnormal : takeWhile1 isOrdinary ['\\'] = none := rfl
  rw [quotedPieces, escapedTransform.go, hnormal]
  rfl

theorem quotedPieces_escaped (c : Char) (first : Bool) (cs : List Char) :
    quotedPieces first ('\\' :: c :: cs) =
      if c = '\\' ∨ c = '\'' then
        (quotedPieces false cs).map fun r => (c :: r.1, r.2)
      else none := by
  have hnormal : takeWhile1 isOrdinary ('\\' :: c :: cs) = none := rfl
  rw [quotedPieces, escapedTransform.go, hnormal]
  by_cases hb : c = '\\'
  · subst hb
    have hlt : cs.length < cs.length + 1 + 1 := by omega
    simp [escapedChar, alt, value, map, char, satisfy, hlt, quotedPieces]
  · by_cases hq : c = '\''
    · subst hq
      have hlt : cs.length < cs.length + 1 + 1 := by omega
      simp [escapedChar, alt, value, map, char, satisfy, hlt, quotedPieces]
    · simp [escapedChar, alt, value, map, char, satisfy, hb, hq]

theorem terminated_of_map {α β : Type} {p : TextReader α} {q : TextReader β} {f : α → α}
    {cs' : List Char} (h : p cs = (p cs').map fun r => (f r.1, r.2)) :
    terminated p q cs = (terminated p q cs').map fun r => (f r.1, r.2) := by
  unfold terminated map pair
  rw [h]
  cases p cs' with
  | none => rfl
  | some r => cases hq : q r.2 <;> simp [hq]

/-- **A quoted name is read up to its closing quote as the lexer does it.** -/
theorem terminated_quotedPieces (cs : List Char) :
    terminated (quotedPieces false) (char '\'') cs = Token.unquote? cs := by
  fun_induction Token.unquote? cs with
  | case1 => rw [terminated, map, pair, quotedPieces_nil]; rfl
  | case2 cs => rw [terminated, map, pair, quotedPieces_quote]; rfl
  | case3 c cs hc ih =>
    have hc : c = '\\' ∨ c = '\'' := by simpa using hc
    have hstep := quotedPieces_escaped c false cs
    rw [if_pos hc] at hstep
    rw [terminated_of_map hstep, ih]
  | case4 c cs hc =>
    have hc : ¬(c = '\\' ∨ c = '\'') := by simpa using hc
    rw [terminated, map, pair, quotedPieces_escaped, if_neg hc]
    rfl
  | case5 => rw [terminated, map, pair, quotedPieces_backslash]; rfl
  | case6 c cs hq hb hb' ih =>
    have hc : isOrdinary c = true := by
      rw [isOrdinary, Bool.and_eq_true, bne_iff_ne, bne_iff_ne]
      refine ⟨?_, hq⟩
      rintro rfl
      cases cs with
      | nil => exact hb' rfl rfl
      | cons d cs => exact hb d cs rfl rfl
    rw [terminated_of_map (quotedPieces_ordinary hc false cs), ih]

/-- Only a name that ends at once is treated differently at the beginning. -/
theorem quotedPieces_first {c : Char} (hc : c ≠ '\'') (cs : List Char) :
    quotedPieces true (c :: cs) = quotedPieces false (c :: cs) := by
  by_cases hb : c = '\\'
  · subst hb
    cases cs with
    | nil => rw [quotedPieces_backslash, quotedPieces_backslash]
    | cons d cs => rw [quotedPieces_escaped, quotedPieces_escaped]
  · have hordinary : isOrdinary c = true := by simp [isOrdinary, hb, hc]
    rw [quotedPieces_ordinary hordinary, quotedPieces_ordinary hordinary]

theorem terminated_quotedPieces_true {name : List Char} :
    terminated (quotedPieces true) (char '\'') cs = some (name, raw) ↔
      Token.unquote? cs = some (name, raw) ∧ name ≠ [] := by
  cases cs with
  | nil =>
    rw [terminated, map, pair, quotedPieces_nil]
    simp [char, satisfy, Token.unquote?]
  | cons c cs =>
    by_cases hc : c = '\''
    · subst hc
      rw [terminated, map, pair, quotedPieces_quote]
      simp +contextual [Token.unquote?, eq_comm]
    · rw [← terminated_quotedPieces, terminated, map, pair, quotedPieces_first hc]
      refine (and_iff_left_of_imp fun h => ?_).symm
      rintro rfl
      have heq := Token.eq_of_unquote? ((terminated_quotedPieces (c :: cs)).symm.trans h)
      exact hc (List.cons.inj heq).1

theorem singleQuoted_iff {name : String} :
    singleQuoted cs = some (name, raw) ↔ (Token.quoted name).Opens cs raw := by
  have hbody : ∀ body text, terminated (escapedTransform (takeWhile1 isOrdinary) '\\' escapedChar)
      (char '\'') body = some (text, raw) ↔ Token.unquote? body = some (text, raw) ∧ text ≠ [] :=
    fun body text => terminated_quotedPieces_true
  simp only [singleQuoted, delimited, map_eq_some_iff, preceded_eq_some_iff,
    char_eq_some_iff, hbody]
  constructor
  · rintro ⟨text, ⟨d, body, ⟨-, rfl⟩, hunquote, hne⟩, rfl⟩
    refine ⟨?_, ?_, trivial⟩
    · rw [Token.eq_of_unquote? hunquote]
      simp [Token.spell, Symbol.quoted]
    · simpa [Token.IsLegal, ← String.toList_inj] using hne
  · rintro ⟨rfl, hlegal, -⟩
    refine ⟨name.toList, ⟨'\'', Symbol.escape name.toList ++ '\'' :: raw, ⟨rfl, ?_⟩,
      Token.unquote?_escape _ _, ?_⟩, String.ofList_toList⟩
    · simp only [Token.spell, Symbol.quoted, String.toList_ofList]
      simp
    · intro hnil
      exact hlegal (String.toList_eq_nil_iff.1 hnil)

/-! ### Names and words -/

section Classes

variable {α : Type} {p q : TextReader α} {P Q : Token → α → Prop}

/-- The reader takes exactly the tokens of a class, with the value that the class gives them. -/
def ReadsTokens (p : TextReader α) (P : Token → α → Prop) : Prop :=
  ∀ cs a raw, p cs = some (a, raw) ↔ ∃ t, P t a ∧ t.Opens cs raw

/-- Between classes without a common token no choice is made: at most one of them is in the text. -/
theorem ReadsTokens.alt (hp : ReadsTokens p P) (hq : ReadsTokens q Q)
    (hne : ∀ t a b, P t a → ¬Q t b) :
    ReadsTokens (alt p q) fun t a => P t a ∨ Q t a := by
  intro cs a raw
  rw [alt_eq_some_iff, hp, hq]
  constructor
  · rintro (⟨t, ht, hopens⟩ | ⟨-, t, ht, hopens⟩)
    · exact ⟨t, .inl ht, hopens⟩
    · exact ⟨t, .inr ht, hopens⟩
  · rintro ⟨t, ht | ht, hopens⟩
    · exact .inl ⟨t, ht, hopens⟩
    · refine .inr ⟨?_, t, ht, hopens⟩
      rw [Option.eq_none_iff_forall_ne_some]
      rintro ⟨b, raw'⟩ hb
      obtain ⟨u, hu, hopens'⟩ := (hp cs b raw').1 hb
      obtain ⟨rfl, -⟩ := Token.StandsAt.unique ⟨raw, hopens, rfl⟩ ⟨raw', hopens', rfl⟩
      exact hne t b a hu ht

theorem ReadsTokens.terminated_junk (h : ReadsTokens p P) {a : α} :
    terminated p junk cs = some (a, rest) ↔ ∃ t, P t a ∧ t.StandsAt cs rest := by
  rw [terminated_junk_iff]
  constructor
  · rintro ⟨raw, hp, rfl⟩
    obtain ⟨t, ht, hopens⟩ := (h cs a raw).1 hp
    exact ⟨t, ht, raw, hopens, rfl⟩
  · rintro ⟨t, ht, raw, hopens, rfl⟩
    exact ⟨raw, (h cs a raw).2 ⟨t, ht, hopens⟩, rfl⟩

theorem ReadsTokens.value (h : ReadsTokens p P) (u : Unit) :
    ReadsTokens (value u p) fun t _ => ∃ a, P t a := by
  intro cs v raw
  simp only [value_eq_some_iff, h cs, true_and]
  exact exists_comm.trans (exists_congr fun t => by simp only [exists_and_right])

theorem readsTokens_of_iff {tok : α → Token}
    (h : ∀ cs a raw, p cs = some (a, raw) ↔ (tok a).Opens cs raw) :
    ReadsTokens p fun t a => t = tok a := by
  intro cs a raw
  rw [h]
  exact ⟨fun hopens => ⟨_, rfl, hopens⟩, fun ⟨_, ht, hopens⟩ => ht ▸ hopens⟩

end Classes

theorem readsTokens_lowerWord : ReadsTokens lowerWord fun t w => t = .lower w :=
  readsTokens_of_iff fun _ _ _ => lowerWord_iff

theorem readsTokens_upperWord : ReadsTokens upperWord fun t w => t = .upper w :=
  readsTokens_of_iff fun _ _ _ => upperWord_iff

theorem readsTokens_digits : ReadsTokens digits fun t w => t = .number w :=
  readsTokens_of_iff fun _ _ _ => digits_iff

theorem readsTokens_singleQuoted : ReadsTokens singleQuoted fun t w => t = .quoted w :=
  readsTokens_of_iff fun _ _ _ => singleQuoted_iff

theorem readsTokens_dollarWord :
    ReadsTokens dollarWord fun t w => ∃ word, t = .dollar word ∧ w = "$" ++ word := by
  intro cs w raw
  rw [dollarWord_iff]
  constructor
  · rintro ⟨word, rfl, hopens⟩
    exact ⟨_, ⟨word, rfl, rfl⟩, hopens⟩
  · rintro ⟨_, ⟨word, rfl, rfl⟩, hopens⟩
    exact ⟨word, rfl, hopens⟩

theorem symbolName_iff {f : String} :
    symbolName cs = some (f, rest) ↔ ∃ t : Token, t.name? = some f ∧ t.StandsAt cs rest := by
  have hplain := readsTokens_lowerWord.alt readsTokens_digits (by rintro t a b rfl; simp)
  have hreads := readsTokens_singleQuoted.alt hplain (by rintro t a b rfl; simp)
  rw [symbolName, hreads.terminated_junk]
  refine exists_congr fun t => and_congr_left' ?_
  cases t <;> simp [Token.name?]

theorem noteWord_iff {u : Unit} :
    noteWord cs = some (u, rest) ↔ ∃ t : Token, t.isWord = true ∧ t.StandsAt cs rest := by
  have hdollar := (readsTokens_dollarWord.value ()).alt (readsTokens_digits.value ())
    (by rintro t - - ⟨w, w', rfl, -⟩; simp)
  have hupper := (readsTokens_upperWord.value ()).alt hdollar (by rintro t - - ⟨w, rfl⟩; simp)
  have hlower := (readsTokens_lowerWord.value ()).alt hupper (by rintro t - - ⟨w, rfl⟩; simp)
  have hreads := (readsTokens_singleQuoted.value ()).alt hlower (by rintro t - - ⟨w, rfl⟩; simp)
  rw [noteWord, hreads.terminated_junk]
  refine exists_congr fun t => and_congr_left' ?_
  cases t <;> simp [Token.isWord]

theorem variableTerm_iff {v : Term} :
    variableTerm cs = some (v, rest) ↔ ∃ x, v = .var x ∧ (Token.upper x).StandsAt cs rest := by
  simp only [variableTerm, map_eq_some_iff, readsTokens_upperWord.terminated_junk, exists_eq_left]
  constructor
  · rintro ⟨x, h, rfl⟩
    exact ⟨x, rfl, h⟩
  · rintro ⟨x, rfl, h⟩
    exact ⟨x, h, rfl⟩

theorem role_iff {r : Role} : role cs = some (r, rest) ↔
    ∃ word, Role.ofName? word = some r ∧ (Token.lower word).StandsAt cs rest := by
  simp only [role, terminated_junk_iff, mapRes_eq_some_iff, lowerWord_iff, Token.StandsAt]
  constructor
  · rintro ⟨raw, ⟨word, hopens, hr⟩, rfl⟩
    exact ⟨word, hr, raw, hopens, rfl⟩
  · rintro ⟨word, hr, raw, hopens, rfl⟩
    exact ⟨raw, ⟨word, hopens, hr⟩, rfl⟩

/-! ### Recursive rules -/

theorem shrinks_sym (c : Char) : Shrinks (sym c) := by
  intro cs x rest h
  obtain ⟨raw, hchar, rfl⟩ := terminated_junk_iff.1 h
  obtain ⟨-, rfl⟩ := char_eq_some_iff.1 hchar
  exact Nat.lt_succ_of_le (Token.length_skipLayout_le raw)

theorem shrinks_symbolName : Shrinks symbolName := by
  intro cs f rest h
  obtain ⟨t, -, hstands⟩ := symbolName_iff.1 h
  exact hstands.length_lt

theorem shrinks_noteWord : Shrinks noteWord := by
  intro cs u rest h
  obtain ⟨t, -, hstands⟩ := noteWord_iff.1 h
  exact hstands.length_lt

theorem shrinks_tag {word : String} (hword : word.toList ≠ []) :
    Shrinks (terminated (tag word) junk) := by
  intro cs u rest h
  obtain ⟨raw, htag, rfl⟩ := terminated_junk_iff.1 h
  have hlength := Token.length_skipLayout_le raw
  have hpos := List.length_pos_iff.2 hword
  rw [tag_eq_some_iff.1 htag, List.length_append]
  omega

theorem shrinks_variableTerm : Shrinks variableTerm := by
  intro cs t rest h
  obtain ⟨x, -, hstands⟩ := variableTerm_iff.1 h
  exact hstands.length_lt

theorem guarded_termRule : Guarded termRule where
  shrinks p hp := by
    have hargs : Shrinks (arguments p) :=
      (shrinks_sym '(').delimited (hp.separatedList1 _).keeps (shrinks_sym ')')
    exact shrinks_variableTerm.alt ((shrinks_symbolName.pair hargs.opt).map _)
  congr p q cs hp h := by
    have hpair : pair symbolName (opt (arguments p)) cs =
        pair symbolName (opt (arguments q)) cs := by
      refine pair_congr fun f mid hname => ?_
      have hmid := shrinks_symbolName _ _ _ hname
      have hargs : arguments p mid = arguments q mid := by
        refine delimited_congr fun x mid' hopen => separatedList1_congr hp fun cs' hcs' => h cs' ?_
        have := shrinks_sym _ _ _ _ hopen
        omega
      rw [opt, opt, hargs]
    simp only [termRule, alt, map, hpair]

/-- A term is a variable, or a name and what can be read as its arguments. -/
theorem term_eq : term = alt variableTerm
    (map (fun r => .app r.1 (r.2.getD [])) (pair symbolName (opt (arguments term)))) :=
  guarded_termRule.fix_eq

theorem shrinks_term : Shrinks term := guarded_termRule.shrinks_fix

theorem shrinks_literal : Shrinks literal := by
  have htail : Shrinks equalityTail :=
    (((shrinks_tag (by decide)).value true).alt ((shrinks_tag (by decide)).value false)).pair
      shrinks_term.keeps
  have hatom : Shrinks atom := ((shrinks_term.pair htail.opt).verify _).map _
  exact ((shrinks_tag (by decide)).value none).alt (((shrinks_sym '~').opt.pair hatom).map _)

theorem guarded_disjunctRule : Guarded disjunctRule where
  shrinks p hp := by
    have hbody : Keeps (disjunctionOf p) := ((hp.separatedList1 _).map _).keeps
    exact ((shrinks_sym '(').delimited hbody (shrinks_sym ')')).alt (shrinks_literal.map _)
  congr p q cs hp h := by
    have hparen : delimited (sym '(') (disjunctionOf p) (sym ')') cs =
        delimited (sym '(') (disjunctionOf q) (sym ')') cs := by
      refine delimited_congr fun x mid hopen => congrArg (Option.map _) ?_
      have hmid := shrinks_sym _ _ _ _ hopen
      exact separatedList1_congr hp fun cs' hcs' => h cs' (by omega)
    simp only [disjunctRule, alt, hparen]

/-- A disjunct is a disjunction in parentheses, if there is one, and a literal otherwise. -/
theorem disjunct_eq : disjunct =
    alt (delimited (sym '(') (disjunctionOf disjunct) (sym ')')) (map ([·]) literal) :=
  guarded_disjunctRule.fix_eq

theorem shrinks_disjunct : Shrinks disjunct := guarded_disjunctRule.shrinks_fix

theorem shrinks_noteHead {p : TextReader Unit} (hp : Shrinks p) : Shrinks (noteHead p) := by
  have hlist : ∀ o c, Shrinks (delimited (sym o) (separatedList0 (sym ',') p) (sym c)) :=
    fun o c => (shrinks_sym o).delimited (hp.separatedList0 _) (shrinks_sym c)
  exact ((hlist '[' ']').value ()).alt ((shrinks_noteWord.pair (hlist '(' ')').opt).value ())

theorem noteHead_congr {p q : TextReader Unit} (hp : Shrinks p)
    (h : ∀ cs', cs'.length < cs.length → p cs' = q cs') : noteHead p cs = noteHead q cs := by
  have hlist : ∀ o c mid, mid.length ≤ cs.length →
      delimited (sym o) (separatedList0 (sym ',') p) (sym c) mid =
        delimited (sym o) (separatedList0 (sym ',') q) (sym c) mid := by
    intro o c mid hmid
    refine delimited_congr fun x mid' hopen => separatedList0_congr hp fun cs' hcs' => h cs' ?_
    have := shrinks_sym _ _ _ _ hopen
    omega
  have hargs : pair noteWord (opt (delimited (sym '(') (separatedList0 (sym ',') p) (sym ')'))) cs =
      pair noteWord (opt (delimited (sym '(') (separatedList0 (sym ',') q) (sym ')'))) cs := by
    refine pair_congr fun u mid hword => ?_
    rw [opt, opt, hlist _ _ mid (shrinks_noteWord.keeps _ _ _ hword)]
  simp only [noteHead, alt, value, map, hlist '[' ']' cs (Nat.le_refl _), hargs]

theorem guarded_generalTermRule : Guarded generalTermRule where
  shrinks p hp := by
    have htail : Shrinks (preceded (sym ':') p) := ((shrinks_sym ':').pair hp.keeps).map _
    exact ((shrinks_noteHead hp).pair htail.opt).value ()
  congr p q cs hp h := by
    refine congrArg (Option.map _) ((pair_congr fun u mid hhead => ?_).trans
      (pair_congr_left (noteHead_congr hp h)))
    have hmid := shrinks_noteHead hp _ _ _ hhead
    have htail : preceded (sym ':') p mid = preceded (sym ':') q mid := by
      refine congrArg (Option.map _) (pair_congr fun x mid' hcolon => h mid' ?_)
      exact Nat.lt_trans (shrinks_sym _ _ _ _ hcolon) hmid
    rw [opt, opt, htail]

/-- A note is its head and, after a colon, what can be read as another note. -/
theorem generalTerm_eq : generalTerm =
    value () (pair (noteHead generalTerm) (opt (preceded (sym ':') generalTerm))) :=
  guarded_generalTermRule.fix_eq

theorem shrinks_generalTerm : Shrinks generalTerm := guarded_generalTermRule.shrinks_fix

/-! ### Whole texts -/

theorem cnfStatement_eq_some_iff {c : Clause} : cnfStatement cs = some (c, rest) ↔
    ∃ n word os o cs₁ cs₂ cs₃ cs₄ cs₅ cs₆ cs₇ cs₈ cs₉,
      terminated (tag "cnf") junk cs = some ((), cs₁) ∧ Token.openParen.StandsAt cs₁ cs₂ ∧
      Token.name? n = some c.name ∧ Token.StandsAt n cs₂ cs₃ ∧ Token.comma.StandsAt cs₃ cs₄ ∧
      Role.ofName? word = some c.role ∧ (Token.lower word).StandsAt cs₄ cs₅ ∧
      Token.comma.StandsAt cs₅ cs₆ ∧ disjunctionOf disjunct cs₆ = some (os, cs₇) ∧
      opt annotations cs₇ = some (o, cs₈) ∧ Token.closeParen.StandsAt cs₈ cs₉ ∧
      Token.dot.StandsAt cs₉ rest ∧ c.literals = os.filterMap id ∧ c.derivation = none := by
  simp only [cnfStatement, Option.bind_eq_bind, Option.bind_eq_some_iff, Prod.exists,
    Option.pure_def, symbolName_iff, role_iff, sym_iff (c := '(') (t := .openParen) rfl rfl,
    sym_iff (c := ')') (t := .closeParen) rfl rfl, sym_iff (c := ',') (t := .comma) rfl rfl,
    sym_iff (c := '.') (t := .dot) rfl rfl]
  constructor
  · rintro ⟨_, cs₁, hcnf, _, cs₂, ⟨-, hopen⟩, name, cs₃, ⟨n, hn, hname⟩, _, cs₄, ⟨-, hcomma⟩, r,
      cs₅, ⟨word, hword, hrole⟩, _, cs₆, ⟨-, hcomma'⟩, os, cs₇, hbody, o, cs₈, hnote, _, cs₉,
      ⟨-, hclose⟩, _, cs₁₀, ⟨-, hdot⟩, heq⟩
    obtain ⟨rfl, rfl⟩ := Prod.mk.inj (Option.some.inj heq)
    exact ⟨n, word, os, o, cs₁, cs₂, cs₃, cs₄, cs₅, cs₆, cs₇, cs₈, cs₉, hcnf, hopen, hn,
      hname, hcomma, hword, hrole, hcomma', hbody, hnote, hclose, hdot, rfl, rfl⟩
  · rintro ⟨n, word, os, o, cs₁, cs₂, cs₃, cs₄, cs₅, cs₆, cs₇, cs₈, cs₉, hcnf, hopen, hn,
      hname, hcomma, hword, hrole, hcomma', hbody, hnote, hclose, hdot, hliterals, hderivation⟩
    obtain ⟨name, r, literals, derivation⟩ := c
    obtain rfl : literals = os.filterMap id := hliterals
    obtain rfl : derivation = none := hderivation
    exact ⟨(), cs₁, hcnf, '(', cs₂, ⟨rfl, hopen⟩, name, cs₃, ⟨n, hn, hname⟩, ',', cs₄,
      ⟨rfl, hcomma⟩, r, cs₅, ⟨word, hword, hrole⟩, ',', cs₆, ⟨rfl, hcomma'⟩, os, cs₇, hbody, o, cs₈,
      hnote, ')', cs₉, ⟨rfl, hclose⟩, '.', rest, ⟨rfl, hdot⟩, rfl⟩

theorem shrinks_annotations : Shrinks annotations :=
  (((shrinks_sym ',').pair (shrinks_generalTerm.separatedList1 _).keeps).map _).value ()

theorem shrinks_cnfStatement : Shrinks cnfStatement := by
  intro cs c rest h
  obtain ⟨n, word, os, o, cs₁, cs₂, cs₃, cs₄, cs₅, cs₆, cs₇, cs₈, cs₉, hcnf, hopen, -, hname,
    hcomma, -, hrole, hcomma', hbody, hnote, hclose, hdot, -⟩ := cnfStatement_eq_some_iff.1 h
  have hkeyword := shrinks_tag (by decide) _ _ _ hcnf
  have hbody := (shrinks_disjunct.separatedList1 _).map _ _ _ _ hbody
  have hnote := shrinks_annotations.opt _ _ _ hnote
  have hmarks := And.intro hopen.length_lt (And.intro hcomma.length_lt hcomma'.length_lt)
  have hwords := And.intro hname.length_lt hrole.length_lt
  have hends := And.intro hclose.length_lt hdot.length_lt
  omega

/-- Read statements until the text ends; `total` is the number of line feeds in the whole text. -/
def parseStatements (total : Nat) (cs : List Char) : Except Error (List Clause) :=
  if cs.isEmpty then .ok []
  else
    match unsupportedKeywords.find? fun k => opensStatement k cs with
    | some keyword => .error (.unsupported (lineOf total cs) keyword)
    | none =>
      match _h : cnfStatement cs with
      | none => .error (.invalidClause (lineOf total cs) (snippet cs))
      | some (first, rest) => do
        let others ← parseStatements total rest
        return first :: others
termination_by cs.length
decreasing_by exact shrinks_cnfStatement _ _ _ _h

theorem parseStatements_of_none (total : Nat) (hne : cs ≠ []) (h : cnfStatement cs = none) :
    parseStatements total cs = .error ((unsupportedKeywords.find? fun k => opensStatement k cs).elim
      (.invalidClause (lineOf total cs) (snippet cs)) (.unsupported (lineOf total cs))) := by
  rw [parseStatements, if_neg (by simpa using hne)]
  cases unsupportedKeywords.find? fun k => opensStatement k cs with
  | some keyword => rfl
  | none =>
    dsimp only
    split
    · rfl
    · next hsome => simp [h] at hsome

theorem parseStatements_of_some (total : Nat) {first : Clause}
    (h : cnfStatement cs = some (first, rest))
    (hkeyword : (unsupportedKeywords.find? fun k => opensStatement k cs) = none) :
    parseStatements total cs = (parseStatements total rest).map (first :: ·) := by
  have hne : cs ≠ [] := by
    rintro rfl
    exact absurd (shrinks_cnfStatement _ _ _ h) (Nat.not_lt_zero _)
  rw [parseStatements, if_neg (by simpa using hne), hkeyword]
  dsimp only
  split
  · next hnone => simp [h] at hnone
  · next hsome =>
    obtain ⟨rfl, rfl⟩ := Prod.mk.inj (Option.some.inj (h.symm.trans hsome))
    rfl

/-- Read the clauses of a text. -/
def parseClauses (text : String) : Except Error (List Clause) :=
  match junk text.toList with
  | some ((), rest) => parseStatements (Text.lineFeeds text.toList) rest
  -- this does not occur, by `junk_eq`
  | none => .error (.invalidClause 1 (snippet text.toList))

end TextReader

end Refutation
