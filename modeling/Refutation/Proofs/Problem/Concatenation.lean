import Refutation.Proofs.Problem.Language
import Refutation.Proofs.Renaming

/-!
# Texts one after the other

Two texts can be put together with a line feed between them.  What is read from the first does not
change: its last token ends at the line feed at the latest, and so does a comment that is open at
its end.  So the clauses of the second text follow those of the first, and where the second cannot
be read, the error is the same on a later line.

* `Token.lex_append` : the tokens of the second text follow those of the first.
* `readStatements_add` : a statement on a later line is read like one on an earlier line.
* `readClauses_append` : **what is read from two texts.**
* `documents_concatenate` : the same, with the messages that the user sees.
-/

namespace Refutation

/-! ### Tokens -/

namespace Token

variable {cs rest : List Char}

theorem Skips.append (h : Skips cs rest) (more : List Char) :
    Skips (cs ++ '\n' :: more) (rest ++ '\n' :: more) := by
  induction h with
  | nothing => exact .nothing _
  | blank hc _ ih => exact .blank hc ih
  | @line body cs rest hbody hend _ ih =>
    rw [List.cons_append, List.append_assoc]
    refine .line hbody ?_ ih
    -- a comment that is open at the end of the text ends at the line feed
    cases cs with
    | nil => simp [isInLine]
    | cons c cs => exact hend
  | block hbody _ ih =>
    simp only [List.cons_append, List.append_assoc]
    exact .block hbody ih

theorem Skips.suffix (h : Skips cs rest) : rest <:+ cs := by
  induction h with
  | nothing => exact List.suffix_rfl
  | blank _ _ ih => exact ih.trans (List.suffix_cons _ _)
  | line _ _ _ ih => exact (ih.trans (List.suffix_append _ _)).trans (List.suffix_cons _ _)
  | @block body cs rest _ _ ih => exact ih.trans ⟨'/' :: '*' :: (body ++ ['*', '/']), by simp⟩

theorem EndsBefore.append {t : Token} (h : t.EndsBefore rest) (more : List Char) :
    t.EndsBefore (rest ++ '\n' :: more) := by
  cases rest with
  | nil => exact endsBefore_of_head? (by simp; decide) t
  | cons c rest => cases t <;> exact h

theorem lex_of_skips (h : Skips cs rest) : lex cs = lex rest := by
  cases hrest : skipLayout rest with
  | nil => rw [lex_eq_nil hrest, lex_eq_nil ((skipLayout_of_skips h).trans hrest)]
  | cons c more => rw [lex_eq_cons hrest, lex_eq_cons ((skipLayout_of_skips h).trans hrest)]

theorem lex_spell {t : Token} (ht : t.IsLegal) (hend : t.EndsBefore rest) :
    lex (t.spell.toList ++ rest) = (t, t.spell.toList ++ rest) :: lex rest := by
  obtain ⟨c, cs, hspell, hskip, hscan⟩ := scan_spell ht hend
  rw [hspell, lex_eq_cons hskip, hscan]

/-- **The tokens of the second text follow those of the first.** -/
theorem lex_append {ts : List Token} (h : Written ts cs) (more : List Char) :
    lex (cs ++ '\n' :: more) = (lex cs).map (fun p => (p.1, p.2 ++ '\n' :: more)) ++ lex more := by
  induction h with
  | done h =>
    have hnil : lex [] = [] := lex_eq_nil (by rw [skipLayout])
    rw [lex_of_skips h, hnil, lex_of_skips ((h.append more).trans (.blank rfl (.nothing more)))]
    rfl
  | token h hlegal hend _ ih =>
    have hmore := h.append more
    rw [List.append_assoc] at hmore
    rw [lex_of_skips h, lex_of_skips hmore, lex_spell hlegal hend,
      lex_spell hlegal (hend.append more), ih]
    simp

theorem suffix_of_mem_lex {cs : List Char} : ∀ p ∈ lex cs, p.2 <:+ cs := by
  fun_induction lex cs with
  | case1 => simp
  | case2 cs c rest hcs ih =>
    have hskips : c :: rest <:+ cs := hcs ▸ (skips_skipLayout cs).suffix
    rintro p (_ | ⟨_, hp⟩)
    · exact hskips
    · have hscan : (scan c rest).2 <:+ c :: rest := ⟨_, (begins_scan c rest).spelled⟩
      exact ((ih p hp).trans hscan).trans hskips

end Token

/-! ### Statements -/

theorem readStatements_append_document (total : Nat) {front : List (Token × List Char)}
    {cs : List Clause} (hfront : IsDocument (front.map (·.1)) cs)
    (hspelled : ∀ p ∈ front, p.1.spell.toList <+: p.2) (back : List (Token × List Char)) :
    readStatements total ((front ++ back).map (·.1)) ((front ++ back).map (·.2)) =
      (readStatements total (back.map (·.1)) (back.map (·.2))).map (cs ++ ·) := by
  obtain ⟨groups, hgroups, h⟩ := hfront
  induction h generalizing front with
  | nil =>
    obtain rfl : front = [] := by simpa using hgroups
    simp only [List.nil_append]
    cases readStatements total _ _ <;> rfl
  | cons hc _ ih =>
    obtain ⟨first, front, rfl, rfl, hrest⟩ := List.map_eq_append_iff.1 hgroups
    have hfirst : ∀ p ∈ first, p.1.spell.toList <+: p.2 :=
      fun p hp => hspelled p (List.mem_append_left _ hp)
    have hfront : ∀ p ∈ front, p.1.spell.toList <+: p.2 :=
      fun p hp => hspelled p (List.mem_append_right _ hp)
    rw [List.append_assoc, readStatements_append total hc hfirst, ih hfront hrest]
    cases readStatements total _ _ <;> rfl

/-- The error on a line that stands `n` lines later. -/
def Error.shiftLine (n : Nat) : Error → Error
  | .invalidClause line snippet => .invalidClause (line + n) snippet
  | .unsupported line keyword => .unsupported (line + n) keyword
  | e => e

theorem lineOf_add {total : Nat} {text : List Char} (h : Text.lineFeeds text ≤ total) (n : Nat) :
    lineOf (total + n) text = lineOf total text + n := by
  unfold lineOf
  omega

/-- **Lines before the statements move their errors.** -/
theorem readStatements_add (n : Nat) {total : Nat} {ts : List Token} {starts : List (List Char)}
    (h : ∀ text ∈ starts, Text.lineFeeds text ≤ total) :
    readStatements (total + n) ts starts =
      (readStatements total ts starts).mapError (·.shiftLine n) := by
  have hfirst : ∀ {starts : List (List Char)}, (∀ text ∈ starts, Text.lineFeeds text ≤ total) →
      lineOf (total + n) (starts.headD []) = lineOf total (starts.headD []) + n := by
    intro starts h
    cases starts with
    | nil => exact lineOf_add (Nat.zero_le _) n
    | cons text starts => exact lineOf_add (h text List.mem_cons_self) n
  fun_induction readStatements total ts starts with
  | case1 =>
    rw [readStatements]
    rfl
  | case2 starts t ts text keyword hkeyword =>
    rw [readStatements]
    simp only [text] at hkeyword
    simp only [hkeyword]
    rw [hfirst h]
    rfl
  | case3 starts t ts text hkeyword hread =>
    rw [readStatements]
    simp only [text] at hkeyword
    simp only [hkeyword, hread]
    rw [hfirst h]
    rfl
  | case4 starts t ts text hkeyword first hread ih =>
    rw [readStatements]
    simp only [text] at hkeyword
    simp only [hkeyword, hread]
    rw [ih fun text htext => h text (List.mem_of_mem_drop htext)]
    cases readStatements total _ _ <;> rfl

/-- **What is read from two texts**: the clauses of both, or the error of the second on its line. -/
theorem readClauses_append {text : String} {cs : List Clause} (h : readClauses text = .ok cs)
    (more : String) :
    readClauses (text ++ "\n" ++ more) =
      ((readClauses more).mapError (·.shiftLine (1 + Text.lineFeeds text.toList))).map
        (cs ++ ·) := by
  obtain ⟨ts, hwritten, hdocument⟩ := readClauses_eq_ok_iff.1 h
  have htext : (text ++ "\n" ++ more).toList = text.toList ++ '\n' :: more.toList := by simp
  have htotal : Text.lineFeeds (text.toList ++ '\n' :: more.toList) =
      Text.lineFeeds more.toList + (1 + Text.lineFeeds text.toList) := by
    simp only [Text.lineFeeds, List.count_append, List.count_cons_self]
    omega
  have hfront : IsDocument
      (((Token.lex text.toList).map fun p => (p.1, p.2 ++ '\n' :: more.toList)).map (·.1)) cs := by
    rw [List.map_map]
    exact (Token.lex_of_written hwritten).symm ▸ hdocument
  have hspelled : ∀ p ∈ (Token.lex text.toList).map fun p => (p.1, p.2 ++ '\n' :: more.toList),
      p.1.spell.toList <+: p.2 := by
    intro p hp
    obtain ⟨q, hq, rfl⟩ := List.mem_map.1 hp
    exact (spelled_lex q hq).trans (List.prefix_append _ _)
  have hlines : ∀ rest ∈ (Token.lex more.toList).map (·.2),
      Text.lineFeeds rest ≤ Text.lineFeeds more.toList := by
    intro rest hrest
    obtain ⟨p, hp, rfl⟩ := List.mem_map.1 hrest
    exact (Token.suffix_of_mem_lex p hp).sublist.count_le _
  unfold readClauses
  simp only [htext]
  rw [Token.lex_append hwritten, readStatements_append_document _ hfront hspelled, htotal,
    readStatements_add _ hlines]

/-! ### Messages -/

/-- The message names a line and says what is wrong there. -/
def Error.Reports (e : Error) (line : Nat) (problem : String) : Prop :=
  e.message = "Parse error: line " ++ toString line ++ ": " ++ problem

theorem Error.shiftLine_zero (e : Error) : e.shiftLine 0 = e := by
  cases e <;> rfl

theorem Error.Reports.unique {e : Error} {line line' : Nat} {problem problem' : String}
    (h : e.Reports line problem) (h' : e.Reports line' problem') :
    line = line' ∧ problem = problem' := by
  have hdigits : ∀ (n : Nat) (s : String),
      (toString n ++ (": " ++ s)).toList.takeWhile Char.isDigit = Nat.toDigits 10 n := by
    intro n s
    have hlist : (toString n ++ (": " ++ s)).toList =
        Nat.toDigits 10 n ++ (':' :: ' ' :: s.toList) := by
      simp [Nat.toList_repr]
    have hdigit : ∀ d ∈ Nat.toDigits 10 n, d.isDigit = true := fun d hd =>
      Nat.isDigit_of_mem_toDigits (by decide) (by decide) hd
    rw [hlist, List.takeWhile_append_of_pos hdigit]
    exact List.append_nil _
  -- the number ends at the colon
  have heq := h.symm.trans h'
  simp only [String.append_assoc, String.append_right_inj] at heq
  have hline : toString line = toString line' := by
    rw [← String.toList_inj, Nat.toString_eq_repr, Nat.toString_eq_repr, Nat.toList_repr,
      Nat.toList_repr, ← hdigits line problem, heq, hdigits]
  rw [hline, String.append_right_inj, String.append_right_inj] at heq
  exact ⟨toString_inj.1 hline, heq⟩

theorem Error.reports_unsupported (line : Nat) (keyword : String) :
    (unsupported line keyword).Reports line (keyword ++ " statements are not supported") := by
  change "Parse error: line " ++ toString line ++ ": " ++ keyword ++
      " statements are not supported" = _
  exact String.append_assoc

theorem Error.reports_invalidClause (line : Nat) (snippet : String) :
    (invalidClause line snippet).Reports line ("invalid clause near '" ++ snippet ++ "'") := by
  have hcolon : ": invalid clause near '" = ": " ++ "invalid clause near '" := by decide
  change "Parse error: line " ++ toString line ++ ": invalid clause near '" ++ snippet ++ "'" =
    "Parse error: line " ++ toString line ++ ": " ++ ("invalid clause near '" ++ snippet ++ "'")
  simp only [hcolon, String.append_assoc]

/-- Reading fails with the message for a line, which moves with the error. -/
theorem exists_reports {total : Nat} {ts : List Token} {starts : List (List Char)} {e : Error}
    (h : readStatements total ts starts = .error e) :
    ∃ line problem, ∀ n, (e.shiftLine n).Reports (line + n) problem := by
  fun_induction readStatements total ts starts with
  | case1 => cases h
  | case2 starts t ts text keyword =>
    obtain rfl := Except.error.inj h
    exact ⟨lineOf total text, _, fun n => Error.reports_unsupported _ keyword⟩
  | case3 starts t ts text =>
    obtain rfl := Except.error.inj h
    exact ⟨lineOf total text, _, fun n => Error.reports_invalidClause _ (snippet text)⟩
  | case4 starts t ts text _ first _ ih =>
    refine ih ?_
    cases hothers : readStatements total first.rest _ with
    | error e' =>
      rw [hothers] at h
      exact h
    | ok others =>
      rw [hothers] at h
      cases h

/-- **Documents concatenate, and errors name the right line.**  After a text that can be read and a
line feed, another text has its clauses, or its message with the lines counted from the
beginning. -/
theorem documents_concatenate {text : String} {cs : List Clause} (h : readClauses text = .ok cs)
    (more : String) :
    (∀ ds, readClauses more = .ok ds → readClauses (text ++ "\n" ++ more) = .ok (cs ++ ds)) ∧
    ∀ e, readClauses more = .error e → (∃ line problem, e.Reports line problem) ∧
      ∃ e', readClauses (text ++ "\n" ++ more) = .error e' ∧
        ∀ line problem, e.Reports line problem →
        e'.Reports (line + 1 + Text.lineFeeds text.toList) problem := by
  rw [readClauses_append h]
  refine ⟨fun ds hds => by rw [hds]; rfl, fun e he => ?_⟩
  obtain ⟨line, problem, hreports⟩ := exists_reports he
  have hhere : e.Reports line problem := e.shiftLine_zero ▸ hreports 0
  refine ⟨⟨line, problem, hhere⟩, _, by rw [he]; rfl, fun line' problem' h' => ?_⟩
  obtain ⟨rfl, rfl⟩ := hhere.unique h'
  rw [Nat.add_assoc]
  exact hreports _

/-- A text that ends within a comment, and one that begins with an empty line. -/
theorem documents_concatenate_commented :
    readClauses "% q\ncnf(a,axiom,q). % open" =
      .ok [⟨"a", .axiomatic, [Literal.pos (.const "q")], none⟩] ∧
    readClauses "\nfof(b,axiom,q)." = .error (.unsupported 2 "fof") ∧
    readClauses ("% q\ncnf(a,axiom,q). % open" ++ "\n" ++ "% q\ncnf(a,axiom,q). % open") =
      .ok [⟨"a", .axiomatic, [Literal.pos (.const "q")], none⟩,
        ⟨"a", .axiomatic, [Literal.pos (.const "q")], none⟩] ∧
    ∃ e, readClauses ("% q\ncnf(a,axiom,q). % open" ++ "\n" ++ "\nfof(b,axiom,q).") = .error e ∧
      e.message = "Parse error: line 4: fof statements are not supported" := by
  have hliteral : IsLiteral [.lower "q"] [Literal.pos (.const "q")] :=
    .plain (.term (.const rfl) rfl)
  have hstates := @States.cnf _ IsLiteral (.lower "a") "a" "axiom" .axiomatic [.lower "q"] [] _
    rfl rfl (.single (.literal hliteral)) .absent
  have hinLine : ∀ c ∈ " q".toList, Token.isInLine c = true := List.all_eq_true.1 (by decide)
  have hbefore : Token.Skips "% q\ncnf(a,axiom,q). % open".toList "cnf(a,axiom,q). % open".toList :=
    .line hinLine (by rintro c ⟨⟩; rfl) (.blank rfl (.nothing _))
  have hopen : ∀ c ∈ " open".toList, Token.isInLine c = true := List.all_eq_true.1 (by decide)
  have hafter : Token.Skips " % open".toList [] :=
    .blank rfl (.line hopen (by simp) (.nothing _))
  have hwritten := Token.written_append hstates.wellSpaced (by decide) (by rintro c ⟨⟩; rfl)
    (.done hafter)
  have hfirst : readClauses "% q\ncnf(a,axiom,q). % open" =
      .ok [⟨"a", .axiomatic, [Literal.pos (.const "q")], none⟩] :=
    readClauses_eq_ok_iff.2 ⟨_, .skip hbefore hwritten, [_], rfl, .cons ⟨hstates, rfl⟩ .nil⟩
  have hsecond : readClauses "\nfof(b,axiom,q)." = .error (.unsupported 2 "fof") := by
    have hskip : Token.skipLayout "\nfof(b,axiom,q).".toList = 'f' :: "of(b,axiom,q).".toList :=
      (Token.skipLayout_of_skips (.blank rfl (.nothing _))).trans
        (Token.skipLayout_cons _ (beq_self_eq_true 'f') (by decide))
    unfold readClauses
    simp only [Token.lex_eq_cons hskip]
    rw [List.map_cons, List.map_cons, readStatements]
    rfl
  obtain ⟨-, e, he, hreports⟩ := (documents_concatenate hfirst _).2 _ hsecond
  have hmessage := hreports 2 _ (Error.reports_unsupported 2 "fof")
  exact ⟨hfirst, hsecond, (documents_concatenate hfirst _).1 _ hfirst, e, he,
    hmessage.trans (by decide)⟩

end Refutation
