import Refutation.Problem.Reader
import Refutation.Proofs.Problem.Reading
import Refutation.Proofs.Problem.Spelling

/-!
# The language of problem texts

A text derives a list of clauses if it spells tokens that the rules take as statements of these
clauses.  Reading clauses succeeds exactly on derivations, so a text has at most one value.  The
value depends only on the names, the roles and the literals: layout, comments, redundant parentheses
and annotations may be put in or left out.
-/

namespace Refutation

/-- The grammar derives the text with the given clauses. -/
def Derives (text : String) (cs : List Clause) : Prop :=
  ∃ ts, Token.Written ts text.toList ∧ IsDocument ts cs

/-- Statements with the same name, the same role and the same literals, as they are written. -/
def SameStatement (ts us : List Token) : Prop :=
  ∃ name role phrases, States IsPhrase ts name role phrases ∧ States IsPhrase us name role phrases

/-- Texts that differ only in layout, comments, parentheses and annotations. -/
def SameContent (text text' : String) : Prop :=
  ∃ gs hs, Token.Written gs.flatten text.toList ∧ Token.Written hs.flatten text'.toList ∧
    List.Forall₂ SameStatement gs hs

/-! ### Reading whole texts -/

/-- Every token is kept with a text that begins with its spelling. -/
theorem spelled_lex {cs : List Char} : ∀ p ∈ Token.lex cs, p.1.spell.toList <+: p.2 := by
  fun_induction Token.lex cs with
  | case1 => simp
  | case2 cs c rest _ ih =>
    rintro p (_ | ⟨_, hp⟩)
    · exact ⟨_, (Token.begins_scan c rest).spelled⟩
    · exact ih p hp

theorem States.exists_cons {α : Type} {L : List Token → List α → Prop} {ts : List Token}
    {name : String} {role : Role} {as : List α} (h : States L ts name role as) :
    ∃ us, ts = .lower "cnf" :: us := by
  cases h with
  | cnf => exact ⟨_, rfl⟩

theorem find?_unsupportedKeywords {text : List Char} (h : "cnf".toList <+: text) :
    (unsupportedKeywords.find? fun k => opensStatement k text) = none := by
  obtain ⟨rest, rfl⟩ := h
  rfl

theorem isDocument_nil {cs : List Clause} : IsDocument [] cs ↔ cs = [] := by
  constructor
  · rintro ⟨groups, hgroups, h⟩
    cases h with
    | nil => rfl
    | cons h _ =>
      obtain ⟨us, rfl⟩ := h.1.exists_cons
      simp at hgroups
  · rintro rfl
    exact ⟨[], rfl, .nil⟩

theorem isDocument_iff {t : Token} {ts : List Token} {cs : List Clause} :
    IsDocument (t :: ts) cs ↔ ∃ c cs' rest, Reads (readStatement (t :: ts)) c rest ∧
      IsDocument rest cs' ∧ cs = c :: cs' := by
  constructor
  · rintro ⟨groups, hgroups, h⟩
    cases h with
    | nil => simp at hgroups
    | @cons us c groups cs h hrest =>
      refine ⟨c, cs, groups.flatten, ?_, ⟨groups, rfl, hrest⟩, rfl⟩
      rw [hgroups]
      exact decides_readStatement.complete h _ fun _ _ => List.not_mem_nil
  · rintro ⟨c, cs, rest, h, ⟨groups, rfl, hrest⟩, rfl⟩
    obtain ⟨us, hus, hc⟩ := decides_readStatement.sound h
    exact ⟨us :: groups, hus, .cons hc hrest⟩

/-- A statement is read, and the tokens after it still stand beside their texts. -/
theorem readStatements_append (total : Nat) {front : List (Token × List Char)} {c : Clause}
    (hfront : IsStatement (front.map (·.1)) c) (hspelled : ∀ p ∈ front, p.1.spell.toList <+: p.2)
    (back : List (Token × List Char)) :
    readStatements total ((front ++ back).map (·.1)) ((front ++ back).map (·.2)) =
      (readStatements total (back.map (·.1)) (back.map (·.2))).map (c :: ·) := by
  obtain ⟨us, hus⟩ := hfront.1.exists_cons
  cases front with
  | nil => simp at hus
  | cons p front =>
    obtain ⟨t, text⟩ := p
    obtain rfl : t = .lower "cnf" := (List.cons.inj hus).1
    have htext : "cnf".toList <+: text := hspelled _ List.mem_cons_self
    have hread := decides_readStatement.complete hfront (back.map (·.1)) fun _ _ => List.not_mem_nil
    rw [← List.map_append, List.cons_append, List.map_cons] at hread
    obtain ⟨first, hread, rfl, hrest⟩ := hread
    have hdrop : (Token.lower "cnf" :: (front ++ back).map (·.1)).length - (back.map (·.1)).length =
        front.length + 1 := by
      simp only [List.length_cons, List.length_map, List.length_append]
      omega
    have hstarts : (text :: (front ++ back).map (·.2)).drop (front.length + 1) =
        back.map (·.2) := by
      rw [List.drop_succ_cons, ← List.map_drop, List.drop_left]
    rw [List.cons_append, List.map_cons, List.map_cons, readStatements]
    simp only [List.headD_cons, find?_unsupportedKeywords htext, hread, hrest]
    rw [hdrop, hstarts]
    rfl

theorem map_cons_eq_ok_iff {c : Clause} {x : Except Error (List Clause)} {cs : List Clause} :
    x.map (c :: ·) = .ok cs ↔ ∃ others, x = .ok others ∧ cs = c :: others := by
  cases x with
  | error e => simp [Except.map]
  | ok others => simp [Except.map, eq_comm]

theorem readStatements_eq_ok_iff (total : Nat) {lexemes : List (Token × List Char)}
    (hspelled : ∀ p ∈ lexemes, p.1.spell.toList <+: p.2) {cs : List Clause} :
    readStatements total (lexemes.map (·.1)) (lexemes.map (·.2)) = .ok cs ↔
      IsDocument (lexemes.map (·.1)) cs := by
  induction hlen : lexemes.length using Nat.strongRecOn generalizing lexemes cs with
  | ind n ih =>
    cases lexemes with
    | nil => simp [readStatements, isDocument_nil, eq_comm]
    | cons p lexemes =>
      cases hread : readStatement (p.1 :: lexemes.map (·.1)) with
      | none =>
        rw [List.map_cons, List.map_cons, isDocument_iff, readStatements, hread]
        cases unsupportedKeywords.find? _ <;> simp
      | some first =>
        obtain ⟨us, hus, hc⟩ := decides_readStatement.sound ⟨first, hread, rfl, rfl⟩
        obtain ⟨front, back, hsplit, rfl, hback⟩ :=
          List.map_eq_append_iff.1 (List.map_cons.trans hus)
        have hthere : ∀ p ∈ front ++ back, p.1.spell.toList <+: p.2 := hsplit ▸ hspelled
        have hshorter : back.length < n := by
          obtain ⟨vs, hvs⟩ := hc.1.exists_cons
          have hfront := congrArg List.length hvs
          rw [List.length_map, List.length_cons] at hfront
          rw [← hlen, hsplit, List.length_append]
          omega
        have hothers := fun others => @ih _ hshorter back
          (fun p hp => hthere p (List.mem_append_right _ hp)) others rfl
        have hstatement := readStatements_append total hc
          (fun p hp => hthere p (List.mem_append_left _ hp)) back
        rw [← hsplit] at hstatement
        rw [hstatement, map_cons_eq_ok_iff, List.map_cons, isDocument_iff, hread]
        simp only [hothers, reads_some, ← hback]
        constructor
        · rintro ⟨others, h, rfl⟩
          exact ⟨first.value, others, _, ⟨rfl, rfl⟩, h, rfl⟩
        · rintro ⟨c, others, rest, ⟨rfl, rfl⟩, hdoc, rfl⟩
          exact ⟨others, hdoc, rfl⟩

/-- **Clauses are read from a text exactly if the grammar derives them.** -/
theorem readClauses_eq_ok_iff {text : String} {cs : List Clause} :
    readClauses text = .ok cs ↔ Derives text cs := by
  rw [readClauses, readStatements_eq_ok_iff _ spelled_lex]
  constructor
  · intro h
    exact ⟨_, Token.written_iff.2 ⟨rfl, h.noStray⟩, h⟩
  · rintro ⟨ts, hts, h⟩
    rwa [(Token.written_iff.1 hts).1]

theorem Derives.unique {text : String} {cs ds : List Clause} (h : Derives text cs)
    (h' : Derives text ds) : cs = ds := by
  have heq := (readClauses_eq_ok_iff.2 h).symm.trans (readClauses_eq_ok_iff.2 h')
  exact Except.ok.inj heq

/-! ### Parentheses and annotations -/

/-- The literals that the tokens of a literal denote. -/
def literalsOf (ts : List Token) : List Literal := ((readLiteralList ts).map (·.value)).getD []

theorem IsLiteral.literalsOf_eq {ts : List Token} {ls : List Literal} (h : IsLiteral ts ls) :
    literalsOf ts = ls := by
  have hread := decides_readLiteralList.complete h [] (by simp [Stops])
  rw [List.append_nil] at hread
  obtain ⟨q, hq, rfl, -⟩ := hread
  simp [literalsOf, hq]

theorem SeparatedBy.of_isPhrase {ts : List Token} {parts : List (List (List Token))}
    (h : SeparatedBy .bar (fun ts ps => IsDisjunct IsLiteral ts (ps.flatMap literalsOf)) ts parts) :
    ∃ values, SeparatedBy .bar (IsDisjunct IsLiteral) ts values ∧
      values.flatten = parts.flatten.flatMap literalsOf := by
  refine ⟨parts.map (List.flatMap literalsOf), h.map (f := List.flatMap literalsOf) fun _ _ h => h,
    ?_⟩
  simp only [List.flatMap_def, List.map_flatten, List.flatten_flatten, List.map_map]
  rfl

/-- A disjunction denotes what its literals denote, in whatever parentheses they stand. -/
theorem IsDisjunct.of_isPhrase {ts : List Token} {phrases : List (List Token)}
    (h : IsDisjunct IsPhrase ts phrases) :
    IsDisjunct IsLiteral ts (phrases.flatMap literalsOf) := by
  refine h.induct (P := fun ts ps => IsDisjunct IsLiteral ts (ps.flatMap literalsOf)) ?_ fun h => ?_
  · rintro ts _ ⟨⟨ls, hls⟩, rfl⟩
    rw [List.flatMap_singleton, hls.literalsOf_eq]
    exact .literal hls
  · obtain ⟨values, hvalues, heq⟩ := h.of_isPhrase
    rw [← heq]
    exact .paren hvalues

theorem States.of_isPhrase {ts : List Token} {name : String} {role : Role}
    {phrases : List (List Token)} (h : States IsPhrase ts name role phrases) :
    States IsLiteral ts name role (phrases.flatMap literalsOf) := by
  cases h with
  | cnf hname hrole hbody hnote =>
    obtain ⟨values, hvalues, heq⟩ := (hbody.imp fun _ _ => IsDisjunct.of_isPhrase).of_isPhrase
    rw [← heq]
    exact .cnf hname hrole hvalues hnote

theorem exists_isDocument {gs hs : List (List Token)} (h : List.Forall₂ SameStatement gs hs) :
    ∃ cs, IsDocument gs.flatten cs ∧ IsDocument hs.flatten cs := by
  induction h with
  | nil => exact ⟨[], isDocument_nil.2 rfl, isDocument_nil.2 rfl⟩
  | cons h _ ih =>
    obtain ⟨name, role, phrases, hg, hh⟩ := h
    obtain ⟨cs, ⟨gs, hgs, hcs⟩, ⟨hs, hhs, hcs'⟩⟩ := ih
    refine ⟨⟨name, role, phrases.flatMap literalsOf, none⟩ :: cs, ?_, ?_⟩
    · exact ⟨_ :: gs, by rw [List.flatten_cons, List.flatten_cons, hgs],
        .cons ⟨hg.of_isPhrase, rfl⟩ hcs⟩
    · exact ⟨_ :: hs, by rw [List.flatten_cons, List.flatten_cons, hhs],
        .cons ⟨hh.of_isPhrase, rfl⟩ hcs'⟩

theorem SameContent.exists_derives {text text' : String} (h : SameContent text text') :
    ∃ cs, Derives text cs ∧ Derives text' cs := by
  obtain ⟨gs, hs, hg, hh, hsame⟩ := h
  obtain ⟨cs, hcs, hcs'⟩ := exists_isDocument hsame
  exact ⟨cs, ⟨_, hg, hcs⟩, ⟨_, hh, hcs'⟩⟩

end Refutation
