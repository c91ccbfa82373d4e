import Refutation.Token.Lexer
import Mathlib.Data.List.Chain

/-!
# How tokens are written

What a text says is fixed by two relations that mention no scanning: `Skips` removes layout from the
beginning of a text, and `Written` spells a list of tokens with layout before, between and after
them.  Words and numbers end only where they could not go on, so a text spells at most one list of
tokens, and `Token.lex` finds it.

* `skipLayout_of_skips` : layout is skipped whole, in whatever pieces it is taken.
* `scan_spell`, `begins_scan` : the scanner reads a token exactly from its spelling.
* `written_iff` : a text spells a list of tokens exactly if the lexer returns it.
-/

namespace Refutation

namespace Symbol

/-- A character that may begin a variable, followed by word characters. -/
def isVariableWord (name : String) : Bool :=
  match name.toList with
  | [] => false
  | c :: cs => isVariableStart c && cs.all isWordChar

/-- A name is of a kind given by its first character and the others. -/
theorem word_iff {p q : Char → Bool} {name : String} :
    (match name.toList with
      | [] => false
      | c :: cs => p c && cs.all q) = true ↔
      ∃ c cs, name = String.ofList (c :: cs) ∧ p c = true ∧ ∀ d ∈ cs, q d = true := by
  constructor
  · intro h
    cases hname : name.toList with
    | nil => simp [hname] at h
    | cons c cs =>
      exact ⟨c, cs, by rw [← hname, String.ofList_toList], by simpa [hname] using h⟩
  · rintro ⟨c, cs, rfl, hc, hcs⟩
    rw [String.toList_ofList]
    simpa using ⟨hc, hcs⟩

theorem isLowerWord_iff {name : String} : isLowerWord name = true ↔
    ∃ c cs, name = String.ofList (c :: cs) ∧ c.isLower = true ∧ ∀ d ∈ cs, isWordChar d = true :=
  word_iff

theorem isVariableWord_iff {name : String} : isVariableWord name = true ↔
    ∃ c cs, name = String.ofList (c :: cs) ∧ isVariableStart c = true ∧
      ∀ d ∈ cs, isWordChar d = true :=
  word_iff

theorem isNumber_iff {name : String} : isNumber name = true ↔
    ∃ c cs, name = String.ofList (c :: cs) ∧ c.isDigit = true ∧ ∀ d ∈ cs, d.isDigit = true :=
  word_iff

end Symbol

namespace Token

/-! ### The relations -/

/-- The first text is layout followed by the second one.  A line comment runs up to the end of the
line, a block comment up to the first `*/`. -/
inductive Skips : List Char → List Char → Prop
  | nothing (cs : List Char) : Skips cs cs
  | blank {c : Char} {cs rest : List Char} (hc : isLayout c = true) (h : Skips cs rest) :
      Skips (c :: cs) rest
  | line {body cs rest : List Char} (hbody : ∀ c ∈ body, isInLine c = true)
      (hend : ∀ c ∈ cs.head?, isInLine c = false) (h : Skips cs rest) :
      Skips ('%' :: (body ++ cs)) rest
  | block {body cs rest : List Char} (hbody : ¬ ['*', '/'] <:+: body)
      (h : Skips cs rest) : Skips ('/' :: '*' :: (body ++ '*' :: '/' :: cs)) rest

/-- The token can stand in a text: its word is of the token's kind, a quoted name is not empty. -/
def IsLegal : Token → Prop
  | lower word => Symbol.isLowerWord word = true
  | upper word => Symbol.isVariableWord word = true
  | number digits => Symbol.isNumber digits = true
  | quoted name => name ≠ ""
  | dollar word => Symbol.isLowerWord word = true
  | stray _ => False
  | _ => True

instance : DecidablePred IsLegal
  | lower word | dollar word => inferInstanceAs (Decidable (Symbol.isLowerWord word = true))
  | upper word => inferInstanceAs (Decidable (Symbol.isVariableWord word = true))
  | number digits => inferInstanceAs (Decidable (Symbol.isNumber digits = true))
  | quoted name => inferInstanceAs (Decidable (name ≠ ""))
  | stray _ => isFalse id
  | openParen | closeParen | openBracket | closeBracket | comma | dot | colon | bar | tilde | equal
  | notEqual => isTrue trivial

/-- The token cannot go on in the text that follows it: words and numbers are maximal. -/
def EndsBefore (rest : List Char) : Token → Prop
  | lower _ | upper _ | dollar _ => ∀ c ∈ rest.head?, Symbol.isWordChar c = false
  | number _ => ∀ c ∈ rest.head?, c.isDigit = false
  | _ => True

/-- The text spells the tokens, with layout before the first and after every one. -/
inductive Written : List Token → List Char → Prop
  | done {cs : List Char} (h : Skips cs []) : Written [] cs
  | token {t : Token} {ts : List Token} {cs rest : List Char}
      (h : Skips cs (t.spell.toList ++ rest)) (hlegal : t.IsLegal) (hend : t.EndsBefore rest)
      (hrest : Written ts rest) : Written (t :: ts) cs

theorem Skips.trans {cs mid rest : List Char} (h : Skips cs mid) (h' : Skips mid rest) :
    Skips cs rest := by
  induction h with
  | nothing => exact h'
  | blank hc _ ih => exact .blank hc (ih h')
  | line hbody hend _ ih => exact .line hbody hend (ih h')
  | block hbody _ ih => exact .block hbody (ih h')

theorem Written.skip {ts : List Token} {cs rest : List Char} (h : Skips cs rest)
    (hwritten : Written ts rest) : Written ts cs := by
  cases hwritten with
  | done h' => exact .done (h.trans h')
  | token h' hlegal hend hrest => exact .token (h.trans h') hlegal hend hrest

/-! ### Runs of characters -/

theorem of_mem_takeWhile (p : Char → Bool) (cs : List Char) : ∀ c ∈ cs.takeWhile p, p c = true :=
  List.all_eq_true.1 List.all_takeWhile

theorem of_mem_head?_dropWhile (p : Char → Bool) (cs : List Char) :
    ∀ c ∈ (cs.dropWhile p).head?, p c = false := by
  intro c hc
  have h := List.head?_dropWhile_not p cs
  rwa [Option.mem_def.1 hc] at h

theorem dropWhile_eq_self {p : Char → Bool} {cs : List Char} (h : ∀ c ∈ cs.head?, p c = false) :
    cs.dropWhile p = cs := by
  cases cs with
  | nil => rfl
  | cons c cs => rw [List.dropWhile_cons_of_neg (by simpa using h)]

theorem takeWhile_eq_nil {p : Char → Bool} {cs : List Char} (h : ∀ c ∈ cs.head?, p c = false) :
    cs.takeWhile p = [] := by
  cases cs with
  | nil => rfl
  | cons c cs => rw [List.takeWhile_cons_of_neg (by simpa using h)]

/-! ### Layout -/

theorem afterBlock?_append {body : List Char} (cs : List Char) (h : ¬ ['*', '/'] <:+: body) :
    afterBlock? (body ++ '*' :: '/' :: cs) = some cs := by
  induction body with
  | nil => rfl
  | cons c body ih =>
    have hbody : ¬ ['*', '/'] <:+: body := fun h' => h (h'.trans (List.suffix_cons c body).isInfix)
    rw [List.cons_append, afterBlock?]
    · exact ih hbody
    · -- the comment does not end at `c`
      intro rest rfl hrest
      cases body with
      | nil => simp at hrest
      | cons d body =>
        obtain ⟨rfl, -⟩ : d = '/' ∧ _ := by simpa using hrest
        exact h ⟨[], body, rfl⟩

theorem eq_of_afterBlock? {cs rest : List Char} (h : afterBlock? cs = some rest) :
    ∃ body, ¬ ['*', '/'] <:+: body ∧ cs = body ++ '*' :: '/' :: rest := by
  fun_induction afterBlock? cs with
  | case1 => simp at h
  | case2 cs =>
    obtain rfl : cs = rest := by simpa using h
    exact ⟨[], by simp, rfl⟩
  | case3 c cs hc ih =>
    obtain ⟨body, hbody, rfl⟩ := ih h
    refine ⟨c :: body, fun hinfix => ?_, rfl⟩
    obtain hprefix | hbody' := List.infix_cons_iff.1 hinfix
    · obtain ⟨more, hmore⟩ := hprefix
      obtain ⟨rfl, rfl⟩ : '*' = c ∧ '/' :: more = body := by simpa using hmore
      exact hc (more ++ '*' :: '/' :: rest) rfl rfl
    · exact hbody hbody'

theorem skips_skipLayout (cs : List Char) : Skips cs (skipLayout cs) := by
  fun_induction skipLayout cs with
  | case1 => exact .nothing []
  | case2 cs ih =>
    have h := Skips.line (of_mem_takeWhile isInLine cs) (of_mem_head?_dropWhile isInLine cs) ih
    rwa [List.takeWhile_append_dropWhile] at h
  | case3 cs rest h ih =>
    obtain ⟨body, hbody, rfl⟩ := eq_of_afterBlock? h
    exact .block hbody ih
  | case4 cs => exact .nothing _
  | case5 c cs _ _ hc ih => exact .blank hc ih
  | case6 c cs => exact .nothing _

/-- **Layout is skipped whole**, in whatever pieces it is taken. -/
theorem skipLayout_of_skips {cs rest : List Char} (h : Skips cs rest) :
    skipLayout cs = skipLayout rest := by
  induction h with
  | nothing => rfl
  | @blank c cs rest hc _ ih =>
    rw [← ih, skipLayout, if_pos hc]
    · rintro rfl
      exact absurd hc (by decide)
    · rintro _ rfl
      exact absurd hc (by decide)
  | @line body cs rest hbody hend _ ih =>
    rw [← ih, skipLayout, List.dropWhile_append_of_pos hbody, dropWhile_eq_self hend]
  | @block body cs rest hbody _ ih =>
    rw [← ih, skipLayout]
    split
    · next rest' h =>
      rw [afterBlock?_append cs hbody] at h
      rw [Option.some.inj h]
    · next h => simp [afterBlock?_append cs hbody] at h

/-- A text whose first character begins no layout is left as it is. -/
theorem skipLayout_cons {p : Char → Bool} {c : Char} (cs : List Char) (hc : p c = true)
    (hp : ['%', '/', ' ', '\t', '\r', '\n'].any p = false) : skipLayout (c :: cs) = c :: cs := by
  have hne : ∀ d ∈ ['%', '/', ' ', '\t', '\r', '\n'], c ≠ d := by
    rintro d hd rfl
    exact List.any_eq_false.1 hp c hd hc
  rw [skipLayout, if_neg (by simp [isLayout, hne])]
  · exact hne '%' (by decide)
  · exact fun _ h => absurd h (hne '/' (by decide))

/-! ### Quoted names -/

theorem unquote?_escape (name rest : List Char) :
    unquote? (Symbol.escape name ++ '\'' :: rest) = some (name, rest) := by
  induction name with
  | nil => rfl
  | cons c name ih =>
    rw [Symbol.escape]
    split
    · next hc => simp [unquote?, ih, by simpa using hc]
    · next hc =>
      obtain ⟨hb, hq⟩ : c ≠ '\\' ∧ c ≠ '\'' := by simpa using hc
      rw [List.cons_append, unquote?, ih] <;> simp_all

theorem eq_of_unquote? {cs name rest : List Char} (h : unquote? cs = some (name, rest)) :
    cs = Symbol.escape name ++ '\'' :: rest := by
  fun_induction unquote? cs generalizing name with
  | case1 => simp at h
  | case2 cs =>
    obtain ⟨rfl, rfl⟩ : [] = name ∧ cs = rest := by simpa using h
    rfl
  | case3 c cs hc ih =>
    obtain ⟨⟨n, r⟩, hp, he⟩ := Option.map_eq_some_iff.1 h
    obtain ⟨rfl, rfl⟩ : c :: n = name ∧ r = rest := by simpa using he
    rw [Symbol.escape, if_pos hc, ih hp]
    rfl
  | case4 => simp at h
  | case5 => simp at h
  | case6 c cs hq hb hb' ih =>
    obtain ⟨⟨n, r⟩, hp, he⟩ := Option.map_eq_some_iff.1 h
    obtain ⟨rfl, rfl⟩ : c :: n = name ∧ r = rest := by simpa using he
    have hc : c ≠ '\\' := by
      rintro rfl
      cases cs with
      | nil => exact hb' rfl rfl
      | cons d cs => exact hb d cs rfl rfl
    rw [Symbol.escape, if_neg (by simpa using ⟨hc, hq⟩), ih hp]
    rfl

/-! ### Single tokens -/

theorem isLower_eq (c : Char) : c.isLower = (decide (97 ≤ c.val) && decide (c.val ≤ 122)) := rfl

theorem isUpper_eq (c : Char) : c.isUpper = decide (65 ≤ c.val ∧ c.val ≤ 90) := rfl

theorem isDigit_eq (c : Char) : c.isDigit = (decide (48 ≤ c.val) && decide (c.val ≤ 57)) := rfl

theorem isLower_of_isVariableStart {c : Char} (h : Symbol.isVariableStart c = true) :
    c.isLower = false := by
  by_cases hc : c = '_'
  · subst hc
    decide
  · simp only [Symbol.isVariableStart, isUpper_eq, isLower_eq] at *
    grind

theorem isVariableStart_of_isDigit {c : Char} (h : c.isDigit = true) :
    c.isLower = false ∧ Symbol.isVariableStart c = false := by
  by_cases hc : c = '_'
  · subst hc
    exact absurd h (by decide)
  · simp only [Symbol.isVariableStart, isDigit_eq, isUpper_eq, isLower_eq] at *
    grind

/-- A run of characters is read back as a word if it can be no longer. -/
theorem word_append {p : Char → Bool} {cs rest : List Char} (c : Char) (hcs : ∀ d ∈ cs, p d = true)
    (hrest : ∀ d ∈ rest.head?, p d = false) :
    word p c (cs ++ rest) = String.ofList (c :: cs) ∧ (cs ++ rest).dropWhile p = rest := by
  rw [word, List.takeWhile_append_of_pos hcs, List.dropWhile_append_of_pos hcs,
    takeWhile_eq_nil hrest, dropWhile_eq_self hrest, List.append_nil]
  exact ⟨rfl, rfl⟩

theorem scan_lower {c : Char} {cs rest : List Char} (hc : c.isLower = true)
    (hcs : ∀ d ∈ cs, Symbol.isWordChar d = true)
    (hrest : ∀ d ∈ rest.head?, Symbol.isWordChar d = false) :
    scan c (cs ++ rest) = (.lower (String.ofList (c :: cs)), rest) := by
  obtain ⟨hword, hdrop⟩ := word_append c hcs hrest
  unfold scan
  rw [if_pos hc, hword, hdrop]

theorem scan_upper {c : Char} {cs rest : List Char} (hc : Symbol.isVariableStart c = true)
    (hcs : ∀ d ∈ cs, Symbol.isWordChar d = true)
    (hrest : ∀ d ∈ rest.head?, Symbol.isWordChar d = false) :
    scan c (cs ++ rest) = (.upper (String.ofList (c :: cs)), rest) := by
  obtain ⟨hword, hdrop⟩ := word_append c hcs hrest
  unfold scan
  rw [if_neg (by simp [isLower_of_isVariableStart hc]), if_pos hc, hword, hdrop]

theorem scan_number {c : Char} {cs rest : List Char} (hc : c.isDigit = true)
    (hcs : ∀ d ∈ cs, d.isDigit = true) (hrest : ∀ d ∈ rest.head?, d.isDigit = false) :
    scan c (cs ++ rest) = (.number (String.ofList (c :: cs)), rest) := by
  obtain ⟨hword, hdrop⟩ := word_append c hcs hrest
  obtain ⟨hl, hv⟩ := isVariableStart_of_isDigit hc
  unfold scan
  rw [if_neg (by simp [hl]), if_neg (by simp [hv]), if_pos hc, hword, hdrop]

theorem scan_dollar {c : Char} {cs rest : List Char} (hc : c.isLower = true)
    (hcs : ∀ d ∈ cs, Symbol.isWordChar d = true)
    (hrest : ∀ d ∈ rest.head?, Symbol.isWordChar d = false) :
    scan '$' (c :: (cs ++ rest)) = (.dollar (String.ofList (c :: cs)), rest) := by
  obtain ⟨hword, hdrop⟩ := word_append c hcs hrest
  have h : scan '$' (c :: (cs ++ rest)) = if c.isLower then
      (.dollar (word Symbol.isWordChar c (cs ++ rest)), (cs ++ rest).dropWhile Symbol.isWordChar)
      else (.stray '$', c :: (cs ++ rest)) := rfl
  rw [h, if_pos hc, hword, hdrop]

theorem scan_quoted {name : String} (hname : name ≠ "") (rest : List Char) :
    scan '\'' (Symbol.escape name.toList ++ '\'' :: rest) = (.quoted name, rest) := by
  unfold scan
  rw [if_neg (by decide), if_neg (by decide), if_neg (by decide)]
  simp only [unquote?_escape]
  cases hcs : name.toList with
  | nil => exact absurd (String.toList_eq_nil_iff.1 hcs) hname
  | cons c cs => simp only [← hcs, String.ofList_toList]

/-- **The scanner reads a token from its spelling**, and no layout stands before it. -/
theorem scan_spell {t : Token} {rest : List Char} (ht : t.IsLegal) (hend : t.EndsBefore rest) :
    ∃ c cs, t.spell.toList ++ rest = c :: cs ∧ skipLayout (c :: cs) = c :: cs ∧
      scan c cs = (t, rest) := by
  cases t with
  | lower word =>
    obtain ⟨c, cs, rfl, hc, hcs⟩ := Symbol.isLowerWord_iff.1 ht
    exact ⟨c, cs ++ rest, by simp [spell], skipLayout_cons _ hc (by decide), scan_lower hc hcs hend⟩
  | upper word =>
    obtain ⟨c, cs, rfl, hc, hcs⟩ := Symbol.isVariableWord_iff.1 ht
    exact ⟨c, cs ++ rest, by simp [spell], skipLayout_cons _ hc (by decide), scan_upper hc hcs hend⟩
  | number digits =>
    obtain ⟨c, cs, rfl, hc, hcs⟩ := Symbol.isNumber_iff.1 ht
    exact ⟨c, cs ++ rest, by simp [spell], skipLayout_cons _ hc (by decide),
      scan_number hc hcs hend⟩
  | quoted name =>
    refine ⟨'\'', _, ?_, skipLayout_cons _ (beq_self_eq_true _) (by decide), scan_quoted ht rest⟩
    simp [spell, Symbol.quoted]
  | dollar word =>
    obtain ⟨c, cs, rfl, hc, hcs⟩ := Symbol.isLowerWord_iff.1 ht
    refine ⟨'$', _, ?_, skipLayout_cons _ (beq_self_eq_true _) (by decide), scan_dollar hc hcs hend⟩
    simp [spell]
  | stray char => exact ht.elim
  | notEqual =>
    exact ⟨'!', '=' :: rest, rfl, skipLayout_cons _ (beq_self_eq_true _) (by decide), rfl⟩
  | _ => exact ⟨_, rest, rfl, skipLayout_cons _ (beq_self_eq_true _) (by decide), rfl⟩

/-- A token and what follows it, as they stand at the beginning of a text. -/
structure Begins (t : Token) (rest cs : List Char) : Prop where
  spelled : t.spell.toList ++ rest = cs
  maximal : t.EndsBefore rest
  legal : (∃ c, t = .stray c) ∨ t.IsLegal

theorem begins_scan (c : Char) (cs : List Char) : Begins (scan c cs).1 (scan c cs).2 (c :: cs) := by
  unfold scan
  split
  · next hc =>
    exact ⟨by simp [spell, word], of_mem_head?_dropWhile _ _,
      .inr (Symbol.isLowerWord_iff.2 ⟨c, _, rfl, hc, of_mem_takeWhile _ _⟩)⟩
  split
  · next hc =>
    exact ⟨by simp [spell, word], of_mem_head?_dropWhile _ _,
      .inr (Symbol.isVariableWord_iff.2 ⟨c, _, rfl, hc, of_mem_takeWhile _ _⟩)⟩
  split
  · next hc =>
    exact ⟨by simp [spell, word], of_mem_head?_dropWhile _ _,
      .inr (Symbol.isNumber_iff.2 ⟨c, _, rfl, hc, of_mem_takeWhile _ _⟩)⟩
  have hstray : ∀ (d : Char) (ds : List Char), Begins (.stray d) ds (d :: ds) := fun d ds =>
    ⟨by simp [spell], trivial, .inl ⟨d, rfl⟩⟩
  split
  case h_12 d rest _ _ _ =>
    split
    · next hd =>
      exact ⟨by simp [spell, word], of_mem_head?_dropWhile _ _,
        .inr (Symbol.isLowerWord_iff.2 ⟨d, _, rfl, hd, of_mem_takeWhile _ _⟩)⟩
    · exact hstray _ _
  case h_13 =>
    split
    · next d name rest h =>
      refine ⟨?_, trivial, .inr ?_⟩
      · simp [spell, Symbol.quoted, eq_of_unquote? h]
      · simp [IsLegal, ← String.toList_inj]
    · exact hstray _ _
  case h_14 => exact hstray _ _
  all_goals exact ⟨by simp [spell], trivial, .inr trivial⟩

/-! ### Whole texts -/

theorem lex_eq_nil {cs : List Char} (h : skipLayout cs = []) : lex cs = [] := by
  rw [lex]
  split
  · rfl
  · next h' => simp [h] at h'

theorem lex_eq_cons {c : Char} {cs rest : List Char} (h : skipLayout cs = c :: rest) :
    lex cs = ((scan c rest).1, c :: rest) :: lex (scan c rest).2 := by
  rw [lex]
  split
  · next h' => simp [h] at h'
  · next h' =>
    obtain ⟨rfl, rfl⟩ := List.cons.inj (h'.symm.trans h)
    rfl

theorem lex_of_written {ts : List Token} {cs : List Char} (h : Written ts cs) :
    (lex cs).map (·.1) = ts := by
  induction h with
  | done h => rw [lex_eq_nil ((skipLayout_of_skips h).trans (by rw [skipLayout]))]; rfl
  | token h hlegal hend _ ih =>
    obtain ⟨c, cs, hspell, hskip, hscan⟩ := scan_spell hlegal hend
    rw [lex_eq_cons ((skipLayout_of_skips (hspell ▸ h)).trans hskip), hscan, List.map_cons, ih]

theorem written_lex {cs : List Char} (h : ∀ t ∈ (lex cs).map (·.1), ∀ c, t ≠ .stray c) :
    Written ((lex cs).map (·.1)) cs := by
  fun_induction lex cs with
  | case1 cs hcs => exact .done (hcs ▸ skips_skipLayout cs)
  | case2 cs c rest hcs ih =>
    obtain ⟨hspelled, hmaximal, hlegal⟩ := begins_scan c rest
    have hskips := skips_skipLayout cs
    rw [hcs, ← hspelled] at hskips
    refine .token hskips ?_ hmaximal (ih fun t ht => h t ?_)
    · exact hlegal.resolve_left fun ⟨d, hd⟩ => h _ (by simp) d hd
    · exact List.mem_cons_of_mem _ ht

/-- **A text spells a list of tokens exactly if the lexer returns it** and no character is left
over. -/
theorem written_iff {ts : List Token} {cs : List Char} :
    Written ts cs ↔ (lex cs).map (·.1) = ts ∧ ∀ t ∈ ts, ∀ c, t ≠ .stray c := by
  constructor
  · intro h
    refine ⟨lex_of_written h, ?_⟩
    induction h with
    | done => simp
    | token _ hlegal _ _ ih =>
      rintro t (_ | ⟨_, ht⟩) c rfl
      · exact hlegal
      · exact ih _ ht c rfl
  · rintro ⟨rfl, h⟩
    exact written_lex h

/-! ### Texts without layout -/

/-- A token that ends every word before it. -/
def isPunctuation : Token → Bool
  | lower _ | upper _ | number _ | quoted _ | dollar _ | stray _ => false
  | _ => true

/-- The tokens can be written side by side: no two words meet, and no character is left over. -/
structure WellSpaced (ts : List Token) : Prop where
  noStray : ∀ t ∈ ts, ∀ c, t ≠ .stray c
  isChain : ts.IsChain fun t u => t.isPunctuation = true ∨ u.isPunctuation = true

theorem wellSpaced_nil : WellSpaced [] := ⟨by simp, .nil⟩

theorem wellSpaced_singleton {t : Token} (h : ∀ c, t ≠ .stray c) : WellSpaced [t] :=
  ⟨by simpa using h, .singleton t⟩

theorem WellSpaced.append_cons {sep : Token} (hsep : sep.isPunctuation = true) {ts us : List Token}
    (hts : WellSpaced ts) (hus : WellSpaced us) : WellSpaced (ts ++ sep :: us) := by
  have hstray : ∀ c, sep ≠ .stray c := by
    rintro c rfl
    simp [isPunctuation] at hsep
  refine ⟨?_, List.isChain_append.2 ⟨hts.isChain, List.isChain_cons.2 ⟨?_, hus.isChain⟩, ?_⟩⟩
  · intro t ht
    rcases List.mem_append.1 ht with ht | ht
    · exact hts.noStray t ht
    · rcases List.mem_cons.1 ht with rfl | ht
      · exact hstray
      · exact hus.noStray t ht
  · exact fun u _ => .inl hsep
  · intro t _ u hu
    obtain rfl : sep = u := by simpa using hu
    exact .inr hsep

theorem WellSpaced.cons {sep : Token} (hsep : sep.isPunctuation = true) {us : List Token}
    (hus : WellSpaced us) : WellSpaced (sep :: us) :=
  wellSpaced_nil.append_cons hsep hus

theorem isLegal_of_isPunctuation {t : Token} (h : t.isPunctuation = true) : t.IsLegal := by
  cases t <;> trivial

theorem endsBefore_of_isPunctuation {t : Token} (h : t.isPunctuation = true) (rest : List Char) :
    t.EndsBefore rest := by
  cases t <;> trivial

theorem endsBefore_of_head? {rest : List Char} (h : ∀ c ∈ rest.head?, Symbol.isWordChar c = false)
    (t : Token) : t.EndsBefore rest := by
  have hdigit : ∀ c ∈ rest.head?, c.isDigit = false := by
    intro c hc
    have := h c hc
    simp [Symbol.isWordChar, Char.isAlphanum] at this
    exact this.1.2
  cases t <;> first | exact h | exact hdigit | trivial

theorem head?_spell_append {t : Token} (h : t.isPunctuation = true) (rest : List Char) :
    ∀ c ∈ (t.spell.toList ++ rest).head?, Symbol.isWordChar c = false := by
  cases t <;> simp [isPunctuation] at h <;> simp [spell] <;> decide

theorem toList_spellAll_cons (t : Token) (ts : List Token) :
    (spellAll (t :: ts)).toList = t.spell.toList ++ (spellAll ts).toList := by
  simp [spellAll, String.join_cons]

theorem WellSpaced.tail {t : Token} {ts : List Token} (h : WellSpaced (t :: ts)) : WellSpaced ts :=
  ⟨fun u hu => h.noStray u (List.mem_cons_of_mem _ hu), h.isChain.tail⟩

theorem WellSpaced.endsBefore {t : Token} {ts : List Token} (h : WellSpaced (t :: ts))
    (rest : List Char) (hrest : ∀ c ∈ rest.head?, Symbol.isWordChar c = false) :
    t.EndsBefore ((spellAll ts).toList ++ rest) := by
  cases ts with
  | nil => exact endsBefore_of_head? (by simpa [spellAll] using hrest) t
  | cons u ts =>
    rcases (List.isChain_cons.1 h.isChain).1 u rfl with ht | hu
    · exact endsBefore_of_isPunctuation ht _
    · rw [toList_spellAll_cons, List.append_assoc]
      exact endsBefore_of_head? (head?_spell_append hu _) t

/-- **Tokens that do not run into each other are spelled without layout.** -/
theorem written_append {ts us : List Token} {rest : List Char} (hts : WellSpaced ts)
    (hlegal : ∀ t ∈ ts, t.IsLegal) (hrest : ∀ c ∈ rest.head?, Symbol.isWordChar c = false)
    (h : Written us rest) : Written (ts ++ us) ((spellAll ts).toList ++ rest) := by
  induction ts with
  | nil => simpa [spellAll] using h
  | cons t ts ih =>
    have hwritten := ih hts.tail fun u hu => hlegal u (List.mem_cons_of_mem _ hu)
    rw [toList_spellAll_cons, List.append_assoc]
    exact .token (.nothing _) (hlegal t List.mem_cons_self) (hts.endsBefore rest hrest) hwritten

end Token

end Refutation
