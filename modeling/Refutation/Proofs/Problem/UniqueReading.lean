import Refutation.Proofs.Problem.RoundTrip

/-!
# Printed text has one reading

The reader refuses some of what can be printed: a literal whose atom is a variable, and a symbol
without a name, which is written as two quotes.  Even so a printed disjunction tells which literals
it was printed from, whatever names stand in it, as long as its variables are words.

At each step the beginning of a text tells what was printed first, so that the rest is left over:
the first token of a text (`Token.spell_append_inj`), the first term of a list of tokens
(`Term.exists_readTerm`), the first literal (`SignedAtom.readSigned_tokens`).

* `Token.spellAll_inj` : a text tells its tokens.
* `Clause.literalTokens_inj` : tokens tell their literals.
* `Clause.renderLiterals_inj` : **a printed disjunction tells its literals.**
-/

namespace Refutation

/-! ### Tokens -/

namespace Token

/-- A token as printers write it: like one that can be read, but a quoted name may also be empty. -/
def IsPrinted (t : Token) : Prop := t.IsLegal ∨ t = .quoted ""

theorem isPrinted_ofName (name : String) : (ofName name).IsPrinted := by
  by_cases h : name = ""
  · subst h
    exact .inr (by decide)
  · exact .inl (isLegal_ofName h)

theorem isPrinted_of_isPunctuation {t : Token} (h : t.isPunctuation = true) : t.IsPrinted :=
  .inl (isLegal_of_isPunctuation h)

/-- The first token of a text is found by scanning; two quotes are found as a stray character. -/
theorem IsPrinted.scan_spell {t : Token} (ht : t.IsPrinted) {rest : List Char}
    (hend : t.EndsBefore rest) :
    ∃ c cs, t.spell.toList ++ rest = c :: cs ∧
      (scan c cs = (t, rest) ∨ t = .quoted "" ∧ (scan c cs).1 = .stray '\'') := by
  rcases ht with ht | rfl
  · obtain ⟨c, cs, hspell, -, hscan⟩ := Token.scan_spell ht hend
    exact ⟨c, cs, hspell, .inl hscan⟩
  · exact ⟨'\'', '\'' :: rest, rfl, .inr ⟨rfl, rfl⟩⟩

/-- **The beginning of a text tells its first token.** -/
theorem spell_append_inj {t u : Token} {rest rest' : List Char} (ht : t.IsPrinted)
    (hu : u.IsPrinted) (hend : t.EndsBefore rest) (hend' : u.EndsBefore rest')
    (h : t.spell.toList ++ rest = u.spell.toList ++ rest') : t = u ∧ rest = rest' := by
  have hstray : ∀ {t : Token}, t.IsPrinted → t ≠ .stray '\'' := by
    rintro _ (h | h) rfl
    · exact h
    · cases h
  obtain ⟨c, cs, hspell, hscan⟩ := ht.scan_spell hend
  obtain ⟨c', cs', hspell', hscan'⟩ := hu.scan_spell hend'
  obtain ⟨rfl, rfl⟩ := List.cons.inj (hspell.symm.trans (h.trans hspell'))
  rcases hscan with hscan | ⟨rfl, hscan⟩ <;> rcases hscan' with hscan' | ⟨rfl, hscan'⟩
  · exact Prod.mk.inj (hscan.symm.trans hscan')
  · rw [hscan] at hscan'
    exact absurd hscan' (hstray ht)
  · rw [hscan'] at hscan
    exact absurd hscan (hstray hu)
  · exact ⟨rfl, List.append_cancel_left h⟩

/-- **A text tells its tokens.** -/
theorem spellAll_inj {ts us : List Token} (hts : WellSpaced ts) (hus : WellSpaced us)
    (hprinted : ∀ t ∈ ts, t.IsPrinted) (hprinted' : ∀ u ∈ us, u.IsPrinted)
    (h : spellAll ts = spellAll us) : ts = us := by
  have hne : ∀ (t : Token) (ts : List Token), t.IsPrinted → spellAll [] ≠ spellAll (t :: ts) := by
    intro t ts ht heq
    have hend : t.EndsBefore [] := endsBefore_of_head? (by simp) t
    obtain ⟨c, cs, hspell, -⟩ := ht.scan_spell hend
    have hnil := congrArg String.toList heq
    rw [toList_spellAll_cons, (List.append_nil _).symm.trans hspell] at hnil
    simp [spellAll] at hnil
  induction ts generalizing us with
  | nil =>
    cases us with
    | nil => rfl
    | cons u us => exact absurd h (hne u us (hprinted' u List.mem_cons_self))
  | cons t ts ih =>
    cases us with
    | nil => exact absurd h.symm (hne t ts (hprinted t List.mem_cons_self))
    | cons u us =>
      obtain ⟨ht, hrest⟩ := List.forall_mem_cons.1 hprinted
      obtain ⟨hu, hrest'⟩ := List.forall_mem_cons.1 hprinted'
      have heq := congrArg String.toList h
      rw [toList_spellAll_cons, toList_spellAll_cons] at heq
      have hend := hts.endsBefore [] (by simp)
      have hend' := hus.endsBefore [] (by simp)
      rw [List.append_nil] at hend hend'
      obtain ⟨rfl, htext⟩ := spell_append_inj ht hu hend hend' heq
      rw [ih hts.tail hus.tail hrest hrest' (String.toList_inj.1 htext)]

end Token

/-! ### Terms and literals -/

/-- A printed term is read from the beginning of a list of tokens. -/
theorem Term.exists_readTerm (t : Term) (rest : List Token) (hrest : Stops [.openParen] rest) :
    ∃ q, readTerm (t.tokens ++ rest) = some q ∧ q.value = t ∧ q.rest = rest :=
  decides_readTerm.complete t.isTerm_tokens rest hrest

/-- Read a literal, whose atom may be a variable. -/
def readSigned (ts : List Token) : Option (SignedAtom × List Token) :=
  match readToken .tilde ts with
  | some tilde => (readTerm tilde.rest).map fun t => (⟨true, t.value⟩, t.rest)
  | none =>
    (readTerm ts).bind fun l =>
      match l.rest with
      | .equal :: rest =>
        (readTerm rest).map fun r => (⟨false, .app equality [l.value, r.value]⟩, r.rest)
      | .notEqual :: rest =>
        (readTerm rest).map fun r => (⟨true, .app equality [l.value, r.value]⟩, r.rest)
      | rest => some (⟨false, l.value⟩, rest)

namespace SignedAtom

theorem tokens_toLiteral (a : SignedAtom) :
    (∃ s t, a = ⟨false, .app equality [s, t]⟩ ∧
      a.toLiteral.tokens = s.tokens ++ .equal :: t.tokens) ∨
    (∃ s t, a = ⟨true, .app equality [s, t]⟩ ∧
      a.toLiteral.tokens = s.tokens ++ .notEqual :: t.tokens) ∨
    a.toLiteral.tokens = if a.negative then .tilde :: a.atom.tokens else a.atom.tokens := by
  by_cases heq : a.isEquation = true
  · obtain ⟨s, t, hatom⟩ := a.exists_args heq
    obtain ⟨negative, _⟩ := a
    obtain rfl := hatom
    cases negative with
    | false => exact .inl ⟨s, t, rfl, rfl⟩
    | true => exact .inr (.inl ⟨s, t, rfl, rfl⟩)
  · have htag : a.tag = none := by simp [tag, heq]
    exact .inr (.inr (by simp [Literal.tokens, toLiteral, htag]))

theorem wellSpaced_tokens (a : SignedAtom) : Token.WellSpaced a.toLiteral.tokens := by
  rcases a.tokens_toLiteral with ⟨s, t, -, h⟩ | ⟨s, t, -, h⟩ | h
  · exact h ▸ s.isTerm_tokens.wellSpaced.append_cons rfl t.isTerm_tokens.wellSpaced
  · exact h ▸ s.isTerm_tokens.wellSpaced.append_cons rfl t.isTerm_tokens.wellSpaced
  · rw [h]
    split
    · exact a.atom.isTerm_tokens.wellSpaced.cons rfl
    · exact a.atom.isTerm_tokens.wellSpaced

/-- **A printed literal is read back**, unless the next token could belong to it. -/
theorem readSigned_tokens (a : SignedAtom) {rest : List Token}
    (hrest : Stops [.openParen, .equal, .notEqual] rest) :
    readSigned (a.toLiteral.tokens ++ rest) = some (a, rest) := by
  have hopen : Stops [.openParen] rest := fun t ht hmem => hrest t ht (by simp_all)
  have htilde : ∀ (t : Term) us, readToken .tilde (t.tokens ++ us) = none := by
    intro t us
    obtain ⟨u, vs, hu, hhead⟩ := t.isTerm_tokens.exists_head
    refine readToken_eq_none_iff.2 fun h => ?_
    rw [hu] at h
    obtain rfl : u = .tilde := Option.some.inj h
    rcases hhead with ⟨x, hx⟩ | ⟨f, hf⟩
    · cases hx
    · cases hf
  rcases a.tokens_toLiteral with ⟨s, t, rfl, h⟩ | ⟨s, t, rfl, h⟩ | h
  · obtain ⟨l, hl, hs, hmid⟩ := s.exists_readTerm (.equal :: (t.tokens ++ rest)) (by simp [Stops])
    obtain ⟨r, hr, ht, hend⟩ := t.exists_readTerm rest hopen
    rw [h, List.append_assoc, List.cons_append, readSigned, htilde]
    simp [hl, hs, hmid, hr, ht, hend]
  · obtain ⟨l, hl, hs, hmid⟩ :=
      s.exists_readTerm (.notEqual :: (t.tokens ++ rest)) (by simp [Stops])
    obtain ⟨r, hr, ht, hend⟩ := t.exists_readTerm rest hopen
    rw [h, List.append_assoc, List.cons_append, readSigned, htilde]
    simp [hl, hs, hmid, hr, ht, hend]
  · obtain ⟨negative, atom⟩ := a
    obtain ⟨l, hl, ht, hend⟩ := atom.exists_readTerm rest hopen
    cases negative with
    | true =>
      rw [h, if_pos rfl, List.cons_append, readSigned, readToken_cons]
      simp [Parsed.first, hl, ht, hend]
    | false =>
      rw [h, if_neg (by simp), readSigned, htilde]
      simp only [hl, Option.bind_some, ht, hend]
      -- no equation goes on here
      split
      · exact absurd (by simp) (hrest .equal rfl)
      · exact absurd (by simp) (hrest .notEqual rfl)
      · rfl

end SignedAtom

/-! ### Disjunctions -/

theorem Token.separated_cons (sep : Token) (group : List Token) (groups : List (List Token)) :
    separated sep (group :: groups) =
      group ++ if groups = [] then [] else sep :: separated sep groups := by
  cases groups <;> simp [separated]

theorem Token.head?_separated_tail (sep : Token) (groups : List (List Token)) :
    ∀ t ∈ (if groups = [] then [] else sep :: separated sep groups).head?, t = sep := by
  intro t ht
  split at ht
  · cases ht
  · exact (Option.some.inj ht).symm

/-- If the members can be read back one by one, so can the list of them. -/
theorem Token.separated_inj {α : Type} {sep : Token} {f : α → List Token}
    {read : List Token → Option (α × List Token)}
    (hread : ∀ a rest, (∀ t ∈ rest.head?, t = sep) → read (f a ++ rest) = some (a, rest))
    {as bs : List α} (has : as ≠ []) (hbs : bs ≠ [])
    (h : separated sep (as.map f) = separated sep (bs.map f)) : as = bs := by
  induction as generalizing bs with
  | nil => exact absurd rfl has
  | cons a as ih =>
    cases bs with
    | nil => exact absurd rfl hbs
    | cons b bs =>
      rw [List.map_cons, List.map_cons, separated_cons, separated_cons] at h
      have hfirst := (hread a _ (head?_separated_tail sep (as.map f))).symm.trans
        ((congrArg read h).trans (hread b _ (head?_separated_tail sep (bs.map f))))
      obtain ⟨rfl, hrest⟩ := Prod.mk.inj (Option.some.inj hfirst)
      by_cases has : as = [] <;> by_cases hbs : bs = []
      · rw [has, hbs]
      · simp [has, hbs] at hrest
      · simp [has, hbs] at hrest
      · simp only [List.map_eq_nil_iff, has, hbs, if_false, List.cons.injEq, true_and] at hrest
        rw [ih has hbs hrest]

namespace Clause

theorem literalTokens_nil : literalTokens [] = [.dollar "false"] := rfl

theorem literalTokens_toLiteral {as : List SignedAtom} (h : as ≠ []) :
    literalTokens (as.map (·.toLiteral)) = Token.separated .bar (as.map (·.toLiteral.tokens)) := by
  rw [literalTokens, if_neg (by simpa using h), List.map_map]
  rfl

/-- **Tokens tell their literals.** -/
theorem literalTokens_inj {as bs : List SignedAtom}
    (h : literalTokens (as.map (·.toLiteral)) = literalTokens (bs.map (·.toLiteral))) :
    as = bs := by
  have hread : ∀ (a : SignedAtom) rest, (∀ t ∈ rest.head?, t = Token.bar) →
      readSigned (a.toLiteral.tokens ++ rest) = some (a, rest) := by
    intro a rest hrest
    refine a.readSigned_tokens fun t ht hmem => ?_
    obtain rfl := hrest t ht
    simp at hmem
  -- the sign of the empty disjunction begins no literal
  have hempty : ∀ {as : List SignedAtom}, as ≠ [] →
      literalTokens (as.map (·.toLiteral)) ≠ literalTokens [] := by
    intro as has heq
    cases as with
    | nil => exact has rfl
    | cons a as =>
      rw [literalTokens_toLiteral has, List.map_cons, Token.separated_cons] at heq
      have hnone : readSigned (literalTokens []) = none := by
        simp [literalTokens_nil, readSigned, readToken, readTerm, readName, Token.name?]
      rw [← heq, hread] at hnone
      · cases hnone
      · exact Token.head?_separated_tail _ _
  by_cases has : as = [] <;> by_cases hbs : bs = []
  · rw [has, hbs]
  · subst has
    exact absurd h.symm (hempty hbs)
  · subst hbs
    exact absurd h (hempty has)
  · rw [literalTokens_toLiteral has, literalTokens_toLiteral hbs] at h
    exact Token.separated_inj hread has hbs h

theorem wellSpaced_literalTokens (as : List SignedAtom) :
    Token.WellSpaced (literalTokens (as.map (·.toLiteral))) := by
  by_cases has : as = []
  · subst has
    exact Token.wellSpaced_singleton (by simp)
  · rw [literalTokens_toLiteral has]
    have hseparated : SeparatedBy .bar (fun ts (_ : SignedAtom) => Token.WellSpaced ts)
        (Token.separated .bar (as.map (·.toLiteral.tokens))) as :=
      .of_separated has fun a _ => a.wellSpaced_tokens
    exact hseparated.wellSpaced rfl fun _ _ h => h

theorem isPrinted_of_mem_literalTokens {as : List SignedAtom}
    (has : ∀ a ∈ as, ∀ x ∈ a.atom.occurrences, Symbol.isVariableWord x = true) :
    ∀ t ∈ literalTokens (as.map (·.toLiteral)), t.IsPrinted := by
  by_cases hne : as = []
  · subst hne
    simpa [literalTokens] using .inl (by decide)
  · rw [literalTokens_toLiteral hne]
    refine Token.forall_mem_separated (.inl trivial) (List.forall_mem_map.2 fun a ha => ?_)
    exact Literal.forall_mem_tokens (fun _ => Token.isPrinted_of_isPunctuation)
      (fun o _ => Token.isPrinted_ofName o.symbol) fun x hx => .inl (has a ha x hx)

/-- **A printed disjunction tells its literals**, if its variables are words. -/
theorem renderLiterals_inj {as bs : List SignedAtom}
    (has : ∀ a ∈ as, ∀ x ∈ a.atom.occurrences, Symbol.isVariableWord x = true)
    (hbs : ∀ b ∈ bs, ∀ x ∈ b.atom.occurrences, Symbol.isVariableWord x = true)
    (h : (Clause.of (as.map (·.toLiteral))).renderLiterals =
      (Clause.of (bs.map (·.toLiteral))).renderLiterals) :
    as = bs :=
  literalTokens_inj (Token.spellAll_inj (wellSpaced_literalTokens as) (wellSpaced_literalTokens bs)
    (isPrinted_of_mem_literalTokens has) (isPrinted_of_mem_literalTokens hbs) h)

end Clause

end Refutation
