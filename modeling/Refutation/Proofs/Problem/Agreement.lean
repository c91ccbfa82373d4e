import Refutation.Proofs.Problem.ChoiceReader
import Refutation.Proofs.Problem.Language

/-!
# The two readers agree

Ordered choice never goes back on a part that was left out or on an alternative that was taken, so
what it accepts could differ from the grammar on either side.  Here it does not: every phrase that
is read is a phrase of the grammar (`SoundBelow`), and every phrase of the grammar is read whole
unless a token follows that extends it (`IsReadBy`).  Statements end with a full stop, which nothing
extends.

* `TextReader.cnfStatement_iff` : exactly the statements of the grammar are read.
* `TextReader.parseClauses_eq` : **both readers give the same clauses or the same error on every
  text.**
-/

namespace Refutation

namespace Token

/-- The tokens stand one after the other at the beginning of a text, and after them comes `rest`. -/
def Spells : List Token → List Char → List Char → Prop
  | [], cs, rest => cs = rest
  | t :: ts, cs, rest => ∃ mid, t.StandsAt cs mid ∧ Spells ts mid rest

variable {t : Token} {ts us : List Token} {cs rest : List Char}

theorem spells_cons {mid : List Char} (ht : t.StandsAt cs mid) (h : Spells ts mid rest) :
    Spells (t :: ts) cs rest := ⟨mid, ht, h⟩

theorem spells_singleton : Spells [t] cs rest ↔ t.StandsAt cs rest := exists_eq_right

theorem spells_append :
    Spells (ts ++ us) cs rest ↔ ∃ mid, Spells ts cs mid ∧ Spells us mid rest := by
  induction ts generalizing cs with
  | nil => simp [Spells]
  | cons t ts ih =>
    constructor
    · rintro ⟨after, ht, h⟩
      obtain ⟨mid, hts, hus⟩ := ih.1 h
      exact ⟨mid, ⟨after, ht, hts⟩, hus⟩
    · rintro ⟨mid, ⟨after, ht, hts⟩, hus⟩
      exact ⟨after, ht, ih.2 ⟨mid, hts, hus⟩⟩

theorem spells_enclosed {o c : Token} {mid mid' : List Char} (ho : o.StandsAt cs mid)
    (hts : Spells ts mid mid') (hc : c.StandsAt mid' rest) : Spells (o :: (ts ++ [c])) cs rest :=
  ⟨mid, ho, spells_append.2 ⟨mid', hts, spells_singleton.2 hc⟩⟩

/-! ### Tokens and the lexer -/

theorem skipLayout_skipLayout (cs : List Char) : skipLayout (skipLayout cs) = skipLayout cs :=
  (skipLayout_of_skips (skips_skipLayout cs)).symm

theorem lex_skipLayout (cs : List Char) : lex (skipLayout cs) = lex cs := by
  cases h : skipLayout cs with
  | nil => rw [lex_eq_nil h, lex_eq_nil (by rw [skipLayout])]
  | cons c rest =>
    have hskip : skipLayout (c :: rest) = c :: rest := by rw [← h, skipLayout_skipLayout]
    rw [lex_eq_cons h, lex_eq_cons hskip]

theorem StandsAt.skipLayout_eq (h : t.StandsAt cs rest) : skipLayout rest = rest := by
  obtain ⟨raw, -, rfl⟩ := h
  exact skipLayout_skipLayout raw

theorem StandsAt.lex_eq (h : t.StandsAt cs rest) : lex cs = (t, cs) :: lex rest := by
  obtain ⟨raw, hopens, rfl⟩ := h
  obtain ⟨c, cs, rfl, hskip, hscan⟩ := hopens.exists_scan
  rw [lex_eq_cons hskip, hscan, lex_skipLayout]

theorem Spells.skipLayout_eq (h : Spells ts cs rest) (hcs : skipLayout cs = cs) :
    skipLayout rest = rest := by
  induction ts generalizing cs with
  | nil => exact h ▸ hcs
  | cons t ts ih =>
    obtain ⟨mid, ht, h⟩ := h
    exact ih h ht.skipLayout_eq

theorem Spells.exists_lex (h : Spells ts cs rest) :
    ∃ front, lex cs = front ++ lex rest ∧ front.map (·.1) = ts := by
  induction ts generalizing cs with
  | nil => exact ⟨[], congrArg lex h, rfl⟩
  | cons t ts ih =>
    obtain ⟨mid, ht, h⟩ := h
    obtain ⟨front, hfront, rfl⟩ := ih h
    exact ⟨(t, cs) :: front, by rw [ht.lex_eq, hfront]; rfl, rfl⟩

/-- The first token of the lexer stands at the beginning of the text. -/
theorem exists_standsAt (hcs : skipLayout cs = cs) (hlex : (lex cs).map (·.1) = t :: ts)
    (ht : ∀ c, t ≠ .stray c) : ∃ rest, t.StandsAt cs rest ∧ (lex rest).map (·.1) = ts := by
  cases cs with
  | nil => simp [lex_eq_nil hcs] at hlex
  | cons c cs =>
    rw [lex_eq_cons hcs] at hlex
    obtain ⟨rfl, rfl⟩ := List.cons.inj hlex
    obtain ⟨hspelled, hmaximal, hlegal⟩ := begins_scan c cs
    have hlegal := hlegal.resolve_left fun ⟨d, hd⟩ => ht d hd
    exact ⟨_, ⟨_, ⟨hspelled.symm, hlegal, hmaximal⟩, rfl⟩, by rw [lex_skipLayout]⟩

theorem exists_spells (hcs : skipLayout cs = cs) (hlex : (lex cs).map (·.1) = ts ++ us)
    (hts : ∀ t ∈ ts, ∀ c, t ≠ .stray c) :
    ∃ rest, Spells ts cs rest ∧ (lex rest).map (·.1) = us := by
  induction ts generalizing cs with
  | nil => exact ⟨cs, rfl, hlex⟩
  | cons t ts ih =>
    obtain ⟨mid, ht, hmid⟩ := exists_standsAt hcs hlex (hts t List.mem_cons_self)
    obtain ⟨rest, hrest, hus⟩ := ih ht.skipLayout_eq hmid fun u hu =>
      hts u (List.mem_cons_of_mem _ hu)
    exact ⟨rest, ⟨mid, ht, hrest⟩, hus⟩

end Token

namespace TextReader

open Token (Spells skipLayout spells_cons spells_singleton spells_append spells_enclosed)

variable {α β : Type} {p : TextReader α} {R : List Token → α → Prop} {t sep : Token}
  {us extending : List Token} {cs rest : List Char} {n : Nat}

/-! ### Phrases and what reads them -/

/-- No word goes on in the text. -/
def EndsWord (rest : List Char) : Prop := ∀ c ∈ rest.head?, Symbol.isWordChar c = false

/-- None of the given tokens comes next. -/
def Stops (extending : List Token) (rest : List Char) : Prop :=
  ∀ t ∈ extending, ∀ after, ¬t.StandsAt rest after

/-- The phrase is read whole, with the given value, if no token of `extending` follows. -/
def IsReadBy (p : TextReader α) (extending us : List Token) (a : α) : Prop :=
  ∀ cs rest, Spells us cs rest → Stops extending rest → p cs = some (a, rest)

/-- From fewer than `n` characters only phrases of `R` are read, if the last word ends with the
phrase. -/
def SoundBelow (n : Nat) (p : TextReader α) (R : List Token → α → Prop) : Prop :=
  ∀ cs, cs.length < n → ∀ a rest, p cs = some (a, rest) → EndsWord rest →
    ∃ us, Spells us cs rest ∧ R us a

theorem soundBelow_zero : SoundBelow 0 p R := fun _ h => absurd h (Nat.not_lt_zero _)

theorem endsWord_of_standsAt (ht : t.isPunctuation = true) (h : t.StandsAt cs rest) :
    EndsWord cs := by
  obtain ⟨raw, ⟨rfl, -⟩, -⟩ := h
  exact Token.head?_spell_append ht raw

theorem endsWord_of_skipLayout {raw : List Char} (h : EndsWord (skipLayout raw)) :
    EndsWord raw := by
  cases raw with
  | nil => exact fun c hc => absurd hc (by simp)
  | cons c raw =>
    rintro d hd
    obtain rfl : c = d := by simpa using hd
    by_contra hc
    have hc : Symbol.isWordChar c = true := by simpa using hc
    rw [Token.skipLayout_cons raw hc (by decide)] at h
    exact absurd (h c rfl) (by simp [hc])

theorem stops_of_standsAt (h : t.StandsAt cs rest) (ht : t ∉ extending) : Stops extending cs := by
  intro u hu after hafter
  exact ht ((h.unique hafter).1 ▸ hu)

theorem Stops.mono {extending' : List Token} (h : Stops extending' rest)
    (hsub : extending ⊆ extending') : Stops extending rest :=
  fun t ht => h t (hsub ht)

/-! ### Marks -/

section Marks

variable {c : Char} {word : String}

theorem sym_eq_some (hspell : t.spell.toList = [c]) (ht : t.isPunctuation = true)
    (h : t.StandsAt cs rest) : sym c cs = some (c, rest) :=
  (sym_iff hspell ht).2 ⟨rfl, h⟩

theorem sym_eq_none (hspell : t.spell.toList = [c]) (ht : t.isPunctuation = true)
    (h : ∀ after, ¬t.StandsAt cs after) : sym c cs = none := by
  rw [Option.eq_none_iff_forall_ne_some]
  rintro ⟨x, after⟩ hread
  exact h after ((sym_iff hspell ht).1 hread).2

theorem sym_eq_none_of_standsAt {u : Token} (hspell : u.spell.toList = [c])
    (hu : u.isPunctuation = true) (h : t.StandsAt cs rest) (hne : t ≠ u) : sym c cs = none :=
  sym_eq_none hspell hu fun _ hafter => hne (h.unique hafter).1

theorem tag_of_standsAt (hword : t.spell = word) (h : t.StandsAt cs rest) :
    terminated (tag word) junk cs = some ((), rest) := by
  obtain ⟨raw, hopens, rfl⟩ := h
  exact terminated_junk_iff.2 ⟨raw, tag_eq_some_iff.2 (hword ▸ hopens.spelled), rfl⟩

theorem standsAt_of_tag {u : Unit} (hword : t.spell = word) (hlegal : t.IsLegal)
    (hend : t.isPunctuation = true ∨ EndsWord rest)
    (h : terminated (tag word) junk cs = some (u, rest)) : t.StandsAt cs rest := by
  obtain ⟨raw, htag, rfl⟩ := terminated_junk_iff.1 h
  refine ⟨raw, ⟨hword ▸ tag_eq_some_iff.1 htag, hlegal, ?_⟩, rfl⟩
  rcases hend with ht | hend
  · exact Token.endsBefore_of_isPunctuation ht raw
  · exact Token.endsBefore_of_head? (endsWord_of_skipLayout hend) t

theorem tag_eq_none (hword : t.spell = word) (ht : t.isPunctuation = true)
    (h : ∀ after, ¬t.StandsAt cs after) : terminated (tag word) junk cs = none := by
  rw [Option.eq_none_iff_forall_ne_some]
  rintro ⟨x, after⟩ hread
  exact h after (standsAt_of_tag hword (Token.isLegal_of_isPunctuation ht) (.inl ht) hread)

theorem delimited_sym_iff {o : Token} {d : Char} {a : α} (ho : o.spell.toList = [c])
    (ho' : o.isPunctuation = true) (ht : t.spell.toList = [d]) (ht' : t.isPunctuation = true) :
    delimited (sym c) p (sym d) cs = some (a, rest) ↔ ∃ mid mid', o.StandsAt cs mid ∧
      p mid = some (a, mid') ∧ t.StandsAt mid' rest := by
  simp only [delimited_eq_some_iff, sym_iff ho ho', sym_iff ht ht']
  constructor
  · rintro ⟨x, mid, y, mid', ⟨-, hopen⟩, hp, -, hclose⟩
    exact ⟨mid, mid', hopen, hp, hclose⟩
  · rintro ⟨mid, mid', hopen, hp, hclose⟩
    exact ⟨c, mid, d, mid', ⟨rfl, hopen⟩, hp, rfl, hclose⟩

theorem preceded_eq_none {q : TextReader β} (h : p cs = none) : preceded p q cs = none := by
  rw [preceded, map, pair, h]
  rfl

theorem opt_eq_none (h : p cs = none) : opt p cs = some (none, cs) := by rw [opt, h]

theorem opt_eq_some {a : α} (h : p cs = some (a, rest)) : opt p cs = some (some a, rest) := by
  rw [opt, h]

end Marks

/-! ### Phrases with marks between them -/

section Separated

variable {c : Char}

theorem soundBelow_separatedList1 (hspell : sep.spell.toList = [c])
    (hsep : sep.isPunctuation = true) (hp : Shrinks p) (h : SoundBelow n p R) :
    SoundBelow n (separatedList1 (sym c) p) (SeparatedBy sep R) := by
  intro cs hcs as rest hread hend
  induction hlen : cs.length using Nat.strongRecOn generalizing cs as with
  | ind k ih =>
    obtain ⟨a, mid, ha, ⟨rfl, rfl⟩ | ⟨x, after, as, hmark, -, has, rfl⟩⟩ :=
      separatedList1_eq_some hread
    · obtain ⟨us, hus, hR⟩ := h cs hcs a _ ha hend
      exact ⟨us, hus, .single hR⟩
    · have hstands := ((sym_iff hspell hsep).1 hmark).2
      obtain ⟨us, hus, hR⟩ := h cs hcs a mid ha (endsWord_of_standsAt hsep hstands)
      have hmid := hp cs a mid ha
      have hafter := hstands.length_lt
      obtain ⟨vs, hvs, hRs⟩ := ih after.length (by omega) after (by omega) as has rfl
      exact ⟨us ++ sep :: vs, spells_append.2 ⟨mid, hus, after, hstands, hvs⟩, .cons hR hRs⟩

theorem isReadBy_separatedList1 (hspell : sep.spell.toList = [c]) (hsep : sep.isPunctuation = true)
    (hp : Shrinks p) (hne : sep ∉ extending) {as : List α}
    (h : SeparatedBy sep (IsReadBy p extending) us as) :
    IsReadBy (separatedList1 (sym c) p) (sep :: extending) us as := by
  induction h with
  | single h =>
    intro cs rest hspells hrest
    have hmark := sym_eq_none hspell hsep (hrest sep List.mem_cons_self)
    exact separatedList1_single (h cs rest hspells (hrest.mono (List.subset_cons_self _ _))) hmark
  | cons h _ ih =>
    intro cs rest hspells hrest
    obtain ⟨mid, hus, after, hstands, hvs⟩ := spells_append.1 hspells
    exact separatedList1_cons hp (h cs mid hus (stops_of_standsAt hstands hne))
      (sym_eq_some hspell hsep hstands) hstands.length_lt (ih after rest hvs hrest)

end Separated

/-! ### Terms -/

theorem soundBelow_term (n : Nat) : SoundBelow n term IsTerm := by
  induction n with
  | zero => exact soundBelow_zero
  | succ n ih =>
    have hlist : SoundBelow n (separatedList1 (sym ',') term) (SeparatedBy .comma IsTerm) :=
      soundBelow_separatedList1 rfl rfl shrinks_term ih
    intro cs hcs t rest h hend
    rw [term_eq, alt_eq_some_iff] at h
    rcases h with h | ⟨-, h⟩
    · obtain ⟨x, rfl, hx⟩ := variableTerm_iff.1 h
      exact ⟨[.upper x], spells_singleton.2 hx, .var x⟩
    · obtain ⟨⟨f, args⟩, hpair, rfl⟩ := map_eq_some_iff.1 h
      obtain ⟨mid, hsymbol, hopt⟩ := pair_eq_some_iff.1 hpair
      obtain ⟨u, hu, hname⟩ := symbolName_iff.1 hsymbol
      rcases opt_eq_some_iff.1 hopt with ⟨args, hparen, rfl⟩ | ⟨-, rfl, rfl⟩
      · obtain ⟨inner, outer, hopen, hargs, hclose⟩ :=
          (delimited_sym_iff (o := .openParen) (t := .closeParen) rfl rfl rfl rfl).1 hparen
        have hinner := hopen.length_lt
        have hmid := hname.length_lt
        obtain ⟨us, hus, hR⟩ := hlist inner (by omega) args outer hargs
          (endsWord_of_standsAt rfl hclose)
        exact ⟨_, spells_cons hname (spells_enclosed hopen hus hclose), .app hu hR⟩
      · exact ⟨[u], spells_singleton.2 hname, .const hu⟩

theorem term_eq_some {f : String} {args : Option (List Term)} {mid : List Char}
    (ht : t.name? = some f) (hname : t.StandsAt cs mid)
    (hargs : opt (arguments term) mid = some (args, rest)) :
    term cs = some (.app f (args.getD []), rest) := by
  have hvar : variableTerm cs = none := by
    rw [Option.eq_none_iff_forall_ne_some]
    rintro ⟨v, after⟩ hv
    obtain ⟨x, -, hx⟩ := variableTerm_iff.1 hv
    obtain ⟨rfl, -⟩ := hname.unique hx
    simp [Token.name?] at ht
  have hpair : pair symbolName (opt (arguments term)) cs = some ((f, args), rest) :=
    pair_eq_some_iff.2 ⟨mid, symbolName_iff.2 ⟨t, ht, hname⟩, hargs⟩
  rw [term_eq]
  exact alt_eq_some_iff.2 (.inr ⟨hvar, map_eq_some_iff.2 ⟨_, hpair, rfl⟩⟩)

theorem isReadBy_term {t : Term} (h : IsTerm us t) : IsReadBy term [.openParen] us t := by
  refine h.induct (P := IsReadBy term [.openParen]) ?var ?const ?app
  case var =>
    intro x cs rest hspells _
    rw [term_eq]
    exact alt_eq_some_iff.2 (.inl (variableTerm_iff.2 ⟨x, rfl, spells_singleton.1 hspells⟩))
  case const =>
    intro u f hu cs rest hspells hrest
    have hargs : opt (arguments term) rest = some (none, rest) :=
      opt_eq_none (preceded_eq_none (sym_eq_none rfl rfl (hrest .openParen List.mem_cons_self)))
    exact term_eq_some hu (spells_singleton.1 hspells) hargs
  case app =>
    intro u f us args hu hargs cs rest hspells _
    obtain ⟨mid, hname, inner, hopen, hspells⟩ := hspells
    obtain ⟨outer, hus, hclose⟩ := spells_append.1 hspells
    have hclose := spells_singleton.1 hclose
    have hlist := isReadBy_separatedList1 rfl rfl shrinks_term (by decide) hargs inner outer hus
      (stops_of_standsAt hclose (by decide))
    have hparen : arguments term mid = some (args, rest) :=
      (delimited_sym_iff rfl rfl rfl rfl).2 ⟨inner, outer, hopen, hlist, hclose⟩
    exact term_eq_some hu hname (opt_eq_some hparen)

/-! ### Literals -/

/-- The sign between the two sides of an equation or a disequation. -/
def equalitySign : Bool → Token
  | true => .notEqual
  | false => .equal

theorem equalitySign_iff {neg : Bool} :
    alt (value true (terminated (tag "!=") junk)) (value false (terminated (tag "=") junk)) cs =
      some (neg, rest) ↔ (equalitySign neg).StandsAt cs rest := by
  rw [alt_eq_some_iff, value_eq_some_iff, value_eq_some_iff]
  constructor
  · rintro (⟨rfl, u, h⟩ | ⟨-, rfl, u, h⟩)
    · exact standsAt_of_tag rfl trivial (.inl rfl) h
    · exact standsAt_of_tag rfl trivial (.inl rfl) h
  · intro h
    cases neg with
    | true => exact .inl ⟨rfl, (), tag_of_standsAt rfl h⟩
    | false =>
      have hne : terminated (tag "!=") junk cs = none :=
        tag_eq_none (t := .notEqual) rfl rfl fun _ h' => by
          simpa [equalitySign] using (h.unique h').1
      exact .inr ⟨by rw [value, map, hne]; rfl, rfl, (), tag_of_standsAt rfl h⟩

theorem soundBelow_atom (n : Nat) : SoundBelow n atom IsAtom := by
  intro cs hcs a rest h hend
  obtain ⟨⟨l, tail⟩, hverify, rfl⟩ := map_eq_some_iff.1 h
  obtain ⟨hpair, hok⟩ := verify_eq_some_iff.1 hverify
  obtain ⟨mid, hl, hopt⟩ := pair_eq_some_iff.1 hpair
  rcases opt_eq_some_iff.1 hopt with ⟨⟨neg, r⟩, htail, rfl⟩ | ⟨-, rfl, rfl⟩
  · obtain ⟨after, hsign, hr⟩ := pair_eq_some_iff.1 htail
    have hstands := equalitySign_iff.1 hsign
    obtain ⟨us, hus, hleft⟩ := soundBelow_term n cs hcs l mid hl
      (endsWord_of_standsAt (by cases neg <;> rfl) hstands)
    obtain ⟨vs, hvs, hright⟩ := soundBelow_term _ after (Nat.lt_succ_self _) r rest hr hend
    refine ⟨_, spells_append.2 ⟨mid, hus, spells_cons hstands hvs⟩, ?_⟩
    cases neg with
    | true => exact .disequation hleft hright
    | false => exact .equation hleft hright
  · obtain ⟨us, hus, hl⟩ := soundBelow_term n cs hcs l rest hl hend
    exact ⟨us, hus, .term hl (by simpa using hok)⟩

theorem atom_eq_some {l : Term} {tail : Option (Bool × Term)} {mid : List Char}
    (hl : term cs = some (l, mid)) (htail : opt equalityTail mid = some (tail, rest))
    (hok : tail.isSome || !l.isVar) :
    atom cs = some (tail.elim (l, false) fun tail => (.app equality [l, tail.2], tail.1), rest) :=
  map_eq_some_iff.2 ⟨(l, tail), verify_eq_some_iff.2 ⟨pair_eq_some_iff.2 ⟨mid, hl, htail⟩, hok⟩,
    rfl⟩

theorem isReadBy_equation {neg : Bool} {us vs : List Token} {l r : Term} (hl : IsTerm us l)
    (hr : IsTerm vs r) :
    IsReadBy atom [.openParen] (us ++ equalitySign neg :: vs) (.app equality [l, r], neg) := by
  intro cs rest hspells hrest
  obtain ⟨mid, hus, after, hstands, hvs⟩ := spells_append.1 hspells
  have htail : equalityTail mid = some ((neg, r), rest) :=
    pair_eq_some_iff.2 ⟨after, equalitySign_iff.2 hstands, isReadBy_term hr after rest hvs hrest⟩
  have hstops : Stops [.openParen] mid := stops_of_standsAt hstands (by cases neg <;> decide)
  exact atom_eq_some (isReadBy_term hl cs mid hus hstops) (opt_eq_some htail) rfl

theorem isReadBy_atom {a : Term × Bool} (h : IsAtom us a) :
    IsReadBy atom [.openParen, .equal, .notEqual] us a := by
  intro cs rest hspells hrest
  have hparen : Stops [.openParen] rest := hrest.mono (by simp)
  cases h with
  | @term _ t h ht =>
    have htail : equalityTail rest = none := by
      rw [Option.eq_none_iff_forall_ne_some]
      rintro ⟨⟨neg, r⟩, after⟩ hread
      obtain ⟨mid, hsign, -⟩ := pair_eq_some_iff.1 hread
      exact hrest (equalitySign neg) (by cases neg <;> decide) mid (equalitySign_iff.1 hsign)
    exact atom_eq_some (isReadBy_term h cs rest hspells hparen) (opt_eq_none htail) (by simp [ht])
  | equation hl hr => exact isReadBy_equation hl hr cs rest hspells hparen
  | disequation hl hr => exact isReadBy_equation hl hr cs rest hspells hparen

theorem soundBelow_literal (n : Nat) : SoundBelow n literal fun us o => IsLiteral us o.toList := by
  intro cs hcs o rest h hend
  rcases alt_eq_some_iff.1 h with h | ⟨-, h⟩
  · obtain ⟨rfl, u, hfalse⟩ := value_eq_some_iff.1 h
    have hstands := standsAt_of_tag (t := .dollar "false") rfl (by decide) (.inr hend) hfalse
    exact ⟨_, spells_singleton.2 hstands, .absurdity⟩
  · obtain ⟨⟨tilde, a, neg⟩, hpair, rfl⟩ := map_eq_some_iff.1 h
    obtain ⟨mid, htilde, hatom⟩ := pair_eq_some_iff.1 hpair
    obtain ⟨us, hus, hatom⟩ := soundBelow_atom _ mid (Nat.lt_succ_self _) _ rest hatom hend
    rcases opt_eq_some_iff.1 htilde with ⟨x, hsym, rfl⟩ | ⟨-, rfl, rfl⟩
    · have hstands := ((sym_iff (t := .tilde) rfl rfl).1 hsym).2
      exact ⟨.tilde :: us, ⟨mid, hstands, hus⟩, by simpa using .negated hatom⟩
    · exact ⟨us, hus, by simpa using .plain hatom⟩

/-- Where the constant is read, a word that begins with it stands. -/
theorem dollar_of_tag {raw : List Char} {u : Unit} (h : tag "$false" cs = some (u, raw)) :
    ∃ word after, (Token.dollar word).StandsAt cs after := by
  refine ⟨String.ofList ("false".toList ++ raw.takeWhile Symbol.isWordChar), _,
    raw.dropWhile Symbol.isWordChar, ⟨?_, ?_, Token.of_mem_head?_dropWhile _ _⟩, rfl⟩
  · rw [tag_eq_some_iff.1 h]
    simp [Token.spell]
  · refine Symbol.isLowerWord_iff.2 ⟨'f', "alse".toList ++ raw.takeWhile Symbol.isWordChar, rfl,
      by decide, fun d hd => ?_⟩
    have hword : ∀ d ∈ "alse".toList, Symbol.isWordChar d = true := List.all_eq_true.1 (by decide)
    rcases List.mem_append.1 hd with hd | hd
    · exact hword d hd
    · exact Token.of_mem_takeWhile _ _ d hd

theorem literal_eq_some {tilde : Option Char} {a : Term} {neg : Bool} {mid after : List Char}
    (ht : ∀ word, t ≠ .dollar word) (hstands : t.StandsAt cs after)
    (htilde : opt (sym '~') cs = some (tilde, mid)) (hatom : atom mid = some ((a, neg), rest)) :
    literal cs = some (some (Literal.of (tilde.isSome != neg) a), rest) := by
  have hfalse : value none (terminated (tag "$false") junk) cs =
      (none : Option (Option Literal × _)) := by
    rw [Option.eq_none_iff_forall_ne_some]
    rintro ⟨o, after⟩ hread
    obtain ⟨-, u, hread⟩ := value_eq_some_iff.1 hread
    obtain ⟨raw, htag, -⟩ := terminated_junk_iff.1 hread
    obtain ⟨word, after, hdollar⟩ := dollar_of_tag htag
    exact ht word (hstands.unique hdollar).1
  have hpair : pair (opt (sym '~')) atom cs = some ((tilde, a, neg), rest) :=
    pair_eq_some_iff.2 ⟨mid, htilde, hatom⟩
  exact alt_eq_some_iff.2 (.inr ⟨hfalse, map_eq_some_iff.2 ⟨_, hpair, rfl⟩⟩)

theorem isReadBy_literal {o : Option Literal} (h : IsLiteral us o.toList) :
    IsReadBy literal [.openParen, .equal, .notEqual] us o := by
  intro cs rest hspells hrest
  generalize hls : o.toList = ls at h
  cases h with
  | absurdity =>
    obtain rfl : o = none := by simpa using hls
    have hfalse : terminated (tag "$false") junk cs = some ((), rest) :=
      tag_of_standsAt rfl (spells_singleton.1 hspells)
    exact alt_eq_some_iff.2 (.inl (value_eq_some_iff.2 ⟨rfl, (), hfalse⟩))
  | @plain us a neg h =>
    obtain rfl : o = some (Literal.of neg a) := by simpa using hls
    have hatom := isReadBy_atom h cs rest hspells hrest
    obtain ⟨u, us, rfl, hu⟩ := h.exists_head
    obtain ⟨mid, hstands, -⟩ := hspells
    have hne : u ≠ .tilde ∧ ∀ word, u ≠ .dollar word := by
      constructor
      · rintro rfl
        simp [Token.name?] at hu
      · rintro word rfl
        simp [Token.name?] at hu
    have htilde : opt (sym '~') cs = some (none, cs) :=
      opt_eq_none (sym_eq_none_of_standsAt rfl rfl hstands hne.1)
    simpa using literal_eq_some hne.2 hstands htilde hatom
  | @negated us a neg h =>
    obtain rfl : o = some (Literal.of (!neg) a) := by simpa using hls
    obtain ⟨mid, hstands, hspells⟩ := hspells
    have htilde : opt (sym '~') cs = some (some '~', mid) :=
      opt_eq_some (sym_eq_some rfl rfl hstands)
    have hatom := isReadBy_atom h mid rest hspells hrest
    simpa using literal_eq_some (by simp) hstands htilde hatom

theorem exists_head_of_isLiteral {ls : List Literal} (h : IsLiteral us ls) :
    ∃ u vs, us = u :: vs ∧ u ≠ .openParen := by
  cases h with
  | absurdity => exact ⟨_, [], rfl, by simp⟩
  | plain h =>
    obtain ⟨u, vs, rfl, hu⟩ := h.exists_head
    refine ⟨u, vs, rfl, ?_⟩
    rintro rfl
    simp [Token.name?] at hu
  | negated h => exact ⟨_, _, rfl, by simp⟩

/-! ### Disjunctions -/

theorem soundBelow_disjunctionOf
    (h : SoundBelow n disjunct fun us os => IsDisjunct IsLiteral us (os.filterMap id)) :
    SoundBelow n (disjunctionOf disjunct) fun us os =>
      Joined .bar (IsDisjunct IsLiteral) List.flatten us (os.filterMap id) := by
  intro cs hcs os rest hread hend
  obtain ⟨parts, hparts, rfl⟩ := map_eq_some_iff.1 hread
  have hlist : SoundBelow n (separatedList1 (sym '|') disjunct) (SeparatedBy .bar _) :=
    soundBelow_separatedList1 rfl rfl shrinks_disjunct h
  obtain ⟨us, hus, hR⟩ := hlist cs hcs parts rest hparts hend
  exact ⟨us, hus, _, hR.map (f := List.filterMap id) fun _ _ h => h, List.filterMap_flatten.symm⟩

theorem soundBelow_disjunct (n : Nat) :
    SoundBelow n disjunct fun us os => IsDisjunct IsLiteral us (os.filterMap id) := by
  induction n with
  | zero => exact soundBelow_zero
  | succ n ih =>
    intro cs hcs os rest h hend
    rw [disjunct_eq, alt_eq_some_iff] at h
    rcases h with h | ⟨-, h⟩
    · obtain ⟨inner, outer, hopen, hbody, hclose⟩ :=
        (delimited_sym_iff (o := .openParen) (t := .closeParen) rfl rfl rfl rfl).1 h
      have hinner := hopen.length_lt
      obtain ⟨us, hus, parts, hparts, hflatten⟩ := soundBelow_disjunctionOf ih inner (by omega) os
        outer hbody (endsWord_of_standsAt rfl hclose)
      have hparen := IsDisjunct.paren hparts
      rw [hflatten] at hparen
      exact ⟨_, spells_enclosed hopen hus hclose, hparen⟩
    · obtain ⟨o, ho, rfl⟩ := map_eq_some_iff.1 h
      obtain ⟨us, hus, hliteral⟩ := soundBelow_literal _ cs hcs o rest ho hend
      refine ⟨us, hus, .literal ?_⟩
      cases o <;> exact hliteral

/-- A phrase that is read as a disjunct with the given literals. -/
def IsDisjunctRead (us : List Token) (ls : List Literal) : Prop :=
  ∃ os, IsReadBy disjunct [.openParen, .equal, .notEqual] us os ∧ os.filterMap id = ls

theorem exists_isReadBy_disjunction {parts : List (List Literal)}
    (h : SeparatedBy .bar IsDisjunctRead us parts) :
    ∃ os, IsReadBy (disjunctionOf disjunct) [.bar, .openParen, .equal, .notEqual] us os ∧
      os.filterMap id = parts.flatten := by
  obtain ⟨oss, hoss, rfl⟩ := h.exists_map
  refine ⟨oss.flatten, fun cs rest hspells hrest => ?_, List.filterMap_flatten⟩
  have hlist :=
    isReadBy_separatedList1 rfl rfl shrinks_disjunct (by decide) hoss cs rest hspells hrest
  exact map_eq_some_iff.2 ⟨oss, hlist, rfl⟩

theorem isDisjunctRead_of_isDisjunct {ls : List Literal} (h : IsDisjunct IsLiteral us ls) :
    IsDisjunctRead us ls := by
  refine h.induct (P := IsDisjunctRead) ?literal ?paren
  case literal =>
    intro us ls h
    obtain ⟨o, rfl⟩ : ∃ o : Option Literal, ls = o.toList := by
      cases h with
      | absurdity => exact ⟨none, rfl⟩
      | plain h => exact ⟨some _, rfl⟩
      | negated h => exact ⟨some _, rfl⟩
    refine ⟨[o], fun cs rest hspells hrest => ?_, by cases o <;> rfl⟩
    have hparen : sym '(' cs = none := by
      obtain ⟨u, vs, rfl, hu⟩ := exists_head_of_isLiteral h
      obtain ⟨mid, hstands, -⟩ := hspells
      exact sym_eq_none_of_standsAt rfl rfl hstands hu
    rw [disjunct_eq]
    exact alt_eq_some_iff.2 (.inr ⟨preceded_eq_none hparen,
      map_eq_some_iff.2 ⟨o, isReadBy_literal h cs rest hspells hrest, rfl⟩⟩)
  case paren =>
    intro us parts h
    obtain ⟨os, hos, hflatten⟩ := exists_isReadBy_disjunction h
    refine ⟨os, fun cs rest hspells _ => ?_, hflatten⟩
    obtain ⟨inner, hopen, hspells⟩ := hspells
    obtain ⟨outer, hus, hclose⟩ := spells_append.1 hspells
    have hclose := spells_singleton.1 hclose
    have hbody := hos inner outer hus (stops_of_standsAt hclose (by decide))
    rw [disjunct_eq]
    exact alt_eq_some_iff.2 (.inl ((delimited_sym_iff rfl rfl rfl rfl).2
      ⟨inner, outer, hopen, hbody, hclose⟩))

/-! ### Annotations -/

/-- Notes with commas between them. -/
def IsNotes (us : List Token) : Prop :=
  ∃ vs, SeparatedBy .comma (SeparatedBy .colon IsNoteHead) us vs

theorem enclosed_of_notes {o : Token} {x y : Char} {vs : List Unit}
    (h : SoundBelow n generalTerm (Joined .colon IsNoteHead fun _ => ())) (hcs : cs.length ≤ n)
    (ho : o.spell.toList = [x]) (ho' : o.isPunctuation = true) (ht : t.spell.toList = [y])
    (ht' : t.isPunctuation = true)
    (hread : delimited (sym x) (separatedList0 (sym ',') generalTerm) (sym y) cs =
      some (vs, rest)) :
    ∃ us, Spells (o :: (us ++ [t])) cs rest ∧ (us = [] ∨ IsNotes us) := by
  obtain ⟨inner, outer, hopen, hnotes, hclose⟩ := (delimited_sym_iff ho ho' ht ht').1 hread
  rcases separatedList0_eq_some_iff.1 hnotes with ⟨-, -, rfl⟩ | hnotes
  · exact ⟨[], spells_enclosed hopen rfl hclose, .inl rfl⟩
  · have hlist : SoundBelow n (separatedList1 (sym ',') generalTerm) (SeparatedBy .comma _) :=
      soundBelow_separatedList1 rfl rfl shrinks_generalTerm h
    obtain ⟨us, hus, hR⟩ := hlist inner (Nat.lt_of_lt_of_le hopen.length_lt hcs) vs outer hnotes
      (endsWord_of_standsAt ht' hclose)
    obtain ⟨parts, hparts, -⟩ := hR.exists_map
    exact ⟨us, spells_enclosed hopen hus hclose, .inr ⟨parts, hparts⟩⟩

theorem isNoteHead_of_noteHead {u : Unit}
    (h : SoundBelow n generalTerm (Joined .colon IsNoteHead fun _ => ())) (hcs : cs.length < n + 1)
    (hread : noteHead generalTerm cs = some (u, rest)) :
    ∃ us, Spells us cs rest ∧ IsNoteHead us () := by
  rcases alt_eq_some_iff.1 hread with hlist | ⟨-, happ⟩
  · obtain ⟨-, vs, hlist⟩ := value_eq_some_iff.1 hlist
    obtain ⟨us, hus, rfl | ⟨parts, hparts⟩⟩ :=
      enclosed_of_notes (o := .openBracket) (t := .closeBracket) h (Nat.le_of_lt_succ hcs)
        rfl rfl rfl rfl hlist
    · exact ⟨_, hus, .emptyList⟩
    · exact ⟨_, hus, .list hparts⟩
  · obtain ⟨-, ⟨_, o⟩, hpair⟩ := value_eq_some_iff.1 happ
    obtain ⟨mid, hword, hopt⟩ := pair_eq_some_iff.1 hpair
    obtain ⟨w, hw, hword⟩ := noteWord_iff.1 hword
    rcases opt_eq_some_iff.1 hopt with ⟨vs, hargs, -⟩ | ⟨-, -, rfl⟩
    · have hmid := hword.length_lt
      obtain ⟨us, hus, rfl | ⟨parts, hparts⟩⟩ :=
        enclosed_of_notes (o := .openParen) (t := .closeParen) h (by omega) rfl rfl rfl rfl hargs
      · exact ⟨_, spells_cons hword hus, .emptyApp hw⟩
      · exact ⟨_, spells_cons hword hus, .app hw hparts⟩
    · exact ⟨[w], spells_singleton.2 hword, .word hw⟩

theorem soundBelow_generalTerm (n : Nat) :
    SoundBelow n generalTerm (Joined .colon IsNoteHead fun _ => ()) := by
  induction n with
  | zero => exact soundBelow_zero
  | succ n ih =>
    intro cs hcs u rest h hend
    rw [generalTerm_eq] at h
    obtain ⟨-, ⟨_, o⟩, hpair⟩ := value_eq_some_iff.1 h
    obtain ⟨mid, hread, hopt⟩ := pair_eq_some_iff.1 hpair
    have hmid := shrinks_noteHead shrinks_generalTerm _ _ _ hread
    obtain ⟨us, hus, hhead⟩ := isNoteHead_of_noteHead ih hcs hread
    rcases opt_eq_some_iff.1 hopt with ⟨v, htail, -⟩ | ⟨-, -, rfl⟩
    · obtain ⟨x, after, hsym, htail⟩ := preceded_eq_some_iff.1 htail
      have hcolon := ((sym_iff (t := .colon) rfl rfl).1 hsym).2
      have hafter := hcolon.length_lt
      obtain ⟨vs, hvs, parts, hparts, -⟩ := ih after (by omega) v rest htail hend
      exact ⟨_, spells_append.2 ⟨mid, hus, spells_cons hcolon hvs⟩, _, .cons hhead hparts, rfl⟩
    · exact ⟨us, hus, _, .single hhead, rfl⟩

theorem isReadBy_generalTerm {vs : List Unit}
    (h : SeparatedBy .colon (IsReadBy (noteHead generalTerm) [.openParen]) us vs) :
    IsReadBy generalTerm [.colon, .openParen] us () := by
  induction h with
  | single h =>
    intro cs rest hspells hrest
    have hhead := h cs rest hspells (hrest.mono (by simp))
    have htail : preceded (sym ':') generalTerm rest = none :=
      preceded_eq_none (sym_eq_none rfl rfl (hrest .colon List.mem_cons_self))
    rw [generalTerm_eq]
    exact value_eq_some_iff.2 ⟨rfl, (_, none), pair_eq_some_iff.2 ⟨rest, hhead, opt_eq_none htail⟩⟩
  | cons h _ ih =>
    intro cs rest hspells hrest
    obtain ⟨mid, hus, after, hcolon, hvs⟩ := spells_append.1 hspells
    have hhead := h cs mid hus (stops_of_standsAt hcolon (by decide))
    have htail : preceded (sym ':') generalTerm mid = some ((), rest) :=
      preceded_eq_some_iff.2 ⟨':', after, sym_eq_some rfl rfl hcolon, ih after rest hvs hrest⟩
    rw [generalTerm_eq]
    exact value_eq_some_iff.2 ⟨rfl, (_, some ()),
      pair_eq_some_iff.2 ⟨mid, hhead, opt_eq_some htail⟩⟩

theorem isReadBy_notes {vs : List (List Unit)}
    (h : SeparatedBy .comma
      (SeparatedBy .colon (IsReadBy (noteHead generalTerm) [.openParen])) us vs) :
    IsReadBy (separatedList1 (sym ',') generalTerm) [.comma, .colon, .openParen] us
      (vs.map fun _ => ()) := by
  have hnotes : SeparatedBy .comma (IsReadBy generalTerm [.colon, .openParen]) us
      (vs.map fun _ => ()) :=
    h.map fun _ _ h => isReadBy_generalTerm h
  exact isReadBy_separatedList1 rfl rfl shrinks_generalTerm (by decide) hnotes

theorem generalTerm_eq_none (ht : t.isPunctuation = true) (hne : t ≠ .openBracket)
    (h : t.StandsAt cs rest) : generalTerm cs = none := by
  have hlist : sym '[' cs = none := sym_eq_none_of_standsAt rfl rfl h hne
  have hword : noteWord cs = none := by
    rw [Option.eq_none_iff_forall_ne_some]
    rintro ⟨u, after⟩ hread
    obtain ⟨w, hw, hstands⟩ := noteWord_iff.1 hread
    obtain ⟨rfl, -⟩ := h.unique hstands
    cases t <;> simp [Token.isPunctuation, Token.isWord] at ht hw
  rw [generalTerm_eq, value, map, pair, noteHead, alt, value, map, delimited,
    preceded_eq_none hlist, value, map, pair, hword]
  rfl

/-- Notes between two marks are read, and so is nothing between them. -/
theorem delimited_notes {o : Token} {x y : Char} {us : List Token}
    (ho : o.spell.toList = [x]) (ho' : o.isPunctuation = true) (ht : t.spell.toList = [y])
    (hclosing : t ∈ [.closeParen, .closeBracket])
    (hus : us = [] ∨ ∃ vs, SeparatedBy .comma
      (SeparatedBy .colon (IsReadBy (noteHead generalTerm) [.openParen])) us vs)
    (hspells : Spells (o :: (us ++ [t])) cs rest) :
    ∃ vs, delimited (sym x) (separatedList0 (sym ',') generalTerm) (sym y) cs =
      some (vs, rest) := by
  have hmark : t.isPunctuation = true ∧ t ≠ .openBracket ∧ t ∉ [.comma, .colon, .openParen] := by
    rcases List.mem_pair.1 hclosing with rfl | rfl <;> decide
  obtain ⟨inner, hopen, hinner⟩ := hspells
  obtain ⟨outer, hnotes, hclose⟩ := spells_append.1 hinner
  have hclose := spells_singleton.1 hclose
  rcases hus with rfl | ⟨vs, hvs⟩
  · obtain rfl : inner = outer := hnotes
    have hnone := generalTerm_eq_none hmark.1 hmark.2.1 hclose
    exact ⟨[], (delimited_sym_iff ho ho' ht hmark.1).2 ⟨inner, inner, hopen,
      separatedList0_eq_some_iff.2 (.inl ⟨hnone, rfl, rfl⟩), hclose⟩⟩
  · have hlist := isReadBy_notes hvs inner outer hnotes (stops_of_standsAt hclose hmark.2.2)
    exact ⟨_, (delimited_sym_iff ho ho' ht hmark.1).2 ⟨inner, outer, hopen,
      separatedList0_eq_some_iff.2 (.inr hlist), hclose⟩⟩

theorem noteHead_of_list {vs : List Unit}
    (h : delimited (sym '[') (separatedList0 (sym ',') generalTerm) (sym ']') cs =
      some (vs, rest)) :
    noteHead generalTerm cs = some ((), rest) :=
  alt_eq_some_iff.2 (.inl (value_eq_some_iff.2 ⟨rfl, vs, h⟩))

theorem noteHead_of_word {o : Option (List Unit)} {mid : List Char} (ht : t.isWord = true)
    (h : t.StandsAt cs mid)
    (hargs : opt (delimited (sym '(') (separatedList0 (sym ',') generalTerm) (sym ')')) mid =
      some (o, rest)) :
    noteHead generalTerm cs = some ((), rest) := by
  have hlist : sym '[' cs = none :=
    sym_eq_none_of_standsAt (u := .openBracket) rfl rfl h (by rintro rfl; cases ht)
  have hpair : pair noteWord
      (opt (delimited (sym '(') (separatedList0 (sym ',') generalTerm) (sym ')'))) cs =
      some (((), o), rest) :=
    pair_eq_some_iff.2 ⟨mid, noteWord_iff.2 ⟨t, ht, h⟩, hargs⟩
  rw [noteHead, alt, value, map, delimited, preceded_eq_none hlist]
  exact value_eq_some_iff.2 ⟨rfl, _, hpair⟩

theorem isReadBy_noteHead {u : Unit} (h : IsNoteHead us u) :
    IsReadBy (noteHead generalTerm) [.openParen] us u := by
  have hargs {t : Token} {us : List Token} (ht : t.isWord = true)
      (hus : us = [] ∨ ∃ vs, SeparatedBy .comma
        (SeparatedBy .colon (IsReadBy (noteHead generalTerm) [.openParen])) us vs) :
      IsReadBy (noteHead generalTerm) [.openParen]
        (t :: .openParen :: (us ++ [.closeParen])) () := by
    intro cs rest hspells _
    obtain ⟨mid, hword, hspells⟩ := hspells
    obtain ⟨vs, hvs⟩ := delimited_notes rfl rfl rfl (by simp) hus hspells
    exact noteHead_of_word ht hword (opt_eq_some hvs)
  refine h.induct (P := IsReadBy (noteHead generalTerm) [.openParen]) ?emptyList ?list ?word
    ?emptyApp ?app
  case emptyList =>
    intro cs rest hspells _
    have hspells : Spells (.openBracket :: ([] ++ [.closeBracket])) cs rest := hspells
    obtain ⟨vs, hvs⟩ := delimited_notes rfl rfl rfl (by simp) (.inl rfl) hspells
    exact noteHead_of_list hvs
  case list =>
    intro us vs h cs rest hspells _
    obtain ⟨vs, hvs⟩ := delimited_notes rfl rfl rfl (by simp) (.inr ⟨vs, h⟩) hspells
    exact noteHead_of_list hvs
  case word =>
    intro t ht cs rest hspells hrest
    have hnone : sym '(' rest = none := sym_eq_none rfl rfl (hrest .openParen List.mem_cons_self)
    exact noteHead_of_word ht (spells_singleton.1 hspells) (opt_eq_none (preceded_eq_none hnone))
  case emptyApp => exact fun ht => hargs ht (.inl rfl)
  case app => exact fun ht h => hargs ht (.inr ⟨_, h⟩)

theorem isReadBy_annotations (h : IsNotes us) :
    IsReadBy annotations [.comma, .colon, .openParen] (.comma :: us) () := by
  obtain ⟨vs, hvs⟩ := h
  intro cs rest hspells hrest
  obtain ⟨mid, hcomma, hus⟩ := hspells
  have hnotes := isReadBy_notes (hvs.imp fun _ _ h => h.imp fun _ _ => isReadBy_noteHead) mid
    rest hus hrest
  exact value_eq_some_iff.2 ⟨rfl, _,
    preceded_eq_some_iff.2 ⟨',', mid, sym_eq_some rfl rfl hcomma, hnotes⟩⟩

theorem isNotes_of_annotations {u : Unit} (h : annotations cs = some (u, rest))
    (hend : EndsWord rest) : ∃ us, Spells (.comma :: us) cs rest ∧ IsNotes us := by
  obtain ⟨-, vs, h⟩ := value_eq_some_iff.1 h
  obtain ⟨x, mid, hsym, hnotes⟩ := preceded_eq_some_iff.1 h
  have hcomma := ((sym_iff (t := .comma) rfl rfl).1 hsym).2
  have hlist : SoundBelow (mid.length + 1) (separatedList1 (sym ',') generalTerm)
      (SeparatedBy .comma _) :=
    soundBelow_separatedList1 rfl rfl shrinks_generalTerm (soundBelow_generalTerm _)
  obtain ⟨us, hus, hR⟩ := hlist mid (Nat.lt_succ_self _) vs rest hnotes hend
  obtain ⟨parts, hparts, -⟩ := hR.exists_map
  exact ⟨us, spells_cons hcomma hus, parts, hparts⟩

/-! ### Statements -/

theorem isStatement_of_cnfStatement {c : Clause} (h : cnfStatement cs = some (c, rest)) :
    ∃ us, Spells us cs rest ∧ IsStatement us c := by
  obtain ⟨n, word, os, o, cs₁, cs₂, cs₃, cs₄, cs₅, cs₆, cs₇, cs₈, cs₉, hcnf, hopen, hn, hname,
    hcomma, hword, hrole, hcomma', hbody, hnote, hclose, hdot, hliterals, hderivation⟩ :=
      cnfStatement_eq_some_iff.1 h
  have hkeyword := standsAt_of_tag (t := .lower "cnf") rfl (by decide)
    (.inr (endsWord_of_standsAt rfl hopen)) hcnf
  obtain ⟨note, hspells, hnote⟩ : ∃ note, Spells note cs₇ cs₈ ∧ IsAnnotation note := by
    rcases opt_eq_some_iff.1 hnote with ⟨u, hread, -⟩ | ⟨-, -, rfl⟩
    · obtain ⟨us, hus, parts, hparts⟩ :=
        isNotes_of_annotations hread (endsWord_of_standsAt rfl hclose)
      exact ⟨_, hus, .notes hparts⟩
    · exact ⟨[], rfl, .absent⟩
  have hend : EndsWord cs₇ := by
    cases hnote with
    | absent =>
      obtain rfl : cs₇ = cs₈ := hspells
      exact endsWord_of_standsAt rfl hclose
    | notes =>
      obtain ⟨mid, hmark, -⟩ := hspells
      exact endsWord_of_standsAt rfl hmark
  obtain ⟨body, hbody, parts, hparts, hflatten⟩ :=
    soundBelow_disjunctionOf (soundBelow_disjunct _) cs₆ (Nat.lt_succ_self _) os cs₇ hbody hend
  have hstates := @States.cnf _ IsLiteral n c.name word c.role body note parts hn hword hparts hnote
  rw [hflatten, ← hliterals] at hstates
  refine ⟨_, ?_, hstates, hderivation⟩
  simp only [List.append_assoc, List.cons_append, List.nil_append]
  have hafter : Spells (note ++ [.closeParen, .dot]) cs₇ rest :=
    spells_append.2 ⟨cs₈, hspells, spells_cons hclose (spells_singleton.2 hdot)⟩
  exact spells_cons hkeyword (spells_cons hopen (spells_cons hname (spells_cons hcomma
    (spells_cons hrole (spells_cons hcomma' (spells_append.2 ⟨cs₇, hbody, hafter⟩))))))

theorem isReadBy_cnfStatement {c : Clause} (h : IsStatement us c) :
    IsReadBy cnfStatement [] us c := by
  obtain ⟨name, role, literals, derivation⟩ := c
  obtain ⟨h, rfl⟩ := h
  intro cs rest hspells _
  cases h with
  | @cnf n _ word _ body note parts hname hrole hbody hnote =>
    simp only [List.append_assoc, List.cons_append, List.nil_append] at hspells
    obtain ⟨cs₁, hcnf, cs₂, hopen, cs₃, hn, cs₄, hcomma, cs₅, hword, cs₆, hcomma', hspells⟩ :=
      hspells
    obtain ⟨cs₇, hdisjunction, hspells⟩ := spells_append.1 hspells
    obtain ⟨cs₈, hnotes, cs₉, hclose, hdot⟩ := spells_append.1 hspells
    obtain ⟨os, hread, hliterals⟩ :=
      exists_isReadBy_disjunction (hbody.imp fun _ _ => isDisjunctRead_of_isDisjunct)
    -- What follows the disjunction is a comma or the closing parenthesis, and neither extends it.
    obtain ⟨o, hopt, hstops⟩ : ∃ o, opt annotations cs₇ = some (o, cs₈) ∧
        Stops [.bar, .openParen, .equal, .notEqual] cs₇ := by
      cases hnote with
      | absent =>
        obtain rfl : cs₇ = cs₈ := hnotes
        have hnone : sym ',' cs₇ = none :=
          sym_eq_none_of_standsAt (u := .comma) rfl rfl hclose (by simp)
        have hannotations : annotations cs₇ = none := by
          rw [annotations, value, map, preceded_eq_none hnone]
          rfl
        exact ⟨none, opt_eq_none hannotations, stops_of_standsAt hclose (by simp)⟩
      | notes h =>
        have hread := isReadBy_annotations ⟨_, h⟩ cs₇ cs₈ hnotes
          (stops_of_standsAt hclose (by simp))
        obtain ⟨mid, hmark, -⟩ := hnotes
        exact ⟨some (), opt_eq_some hread, stops_of_standsAt hmark (by simp)⟩
    exact cnfStatement_eq_some_iff.2 ⟨n, word, os, o, cs₁, cs₂, cs₃, cs₄, cs₅, cs₆, cs₇, cs₈, cs₉,
      tag_of_standsAt rfl hcnf, hopen, hname, hn, hcomma, hrole, hword, hcomma',
      hread cs₆ cs₇ hdisjunction hstops, hopt, hclose, spells_singleton.1 hdot, hliterals.symm, rfl⟩

/-- **Exactly the statements of the grammar are read.** -/
theorem cnfStatement_iff {c : Clause} :
    cnfStatement cs = some (c, rest) ↔ ∃ us, Spells us cs rest ∧ IsStatement us c := by
  constructor
  · exact isStatement_of_cnfStatement
  · rintro ⟨us, hspells, h⟩
    exact isReadBy_cnfStatement h cs rest hspells fun _ ht => absurd ht List.not_mem_nil

/-- **The two readers agree on a statement.**  The text must begin with a token. -/
theorem reads_readStatement_lex (hcs : skipLayout cs = cs) {c : Clause} {ts : List Token} :
    Reads (readStatement ((Token.lex cs).map (·.1))) c ts ↔
      ∃ rest, cnfStatement cs = some (c, rest) ∧ (Token.lex rest).map (·.1) = ts := by
  constructor
  · intro h
    obtain ⟨us, hus, hc⟩ := decides_readStatement.sound h
    obtain ⟨rest, hspells, hrest⟩ := Token.exists_spells hcs hus hc.1.wellSpaced.noStray
    exact ⟨rest, cnfStatement_iff.2 ⟨us, hspells, hc⟩, hrest⟩
  · rintro ⟨rest, h, rfl⟩
    obtain ⟨us, hspells, hc⟩ := cnfStatement_iff.1 h
    obtain ⟨front, hlex, rfl⟩ := hspells.exists_lex
    rw [hlex, List.map_append]
    exact decides_readStatement.complete hc _ fun _ _ => List.not_mem_nil

/-! ### Whole texts -/

theorem parseStatements_eq (total : Nat) (hcs : skipLayout cs = cs) :
    parseStatements total cs =
      readStatements total ((Token.lex cs).map (·.1)) ((Token.lex cs).map (·.2)) := by
  induction hlen : cs.length using Nat.strongRecOn generalizing cs with
  | ind n ih =>
    cases cs with
    | nil => simp [parseStatements, Token.lex_eq_nil hcs, readStatements]
    | cons c cs =>
      cases hread : cnfStatement (c :: cs) with
      | none =>
        have hnone : readStatement ((Token.lex (c :: cs)).map (·.1)) = none := by
          rw [Option.eq_none_iff_forall_ne_some]
          intro first hfirst
          obtain ⟨rest, h, -⟩ := (reads_readStatement_lex hcs).1 ⟨first, hfirst, rfl, rfl⟩
          rw [hread] at h
          cases h
        rw [Token.lex_eq_cons hcs, List.map_cons] at hnone
        rw [parseStatements_of_none total (List.cons_ne_nil c cs) hread, Token.lex_eq_cons hcs,
          List.map_cons, List.map_cons, readStatements, List.headD_cons, hnone]
        cases unsupportedKeywords.find? fun k => opensStatement k (c :: cs) with
        | none => rfl
        | some keyword => rfl
      | some r =>
        obtain ⟨first, rest⟩ := r
        obtain ⟨us, hspells, hc⟩ := cnfStatement_iff.1 hread
        obtain ⟨front, hlex, rfl⟩ := hspells.exists_lex
        have hspelled : ∀ p ∈ front, p.1.spell.toList <+: p.2 := fun p hp =>
          spelled_lex p (hlex ▸ List.mem_append_left _ hp)
        have hkeyword : "cnf".toList <+: c :: cs := by
          obtain ⟨vs, hvs⟩ := hc.1.exists_cons
          rw [hvs] at hspells
          obtain ⟨mid, ⟨raw, hopens, -⟩, -⟩ := hspells
          exact ⟨raw, hopens.spelled.symm⟩
        have hshorter := hlen ▸ shrinks_cnfStatement _ _ _ hread
        have hothers := ih _ hshorter (hspells.skipLayout_eq hcs) rfl
        rw [hlex, readStatements_append total hc hspelled, ← hothers,
          parseStatements_of_some total hread (find?_unsupportedKeywords hkeyword)]

/-- **Both readers give the same clauses or the same error on every text.** -/
theorem parseClauses_eq (text : String) : parseClauses text = readClauses text := by
  rw [parseClauses, junk_eq]
  change parseStatements _ (skipLayout text.toList) = _
  rw [parseStatements_eq _ (Token.skipLayout_skipLayout _), Token.lex_skipLayout]
  rfl

end TextReader

/-- **Reading accepts exactly the grammar**, with ordered choice as well as with one token of
foresight.  The clauses of a text are unique, and texts that differ only in layout, comments,
parentheses and annotations have the same ones. -/
theorem reader_accepts_grammar (text : String) (cs : List Clause) :
    TextReader.parseClauses text = readClauses text ∧
      (readClauses text = .ok cs ↔ Derives text cs) ∧
      (∀ ds, Derives text cs → Derives text ds → cs = ds) ∧
      ∀ text', SameContent text text' → (Derives text cs ↔ Derives text' cs) := by
  refine ⟨TextReader.parseClauses_eq text, readClauses_eq_ok_iff, fun ds h h' => h.unique h',
    fun text' hsame => ?_⟩
  obtain ⟨ds, hds, hds'⟩ := hsame.exists_derives
  constructor
  · intro h
    rwa [h.unique hds]
  · intro h
    rwa [h.unique hds']

/-- A statement, and the same with a comment, a quoted name, parentheses and an annotation. -/
theorem reader_accepts_grammar_decorated :
    SameContent "cnf(a,axiom,q)." "% note\ncnf('a',axiom,((q)),file(x))." ∧
      TextReader.parseClauses "% note\ncnf('a',axiom,((q)),file(x))." =
        .ok [⟨"a", .axiomatic, [Literal.pos (.const "q")], none⟩] := by
  have hliteral : IsLiteral [.lower "q"] [Literal.pos (.const "q")] :=
    .plain (.term (.const rfl) rfl)
  have hphrase : IsDisjunct IsPhrase [.lower "q"] [[.lower "q"]] := .literal ⟨⟨_, hliteral⟩, rfl⟩
  have hplain := @States.cnf _ IsPhrase (.lower "a") "a" "axiom" .axiomatic [.lower "q"] [] _
    rfl rfl (.single hphrase) .absent
  have hdecorated := @States.cnf _ IsPhrase (.quoted "a") "a" "axiom" .axiomatic
    [.openParen, .openParen, .lower "q", .closeParen, .closeParen]
    [.comma, .lower "file", .openParen, .lower "x", .closeParen] _ rfl rfl
    (.single (.paren (.single (.paren (.single hphrase)))))
    (.notes (.single (.single (.app rfl (.single (.single (.word rfl)))))))
  have hwritten := Token.written_append hplain.of_isPhrase.wellSpaced (by decide) (by simp)
    (.done (.nothing []))
  have hwritten' := Token.written_append hdecorated.of_isPhrase.wellSpaced (by decide) (by simp)
    (.done (.nothing []))
  have hcomment : Token.Skips "% note\ncnf('a',axiom,((q)),file(x)).".toList
      "cnf('a',axiom,((q)),file(x)).".toList := by
    have hbody : ∀ c ∈ " note".toList, Token.isInLine c = true := List.all_eq_true.1 (by decide)
    have hend : ∀ c ∈ "\ncnf('a',axiom,((q)),file(x)).".toList.head?, Token.isInLine c = false := by
      rintro c ⟨⟩
      rfl
    exact .line hbody hend (.blank (by decide) (.nothing _))
  have hsame : SameContent "cnf(a,axiom,q)." "% note\ncnf('a',axiom,((q)),file(x))." :=
    ⟨[_], [_], hwritten, .skip hcomment hwritten', .cons ⟨_, _, _, hplain, hdecorated⟩ .nil⟩
  have hderives : Derives "cnf(a,axiom,q)." [⟨"a", .axiomatic, [Literal.pos (.const "q")], none⟩] :=
    ⟨_, hwritten, [_], rfl, .cons ⟨.cnf rfl rfl (.single (.literal hliteral)) .absent, rfl⟩ .nil⟩
  have hdecorates := ((reader_accepts_grammar _ _).2.2.2 _ hsame).1 hderives
  obtain ⟨hagree, haccepts, -⟩ := reader_accepts_grammar "% note\ncnf('a',axiom,((q)),file(x))."
    [⟨"a", .axiomatic, [Literal.pos (.const "q")], none⟩]
  exact ⟨hsame, hagree.trans (haccepts.2 hdecorates)⟩

end Refutation
