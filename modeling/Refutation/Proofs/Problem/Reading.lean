import Refutation.Problem.Grammar
import Refutation.Proofs.Problem.Rules

/-!
# Readers and rules

Each reader reads exactly the phrases of its rule: what it reads is such a phrase (`Decides.sound`),
and it reads a phrase whole unless the next token could extend it (`Decides.complete`).  So no
alternative is ever taken that should have been left, and a phrase has one value.
-/

namespace Refutation

/-! ### Readings -/

section Readings

variable {τ α β : Type} {ts : List τ}

/-- The value `a` was read and `rest` follows. -/
def Reads (p : Option (Parsed α ts)) (a : α) (rest : List τ) : Prop :=
  ∃ q, p = some q ∧ q.value = a ∧ q.rest = rest

@[simp] theorem not_reads_none {a : α} {rest : List τ} :
    ¬ Reads (none : Option (Parsed α ts)) a rest := by
  rintro ⟨_, h, -⟩
  cases h

@[simp] theorem reads_some {q : Parsed α ts} {a : α} {rest : List τ} :
    Reads (some q) a rest ↔ q.value = a ∧ q.rest = rest := by
  simp [Reads]

theorem Reads.length_lt {p : Option (Parsed α ts)} {a : α} {rest : List τ} (h : Reads p a rest) :
    rest.length < ts.length := by
  obtain ⟨q, -, -, rfl⟩ := h
  exact q.shorter

@[simp] theorem reads_map {p : Option (Parsed α ts)} {f : α → β} {b : β} {rest : List τ} :
    Reads (p.map fun q => q.map f) b rest ↔ ∃ a, Reads p a rest ∧ f a = b := by
  cases p with
  | none => simp
  | some q => simp [Parsed.map, and_comm]

@[simp] theorem reads_map_after {q : Parsed α ts} {p : Option (Parsed β q.rest)} {γ : Type}
    {f : β → γ} {c : γ} {rest : List τ} :
    Reads (p.map fun r => (q.after r).map f) c rest ↔ ∃ b, Reads p b rest ∧ f b = c := by
  cases p with
  | none => simp
  | some r => simp [Parsed.map, Parsed.after, and_comm]

theorem reads_bind {p : Option (Parsed α ts)} {us : List τ} {f : Parsed α ts → Option (Parsed β us)}
    {b : β} {rest : List τ} : Reads (p.bind f) b rest ↔ ∃ q, p = some q ∧ Reads (f q) b rest := by
  cases p with
  | none => simp
  | some q => simp

variable [DecidableEq τ]

@[simp] theorem reads_token? {q : Parsed α ts} {t : τ} {a : α} {rest : List τ} :
    Reads (q.token? t) a rest ↔ q.value = a ∧ q.rest = t :: rest := by
  rw [Parsed.token?]
  split
  · next h => simp [h]
  · next u us h =>
    split
    · next hu => simp [h, hu]
    · next hu => simp [h, hu]

theorem token?_eq_none_iff {q : Parsed α ts} {t : τ} :
    q.token? t = none ↔ q.rest.head? ≠ some t := by
  rw [Parsed.token?]
  split
  · next h => simp [h]
  · next u us h =>
    split
    · next hu => simp [h, hu]
    · next hu => simp [h, hu]

@[simp] theorem reads_bind_token? {q : Parsed α ts} {p : Option (Parsed β q.rest)} {t : τ} {b : β}
    {rest : List τ} :
    Reads (p.bind fun r => (q.after r).token? t) b rest ↔ Reads p b (t :: rest) := by
  cases p with
  | none => simp
  | some r => simp [Parsed.after]

theorem rest_of_token? {q next : Parsed α ts} {t : τ} (h : q.token? t = some next) :
    q.rest = t :: next.rest ∧ next.value = q.value := by
  obtain ⟨hvalue, hrest⟩ := reads_token?.1 ⟨next, h, rfl, rfl⟩
  exact ⟨hrest, hvalue.symm⟩

theorem rest_eq_cons_iff {q next : Parsed α ts} {t : τ} (h : q.token? t = some next)
    (after : List τ) : q.rest = t :: after ↔ next.rest = after := by
  rw [(rest_of_token? h).1, List.cons.injEq]
  exact and_iff_right rfl

theorem head?_rest {q next : Parsed α ts} {t : τ} (h : q.token? t = some next) :
    q.rest.head? = some t := by
  rw [(rest_of_token? h).1]
  rfl

theorem rest_ne_cons {q : Parsed α ts} {t : τ} (h : q.token? t = none) (after : List τ) :
    q.rest ≠ t :: after := by
  intro hrest
  exact token?_eq_none_iff.1 h (by rw [hrest]; rfl)

theorem reads_map_after_token? {γ : Type} {q next : Parsed α ts} {t : τ}
    (h : q.token? t = some next) {read : (us : List τ) → Option (Parsed β us)} {f : β → γ} {c : γ}
    {rest : List τ} :
    Reads ((read next.rest).map fun r => (next.after r).map f) c rest ↔
      ∃ after b, q.rest = t :: after ∧ Reads (read after) b rest ∧ c = f b := by
  simp [rest_eq_cons_iff h, eq_comm]

@[simp] theorem reads_readToken {t : τ} {u : Unit} {rest : List τ} :
    Reads (readToken t ts) u rest ↔ ts = t :: rest := by
  cases ts with
  | nil => simp [readToken]
  | cons v vs =>
    rw [readToken]
    split
    · next hv => simp [Parsed.first, hv]
    · next hv => simp [hv]

theorem readToken_cons (t : τ) (rest : List τ) :
    readToken t (t :: rest) = some (.first () t rest) := by
  simp [readToken]

theorem eq_cons_of_readToken {p : Parsed Unit ts} {t : τ} (h : readToken t ts = some p) :
    ts = t :: p.rest :=
  reads_readToken.1 ⟨p, h, rfl, rfl⟩

theorem readToken_eq_none_iff {t : τ} : readToken t ts = none ↔ ts.head? ≠ some t := by
  cases ts with
  | nil => simp [readToken]
  | cons v vs => simp [readToken]

end Readings

/-- `reads` reads one or more phrases of `read` with the token `sep` between them, and joins their
values with `join`. -/
structure ReadsSeparated {α β : Type} (sep : Token)
    (read : (ts : List Token) → Option (Parsed α ts))
    (reads : (ts : List Token) → Option (Parsed β ts)) (join : List α → β) : Prop where
  join_cons : ∀ a {as as'}, join as = join as' → join (a :: as) = join (a :: as')
  reads_iff : ∀ ts b rest, Reads (reads ts) b rest ↔ ∃ a mid, Reads (read ts) a mid ∧
    ((mid.head? ≠ some sep ∧ b = join [a] ∧ rest = mid) ∨
      ∃ after as, mid = sep :: after ∧ Reads (reads after) (join as) rest ∧ b = join (a :: as))

theorem ReadsSeparated.of_eq {α β : Type} {sep : Token}
    {read : (ts : List Token) → Option (Parsed α ts)}
    {reads : (ts : List Token) → Option (Parsed β ts)} {join : List α → β} (cons : α → β → β)
    (hcons : ∀ a as, join (a :: as) = cons a (join as)) (hjoin : ∀ b, ∃ as, join as = b)
    (heq : ∀ ts, reads ts = (read ts).bind fun q =>
      (q.token? sep).elim (some (q.map fun a => join [a])) fun next =>
        (reads next.rest).map fun r => (next.after r).map (cons q.value)) :
    ReadsSeparated sep read reads join := by
  refine ⟨fun a as as' h => by rw [hcons, hcons, h], fun ts b rest => ?_⟩
  rw [heq]
  cases hread : read ts with
  | none => simp
  | some q =>
    rw [Option.bind_some]
    cases hsep : q.token? sep with
    | none =>
      have hne := token?_eq_none_iff.1 hsep
      simp only [Option.elim_none, reads_some, Parsed.map]
      constructor
      · rintro ⟨rfl, rfl⟩
        exact ⟨_, _, ⟨rfl, rfl⟩, .inl ⟨hne, rfl, rfl⟩⟩
      · rintro ⟨a, mid, ⟨rfl, rfl⟩, ⟨-, rfl, rfl⟩ | ⟨after, as, h, -⟩⟩
        · exact ⟨rfl, rfl⟩
        · exact absurd (by rw [h]; rfl) hne
    | some next =>
      obtain ⟨hrest, -⟩ := rest_of_token? hsep
      simp only [Option.elim_some, reads_map_after, reads_some]
      constructor
      · rintro ⟨b, hb, rfl⟩
        obtain ⟨as, rfl⟩ := hjoin b
        exact ⟨_, _, ⟨rfl, rfl⟩, .inr ⟨next.rest, as, hrest, hb, (hcons _ _).symm⟩⟩
      · rintro ⟨a, mid, ⟨rfl, rfl⟩, ⟨hne, -⟩ | ⟨after, as, h, hreads, rfl⟩⟩
        · exact absurd (by rw [hrest]; rfl) hne
        · obtain rfl : next.rest = after := (List.cons.inj (hrest.symm.trans h)).2
          exact ⟨_, hreads, (hcons _ _).symm⟩

theorem readsSeparated_readTerms : ReadsSeparated .comma readTerm readTerms id := by
  refine .of_eq List.cons (fun _ _ => rfl) (fun b => ⟨b, rfl⟩) fun ts => ?_
  rw [readTerms]
  cases readTerm ts with
  | none => rfl
  | some q =>
    cases h : q.token? .comma with
    | none => simp [h]
    | some next => cases hr : readTerms next.rest <;> simp [h, hr]

theorem readsSeparated_readDisjunction :
    ReadsSeparated .bar readDisjunct readDisjunction List.flatten := by
  refine .of_eq (· ++ ·) (fun _ _ => rfl) (fun b => ⟨[b], by simp⟩) fun ts => ?_
  rw [readDisjunction]
  cases readDisjunct ts with
  | none => rfl
  | some q =>
    cases h : q.token? .bar with
    | none => simp [h, Parsed.map]
    | some next => cases hr : readDisjunction next.rest <;> simp [h, hr]

theorem readsSeparated_readNote :
    ReadsSeparated .colon readNoteHead readNote fun _ => () := by
  refine .of_eq (fun _ _ => ()) (fun _ _ => rfl) (fun b => ⟨[], rfl⟩) fun ts => ?_
  rw [readNote]
  cases readNoteHead ts with
  | none => rfl
  | some q =>
    cases h : q.token? .colon with
    | none => simp [h, Parsed.map]
    | some next => cases hr : readNote next.rest <;> simp [h, hr, Parsed.map]

theorem readsSeparated_readNotes :
    ReadsSeparated .comma readNote readNotes fun _ => () := by
  refine .of_eq (fun _ _ => ()) (fun _ _ => rfl) (fun b => ⟨[], rfl⟩) fun ts => ?_
  rw [readNotes]
  cases readNote ts with
  | none => rfl
  | some q =>
    cases h : q.token? .comma with
    | none => simp [h, Parsed.map]
    | some next => cases hr : readNotes next.rest <;> simp [h, hr, Parsed.map]

/-! ### Phrases and what reads them -/

/-- The next token is none of `extending`. -/
def Stops (extending rest : List Token) : Prop := ∀ t ∈ rest.head?, t ∉ extending

/-- The phrase is read whole, with the given value, if no token of `extending` follows. -/
def IsReadBy {α : Type} (read : (ts : List Token) → Option (Parsed α ts)) (extending : List Token)
    (us : List Token) (a : α) : Prop :=
  ∀ rest, Stops extending rest → Reads (read (us ++ rest)) a rest

/-- From fewer than `n` tokens only phrases of `R` are read. -/
def SoundBelow {α : Type} (n : Nat) (read : (ts : List Token) → Option (Parsed α ts))
    (R : List Token → α → Prop) : Prop :=
  ∀ ts, ts.length < n → ∀ a rest, Reads (read ts) a rest → ∃ us, ts = us ++ rest ∧ R us a

/-- Exactly the phrases of `R` are read. -/
structure Decides {α : Type} (read : (ts : List Token) → Option (Parsed α ts))
    (R : List Token → α → Prop) (extending : List Token) : Prop where
  sound : ∀ {ts a rest}, Reads (read ts) a rest → ∃ us, ts = us ++ rest ∧ R us a
  complete : ∀ {us a}, R us a → IsReadBy read extending us a

/-- Phrases of `R` with the token `sep` between them, and their values joined. -/
def Joined {α β : Type} (sep : Token) (R : List Token → α → Prop) (join : List α → β)
    (ts : List Token) (b : β) : Prop :=
  ∃ as, SeparatedBy sep R ts as ∧ join as = b

section Separated

variable {α β : Type} {sep : Token} {read : (ts : List Token) → Option (Parsed α ts)}
  {reads : (ts : List Token) → Option (Parsed β ts)} {join : List α → β}
  {R : List Token → α → Prop} {extending : List Token}

theorem SeparatedBy.map {S : List Token → β → Prop} {f : α → β} (h : ∀ ts a, R ts a → S ts (f a))
    {ts : List Token} {as : List α} (hts : SeparatedBy sep R ts as) :
    SeparatedBy sep S ts (as.map f) := by
  induction hts with
  | single hR => exact .single (h _ _ hR)
  | cons hR _ ih => exact .cons (h _ _ hR) ih

theorem SeparatedBy.imp {S : List Token → α → Prop} (h : ∀ ts a, R ts a → S ts a)
    {ts : List Token} {as : List α} (hts : SeparatedBy sep R ts as) : SeparatedBy sep S ts as := by
  have hmap := hts.map (f := id) h
  rwa [List.map_id] at hmap

theorem ReadsSeparated.soundBelow (hsep : ReadsSeparated sep read reads join) {n : Nat}
    (hread : SoundBelow n read R) : SoundBelow n reads (Joined sep R join) := by
  intro ts hts b rest h
  induction hlen : ts.length using Nat.strongRecOn generalizing ts b with
  | ind k ih =>
    obtain ⟨a, mid, ha, ⟨-, rfl, rfl⟩ | ⟨after, as, rfl, has, rfl⟩⟩ :=
      (hsep.reads_iff ts b rest).1 h
    · obtain ⟨us, rfl, hus⟩ := hread ts hts a _ ha
      exact ⟨us, rfl, [a], .single hus, rfl⟩
    · have hlt : after.length + 1 < ts.length := ha.length_lt
      obtain ⟨us, rfl, hus⟩ := hread ts hts a _ ha
      obtain ⟨vs, rfl, as', hvs, hjoin⟩ := ih _ (by omega) after (by omega) _ has rfl
      exact ⟨us ++ sep :: vs, by simp, a :: as', .cons hus hvs, hsep.join_cons a hjoin⟩

theorem ReadsSeparated.isReadBy (hsep : ReadsSeparated sep read reads join) (hne : sep ∉ extending)
    {us : List Token} {as : List α} (h : SeparatedBy sep (IsReadBy read extending) us as) :
    IsReadBy reads (sep :: extending) us (join as) := by
  induction h with
  | single h =>
    intro rest hrest
    refine (hsep.reads_iff _ _ _).2 ⟨_, rest, h rest ?_, .inl ⟨?_, rfl, rfl⟩⟩
    · exact fun t ht hmem => hrest t ht (List.mem_cons_of_mem _ hmem)
    · exact fun hhead => hrest sep hhead List.mem_cons_self
  | @cons us vs a as h _ ih =>
    intro rest hrest
    refine (hsep.reads_iff _ _ _).2 ⟨a, sep :: (vs ++ rest), ?_,
      .inr ⟨_, as, rfl, ih rest hrest, rfl⟩⟩
    rw [List.append_assoc]
    exact h _ (by simpa [Stops] using hne)

theorem Decides.of_soundBelow (hsound : ∀ n, SoundBelow n read R)
    (hcomplete : ∀ {us a}, R us a → IsReadBy read extending us a) : Decides read R extending :=
  ⟨fun h => hsound _ _ (Nat.lt_succ_self _) _ _ h, hcomplete⟩

theorem ReadsSeparated.decides (hsep : ReadsSeparated sep read reads join) (hne : sep ∉ extending)
    (h : Decides read R extending) : Decides reads (Joined sep R join) (sep :: extending) := by
  refine .of_soundBelow (fun n => hsep.soundBelow fun _ _ _ _ hread => h.sound hread) ?_
  rintro us _ ⟨as, hus, rfl⟩
  exact hsep.isReadBy hne (hus.imp fun _ _ => h.complete)

theorem SeparatedBy.exists_map {f : α → β} {ts : List Token} {bs : List β}
    (h : SeparatedBy sep (fun ts b => ∃ a, R ts a ∧ f a = b) ts bs) :
    ∃ as, SeparatedBy sep R ts as ∧ as.map f = bs := by
  induction h with
  | single h =>
    obtain ⟨a, ha, rfl⟩ := h
    exact ⟨[a], .single ha, rfl⟩
  | cons h _ ih =>
    obtain ⟨a, ha, rfl⟩ := h
    obtain ⟨as, has, rfl⟩ := ih
    exact ⟨a :: as, .cons ha has, rfl⟩

end Separated

/-! ### Terms -/

theorem reads_readTerm {ts rest : List Token} {t : Term} : Reads (readTerm ts) t rest ↔
    (∃ x, ts = .upper x :: rest ∧ t = .var x) ∨
      ∃ u f mid, ts = u :: mid ∧ Token.name? u = some f ∧
        ((mid.head? ≠ some .openParen ∧ rest = mid ∧ t = .const f) ∨
          ∃ after args, mid = .openParen :: after ∧
            Reads (readTerms after) args (.closeParen :: rest) ∧
            t = .app f args) := by
  rw [readTerm.eq_def]
  split
  · simp
  · next x mid => simp [Parsed.first, Token.name?, eq_comm, and_comm]
  · next u mid hu =>
    have hvar : ∀ x, u ≠ .upper x := hu
    cases hname : u.name? with
    | none => simp [readName, hname, hvar]
    | some f =>
      simp only [readName, hname, Option.map_some, Parsed.first]
      cases hopen : Parsed.token? .openParen (⟨f, mid, by simp⟩ : Parsed String (u :: mid)) with
      | none =>
        have hne : mid.head? ≠ some .openParen := token?_eq_none_iff.1 hopen
        have hne' : ∀ after, mid ≠ .openParen :: after := rest_ne_cons hopen
        simp [Parsed.map, hvar, hname, hne, hne', eq_comm, and_comm]
      | some opened =>
        have hhead : mid.head? = some .openParen := head?_rest hopen
        have hafter : ∀ after, mid = .openParen :: after ↔ opened.rest = after :=
          rest_eq_cons_iff hopen
        cases hargs : readTerms opened.rest with
        | none => simp [hvar, hhead, hafter, hargs]
        | some args =>
          simp [hvar, hname, hhead, hafter, hargs, Parsed.map, Parsed.after, eq_comm, and_comm]

theorem decides_readTerm : Decides readTerm IsTerm [.openParen] := by
  refine .of_soundBelow (fun n => ?_) fun h => ?_
  · induction n with
    | zero => exact fun ts h => absurd h (Nat.not_lt_zero _)
    | succ n ih =>
      intro ts hts t rest h
      obtain ⟨x, rfl, rfl⟩ | ⟨u, f, mid, rfl, hf, ⟨-, rfl, rfl⟩ | ⟨after, args, rfl, hargs, rfl⟩⟩ :=
        reads_readTerm.1 h
      · exact ⟨[.upper x], rfl, .var x⟩
      · exact ⟨[u], rfl, .const hf⟩
      · obtain ⟨us, rfl, args, hus, rfl⟩ :=
          readsSeparated_readTerms.soundBelow ih after (by simp at hts; omega) args _ hargs
        exact ⟨u :: .openParen :: (us ++ [.closeParen]), by simp, .app hf hus⟩
  · refine h.induct ?_ ?_ ?_
    · intro x rest _
      exact reads_readTerm.2 (.inl ⟨x, rfl, rfl⟩)
    · intro u f hf rest hrest
      exact reads_readTerm.2
        (.inr ⟨u, f, rest, rfl, hf, .inl ⟨fun h => hrest _ h List.mem_cons_self, rfl, rfl⟩⟩)
    · intro u f us args hf hargs rest _
      refine reads_readTerm.2 (.inr ⟨u, f, _, rfl, hf, .inr ⟨us ++ .closeParen :: rest, args, ?_⟩⟩)
      refine ⟨by simp, readsSeparated_readTerms.isReadBy (by decide) hargs _ ?_, rfl⟩
      simp [Stops]

theorem IsTerm.exists_head {ts : List Token} {t : Term} (h : IsTerm ts t) :
    ∃ u us, ts = u :: us ∧ ((∃ x, u = .upper x) ∨ ∃ f, Token.name? u = some f) := by
  cases h with
  | var x => exact ⟨_, _, rfl, .inl ⟨x, rfl⟩⟩
  | const hf => exact ⟨_, _, rfl, .inr ⟨_, hf⟩⟩
  | app hf _ => exact ⟨_, _, rfl, .inr ⟨_, hf⟩⟩

/-! ### Literals -/

theorem reads_readAtom {ts rest : List Token} {a : Term × Bool} : Reads (readAtom ts) a rest ↔
    ∃ l mid, Reads (readTerm ts) l mid ∧
      ((Stops [.equal, .notEqual] mid ∧ l.isVar = false ∧ rest = mid ∧ a = (l, false)) ∨
        (∃ after r, mid = .equal :: after ∧ Reads (readTerm after) r rest ∧
          a = (.app equality [l, r], false)) ∨
        ∃ after r, mid = .notEqual :: after ∧ Reads (readTerm after) r rest ∧
          a = (.app equality [l, r], true)) := by
  rw [readAtom]
  cases hread : readTerm ts with
  | none => simp
  | some l =>
    simp only [reads_some, and_assoc, exists_and_left, exists_eq_left']
    cases heq : l.token? .equal with
    | some next =>
      have hstops : ¬Stops [.equal, .notEqual] l.rest := fun h => h _ (head?_rest heq) (by simp)
      have hne : ∀ after, l.rest ≠ .notEqual :: after := by simp [(rest_of_token? heq).1]
      rw [reads_map_after_token? heq]
      simp [hstops, hne]
    | none =>
      have hequal := rest_ne_cons heq
      cases hneq : l.token? .notEqual with
      | some next =>
        have hstops : ¬Stops [.equal, .notEqual] l.rest := fun h => h _ (head?_rest hneq) (by simp)
        rw [reads_map_after_token? hneq]
        simp [hstops, hequal]
      | none =>
        have hnotEqual := rest_ne_cons hneq
        have hstops : Stops [.equal, .notEqual] l.rest := by
          intro t ht hmem
          rcases List.mem_pair.1 hmem with rfl | rfl
          · exact token?_eq_none_iff.1 heq ht
          · exact token?_eq_none_iff.1 hneq ht
        cases hvar : l.value.isVar with
        | true => simp [hequal, hnotEqual]
        | false => simp [hequal, hnotEqual, hstops, Parsed.map, eq_comm, and_comm]

theorem decides_readAtom : Decides readAtom IsAtom [.openParen, .equal, .notEqual] := by
  constructor
  · intro ts a rest h
    obtain ⟨l, mid, hl,
      ⟨-, hvar, rfl, rfl⟩ | ⟨after, r, rfl, hr, rfl⟩ | ⟨after, r, rfl, hr, rfl⟩⟩ :=
        reads_readAtom.1 h
    · obtain ⟨us, rfl, hus⟩ := decides_readTerm.sound hl
      exact ⟨us, rfl, .term hus hvar⟩
    · obtain ⟨us, rfl, hus⟩ := decides_readTerm.sound hl
      obtain ⟨vs, rfl, hvs⟩ := decides_readTerm.sound hr
      exact ⟨us ++ .equal :: vs, by simp, .equation hus hvs⟩
    · obtain ⟨us, rfl, hus⟩ := decides_readTerm.sound hl
      obtain ⟨vs, rfl, hvs⟩ := decides_readTerm.sound hr
      exact ⟨us ++ .notEqual :: vs, by simp, .disequation hus hvs⟩
  · intro us a h rest hrest
    have hopen : Stops [.openParen] rest := fun t ht hmem => hrest t ht (by simp_all)
    cases h with
    | term h hvar =>
      refine reads_readAtom.2 ⟨_, rest, decides_readTerm.complete h rest hopen, .inl ?_⟩
      exact ⟨fun t ht hmem => hrest t ht (List.mem_cons_of_mem _ hmem), hvar, rfl, rfl⟩
    | @equation us vs l r hl hr =>
      rw [List.append_assoc]
      refine reads_readAtom.2 ⟨l, _, decides_readTerm.complete hl _ (by simp [Stops]),
        .inr (.inl ?_)⟩
      exact ⟨vs ++ rest, r, rfl, decides_readTerm.complete hr rest hopen, rfl⟩
    | @disequation us vs l r hl hr =>
      rw [List.append_assoc]
      refine reads_readAtom.2 ⟨l, _, decides_readTerm.complete hl _ (by simp [Stops]),
        .inr (.inr ?_)⟩
      exact ⟨vs ++ rest, r, rfl, decides_readTerm.complete hr rest hopen, rfl⟩

theorem IsAtom.exists_head {ts : List Token} {a : Term × Bool} (h : IsAtom ts a) :
    ∃ u us, ts = u :: us ∧ ((∃ x, u = .upper x) ∨ ∃ f, Token.name? u = some f) := by
  cases h with
  | term h _ => exact h.exists_head
  | equation h _ =>
    obtain ⟨u, us, rfl, hu⟩ := h.exists_head
    exact ⟨u, _, rfl, hu⟩
  | disequation h _ =>
    obtain ⟨u, us, rfl, hu⟩ := h.exists_head
    exact ⟨u, _, rfl, hu⟩

/-- An atom begins with none of the tokens that begin other phrases. -/
theorem IsAtom.head?_ne {ts : List Token} {a : Term × Bool} (h : IsAtom ts a) (rest : List Token)
    {t : Token} (ht : t ∈ [.dollar "false", .tilde, .openParen]) : (ts ++ rest).head? ≠ some t := by
  obtain ⟨u, us, rfl, hu⟩ := h.exists_head
  intro hhead
  obtain rfl : u = t := by simpa using hhead
  rcases hu with ⟨x, rfl⟩ | ⟨f, hf⟩
  · simp at ht
  · rcases List.mem_cons.1 ht with rfl | ht
    · simp [Token.name?] at hf
    · rcases List.mem_pair.1 ht with rfl | rfl <;> simp [Token.name?] at hf

/-- Read the literals that a literal contributes. -/
def readLiteralList (ts : List Token) : Option (Parsed (List Literal) ts) :=
  (readLiteral ts).map fun l => l.map Option.toList

theorem decides_readLiteralList :
    Decides readLiteralList IsLiteral [.openParen, .equal, .notEqual] := by
  constructor
  · intro ts ls rest h
    rw [readLiteralList, reads_map] at h
    obtain ⟨l, h, rfl⟩ := h
    rw [readLiteral] at h
    split at h
    · next absurdity hfalse =>
      obtain ⟨rfl, rfl⟩ := reads_some.1 h
      exact ⟨[.dollar "false"], eq_cons_of_readToken hfalse, .absurdity⟩
    · split at h
      · next tilde htilde =>
        obtain ⟨⟨a, n⟩, ha, rfl⟩ := reads_map_after.1 h
        obtain ⟨us, hus, hatom⟩ := decides_readAtom.sound ha
        exact ⟨.tilde :: us, (eq_cons_of_readToken htilde).trans (by rw [hus]; rfl), .negated hatom⟩
      · obtain ⟨⟨a, n⟩, ha, rfl⟩ := reads_map.1 h
        obtain ⟨us, rfl, hatom⟩ := decides_readAtom.sound ha
        exact ⟨us, rfl, .plain hatom⟩
  · intro us ls h rest hrest
    rw [readLiteralList, reads_map]
    cases h with
    | absurdity => exact ⟨none, by simp [readLiteral, readToken, Parsed.map, Parsed.first], rfl⟩
    | @plain us a n h =>
      refine ⟨some (Literal.of n a), ?_, rfl⟩
      rw [readLiteral, readToken_eq_none_iff.2 (h.head?_ne rest (by simp)),
        readToken_eq_none_iff.2 (h.head?_ne rest (by simp))]
      exact reads_map.2 ⟨(a, n), decides_readAtom.complete h rest hrest, rfl⟩
    | @negated us a n h =>
      refine ⟨some (Literal.of (!n) a), ?_, rfl⟩
      rw [List.cons_append, readLiteral, readToken_eq_none_iff.2 (by simp), readToken_cons]
      exact reads_map_after.2 ⟨(a, n), decides_readAtom.complete h rest hrest, rfl⟩

theorem IsLiteral.head?_ne {ts : List Token} {ls : List Literal} (h : IsLiteral ts ls)
    (rest : List Token) : (ts ++ rest).head? ≠ some .openParen := by
  cases h with
  | absurdity => simp
  | plain h => exact h.head?_ne rest (by simp)
  | negated h => simp

/-! ### Disjunctions -/

theorem readDisjunct_eq (ts : List Token) : readDisjunct ts =
    (readToken .openParen ts).elim (readLiteralList ts) fun opened =>
      (readDisjunction opened.rest).bind fun ls => (opened.after ls).token? .closeParen := by
  rw [readDisjunct]
  cases readToken .openParen ts with
  | none => rfl
  | some opened =>
    rw [Option.elim_some]
    cases h : readDisjunction opened.rest with
    | none => simp [h]
    | some ls => simp [h]

theorem decides_readDisjunct :
    Decides readDisjunct (IsDisjunct IsLiteral) [.openParen, .equal, .notEqual] := by
  refine .of_soundBelow (fun n => ?_) fun h => ?_
  · induction n with
    | zero => exact fun ts h => absurd h (Nat.not_lt_zero _)
    | succ n ih =>
      intro ts hts ls rest h
      rw [readDisjunct_eq] at h
      cases hopen : readToken .openParen ts with
      | none =>
        rw [hopen, Option.elim_none] at h
        obtain ⟨us, rfl, hus⟩ := decides_readLiteralList.sound h
        exact ⟨us, rfl, .literal hus⟩
      | some opened =>
        rw [hopen, Option.elim_some, reads_bind_token?] at h
        have hlt := opened.shorter
        obtain ⟨us, hus, parts, hparts, rfl⟩ :=
          readsSeparated_readDisjunction.soundBelow ih _ (by omega) _ _ h
        refine ⟨.openParen :: (us ++ [.closeParen]), ?_, .paren hparts⟩
        rw [eq_cons_of_readToken hopen, hus]
        simp
  · refine h.induct ?_ ?_
    · intro us ls h rest hrest
      rw [readDisjunct_eq, readToken_eq_none_iff.2 (h.head?_ne rest), Option.elim_none]
      exact decides_readLiteralList.complete h rest hrest
    · intro us parts h rest _
      rw [List.cons_append, List.append_assoc, readDisjunct_eq, readToken_cons, Option.elim_some,
        reads_bind_token?]
      exact readsSeparated_readDisjunction.isReadBy (by decide) h _ (by simp [Stops])

theorem decides_readDisjunction :
    Decides readDisjunction (Joined .bar (IsDisjunct IsLiteral) List.flatten)
      [.bar, .openParen, .equal, .notEqual] :=
  readsSeparated_readDisjunction.decides (by decide) decides_readDisjunct

/-! ### Annotations -/

theorem reads_readNoteWord {ts rest : List Token} {u : Unit} :
    Reads (readNoteWord ts) u rest ↔ ∃ t, Token.isWord t = true ∧ ts = t :: rest := by
  cases ts with
  | nil => simp [readNoteWord]
  | cons t ts => cases t <;> simp [readNoteWord, Parsed.first, Token.isWord]

/-- Read the notes after an opening token, if there are any, up to the closing one. -/
def readNotesUpTo (close : Token) {ts : List Token} (opened : Parsed Unit ts) :
    Option (Parsed Unit ts) :=
  match opened.token? close with
  | some closed => some closed
  | none =>
    match readNotes opened.rest with
    | none => none
    | some notes => (opened.after notes).token? close

theorem readNoteHead_eq (ts : List Token) : readNoteHead ts =
    (readToken .openBracket ts).elim
      ((readNoteWord ts).bind fun word =>
        (word.token? .openParen).elim (some word) (readNotesUpTo .closeParen))
      (readNotesUpTo .closeBracket) := by
  rw [readNoteHead]
  cases readToken .openBracket ts with
  | some opened => rfl
  | none =>
    cases readNoteWord ts with
    | none => rfl
    | some word =>
      simp only [Option.elim_none, Option.bind_some]
      cases word.token? .openParen <;> rfl

theorem head?_of_reads_readNotes {ts rest : List Token} {v : Unit}
    (h : Reads (readNotes ts) v rest) :
    ts.head? ≠ some .closeParen ∧ ts.head? ≠ some .closeBracket := by
  obtain ⟨_, _, h, -⟩ := (readsSeparated_readNotes.reads_iff _ _ _).1 h
  obtain ⟨_, _, h, -⟩ := (readsSeparated_readNote.reads_iff _ _ _).1 h
  rw [readNoteHead_eq] at h
  cases hopen : readToken .openBracket ts with
  | some opened => simp [eq_cons_of_readToken hopen]
  | none =>
    cases hword : readNoteWord ts with
    | none => simp [hopen, hword] at h
    | some word =>
      obtain ⟨t, ht, hts⟩ := reads_readNoteWord.1 ⟨word, hword, rfl, rfl⟩
      cases t <;> simp_all [Token.isWord]

theorem reads_readNotesUpTo {close : Token} (hclose : close ∈ [.closeParen, .closeBracket])
    {ts rest : List Token} {opened : Parsed Unit ts} {v : Unit} :
    Reads (readNotesUpTo close opened) v rest ↔
      opened.rest = close :: rest ∨ Reads (readNotes opened.rest) () (close :: rest) := by
  rw [readNotesUpTo]
  cases hclosed : opened.token? close with
  | some closed =>
    rw [rest_eq_cons_iff hclosed, reads_some]
    constructor
    · rintro ⟨-, h⟩
      exact .inl h
    · rintro (h | h)
      · exact ⟨rfl, h⟩
      · have hne := head?_of_reads_readNotes h
        rw [head?_rest hclosed] at hne
        simp_all
  | none =>
    cases hnotes : readNotes opened.rest with
    | none => simp [rest_ne_cons hclosed]
    | some notes => simp [rest_ne_cons hclosed, Parsed.after]

theorem readNoteHead_word {t : Token} (ht : t.isWord = true) (rest : List Token) :
    readNoteHead (t :: rest) = ((Parsed.first () t rest).token? .openParen).elim
      (some (.first () t rest)) (readNotesUpTo .closeParen) := by
  have hne : t ≠ .openBracket := by
    rintro rfl
    simp [Token.isWord] at ht
  have hword : readNoteWord (t :: rest) = some (.first () t rest) := by
    cases t <;> simp_all [Token.isWord, readNoteWord]
  rw [readNoteHead_eq, readToken_eq_none_iff.2 (by simpa using hne), Option.elim_none, hword,
    Option.bind_some]

theorem reads_readNoteHead_app {t : Token} (ht : t.isWord = true) {after rest : List Token}
    {v : Unit} :
    Reads (readNoteHead (t :: .openParen :: after)) v rest ↔
      after = .closeParen :: rest ∨ Reads (readNotes after) () (.closeParen :: rest) := by
  rw [readNoteHead_word ht]
  cases hopen : (Parsed.first () t (.openParen :: after)).token? .openParen with
  | none => exact absurd rfl (rest_ne_cons hopen after)
  | some opened =>
    rw [Option.elim_some, reads_readNotesUpTo (by simp), (rest_eq_cons_iff hopen after).1 rfl]

theorem soundBelow_readNotes {n : Nat} (h : SoundBelow n readNoteHead IsNoteHead) :
    SoundBelow n readNotes fun ts _ =>
      ∃ vs, SeparatedBy .comma (SeparatedBy .colon IsNoteHead) ts vs := by
  intro ts hts v rest hread
  obtain ⟨us, rfl, vs, hvs, -⟩ :=
    readsSeparated_readNotes.soundBelow (readsSeparated_readNote.soundBelow h) ts hts v rest hread
  obtain ⟨parts, hparts, -⟩ := hvs.exists_map
  exact ⟨us, rfl, parts, hparts⟩

theorem isReadBy_readNotes {us : List Token} {vs : List (List Unit)}
    (h : SeparatedBy .comma (SeparatedBy .colon (IsReadBy readNoteHead [.openParen])) us vs) :
    IsReadBy readNotes [.comma, .colon, .openParen] us () := by
  have hnote : SeparatedBy .comma (IsReadBy readNote [.colon, .openParen]) us
      (vs.map fun _ => ()) :=
    h.map fun _ _ h => readsSeparated_readNote.isReadBy (by decide) h
  exact readsSeparated_readNotes.isReadBy (by decide) hnote

theorem decides_readNoteHead : Decides readNoteHead IsNoteHead [.openParen] := by
  refine .of_soundBelow (fun n => ?_) fun h => ?_
  · induction n with
    | zero => exact fun ts h => absurd h (Nat.not_lt_zero _)
    | succ n ih =>
      intro ts hts v rest h
      rw [readNoteHead_eq] at h
      cases hopen : readToken .openBracket ts with
      | some opened =>
        rw [hopen, Option.elim_some, reads_readNotesUpTo (by simp)] at h
        have hlt := opened.shorter
        rcases h with h | h
        · exact ⟨[.openBracket, .closeBracket],
            (eq_cons_of_readToken hopen).trans (by rw [h]; rfl), .emptyList⟩
        · obtain ⟨us, hus, vs, hvs⟩ := soundBelow_readNotes ih _ (by omega) _ _ h
          exact ⟨.openBracket :: (us ++ [.closeBracket]),
            (eq_cons_of_readToken hopen).trans (by rw [hus]; simp), .list hvs⟩
      | none =>
        rw [hopen, Option.elim_none] at h
        cases hword : readNoteWord ts with
        | none => simp [hword] at h
        | some word =>
          obtain ⟨t, ht, hcons⟩ := reads_readNoteWord.1 ⟨word, hword, rfl, rfl⟩
          have hlt := word.shorter
          rw [hword, Option.bind_some] at h
          cases hparen : word.token? .openParen with
          | none =>
            rw [hparen, Option.elim_none, reads_some] at h
            exact ⟨[t], hcons.trans (by rw [h.2]; rfl), .word ht⟩
          | some opened =>
            rw [hparen, Option.elim_some, reads_readNotesUpTo (by simp)] at h
            have hrest := (rest_of_token? hparen).1
            have hlt' := opened.shorter
            rcases h with h | h
            · exact ⟨[t, .openParen, .closeParen], hcons.trans (by rw [hrest, h]; rfl),
                .emptyApp ht⟩
            · obtain ⟨us, hus, vs, hvs⟩ := soundBelow_readNotes ih _ (by omega) _ _ h
              exact ⟨t :: .openParen :: (us ++ [.closeParen]),
                hcons.trans (by rw [hrest, hus]; simp), .app ht hvs⟩
  · refine h.induct ?_ ?_ ?_ ?_ ?_
    · intro rest _
      rw [List.cons_append, readNoteHead_eq, readToken_cons, Option.elim_some,
        reads_readNotesUpTo (by simp)]
      exact .inl rfl
    · intro us vs h rest _
      rw [List.cons_append, List.append_assoc, readNoteHead_eq, readToken_cons, Option.elim_some,
        reads_readNotesUpTo (by simp)]
      exact .inr (isReadBy_readNotes h _ (by simp [Stops]))
    · intro t ht rest hrest
      have hnone : (Parsed.first () t rest).token? .openParen = none :=
        token?_eq_none_iff.2 fun h => hrest _ h List.mem_cons_self
      rw [List.singleton_append, readNoteHead_word ht, hnone, Option.elim_none, reads_some]
      exact ⟨rfl, rfl⟩
    · intro t ht rest _
      exact (reads_readNoteHead_app ht).2 (.inl rfl)
    · intro t us vs ht h rest _
      rw [List.cons_append, List.cons_append, List.append_assoc, reads_readNoteHead_app ht]
      exact .inr (isReadBy_readNotes h _ (by simp [Stops]))

theorem decides_readNotes :
    Decides readNotes (fun ts _ => ∃ vs, SeparatedBy .comma (SeparatedBy .colon IsNoteHead) ts vs)
      [.comma, .colon, .openParen] := by
  refine .of_soundBelow (fun n => soundBelow_readNotes fun _ _ _ _ h =>
    decides_readNoteHead.sound h) ?_
  rintro us _ ⟨vs, hvs⟩
  exact isReadBy_readNotes (hvs.imp fun _ _ h => h.imp fun _ _ => decides_readNoteHead.complete)

/-! ### Statements -/

theorem reads_readAnnotations {α : Type} {ts rest : List Token} {p : Parsed α ts} {a : α} :
    Reads (readAnnotations p) a rest ↔ p.value = a ∧
      ((p.rest.head? ≠ some .comma ∧ p.rest = rest) ∨
        ∃ after, p.rest = .comma :: after ∧ Reads (readNotes after) () rest) := by
  rw [readAnnotations]
  cases hcomma : p.token? .comma with
  | none =>
    have hne := token?_eq_none_iff.1 hcomma
    simp [hne, rest_ne_cons hcomma]
  | some next =>
    have hhead := head?_rest hcomma
    rw [reads_map_after_token? hcomma]
    constructor
    · rintro ⟨after, _, hafter, h, rfl⟩
      exact ⟨rfl, .inr ⟨after, hafter, h⟩⟩
    · rintro ⟨rfl, ⟨hne, -⟩ | ⟨after, hafter, h⟩⟩
      · exact absurd hhead hne
      · exact ⟨after, (), hafter, h, rfl⟩

theorem reads_readName {ts rest : List Token} {name : String} :
    Reads (readName ts) name rest ↔ ∃ t, Token.name? t = some name ∧ ts = t :: rest := by
  cases ts with
  | nil => simp [readName]
  | cons t ts => cases h : t.name? <;> simp [readName, Parsed.first, h]

theorem reads_readRole {ts rest : List Token} {role : Role} :
    Reads (readRole ts) role rest ↔
      ∃ word, Role.ofName? word = some role ∧ ts = .lower word :: rest := by
  rw [readRole.eq_def]
  split
  · next word ts => cases h : Role.ofName? word <;> simp [Parsed.first, h]
  · next hne =>
    rw [iff_false_left not_reads_none]
    rintro ⟨word, -, rfl⟩
    exact hne word rest rfl

theorem reads_readStatement {ts rest : List Token} {c : Clause} : Reads (readStatement ts) c rest ↔
    ∃ n name word role mid ls after,
      ts = .lower "cnf" :: .openParen :: n :: .comma :: .lower word :: .comma :: mid ∧
      Token.name? n = some name ∧ Role.ofName? word = some role ∧
      Reads (readDisjunction mid) ls after ∧
      ((after.head? ≠ some .comma ∧ after = .closeParen :: .dot :: rest) ∨
        ∃ notes, after = .comma :: notes ∧
          Reads (readNotes notes) () (.closeParen :: .dot :: rest)) ∧
      c = ⟨name, role, ls, none⟩ := by
  simp only [readStatement, Option.bind_eq_bind, Option.pure_def, reads_bind, reads_some]
  constructor
  · rintro ⟨keyword, hkeyword, opened, hopen, n, hn, name, hname, r, hr, role, hrole,
      ls, hls, noted, hnoted, paren, hparen, closed, hclosed, rfl, rfl⟩
    obtain ⟨t, ht, hts⟩ := reads_readName.1 ⟨n, hn, rfl, rfl⟩
    obtain ⟨word, hword, hws⟩ := reads_readRole.1 ⟨r, hr, rfl, rfl⟩
    obtain ⟨hvalue, hafter⟩ := reads_readAnnotations.1 ⟨noted, hnoted, rfl, rfl⟩
    rw [(rest_of_token? hparen).1, (rest_of_token? hclosed).1] at hafter
    refine ⟨t, n.value, word, r.value, role.rest, ls.value, ls.rest, ?_, ht, hword,
      ⟨ls, hls, rfl, rfl⟩, hafter, ?_⟩
    · have hhead := (eq_cons_of_readToken hkeyword).trans (congrArg _ (rest_of_token? hopen).1)
      have hmiddle := hts.trans (congrArg _ (rest_of_token? hname).1)
      have hbody := hws.trans (congrArg _ (rest_of_token? hrole).1)
      exact hhead.trans (congrArg _ (congrArg _ (hmiddle.trans (congrArg _ (congrArg _ hbody)))))
    · simp only [Parsed.map, Parsed.after, (rest_of_token? hname).2, (rest_of_token? hrole).2,
        (rest_of_token? hclosed).2, (rest_of_token? hparen).2, hvalue]
  · rintro ⟨n, name, word, role, mid, ls, after, rfl, hname, hrole, hls, hafter, rfl⟩
    have hrest : (Parsed.first () (.lower "cnf")
        (.openParen :: n :: .comma :: .lower word :: .comma :: mid)).rest = _ := rfl
    obtain ⟨opened, hopen, -, hrest⟩ := reads_token?.2 ⟨rfl, hrest⟩
    obtain ⟨n', hn, hnvalue, hrest⟩ := reads_readName.2 ⟨n, hname, hrest⟩
    obtain ⟨name', hname', hnvalue, hrest⟩ := reads_token?.2 ⟨hnvalue, hrest⟩
    obtain ⟨r, hr, hrvalue, hrest⟩ := reads_readRole.2 ⟨word, hrole, hrest⟩
    obtain ⟨role', hrole', hrvalue, hrest⟩ := reads_token?.2 ⟨hrvalue, hrest⟩
    rw [← hrest] at hls
    obtain ⟨ls', hls', hlvalue, rfl⟩ := hls
    obtain ⟨noted, hnoted, hlvalue, hrest⟩ := reads_readAnnotations.2 ⟨hlvalue, hafter⟩
    obtain ⟨paren, hparen, hlvalue, hrest⟩ := reads_token?.2 ⟨hlvalue, hrest⟩
    obtain ⟨closed, hclosed, hlvalue, hrest⟩ := reads_token?.2 ⟨hlvalue, hrest⟩
    refine ⟨_, readToken_cons _ _, opened, hopen, n', hn, name', hname', r, hr, role',
      hrole', ls', hls', noted, hnoted, paren, hparen, closed, hclosed, ?_, hrest⟩
    simp only [Parsed.map, Parsed.after, hnvalue, hrvalue, hlvalue]

theorem decides_readStatement : Decides readStatement IsStatement [] := by
  constructor
  · intro ts c rest h
    obtain ⟨n, name, word, role, mid, ls, after, rfl, hname, hrole, hls, hafter, rfl⟩ :=
      reads_readStatement.1 h
    obtain ⟨body, rfl, parts, hbody, rfl⟩ := decides_readDisjunction.sound hls
    rcases hafter with ⟨-, rfl⟩ | ⟨notes, rfl, hnotes⟩
    · exact ⟨_, by simp, .cnf hname hrole hbody .absent, rfl⟩
    · obtain ⟨us, rfl, vs, hvs⟩ := decides_readNotes.sound hnotes
      exact ⟨_, by simp, .cnf hname hrole hbody (.notes hvs), rfl⟩
  · rintro us ⟨name, role, _, _⟩ ⟨h, rfl⟩ rest -
    cases h with
    | @cnf n _ word _ body note parts hname hrole hbody hnote =>
      refine reads_readStatement.2 ⟨n, name, word, role,
        body ++ (note ++ .closeParen :: .dot :: rest), parts.flatten,
        note ++ .closeParen :: .dot :: rest, by simp, hname, hrole, ?_, ?_, rfl⟩
      · refine decides_readDisjunction.complete ⟨parts, hbody, rfl⟩ _ ?_
        cases hnote <;> simp [Stops]
      · cases hnote with
        | absent => exact .inl ⟨by simp, rfl⟩
        | notes h => exact .inr ⟨_, rfl, decides_readNotes.complete ⟨_, h⟩ _ (by simp [Stops])⟩

end Refutation
