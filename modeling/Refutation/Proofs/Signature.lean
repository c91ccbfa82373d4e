import Refutation.Signature

/-!
# What a signature knows

A signature is built by entering the occurrences of symbols one after the other.  Nothing that it
knows is ever changed, so in the end it knows every occurrence with its arity.

* `Signature.Knows` : the occurrence has the arity under which its symbol is listed.
* `Signature.knows_of_ofClauses` : **the signature of a list of clauses knows all their symbols.**
* `Signature.exists_occurrence_of_ofClauses` : it lists no others.
-/

namespace Refutation

namespace Signature

variable {S S' : Signature} {o o' : Occurrence} {os : List Occurrence}

/-- The symbol is listed under its kind, with the arity of the occurrence. -/
def Knows (S : Signature) (o : Occurrence) : Prop :=
  (S.symbols o.kind).lookup o.symbol = some o.arity

instance (S : Signature) (o : Occurrence) : Decidable (S.Knows o) :=
  inferInstanceAs (Decidable ((S.symbols o.kind).lookup o.symbol = some o.arity))

theorem Knows.mem (h : S.Knows o) : (o.symbol, o.arity) ∈ S.symbols o.kind := by
  obtain ⟨before, after, hsymbols, -⟩ := List.lookup_eq_some_iff.1 h
  rw [hsymbols]
  exact List.mem_append_right _ List.mem_cons_self

theorem Knows.arity_eq (h : S.Knows o) (h' : S.Knows o') (hkind : o.kind = o'.kind)
    (hsymbol : o.symbol = o'.symbol) : o.arity = o'.arity := by
  unfold Knows at h h'
  rw [hkind, hsymbol, h'] at h
  exact (Option.some.inj h).symm

theorem symbols_extend (S : Signature) (o : Occurrence) (kind : SymbolKind) :
    (S.extend o).symbols kind =
      S.symbols kind ++ if kind = o.kind then [(o.symbol, o.arity)] else [] := by
  cases hkind : o.kind <;> cases kind <;> simp [extend, symbols, hkind]

theorem Knows.extend (h : S.Knows o) (o' : Occurrence) : (S.extend o').Knows o := by
  unfold Knows at h ⊢
  rw [symbols_extend, List.lookup_append, h, Option.some_or]

theorem knows_extend (h : (S.symbols o.kind).lookup o.symbol = none) : (S.extend o).Knows o := by
  unfold Knows
  rw [symbols_extend, List.lookup_append, h, if_pos rfl]
  simp

/-- Entering an occurrence makes it known and keeps what is known. -/
theorem knows_declare (h : S.declare o = .ok S') : S'.Knows o ∧ ∀ o', S.Knows o' → S'.Knows o' := by
  unfold declare at h
  split at h
  · cases h
  · split at h
    · next hnone =>
      obtain rfl := Except.ok.inj h
      exact ⟨knows_extend hnone, fun o' ho' => ho'.extend o⟩
    · next arity hsome =>
      split at h
      · next harity =>
        obtain rfl := Except.ok.inj h
        exact ⟨hsome.trans (congrArg some harity), fun _ => id⟩
      · cases h

theorem knows_declareAll (h : S.declareAll os = (S', none)) :
    (∀ o ∈ os, S'.Knows o) ∧ ∀ o, S.Knows o → S'.Knows o := by
  induction os generalizing S with
  | nil =>
    obtain rfl : S = S' := (Prod.mk.inj h).1
    exact ⟨List.forall_mem_nil _, fun _ => id⟩
  | cons o os ih =>
    rw [declareAll] at h
    split at h
    · next S₁ hdeclare =>
      obtain ⟨hknown, hkeeps⟩ := knows_declare hdeclare
      obtain ⟨hrest, hkeeps'⟩ := ih h
      exact ⟨List.forall_mem_cons.2 ⟨hkeeps' o hknown, hrest⟩,
        fun o' ho' => hkeeps' o' (hkeeps o' ho')⟩
    · cases (Prod.mk.inj h).2

/-- **The signature of a list of clauses knows all their symbols.** -/
theorem knows_of_ofClauses {cs : List Clause} (h : ofClauses cs = .ok S) {c : Clause} (hc : c ∈ cs)
    (ho : o ∈ c.symbolOccurrences) : S.Knows o := by
  unfold ofClauses at h
  split at h
  · next S₁ hall =>
    obtain rfl := Except.ok.inj h
    exact (knows_declareAll hall).1 o (List.mem_flatMap.2 ⟨c, hc, ho⟩)
  · cases h

theorem mem_symbols_declare (h : S.declare o = .ok S') {kind : SymbolKind} {symbol : String × Nat}
    (hsymbol : symbol ∈ S'.symbols kind) :
    symbol ∈ S.symbols kind ∨ kind = o.kind ∧ symbol = (o.symbol, o.arity) := by
  unfold declare at h
  split at h
  · cases h
  · split at h
    · obtain rfl := Except.ok.inj h
      rw [symbols_extend] at hsymbol
      split at hsymbol
      · next hkind => simpa [hkind] using hsymbol
      · exact .inl (by simpa using hsymbol)
    · split at h
      · obtain rfl := Except.ok.inj h
        exact .inl hsymbol
      · cases h

theorem mem_symbols_declareAll (h : S.declareAll os = (S', none)) {kind : SymbolKind}
    {symbol : String × Nat} (hsymbol : symbol ∈ S'.symbols kind) :
    symbol ∈ S.symbols kind ∨ ∃ o ∈ os, kind = o.kind ∧ symbol = (o.symbol, o.arity) := by
  induction os generalizing S with
  | nil =>
    obtain rfl : S = S' := (Prod.mk.inj h).1
    exact .inl hsymbol
  | cons o os ih =>
    rw [declareAll] at h
    split at h
    · next S₁ hdeclare =>
      rcases ih h with hold | ⟨o', ho', heq⟩
      · rcases mem_symbols_declare hdeclare hold with hold | heq
        · exact .inl hold
        · exact .inr ⟨o, List.mem_cons_self, heq⟩
      · exact .inr ⟨o', List.mem_cons_of_mem _ ho', heq⟩
    · cases (Prod.mk.inj h).2

/-- **The signature of a list of clauses lists only symbols that occur in them.** -/
theorem exists_occurrence_of_ofClauses {cs : List Clause} (h : ofClauses cs = .ok S)
    {kind : SymbolKind} {symbol : String × Nat} (hsymbol : symbol ∈ S.symbols kind) :
    ∃ c ∈ cs, ∃ o ∈ c.symbolOccurrences, symbol = (o.symbol, o.arity) := by
  unfold ofClauses at h
  split at h
  · next S₁ hall =>
    obtain rfl := Except.ok.inj h
    rcases mem_symbols_declareAll hall hsymbol with hnone | ⟨o, ho, -, heq⟩
    · cases kind <;> exact absurd hnone List.not_mem_nil
    · obtain ⟨c, hc, ho⟩ := List.mem_flatMap.1 ho
      exact ⟨c, hc, o, ho, heq⟩
  · cases h

end Signature

end Refutation
