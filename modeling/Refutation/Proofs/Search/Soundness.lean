import Refutation.Proofs.Search.Coverage

/-!
# Soundness of the search

The unifier of an inference may be cyclic, and then the inference proves nothing.  All else that a
search does is sound: a clause whose derivation uses no cyclic unifier follows from the clauses that
the search started with.  Without function symbols there are no cyclic unifiers, so that every proof
counts.

* `Search.Snapshot.Explained` : the history tells truly where each clause of the archive comes from.
* `Search.Snapshot.Explained.induct` : induction over derivations.
* `Search.search_sound` : soundness, for full and plain searches.
-/

namespace Refutation

universe u

namespace Clause

theorem mem_dedupLiterals {ls : List Literal} {a : SignedAtom} :
    (∃ l ∈ dedupLiterals ls, l.toSignedAtom = a) ↔ ∃ l ∈ ls, l.toSignedAtom = a := by
  induction ls with
  | nil => rfl
  | cons l ls ih =>
    simp only [dedupLiterals, List.mem_cons, List.mem_filter, decide_eq_true_eq, or_and_right,
      exists_or, exists_eq_left, ← ih]
    refine or_congr_right' fun hne => ⟨?_, ?_⟩
    · rintro ⟨m, ⟨hm, -⟩, rfl⟩
      exact ⟨m, hm, rfl⟩
    · rintro ⟨m, hm, rfl⟩
      exact ⟨m, ⟨hm, Ne.symm hne⟩, rfl⟩

theorem mem_signedAtoms_dedup {c : Clause} {a : SignedAtom} :
    a ∈ c.dedup.signedAtoms ↔ a ∈ c.signedAtoms := by
  rw [mem_signedAtoms, mem_signedAtoms]
  exact mem_dedupLiterals

theorem isFlat_of_arity {c : Clause}
    (h : ∀ o ∈ c.symbolOccurrences, o.kind = .function → o.arity = 0) : c.IsFlat := by
  intro a ha t ht
  obtain ⟨l, hl, rfl⟩ := mem_signedAtoms.1 ha
  cases t with
  | var x => trivial
  | app f ts =>
    have hmem : ⟨.function, f, ts.length⟩ ∈ c.symbolOccurrences := by
      refine List.mem_flatMap.2 ⟨l, hl, List.mem_cons_of_mem _ (List.mem_flatMap.2 ⟨_, ht, ?_⟩)⟩
      simp [Term.functionOccurrences]
    exact List.length_eq_zero_iff.1 (h _ hmem rfl)

end Clause

namespace Search

variable {policy : Policy} {v w : Snapshot} {S : List Clause}

theorem Policy.mem_signedAtoms_tidy {c : Clause} {a : SignedAtom} :
    a ∈ (policy.tidy c).signedAtoms ↔ a ∈ c.signedAtoms := by
  unfold Policy.tidy
  split_ifs
  · exact Clause.mem_signedAtoms_dedup
  · rfl

/-! ### Where clauses come from -/

/-- The origin tells truly where the clause with number `n` comes from. -/
def Origin.Explains (S : List Clause) (A : Archive) (n : Nat) : Origin → Prop
  | input => ∃ c ∈ S, A.get? n = some c
  | copy m => m < n ∧ ∃ c d, A.get? n = some c ∧ A.get? m = some d ∧ c.signedAtoms = d.signedAtoms
  | inference k => ∃ r c, k.result? = some r ∧ A.get? n = some c ∧
    (∀ a, a ∈ c.signedAtoms ↔ a ∈ r.signedAtoms) ∧
    ∀ e ∈ k.premises, e.number < n ∧ A.get? e.number = some e.clause

theorem Origin.Explains.record {A : Archive} {n : Nat} {o : Origin} (h : o.Explains S A n)
    (c : Clause) : o.Explains S (A.record c).2 n := by
  cases o with
  | input =>
    obtain ⟨d, hd, hget⟩ := h
    exact ⟨d, hd, Archive.get?_record hget⟩
  | copy m =>
    obtain ⟨hlt, d, d', hd, hd', hatoms⟩ := h
    exact ⟨hlt, d, d', Archive.get?_record hd, Archive.get?_record hd', hatoms⟩
  | inference k =>
    obtain ⟨r, d, hr, hd, hatoms, hpremises⟩ := h
    exact ⟨r, d, hr, Archive.get?_record hd, hatoms, fun e he =>
      ⟨(hpremises e he).1, Archive.get?_record (hpremises e he).2⟩⟩

/-- All origins are true. -/
def Snapshot.Explained (S : List Clause) (v : Snapshot) : Prop :=
  ∀ (n : Nat) (o : Origin), v.history.origins[n]? = some o → o.Explains S v.archive n

namespace Snapshot.Explained

theorem enter (hv : v.Explained S) (hcons : v.Consistent) {c : Clause} {o : Origin}
    (ho : o.Explains S (v.archive.record c).2 v.archive.size) : (v.enter c o).Explained S := by
  intro n o' ho'
  change (v.history.origins ++ [o])[n]? = some o' at ho'
  -- there are as many origins as clauses, so that the new origin is that of the new clause
  by_cases hn : n < v.history.origins.length
  · rw [List.getElem?_append_left hn] at ho'
    exact (hv n o' ho').record c
  · have hlt := (List.getElem?_eq_some_iff.1 ho').1
    rw [List.length_append, List.length_singleton] at hlt
    obtain rfl : n = v.history.origins.length := by omega
    rw [List.getElem?_concat_length, Option.some.injEq] at ho'
    rw [← ho', hcons.origins]
    exact ho

/-- A clause that contains the literals of a conclusion is explained by the inference. -/
theorem explains_inference (hcons : v.Consistent) {k : Call} {ks : List Call}
    (hpending : v.pending = k :: ks) {r c : Clause} (hr : k.result? = some r)
    (hatoms : ∀ a, a ∈ c.signedAtoms ↔ a ∈ r.signedAtoms) :
    (Origin.inference k).Explains S (v.archive.record c).2 v.archive.size := by
  refine ⟨r, c, hr, Archive.get?_record_self c, hatoms, fun e he => ?_⟩
  have hk : k ∈ v.pending := hpending ▸ List.mem_cons_self
  have hget := hcons.premises k (hcons.pending k hk) e he
  exact ⟨Archive.lt_size hget, Archive.get?_record hget⟩

/-- **Every move enters clauses with true origins.** -/
theorem move (hv : v.Explained S) (hcons : v.Consistent) (h : Move policy v w) : w.Explained S := by
  cases h with
  | giveUp | saturate | finish | discardTautology | discardSubsumed | skip | dropTautology =>
    exact hv
  | @activate given rest _ hgiven =>
    have hselect : (v.select policy given).2.Explained S := by
      unfold Snapshot.select
      split
      · have hget := hcons.archived given (List.mem_append_right _ hgiven)
        exact hv.enter hcons ⟨Archive.lt_size hget, _, _, Archive.get?_record_self _,
          Archive.get?_record hget, Clause.signedAtoms_select _ _⟩
      · exact hv
    exact hselect
  | enqueue _ hpending hr _ name =>
    exact hv.enter hcons (explains_inference hcons hpending hr fun a => Policy.mem_signedAtoms_tidy)
  | conclude _ hpending hr _ name =>
    exact hv.enter hcons (explains_inference hcons hpending hr fun a => Iff.rfl)

theorem start (S : List Clause) : (Snapshot.start S).Explained S := by
  intro n o ho
  obtain ⟨hn, rfl⟩ := List.getElem?_eq_some_iff.1 ho
  simp only [Snapshot.start, List.length_replicate] at hn
  simp only [Snapshot.start, List.getElem_replicate]
  exact ⟨S[n], List.getElem_mem hn, by simp [Archive.get?, hn]⟩

theorem moves (h : Moves policy (.start S) w) : w.Explained S :=
  h.invariant (Snapshot.consistent_start S) (start S) fun hcons hv hmove => hv.move hcons hmove

/-! ### Derivations -/

/-- **Induction over derivations.** -/
theorem induct (hv : v.Explained S) (hcons : v.Consistent) {motive : Nat → Clause → Prop}
    (input : ∀ n, ∀ c ∈ S, motive n c)
    (copy : ∀ n m c d, v.history.origins[n]? = some (.copy m) → c.signedAtoms = d.signedAtoms →
      motive m d → motive n c)
    (inference : ∀ n k c r, v.history.origins[n]? = some (.inference k) → k.result? = some r →
      (∀ a, a ∈ c.signedAtoms ↔ a ∈ r.signedAtoms) →
      (∀ e ∈ k.premises, v.archive.get? e.number = some e.clause ∧ motive e.number e.clause) →
      motive n c)
    {n : Nat} {c : Clause} (h : v.archive.get? n = some c) : motive n c := by
  -- what a clause was derived from has a smaller number
  induction n using Nat.strongRecOn generalizing c with
  | ind n ih =>
    have hn : n < v.history.origins.length := hcons.origins ▸ Archive.lt_size h
    have ho := List.getElem?_eq_getElem hn
    have hexplains := hv n _ ho
    cases horigin : v.history.origins[n] with
    | input =>
      rw [horigin] at hexplains
      obtain ⟨d, hd, hget⟩ := hexplains
      obtain rfl := Option.some.inj (h.symm.trans hget)
      exact input n c hd
    | copy m =>
      rw [horigin] at hexplains ho
      obtain ⟨hlt, d, d', hget, hget', hatoms⟩ := hexplains
      obtain rfl := Option.some.inj (h.symm.trans hget)
      exact copy n m c d' ho hatoms (ih m hlt hget')
    | inference k =>
      rw [horigin] at hexplains ho
      obtain ⟨r, d, hr, hget, hatoms, hpremises⟩ := hexplains
      obtain rfl := Option.some.inj (h.symm.trans hget)
      exact inference n k c r ho hr hatoms fun e he =>
        ⟨(hpremises e he).2, ih e.number (hpremises e he).1 (hpremises e he).2⟩

/-- What instances inherit holds of all literals if it holds of those at the start. -/
theorem forall_signedAtoms (hv : v.Explained S) (hcons : v.Consistent) {p : SignedAtom → Prop}
    (hsubst : ∀ a θ, p a → p (a.subst θ)) (hS : ∀ c ∈ S, ∀ a ∈ c.signedAtoms, p a) {n : Nat}
    {c : Clause} (h : v.archive.get? n = some c) : ∀ a ∈ c.signedAtoms, p a := by
  refine hv.induct hcons (motive := fun _ c => ∀ a ∈ c.signedAtoms, p a) (fun _ c hc => hS c hc)
    (fun _ _ c d _ hatoms hd => ?_) (fun _ k c r _ hr hatoms hpremises a ha => ?_) h
  · rwa [hatoms]
  · obtain ⟨e, he, b, hb, θ, rfl⟩ := Call.exists_of_mem_result hr ((hatoms a).1 ha)
    exact hsubst b θ ((hpremises e he).2 b hb)

theorem hasCompoundAtoms (hv : v.Explained S) (hcons : v.Consistent)
    (hS : ∀ c ∈ S, c.HasCompoundAtoms) {n : Nat} {c : Clause} (h : v.archive.get? n = some c) :
    c.HasCompoundAtoms := by
  simp only [Clause.hasCompoundAtoms_iff] at hS ⊢
  exact hv.forall_signedAtoms hcons (fun a θ ha => Term.isVar_subst ha θ) hS h

/-- **What is derived without cyclic unifiers follows.** -/
theorem entails (hv : v.Explained S) (hcons : v.Consistent) (hS : ∀ c ∈ S, c.HasCompoundAtoms)
    {n : Nat} {c : Clause} (h : v.archive.get? n = some c)
    (hacyclic : ∀ k, v.history.Uses n k → k.IsAcyclic) : Entails.{u} S c := by
  intro D I hI
  -- the hypothesis on the derivation is passed on to the premises, so it is part of the motive
  refine hv.induct hcons
    (motive := fun n c => (∀ k, v.history.Uses n k → k.IsAcyclic) → I.Models c)
    (fun _ c hc _ => hI c hc) (fun n m c d ho hatoms hd hn => ?_)
    (fun n k c r ho hr hatoms hpremises hn => ?_) h hacyclic
  · exact (hd fun k hk => hn k (.copy ho hk)).of_subset fun a ha => hatoms ▸ ha
  · have hcompound : ∀ e ∈ k.premises, e.clause.HasCompoundAtoms := fun e he =>
      hv.hasCompoundAtoms hcons hS (hpremises e he).1
    have hmodels : ∀ e ∈ k.premises, I.Models e.clause := fun e he =>
      (hpremises e he).2 fun k' hk' => hn k' (.premise ho he hk')
    have hr' := Call.models_result hr (hn k (.conclusion ho)) hcompound hmodels
    exact hr'.of_subset fun a ha => (hatoms a).2 ha

/-! ### Searches without function symbols -/

theorem isFlat (hv : v.Explained S) (hcons : v.Consistent) (hS : ∀ c ∈ S, c.HasCompoundAtoms)
    (hflat : ∀ c ∈ S, c.IsFlat) {n : Nat} {c : Clause} (h : v.archive.get? n = some c) :
    c.IsFlat := by
  refine hv.induct hcons (motive := fun _ c => c.IsFlat) (fun _ c hc => hflat c hc)
    (fun _ _ c d _ hatoms hd => ?_) (fun _ k c r _ hr hatoms hpremises => ?_) h
  · exact fun a ha => hd a (hatoms ▸ ha)
  · have hr' := Call.isFlat_result hr
      (fun e he => hv.hasCompoundAtoms hcons hS (hpremises e he).1) fun e he => (hpremises e he).2
    exact fun a ha => hr'.2 a ((hatoms a).1 ha)

/-- **Without function symbols every inference is acyclic.** -/
theorem isAcyclic_of_flat (hv : v.Explained S) (hcons : v.Consistent)
    (hS : ∀ c ∈ S, c.HasCompoundAtoms) (hflat : ∀ c ∈ S, c.IsFlat) {n : Nat} {k : Call}
    (hk : v.history.Uses n k) : k.IsAcyclic := by
  obtain ⟨m, ho⟩ := hk.exists_origin
  obtain ⟨r, -, hr, -, -, hpremises⟩ := hv m _ ho
  exact (Call.isFlat_result hr (fun e he => hv.hasCompoundAtoms hcons hS (hpremises e he).2)
    fun e he => hv.isFlat hcons hS hflat (hpremises e he).2).1

end Snapshot.Explained

/-! ### Full and plain searches -/

/-- What a state of a search from the clauses `S` shows is right. -/
structure State.Sound {P U : Type} [ClauseStore P] [ClauseQueue U] (S : List Clause) (s : State P U)
    (h : History) : Prop where
  /-- A clause whose derivation uses no cyclic unifier follows from `S`. -/
  entails : ∀ e, e ∈ ClauseStore.toList s.processed ∨ e ∈ ClauseStore.toList s.unprocessed ∨
    s.result = some e → (∀ k, h.Uses e.number k → k.IsAcyclic) → Entails.{u} S e.clause
  /-- If no function symbol of `S` has arguments, then a proof shows that `S` is unsatisfiable. -/
  unsatisfiable : (∀ c ∈ S, ∀ o ∈ c.symbolOccurrences, o.kind = .function → o.arity = 0) →
    s.status = .proofFound → ¬Satisfiable.{u} S

section

variable {P U : Type} [ClauseStore P] [ClauseQueue U] [LawfulStore P] [LawfulQueue U]
    {s₀ s : State P U}
  {h : History}

/-- Without function symbols that take arguments all derivations are acyclic. -/
theorem Run.isAcyclic_of_arity (hs₀ : s₀.Consistent (.start s₀))
    (hstart : s₀.snapshot [] (.start s₀) = .start S) (hS : ∀ c ∈ S, c.HasCompoundAtoms)
    (harity : ∀ c ∈ S, ∀ o ∈ c.symbolOccurrences, o.kind = .function → o.arity = 0)
    (run : Run policy s₀ (.start s₀) s h) {n : Nat} {k : Call} (hk : h.Uses n k) : k.IsAcyclic := by
  obtain ⟨hmoves, hs⟩ := run.moves hs₀
  rw [hstart] at hmoves
  have hflat : ∀ c ∈ S, c.IsFlat := fun c hc => Clause.isFlat_of_arity (harity c hc)
  exact (Snapshot.Explained.moves hmoves).isAcyclic_of_flat hs.snapshot hS hflat hk

theorem Run.sound (hs₀ : s₀.Consistent (.start s₀))
    (hstart : s₀.snapshot [] (.start s₀) = .start S) (hS : ∀ c ∈ S, c.HasCompoundAtoms)
    (run : Run policy s₀ (.start s₀) s h) : State.Sound.{u} S s h := by
  obtain ⟨hmoves, hs⟩ := run.moves hs₀
  rw [hstart] at hmoves
  have hexplained := Snapshot.Explained.moves hmoves
  have hcons := hs.snapshot
  have hentails : ∀ e, e ∈ ClauseStore.toList s.processed ∨ e ∈ ClauseStore.toList s.unprocessed ∨
      s.result = some e → (∀ k, h.Uses e.number k → k.IsAcyclic) → Entails.{u} S e.clause := by
    intro e he hacyclic
    have hget : s.archive.get? e.number = some e.clause := by
      rcases he with he | he | he
      · exact hcons.archived e (List.mem_append_left _ he)
      · exact hcons.archived e (List.mem_append_right _ he)
      · exact hcons.result e he
    exact hexplained.entails hcons hS hget hacyclic
  refine ⟨hentails, fun harity hproof => ?_⟩
  obtain ⟨e, hresult, hempty⟩ := hcons.proofFound hproof
  exact not_satisfiable_of_entails hempty (hentails e (.inr (.inr hresult)) fun k hk =>
    run.isAcyclic_of_arity hs₀ hstart hS harity hk)

end

/-- **Soundness of the search**, full or plain, whatever its parameters. -/
theorem search_sound (params : Params) (hS : ∀ c ∈ S, c.HasCompoundAtoms) :
    (∀ s₀ s h, startFull params S = .ok s₀ → Run params.policy s₀ (.start s₀) s h →
      State.Sound.{u} S s h) ∧
    ∀ s₀ s h, startPlain S = .ok s₀ → Run params.plainPolicy s₀ (.start s₀) s h →
      State.Sound.{u} S s h := by
  constructor
  · intro s₀ s h hstart run
    obtain ⟨hsnapshot, hs₀⟩ := startFull_spec hstart
    exact run.sound hs₀ hsnapshot hS
  · intro s₀ s h hstart run
    obtain ⟨hsnapshot, hs₀⟩ := startPlain_spec hstart
    exact run.sound hs₀ hsnapshot hS

/-- A fact, a rule, and the negation of what follows. -/
def factRuleAndGoal : List Clause :=
  [⟨"fact", .axiomatic, [.pos (.app "p" [.app "a" []])], none⟩,
    ⟨"rule", .axiomatic, [.neg (.app "p" [.var "X"]), .pos (.app "q" [.var "X"])], none⟩,
    ⟨"goal", .negatedConjecture, [.neg (.app "q" [.var "Y"])], none⟩]

/-- Both searches find a proof, what they show is right, and the clauses are unsatisfiable. -/
theorem search_sound_factRuleAndGoal : (∀ c ∈ factRuleAndGoal, c.HasCompoundAtoms) ∧
    (∃ s₀ s h, startFull {} factRuleAndGoal = .ok s₀ ∧
      Run ({} : Params).policy s₀ (.start s₀) s h ∧ s.status = .proofFound ∧
      State.Sound.{u} factRuleAndGoal s h ∧ ¬Satisfiable.{u} factRuleAndGoal) ∧
    ∃ s₀ s h, startPlain factRuleAndGoal = .ok s₀ ∧
      Run ({} : Params).plainPolicy s₀ (.start s₀) s h ∧ s.status = .proofFound ∧
      State.Sound.{u} factRuleAndGoal s h ∧ ¬Satisfiable.{u} factRuleAndGoal := by
  have hS : ∀ c ∈ factRuleAndGoal, c.HasCompoundAtoms := by decide
  have hflat : ∀ c ∈ factRuleAndGoal, ∀ o ∈ c.symbolOccurrences, o.kind = .function →
      o.arity = 0 := by
    decide
  let s₀ : FullState :=
    .start .empty (.empty ({} : Params).heuristic.schedule) factRuleAndGoal
  let t₀ : PlainState := .start .empty .empty factRuleAndGoal
  obtain ⟨h, run⟩ := run_saturate ({} : Params).policy 10 s₀ (.start s₀)
  obtain ⟨h', run'⟩ := run_saturate ({} : Params).plainPolicy 10 t₀ (.start t₀)
  have hproof : (s₀.saturate ({} : Params).policy 10).status = .proofFound := by cbv
  have hproof' : (t₀.saturate ({} : Params).plainPolicy 10).status = .proofFound := by cbv
  obtain ⟨hfull, hplain⟩ := search_sound.{u} {} hS
  have hsound := hfull s₀ _ h rfl run
  have hsound' := hplain t₀ _ h' rfl run'
  exact ⟨hS, ⟨s₀, _, h, rfl, run, hproof, hsound, hsound.unsatisfiable hflat hproof⟩,
    ⟨t₀, _, h', rfl, run', hproof', hsound', hsound'.unsatisfiable hflat hproof'⟩⟩

end Search

end Refutation
