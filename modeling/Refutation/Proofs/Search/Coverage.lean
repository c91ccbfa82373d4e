import Refutation.Proofs.Search.Refinement
import Refutation.Proofs.Subsumption

/-!
# Nothing is lost

A search with redundancy elimination drops clauses.  This module shows that it drops none without a
reason that lasts: a clause that was unprocessed once stays covered, and when the search is
saturated, all conclusions from its processed clauses are covered by processed clauses.

* `Search.Snapshot.Covers.move` : no move uncovers a clause.
* `Search.Snapshot.Exhaustive.move` : every move keeps all inferences between processed clauses
  called.
* `Search.Snapshot.Settled.move` : every move keeps all conclusions pending or covered.
* `Search.no_clause_lost`, `Search.saturated_closed` : the same for full searches.
-/

namespace Refutation

theorem Clause.signedAtoms_select (c : Clause) (s : LiteralSelection) :
    (c.select s).signedAtoms = c.signedAtoms := by
  unfold select
  split
  · refine List.ext_getElem? fun k => ?_
    simp only [signedAtoms, List.getElem?_map, List.getElem?_mapIdx, Option.map_map]
    rfl
  · rfl

theorem Clause.isTautology_congr {c d : Clause} (h : c.literals = d.literals) :
    c.isTautology = d.isTautology := by
  rw [isTautology, isTautology, h]

/-- In a list with one more element, a later element is in the list or the new one. -/
theorem pair_sublist_append {α : Type} {a b x : α} {xs : List α} (h : [a, b].Sublist (xs ++ [x])) :
    [a, b].Sublist xs ∨ a ∈ xs ∧ b = x := by
  obtain ⟨as, bs, heq, has, hbs⟩ := List.sublist_append_iff.1 h
  rcases List.sublist_cons_iff.1 hbs with hbs | ⟨cs, rfl, hcs⟩
  · obtain rfl := List.sublist_nil.1 hbs
    rw [List.append_nil] at heq
    exact .inl (heq ▸ has)
  · obtain rfl := List.sublist_nil.1 hcs
    obtain ⟨rfl, hb⟩ : [a] = as ∧ [b] = [x] := List.append_inj' heq rfl
    exact .inr ⟨List.singleton_sublist.1 has, List.singleton_inj.1 hb⟩

namespace Search

variable {policy : Policy} {v w : Snapshot} {S : List Clause}

/-! ### Clauses -/

/-- The clause is waiting, was found as the empty clause, is dropped as a tautology, or is subsumed
by a processed clause. -/
def Snapshot.Covers (policy : Policy) (v : Snapshot) (e : Entry) : Prop :=
  e ∈ v.unprocessed ∨ v.result = some e ∨
    (policy.deleteTautologies = true ∧ e.clause.isTautology = true) ∨
    ∃ m ∈ v.processed, m.clause.subsumes e.clause = true

theorem Thins.exists_subsumes {given : Entry} {rest processed : List Entry}
    (hthins : Thins given rest processed) {c : Clause}
    (h : ∃ m ∈ processed, m.clause.subsumes c = true) :
    (∃ m ∈ rest, m.clause.subsumes c = true) ∨ given.clause.subsumes c = true := by
  obtain ⟨m, hm, hsubsumes⟩ := h
  rcases hthins.cover m hm with hm | hgiven
  · exact .inl ⟨m, hm, hsubsumes⟩
  · exact .inr (Clause.subsumes_trans hgiven hsubsumes)

theorem Snapshot.Consistent.eq_or_mem_without (hv : v.Consistent) {given e : Entry}
    (hgiven : given ∈ v.unprocessed) (he : e ∈ v.unprocessed) :
    e = given ∨ e ∈ without given.number v.unprocessed := by
  by_cases hnumber : e.number = given.number
  · exact .inl (eq_of_number_eq hv.nodup (List.mem_append_right _ he)
      (List.mem_append_right _ hgiven)
      hnumber)
  · exact .inr (mem_without.2 ⟨he, hnumber⟩)

theorem Snapshot.signedAtoms_select (v : Snapshot) (policy : Policy) (given : Entry) :
    (v.select policy given).1.clause.signedAtoms = given.clause.signedAtoms := by
  unfold Snapshot.select
  split
  · exact Clause.signedAtoms_select _ _
  · rfl

/-- **No move uncovers a clause.** -/
theorem Snapshot.Covers.move {e : Entry} (he : v.Covers policy e) (hv : v.Consistent)
    (h : Move policy v w) : w.Covers policy e := by
  -- a move finds the empty clause only once, so that no result is overwritten
  have hresult : v.status = .running → v.result ≠ some e := by
    intro hrunning hsome
    exact Option.some_ne_none e (hsome.symm.trans (hv.running hrunning))
  cases h with
  | giveUp | saturate | skip | dropTautology => exact he
  | @finish given hidle hgiven hempty =>
    rcases he with he | he | he | he
    · rcases hv.eq_or_mem_without hgiven he with rfl | he
      · exact .inr (.inl rfl)
      · exact .inl he
    · exact absurd he (hresult hidle.1)
    · exact .inr (.inr (.inl he))
    · exact .inr (.inr (.inr he))
  | @discardTautology given hidle hgiven hpolicy htautology =>
    rcases he with he | he | he
    · rcases hv.eq_or_mem_without hgiven he with rfl | he
      · exact .inr (.inr (.inl ⟨hpolicy, htautology⟩))
      · exact .inl he
    · exact .inr (.inl he)
    · exact .inr (.inr he)
  | @discardSubsumed given rest m hidle hgiven hthins hm hsubsumes =>
    rcases he with he | he | he | he
    · rcases hv.eq_or_mem_without hgiven he with rfl | he
      · exact .inr (.inr (.inr ⟨m, hm, hsubsumes⟩))
      · exact .inl he
    · exact .inr (.inl he)
    · exact .inr (.inr (.inl he))
    · -- what the given clause subsumes is subsumed by what subsumes the given clause
      rcases hthins.exists_subsumes he with he | he
      · exact .inr (.inr (.inr he))
      · exact .inr (.inr (.inr ⟨m, hm, Clause.subsumes_trans hsubsumes he⟩))
  | @activate given rest hidle hgiven hempty hthins =>
    -- the copy with selected literals subsumes what the given clause subsumes
    have hselected : ∀ c, given.clause.subsumes c = true →
        ∃ m ∈ rest ++ [(v.select policy given).1], m.clause.subsumes c = true := by
      intro c hc
      refine ⟨_, List.mem_append_right _ (List.mem_singleton_self _), ?_⟩
      rwa [Clause.subsumes_congr (v.signedAtoms_select policy given) rfl]
    rcases he with he | he | he | he
    · rcases hv.eq_or_mem_without hgiven he with rfl | he
      · exact .inr (.inr (.inr (hselected _ (Clause.subsumes_refl _))))
      · rw [← v.unprocessed_select policy given] at he
        exact .inl he
    · exact absurd he (hresult hidle.1)
    · exact .inr (.inr (.inl he))
    · rcases hthins.exists_subsumes he with ⟨m, hm, hsubsumes⟩ | he
      · exact .inr (.inr (.inr ⟨m, List.mem_append_left _ hm, hsubsumes⟩))
      · exact .inr (.inr (.inr (hselected _ he)))
  | enqueue hrunning =>
    rcases he with he | he | he
    · exact .inl (List.mem_append_left _ he)
    · exact .inr (.inl he)
    · exact .inr (.inr he)
  | conclude hrunning =>
    rcases he with he | he | he
    · exact .inl he
    · exact absurd he (hresult hrunning)
    · exact .inr (.inr he)

theorem Snapshot.Covers.moves {e : Entry} (he : v.Covers policy e) (hv : v.Consistent)
    (h : Moves policy v w) : w.Covers policy e :=
  h.invariant (p := fun v => v.Covers policy e) hv he fun hv he hmove => he.move hv hmove

/-- The clause is dropped as a tautology, or one of the clauses subsumes it. -/
def Redundant (policy : Policy) (processed : List Entry) (c : Clause) : Prop :=
  (policy.deleteTautologies = true ∧ c.isTautology = true) ∨
    ∃ m ∈ processed, m.clause.subsumes c = true

/-- When the search is saturated, only redundancy is left as a reason. -/
theorem Snapshot.Covers.redundant {e : Entry} (he : v.Covers policy e) (hv : v.Consistent)
    (hsaturated : v.status = .saturated) : Redundant policy v.processed e.clause := by
  obtain ⟨hunprocessed, -, hresult⟩ := hv.saturated hsaturated
  rcases he with he | he | he
  · rw [hunprocessed] at he
    exact absurd he List.not_mem_nil
  · exact absurd (he.symm.trans hresult) (by simp)
  · exact he

/-! ### Inferences -/

/-- The rules have been called for all inferences between processed clauses. -/
structure Snapshot.Exhaustive (v : Snapshot) : Prop where
  /-- Each clause has been resolved with the clauses before it. -/
  resolved : ∀ c d, [d, c].Sublist v.processed → ∀ i j l m, c.clause.literals[i]? = some l →
    l.eligible = true → d.clause.literals[j]? = some m → m.eligible = true → l.isPartner m = true →
    ∃ fresh, .resolve c i d j fresh ∈ v.history.calls
  /-- Each clause has been factored. -/
  factored : ∀ c ∈ v.processed, ∀ i j, (i, j) ∈ factorPairs c.clause →
    .factor c i j ∈ v.history.calls

namespace Snapshot.Exhaustive

theorem of_sublist (hv : v.Exhaustive) (hprocessed : w.processed.Sublist v.processed)
    (hcalls : w.history.calls = v.history.calls) : w.Exhaustive where
  resolved c d hcd := hcalls ▸ hv.resolved c d (hcd.trans hprocessed)
  factored c hc := hcalls ▸ hv.factored c (hprocessed.subset hc)

/-- The calls with a given clause complete the inferences between processed clauses. -/
theorem activate (hv : v.Exhaustive) {given selected : Entry} {rest : List Entry}
    (hrest : rest.Sublist v.processed) : (v.activate given selected rest).Exhaustive where
  resolved c d hcd i j l m hl hli hm hmj hpartner := by
    rcases pair_sublist_append hcd with hcd | ⟨hd, rfl⟩
    · obtain ⟨fresh, hcall⟩ := hv.resolved c d (hcd.trans hrest) i j l m hl hli hm hmj hpartner
      exact ⟨fresh, List.mem_append_left _ hcall⟩
    · -- the younger clause is the given one, and the older one is still processed
      have hpairing : ⟨i, d, j⟩ ∈ pairings c (PlainStore.mk rest) :=
        mem_pairings.2 ⟨l, m, hl, hli, hd, Literal.isPartner_comm l m ▸ hpartner, hm, hmj⟩
      obtain ⟨fresh, hcall⟩ := exists_mem_resolveCalls hpairing v.fresh
      exact ⟨fresh, List.mem_append_right _ (List.mem_append_left _ hcall)⟩
  factored c hc i j hij := by
    rcases List.mem_append.1 hc with hc | hc
    · exact List.mem_append_left _ (hv.factored c (hrest.subset hc) i j hij)
    · rw [List.mem_singleton.1 hc] at hij ⊢
      have hcall : .factor selected i j ∈ factorCalls selected :=
        List.mem_map.2 ⟨(i, j), hij, rfl⟩
      exact List.mem_append_right _ (List.mem_append_right _ hcall)

/-- **Every move keeps all inferences between processed clauses called.** -/
theorem move (hv : v.Exhaustive) (h : Move policy v w) : w.Exhaustive := by
  cases h with
  | giveUp | saturate | finish | discardTautology | skip | dropTautology | enqueue | conclude =>
    exact hv.of_sublist (.refl _) rfl
  | discardSubsumed _ _ hthins => exact hv.of_sublist hthins.sublist rfl
  | @activate given rest _ _ _ hthins =>
    have hselect : (v.select policy given).2.Exhaustive := hv.of_sublist (by simp) (by simp)
    exact hselect.activate (by simpa using hthins.sublist)

end Snapshot.Exhaustive

/-- The conclusion of a call is pending, dropped as a tautology or covered, unless the search has
ended with a proof. -/
def Snapshot.Settles (policy : Policy) (v : Snapshot) (k : Call) (r : Clause) : Prop :=
  k ∈ v.pending ∨ v.status = .proofFound ∨
    (policy.deleteTautologies = true ∧ (policy.tidy r).isTautology = true) ∨
    ∃ e, e.clause.literals = (policy.tidy r).literals ∧ v.Covers policy e

/-- No conclusion has been lost. -/
def Snapshot.Settled (policy : Policy) (v : Snapshot) : Prop :=
  ∀ k ∈ v.history.calls, ∀ r, k.result? = some r → v.Settles policy k r

theorem Move.running (h : Move policy v w) : v.status = .running := by
  cases h with
  | giveUp hidle | saturate hidle | finish hidle | discardTautology hidle | discardSubsumed hidle
  | activate hidle => exact hidle.1
  | skip hrunning | dropTautology hrunning | enqueue hrunning | conclude hrunning => exact hrunning

theorem Move.settles (h : Move policy v w) {k : Call} (hk : k ∈ v.pending) {r : Clause}
    (hr : k.result? = some r) : w.Settles policy k r := by
  cases h with
  | giveUp hidle | saturate hidle | finish hidle | discardTautology hidle | discardSubsumed hidle
  | activate hidle =>
    rw [hidle.2] at hk
    exact absurd hk List.not_mem_nil
  | skip _ hks hnone =>
    rw [hks] at hk
    rcases List.mem_cons.1 hk with rfl | hk
    · exact absurd (hnone.symm.trans hr) (by simp)
    · exact .inl hk
  | dropTautology _ hks hsome hpolicy htautology =>
    rw [hks] at hk
    rcases List.mem_cons.1 hk with rfl | hk
    · obtain rfl := Option.some.inj (hsome.symm.trans hr)
      exact .inr (.inr (.inl ⟨hpolicy, htautology⟩))
    · exact .inl hk
  | enqueue _ hks hsome _ name =>
    rw [hks] at hk
    rcases List.mem_cons.1 hk with rfl | hk
    · obtain rfl := Option.some.inj (hsome.symm.trans hr)
      exact .inr (.inr (.inr ⟨_, rfl, .inl (List.mem_append_right _ (List.mem_singleton_self _))⟩))
    · exact .inl hk
  | conclude => exact .inr (.inl rfl)

theorem Move.mem_calls (h : Move policy v w) {k : Call} (hk : k ∈ w.history.calls) :
    k ∈ v.history.calls ∨ k ∈ w.pending := by
  cases h with
  | giveUp | saturate | finish | discardTautology | discardSubsumed | skip | dropTautology | enqueue
  | conclude => exact .inl hk
  | activate =>
    refine (List.mem_append.1 hk).imp_left fun hk => ?_
    simpa using hk

/-- **Every move keeps all conclusions pending or covered.** -/
theorem Snapshot.Settled.move (hv : v.Settled policy) (hcons : v.Consistent) (h : Move policy v w) :
    w.Settled policy := by
  intro k hk r hr
  rcases h.mem_calls hk with hk | hk
  · rcases hv k hk r hr with hpending | hproof | htautology | ⟨e, hliterals, he⟩
    · exact h.settles hpending hr
    · exact absurd (h.running.symm.trans hproof) (by decide)
    · exact .inr (.inr (.inl htautology))
    · exact .inr (.inr (.inr ⟨e, hliterals, he.move hcons h⟩))
  · exact .inl hk

theorem Snapshot.settled_start (S : List Clause) : (Snapshot.start S).Settled policy :=
  List.forall_mem_nil _

theorem Snapshot.exhaustive_start (S : List Clause) : (Snapshot.start S).Exhaustive :=
  ⟨fun _ _ h => absurd h (by simp [Snapshot.start]), List.forall_mem_nil _⟩

/-- At any time of a search all inferences have been called and no conclusion has been lost. -/
theorem Moves.settled_exhaustive (h : Moves policy (.start S) w) :
    w.Settled policy ∧ w.Exhaustive := by
  have hcons := Snapshot.consistent_start S
  constructor
  · exact h.invariant hcons (Snapshot.settled_start S) fun hcons hv hmove => hv.move hcons hmove
  · exact h.invariant hcons (Snapshot.exhaustive_start S) fun _ hv hmove => hv.move hmove

/-- **When the search is saturated, all conclusions are redundant.** -/
theorem Snapshot.Settled.redundant (hv : v.Settled policy) (hcons : v.Consistent)
    (hsaturated : v.status = .saturated) {k : Call} (hk : k ∈ v.history.calls) {r : Clause}
    (hr : k.result? = some r) : Redundant policy v.processed (policy.tidy r) := by
  rcases hv k hk r hr with hk | hproof | htautology | ⟨e, hliterals, he⟩
  · rw [(hcons.saturated hsaturated).2.1] at hk
    exact absurd hk List.not_mem_nil
  · exact absurd (hsaturated.symm.trans hproof) (by decide)
  · exact .inl htautology
  · have hatoms : e.clause.signedAtoms = (policy.tidy r).signedAtoms :=
      congrArg (List.map _) hliterals
    rcases he.redundant hcons hsaturated with he | ⟨m, hm, hsubsumes⟩
    · exact .inl (Clause.isTautology_congr hliterals ▸ he)
    · exact .inr ⟨m, hm, Clause.subsumes_congr rfl hatoms ▸ hsubsumes⟩

/-! ### Full searches -/

section

variable {params : Params} {s₀ s s' : FullState} {h h' : History}

/-- **No clause is lost.**  A clause that was unprocessed at some time of a full search is
unprocessed, is the empty clause that was found, is a tautology that was to be deleted, or is
subsumed by a processed clause at any later time. -/
theorem no_clause_lost (hstart : startFull params S = .ok s₀)
    (run : Run params.policy s₀ (.start s₀) s h) (run' : Run params.policy s h s' h') {e : Entry}
    (he : e ∈ ClauseStore.toList s.unprocessed) :
    e ∈ ClauseStore.toList s'.unprocessed ∨ s'.result = some e ∨
      (params.deleteTautologies = true ∧ e.clause.isTautology = true) ∨
      ∃ m ∈ ClauseStore.toList s'.processed, m.clause.subsumes e.clause = true := by
  obtain ⟨-, hs₀⟩ := startFull_spec hstart
  obtain ⟨-, hs⟩ := run.moves hs₀
  obtain ⟨hmoves, -⟩ := run'.moves hs
  have hcovers : (s.snapshot [] h).Covers params.policy e := .inl he
  exact hcovers.moves hs.snapshot hmoves

/-- A clause and an instance of it. -/
def generalAndSpecial : List Clause :=
  [⟨"general", .axiomatic, [.pos (.app "p" [.var "X"])], none⟩,
    ⟨"special", .axiomatic, [.pos (.app "p" [.app "a" []])], none⟩]

/-- The instance is dropped because the clause before it subsumes it. -/
theorem no_clause_lost_special : ∃ s₀ s h,
    startFull ({} : Params).withRedundancyElimination generalAndSpecial = .ok s₀ ∧
      Run ({} : Params).withRedundancyElimination.policy s₀ (.start s₀) s h ∧
      ⟨1, ⟨"special", .axiomatic, [.pos (.app "p" [.app "a" []])], none⟩⟩ ∈
        ClauseStore.toList s₀.unprocessed ∧
      s.status = .saturated ∧ ClauseStore.toList s.unprocessed = [] ∧
      ∃ m ∈ ClauseStore.toList s.processed,
        m = ⟨0, ⟨"general", .axiomatic, [.pos (.app "p" [.var "X"])], none⟩⟩ ∧
        m.clause.subsumes ⟨"special", .axiomatic, [.pos (.app "p" [.app "a" []])],
          none⟩ = true := by
  let params := ({} : Params).withRedundancyElimination
  let s₀ : FullState :=
    .start .empty (.empty params.heuristic.schedule) generalAndSpecial
  let special : Entry := ⟨1, ⟨"special", .axiomatic, [.pos (.app "p" [.app "a" []])], none⟩⟩
  have hstart : startFull params generalAndSpecial = .ok s₀ := rfl
  have he : special ∈ ClauseStore.toList s₀.unprocessed := by decide +kernel
  obtain ⟨h, run⟩ := run_saturate params.policy 3 s₀ (.start s₀)
  have hsaturated : (s₀.saturate params.policy 3).status = .saturated := by decide +kernel
  have hdone : ClauseStore.toList (s₀.saturate params.policy 3).unprocessed = [] := by
    decide +kernel
  have hresult : (s₀.saturate params.policy 3).result = none := by decide +kernel
  have hprocessed : ClauseStore.toList (s₀.saturate params.policy 3).processed =
      [⟨0, ⟨"general", .axiomatic, [.pos (.app "p" [.var "X"])], none⟩⟩] := by decide +kernel
  refine ⟨s₀, _, h, hstart, run, he, hsaturated, hdone, ?_⟩
  rcases no_clause_lost hstart .start run he with hwaits | hfound | htautology | ⟨m, hm, hsubsumes⟩
  · rw [hdone] at hwaits
    cases hwaits
  · rw [hresult] at hfound
    cases hfound
  · exact absurd htautology.2 (by decide +kernel)
  · have hgeneral := hm
    rw [hprocessed] at hgeneral
    exact ⟨m, hm, List.mem_singleton.1 hgeneral, hsubsumes⟩

/-- **A saturated full search is closed under inference.**  Each processed clause has been resolved
with the processed clauses that are older, and factored, upon all eligible literals; without
repeated literals each conclusion is a tautology that was to be deleted or subsumed by a processed
clause. -/
theorem saturated_closed (hstart : startFull params S = .ok s₀)
    (run : Run params.policy s₀ (.start s₀) s h) (hsaturated : s.status = .saturated) :
    (∀ c d, [d, c].Sublist (ClauseStore.toList s.processed) → ∀ i j l m,
      c.clause.literals[i]? = some l → l.eligible = true → d.clause.literals[j]? = some m →
      m.eligible = true →
        (l.isPartner m = true → ∃ fresh, .resolve c i d j fresh ∈ h.calls) ∧
        ∀ fresh r, .resolve c i d j fresh ∈ h.calls → (c.resolve i d j fresh).1 = some r →
          Redundant params.policy (ClauseStore.toList s.processed) r.dedup) ∧
    ∀ c ∈ ClauseStore.toList s.processed, ∀ i j r, i < j →
      c.clause.isEligible i = true ∨ c.clause.isEligible j = true → c.factor i j = some r →
      Redundant params.policy (ClauseStore.toList s.processed) r.dedup := by
  obtain ⟨hsnapshot, hs₀⟩ := startFull_spec hstart
  obtain ⟨hmoves, hs⟩ := run.moves hs₀
  rw [hsnapshot] at hmoves
  obtain ⟨hsettled, hexhaustive⟩ := hmoves.settled_exhaustive
  have hredundant : ∀ k ∈ h.calls, ∀ r, k.result? = some r →
      Redundant params.policy (ClauseStore.toList s.processed) r.dedup :=
    fun k hk r hr => hsettled.redundant hs.snapshot hsaturated hk hr
  constructor
  · intro c d hcd i j l m hl hli hm hmj
    refine ⟨hexhaustive.resolved c d hcd i j l m hl hli hm hmj, fun fresh r hcall hr => ?_⟩
    exact hredundant _ hcall r hr
  · intro c hc i j r hij heligible hr
    obtain ⟨-, m, -, -, hm, -⟩ := Entry.factor_eq_some_iff.1 hr
    have hj : j < c.clause.size := (List.getElem?_eq_some_iff.1 hm).1
    exact hredundant _ (hexhaustive.factored c hc i j (mem_factorPairs.2 ⟨hij, hj, heligible⟩)) r hr

/-- A fact and a rule. -/
def factAndRule : List Clause :=
  [⟨"fact", .axiomatic, [.pos (.app "p" [.app "a" []])], none⟩,
    ⟨"rule", .axiomatic, [.neg (.app "p" [.var "X"]), .pos (.app "q" [.var "X"])], none⟩]

/-- The rule is resolved with the fact, and a processed clause with the literals of the conclusion
subsumes it at the end. -/
theorem saturated_closed_factAndRule : ∃ s₀ s h c d,
    startFull ({} : Params).withRedundancyElimination factAndRule = .ok s₀ ∧
      Run ({} : Params).withRedundancyElimination.policy s₀ (.start s₀) s h ∧
      s.status = .saturated ∧ [d, c].Sublist (ClauseStore.toList s.processed) ∧
      ∃ fresh r, .resolve c 0 d 0 fresh ∈ h.calls ∧ (c.resolve 0 d 0 fresh).1 = some r ∧
        r.literals = [.pos (.app "q" [.app "a" []])] ∧
        ∃ m ∈ ClauseStore.toList s.processed, m.clause.literals = r.literals ∧
          m.clause.subsumes r.dedup = true := by
  let params := ({} : Params).withRedundancyElimination
  let s₀ : FullState := .start .empty (.empty params.heuristic.schedule) factAndRule
  let fact : Entry := ⟨0, ⟨"fact", .axiomatic, [.pos (.app "p" [.app "a" []])], none⟩⟩
  let rule : Entry :=
    ⟨1, ⟨"rule", .axiomatic, [.neg (.app "p" [.var "X"]), .pos (.app "q" [.var "X"])], none⟩⟩
  let r : Clause := .conclude "resolution" [rule, fact] [.pos (.app "q" [.app "a" []])]
  have hstart : startFull params factAndRule = .ok s₀ := rfl
  obtain ⟨h, run⟩ := run_saturate params.policy 4 s₀ (.start s₀)
  have hsaturated : (s₀.saturate params.policy 4).status = .saturated := by cbv
  have hprocessed : ClauseStore.toList (s₀.saturate params.policy 4).processed =
      [fact, rule, ⟨2, { r with name := "c1" }⟩] := by cbv
  have hsublist : [fact, rule].Sublist
      (ClauseStore.toList (s₀.saturate params.policy 4).processed) := by
    rw [hprocessed]
    exact List.sublist_append_left [fact, rule] [_]
  obtain ⟨hclosed, -⟩ := saturated_closed hstart run hsaturated
  obtain ⟨hcalled, hredundant⟩ := hclosed rule fact hsublist 0 0 _ _ rfl rfl rfl rfl
  obtain ⟨fresh, hcall⟩ := hcalled rfl
  have hr : (rule.resolve 0 fact 0 fresh).1 = some r := by cbv
  refine ⟨s₀, _, h, rule, fact, hstart, run, hsaturated, hsublist, fresh, r, hcall, hr, rfl, ?_⟩
  rcases hredundant fresh r hcall hr with htautology | ⟨m, hm, hsubsumes⟩
  · exact absurd htautology.2 (by decide +kernel)
  · refine ⟨m, hm, ?_, hsubsumes⟩
    rw [hprocessed] at hm
    rcases List.mem_cons.1 hm with rfl | hm
    · exact absurd hsubsumes (by decide +kernel)
    rcases List.mem_pair.1 hm with rfl | rfl
    · exact absurd hsubsumes (by decide +kernel)
    · rfl

end

end Search

end Refutation
