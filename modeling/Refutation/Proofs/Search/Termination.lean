import Refutation.Proofs.Ground
import Refutation.Proofs.Search.Step
import Mathlib.Data.Multiset.Powerset
import Mathlib.Data.Prod.Lex

/-!
# Termination on ground clauses

Inferences from ground clauses make no new literals, and new clauses have no repeated ones.  So a
search from ground clauses meets finitely many clauses, up to the order of their literals.  If it
drops given clauses that are subsumed and removes no processed ones, then no two processed clauses
have the same literals, and the search ends.

* `Search.preserves_subperm` : all clauses of a ground search consist of literals that it started
  with.
* `Search.Unsubsumed.length_le` : of such clauses, finitely many do not subsume each other.
* `Search.State.GroundSearch.step` : a step ends the search, processes one clause more or shortens
  the queue.
* `Search.ground_search_ends` : **the search ends.**
-/

namespace Refutation

theorem Clause.nodup_signedAtoms_dedup (c : Clause) : c.dedup.signedAtoms.Nodup := by
  change ((dedupLiterals c.literals).map (·.toSignedAtom)).Nodup
  induction c.literals with
  | nil => exact List.nodup_nil
  | cons l ls ih =>
    rw [dedupLiterals, List.map_cons, List.nodup_cons]
    refine ⟨fun hmem => ?_, ih.sublist (List.filter_sublist.map _)⟩
    obtain ⟨m, hm, heq⟩ := List.mem_map.1 hmem
    simp [heq] at hm

namespace Search

variable {policy : Policy} {U : List SignedAtom}

/-! ### The clauses of a ground search -/

/-- **Inferences from ground clauses stay within their literals.** -/
theorem preserves_subperm (hU : ∀ a ∈ U, a.atom.isGround = true)
    (hpolicy : policy.dropRepeated = true) :
    policy.Preserves (·.Subperm U) := by
  intro k r hr hpremises
  have hground : ∀ e ∈ k.premises, e.clause.isGround = true := fun e he =>
    Clause.isGround_iff.2 fun a ha => hU a ((hpremises e he).subset ha)
  rw [Policy.tidy, if_pos hpolicy]
  refine List.subperm_of_subset r.nodup_signedAtoms_dedup fun a ha => ?_
  obtain ⟨e, he, ha⟩ := Call.exists_mem_of_isGround hr hground (Clause.mem_signedAtoms_dedup.1 ha)
  exact (hpremises e he).subset ha

/-- No clause of the list is subsumed by one before it. -/
def Unsubsumed (es : List Entry) : Prop := es.Pairwise fun d c => d.clause.subsumes c.clause = false

/-- **There are finitely many clauses within given literals that do not subsume each other.** -/
theorem Unsubsumed.length_le {es : List Entry} (hes : Unsubsumed es)
    (hU : ∀ e ∈ es, e.clause.signedAtoms.Subperm U) : es.length ≤ 2 ^ U.length := by
  -- as multisets the clauses are different parts of `U`
  let parts : List (Multiset SignedAtom) := es.map fun e => e.clause.signedAtoms
  have hnodup : parts.Nodup := by
    refine hes.map _ fun d c hdc heq => ?_
    have hsubperm := (Multiset.coe_eq_coe.1 heq).subperm
    exact absurd (Clause.subsumes_of_subperm hsubperm) (by simp [hdc])
  have hparts : (parts : Multiset (Multiset SignedAtom)) ≤ (U : Multiset SignedAtom).powerset := by
    refine (Multiset.le_iff_subset (Multiset.coe_nodup.2 hnodup)).2 fun m hm => ?_
    obtain ⟨e, he, rfl⟩ := List.mem_map.1 (Multiset.mem_coe.1 hm)
    exact Multiset.mem_powerset.2 (Multiset.coe_le.2 (hU e he))
  have hcard := Multiset.card_le_card hparts
  rw [Multiset.card_powerset, Multiset.coe_card, Multiset.coe_card, List.length_map] at hcard
  exact hcard

/-! ### Steps of a ground search -/

namespace State

/-- What holds at any time of a search from ground clauses whose literals are among the given
ones. -/
structure GroundSearch (U : List SignedAtom) (s : FullState) (h : History) : Prop where
  /-- The state is consistent. -/
  consistent : s.Consistent h
  /-- There are no other literals. -/
  within : (s.snapshot [] h).All (·.Subperm U)
  /-- No processed clause is subsumed by an older one. -/
  unsubsumed : Unsubsumed (ClauseStore.toList s.processed)

/-- How many clauses the search can still process, and how many wait. -/
def budget (U : List SignedAtom) (s : FullState) : Nat ×ₗ Nat :=
  toLex (2 ^ U.length - (ClauseStore.toList s.processed).length,
    (ClauseStore.toList s.unprocessed).length)

theorem length_without_lt {es : List Entry} {e : Entry} (he : e ∈ es) :
    (without e.number es).length < es.length :=
  List.length_filter_lt_length_iff_exists.2 ⟨e, he, by simp⟩

namespace GroundSearch

variable {s : FullState} {h : History}

theorem isGround (hs : s.GroundSearch U h) (hU : ∀ a ∈ U, a.atom.isGround = true) {e : Entry}
    (he : e ∈ ClauseStore.toList s.processed ++ ClauseStore.toList s.unprocessed) :
    e.clause.isGround = true :=
  Clause.isGround_iff.2 fun a ha => hU a ((hs.within.members e he).subset ha)

theorem length_processed_le (hs : s.GroundSearch U h) :
    (ClauseStore.toList s.processed).length ≤ 2 ^ U.length :=
  hs.unsubsumed.length_le fun e he => hs.within.members e (List.mem_append_left _ he)

theorem after (hs : s.GroundSearch U h) (hU : ∀ a ∈ U, a.atom.isGround = true)
    (hrepeated : policy.dropRepeated = true) {elapsed : Duration} {es : List Entry}
    (hprocessed : ClauseStore.toList (s.step policy elapsed).processed = es) (hes : Unsubsumed es) :
    (s.step policy elapsed).GroundSearch U (h.after policy elapsed s) := by
  have hrun : Run policy s h (s.step policy elapsed) (h.after policy elapsed s) :=
    Run.start.step elapsed
  obtain ⟨hmoves, hconsistent⟩ := hrun.moves hs.consistent
  exact ⟨hconsistent, hs.within.moves (preserves_subperm hU hrepeated)
    hs.consistent.snapshot hmoves,
    hprocessed ▸ hes⟩

theorem budget_lt_of_discard {s' : FullState} {given : Entry}
    (hgiven : given ∈ ClauseStore.toList s.unprocessed)
    (hprocessed : ClauseStore.toList s'.processed = ClauseStore.toList s.processed)
    (hunprocessed : ClauseStore.toList s'.unprocessed =
      without given.number (ClauseStore.toList s.unprocessed)) : s'.budget U < s.budget U := by
  rw [budget, budget, Prod.Lex.toLex_lt_toLex, hprocessed, hunprocessed]
  exact .inr ⟨rfl, length_without_lt hgiven⟩

theorem budget_lt_of_activate {s' : FullState} {h' : History} (hs' : s'.GroundSearch U h')
    {selected : Entry}
    (hprocessed : ClauseStore.toList s'.processed = ClauseStore.toList s.processed ++ [selected]) :
    s'.budget U < s.budget U := by
  have hle := hs'.length_processed_le
  rw [budget, budget, Prod.Lex.toLex_lt_toLex]
  rw [hprocessed, List.length_append, List.length_singleton] at hle ⊢
  left
  show 2 ^ U.length - _ < 2 ^ U.length - _
  omega

/-- **A step ends the search, processes one clause more or shortens the queue.** -/
theorem step (hs : s.GroundSearch U h) (hU : ∀ a ∈ U, a.atom.isGround = true)
    (hunbounded : policy.IsUnbounded) (hrepeated : policy.dropRepeated = true)
    (hforward : policy.forwardSubsumption = true) (hbackward : policy.backwardSubsumption = false)
    (hrunning : s.status = .running) (elapsed : Duration) :
    (s.step policy elapsed).status = .proofFound ∨ (s.step policy elapsed).status = .saturated ∨
      (s.step policy elapsed).status = .running ∧
        (s.step policy elapsed).GroundSearch U (h.after policy elapsed s) ∧
        (s.step policy elapsed).budget U < s.budget U := by
  have hkept : ∀ given, (s.snapshot [] h).kept policy given = ClauseStore.toList s.processed := by
    intro given
    simp [Snapshot.kept, hbackward, snapshot]
  cases advances_step hs.consistent hunbounded hrunning
    (fun e he => Clause.hasCompoundAtoms_of_isGround (hs.isGround hU he)) elapsed with
  | saturate _ hstatus => exact .inr (.inl hstatus)
  | finish _ _ hstatus => exact .inl hstatus
  | discardTautology hgiven _ _ hstatus hprocessed hunprocessed =>
    exact .inr (.inr ⟨hstatus, hs.after hU hrepeated hprocessed hs.unsubsumed,
      budget_lt_of_discard hgiven hprocessed hunprocessed⟩)
  | discardSubsumed hgiven _ _ hstatus hprocessed hunprocessed =>
    rw [hkept] at hprocessed
    exact .inr (.inr ⟨hstatus, hs.after hU hrepeated hprocessed hs.unsubsumed,
      budget_lt_of_discard hgiven hprocessed hunprocessed⟩)
  | @activate given hgiven _ hunsubsumed hprocessed hconclusions =>
    rw [hkept] at hprocessed hunsubsumed
    refine hconclusions.imp_right ?_
    rintro ⟨hstatus, -⟩
    have hs' : (s.step policy elapsed).GroundSearch U (h.after policy elapsed s) := by
      refine hs.after hU hrepeated hprocessed (List.pairwise_append.2 ?_)
      refine ⟨hs.unsubsumed, List.pairwise_singleton _ _, fun d hd c hc => ?_⟩
      -- selection leaves the literals as they are
      rw [List.mem_singleton.1 hc,
        Clause.subsumes_congr rfl ((s.snapshot [] h).signedAtoms_select policy given)]
      exact hunsubsumed hforward d hd
    exact .inr ⟨hstatus, hs', budget_lt_of_activate hs' hprocessed⟩

/-- **A ground search ends.** -/
theorem exists_steps (hs : s.GroundSearch U h) (hU : ∀ a ∈ U, a.atom.isGround = true)
    (hunbounded : policy.IsUnbounded) (hrepeated : policy.dropRepeated = true)
    (hforward : policy.forwardSubsumption = true) (hbackward : policy.backwardSubsumption = false)
    (hrunning : s.status = .running) :
    ∃ n, (s.steps policy n).status = .proofFound ∨ (s.steps policy n).status = .saturated := by
  -- lexicographic: a new processed clause may bring any number of conclusions
  induction hbudget : s.budget U using WellFoundedLT.induction generalizing s h with
  | _ b ih =>
    rcases hs.step hU hunbounded hrepeated hforward hbackward hrunning .zero with
      hdone | hdone | ⟨hrunning', hs', hlt⟩
    · exact ⟨1, .inl hdone⟩
    · exact ⟨1, .inr hdone⟩
    · obtain ⟨n, hn⟩ := ih _ (hbudget ▸ hlt) hs' hrunning' rfl
      exact ⟨n + 1, hn⟩

end GroundSearch

end State

/-- **A full search from ground clauses ends**, if it drops given clauses that are subsumed and
removes no processed ones. -/
theorem ground_search_ends (params : Params) (hforward : params.forwardSubsumption = true)
    (hbackward : params.backwardSubsumption = false) (hmax : params.maxIterations = none)
    (htimeout : params.timeout = none) {S : List Clause} (hS : ∀ c ∈ S, c.isGround = true)
    {s₀ : FullState} (hs₀ : startFull params S = .ok s₀) :
    ∃ n, (s₀.steps params.policy n).status = .proofFound ∨
      (s₀.steps params.policy n).status = .saturated := by
  obtain ⟨hsnapshot, hconsistent⟩ := startFull_spec hs₀
  have hprocessed := congrArg Snapshot.processed hsnapshot
  have hstatus := congrArg Snapshot.status hsnapshot
  have hU : ∀ a ∈ S.flatMap (·.signedAtoms), a.atom.isGround = true := by
    intro a ha
    obtain ⟨c, hc, ha⟩ := List.mem_flatMap.1 ha
    exact Clause.isGround_iff.1 (hS c hc) a ha
  have hstart : s₀.GroundSearch (S.flatMap (·.signedAtoms)) (.start s₀) := by
    refine ⟨hconsistent, ?_, ?_⟩
    · rw [hsnapshot]
      exact .start fun c hc => (List.sublist_flatten_of_mem (List.mem_map_of_mem hc)).subperm
    · rw [show ClauseStore.toList s₀.processed = [] from hprocessed]
      exact .nil
  exact hstart.exists_steps hU ⟨hmax, htimeout⟩ rfl hforward hbackward hstatus

end Search

end Refutation
