import Refutation.Proofs.Inference
import Refutation.Search.Start

/-!
# The history of a search

A search forgets which calls of the rules it made and which call made which clause.  The history
keeps both: the calls in the order in which they were made, and for every clause of the archive
where it came from.  It is computed from the states of the search, step by step
(`Search.History.after`), and changes nothing in them.

* `Concludes` : the clauses that a list of calls returns, with their names.
* `Search.Run` : a search with its history, from any of its states on.
* `Search.History.Uses` : the inferences that the derivation of a clause consists of.
-/

namespace Refutation

/-! ### The calls with a given clause -/

/-- The calls of resolution for a list of pairings, and the fresh variables after them. -/
def resolveCalls (given : Entry) : List Pairing → FreshVars → List Call × FreshVars
  | [], fresh => ([], fresh)
  | p :: ps, fresh =>
    let after := (given.resolve p.position p.partner p.partnerPosition fresh).2
    let (ks, last) := resolveCalls given ps after
    (.resolve given p.position p.partner p.partnerPosition fresh :: ks, last)

/-- The calls of factoring for a clause. -/
def factorCalls (c : Entry) : List Call := (factorPairs c.clause).map fun p => .factor c p.1 p.2

/-- All calls with a given clause, and the fresh variables after them. -/
def inferenceCalls {σ : Type} [ClauseStore σ] (given : Entry) (store : σ) (fresh : FreshVars) :
    List Call × FreshVars :=
  let (ks, last) := resolveCalls given (pairings given store) fresh
  (ks ++ factorCalls given, last)

/-- The clause with another name. -/
def Clause.named (c : Clause) (name : String) : Clause := { c with name := name }

/-- The clauses are what the calls return, apart from their names. -/
inductive Concludes : List Call → List Clause → Prop
  /-- No calls. -/
  | nil : Concludes [] []
  /-- A call that fails. -/
  | fail {k ks cs} (hk : k.result? = none) (h : Concludes ks cs) : Concludes (k :: ks) cs
  /-- A call that returns a clause. -/
  | succeed {k ks cs r} (hk : k.result? = some r) (name : String) (h : Concludes ks cs) :
    Concludes (k :: ks) (r.named name :: cs)

theorem Concludes.append {ks ks' : List Call} {cs cs' : List Clause} (h : Concludes ks cs)
    (h' : Concludes ks' cs') : Concludes (ks ++ ks') (cs ++ cs') := by
  induction h with
  | nil => exact h'
  | fail hk _ ih => exact .fail hk ih
  | succeed hk name _ ih => exact .succeed hk name ih

theorem concludes_resolveAll (given : Entry) (ps : List Pairing) (names : Names) :
    Concludes (resolveCalls given ps names.vars).1 (resolveAll given ps names).1 ∧
      (resolveAll given ps names).2.vars = (resolveCalls given ps names.vars).2 := by
  induction ps generalizing names with
  | nil => exact ⟨.nil, rfl⟩
  | cons p ps ih =>
    simp only [resolveAll, resolveCalls]
    split
    · next hnone =>
      obtain ⟨hconcludes, hvars⟩ := ih { names with vars := _ }
      exact ⟨.fail hnone hconcludes, hvars⟩
    · next c hsome =>
      obtain ⟨hconcludes, hvars⟩ := ih (Names.christen { names with vars := _ } c).2
      exact ⟨.succeed (k := .resolve given p.position p.partner p.partnerPosition names.vars)
        hsome _ hconcludes, hvars⟩

theorem concludes_factorAll (c : Entry) (ps : List (Nat × Nat)) (names : Names) :
    Concludes (ps.map fun p => .factor c p.1 p.2) (factorAll c ps names).1 ∧
      (factorAll c ps names).2.vars = names.vars := by
  induction ps generalizing names with
  | nil => exact ⟨.nil, rfl⟩
  | cons p ps ih =>
    simp only [factorAll, List.map_cons]
    split
    · next hnone =>
      obtain ⟨hconcludes, hvars⟩ := ih names
      exact ⟨.fail hnone hconcludes, hvars⟩
    · next d hsome =>
      obtain ⟨hconcludes, hvars⟩ := ih (names.christen d).2
      exact ⟨.succeed (k := .factor c p.1 p.2) hsome _ hconcludes, hvars⟩

/-- **The conclusions with a given clause are those of its calls.** -/
theorem concludes_inferenceCalls {σ : Type} [ClauseStore σ] (given : Entry) (store : σ)
    (names : Names) :
    Concludes (inferenceCalls given store names.vars).1
        ((resolvents given store names).1 ++ (factors given (resolvents given store names).2).1) ∧
      (factors given (resolvents given store names).2).2.vars =
        (inferenceCalls given store names.vars).2 := by
  obtain ⟨hresolve, hvars⟩ := concludes_resolveAll given (pairings given store) names
  obtain ⟨hfactor, hvars'⟩ := concludes_factorAll given (factorPairs given.clause)
    (resolvents given store names).2
  exact ⟨hresolve.append hfactor, hvars'.trans hvars⟩

/-! ### Which calls are made -/

/-- A pairing is a pair of eligible literals with opposite signs and the same predicate. -/
theorem mem_pairings {given : Entry} {members : List Entry} {p : Pairing} :
    p ∈ pairings given (PlainStore.mk members) ↔
    ∃ l m, given.clause.literals[p.position]? = some l ∧
      l.eligible = true ∧ p.partner ∈ members ∧ m.isPartner l = true ∧
      p.partner.clause.literals[p.partnerPosition]? = some m ∧ m.eligible = true := by
  obtain ⟨i, d, j⟩ := p
  simp only [pairings, ClauseStore.partners, partnersIn, List.mem_flatMap, List.mem_filter,
    List.mem_map, List.mem_zipIdx_iff_getElem?, Pairing.mk.injEq, Prod.exists, Prod.mk.injEq]
  constructor
  · rintro ⟨l, i', ⟨hl, hli⟩, d', j', ⟨⟨e, he, m, j'', ⟨hm, hpartner⟩, rfl, rfl⟩, helig⟩,
      rfl, rfl, rfl⟩
    rw [Clause.isEligible, hm, Option.any_some] at helig
    exact ⟨l, m, hl, hli, he, hpartner, hm, helig⟩
  · rintro ⟨l, m, hl, hli, hd, hpartner, hm, hmi⟩
    refine ⟨l, i, ⟨hl, hli⟩, d, j, ⟨⟨d, hd, m, j, ⟨hm, hpartner⟩, rfl, rfl⟩, ?_⟩, rfl, rfl, rfl⟩
    rw [Clause.isEligible, hm, Option.any_some]
    exact hmi

theorem mem_factorPairs {c : Clause} {i j : Nat} : (i, j) ∈ factorPairs c ↔
    i < j ∧ j < c.size ∧ (c.isEligible i = true ∨ c.isEligible j = true) := by
  simp only [factorPairs, List.mem_flatMap, List.mem_range, List.mem_map, List.mem_filter,
    Bool.and_eq_true, Bool.or_eq_true, decide_eq_true_eq, Prod.mk.injEq]
  constructor
  · rintro ⟨i', -, j', ⟨hj, hij, helig⟩, rfl, rfl⟩
    exact ⟨hij, hj, helig⟩
  · rintro ⟨hij, hj, helig⟩
    exact ⟨i, Nat.lt_trans hij hj, j, ⟨hj, hij, helig⟩, rfl, rfl⟩

theorem drawn_le_resolveCalls (given : Entry) (ps : List Pairing) (fresh : FreshVars) :
    fresh.drawn ≤ (resolveCalls given ps fresh).2.drawn := by
  induction ps generalizing fresh with
  | nil => exact Nat.le_refl _
  | cons p ps ih => exact Nat.le_trans Entry.drawn_le_resolve (ih _)

/-- For each pairing a call is made, with fresh variables drawn in between. -/
theorem mem_resolveCalls {given : Entry} {ps : List Pairing} {fresh : FreshVars} {k : Call}
    (h : k ∈ (resolveCalls given ps fresh).1) :
    ∃ p ∈ ps, ∃ f, k = .resolve given p.position p.partner p.partnerPosition f ∧
      fresh.drawn ≤ f.drawn ∧
      (given.resolve p.position p.partner p.partnerPosition f).2.drawn ≤
        (resolveCalls given ps fresh).2.drawn := by
  induction ps generalizing fresh with
  | nil => simp [resolveCalls] at h
  | cons p ps ih =>
    rcases List.mem_cons.1 h with rfl | h
    · refine ⟨p, List.mem_cons_self, fresh, rfl, Nat.le_refl _, ?_⟩
      exact drawn_le_resolveCalls _ _ _
    · obtain ⟨q, hq, f, rfl, hle, hlast⟩ := ih h
      exact ⟨q, List.mem_cons_of_mem _ hq, f, rfl, Nat.le_trans Entry.drawn_le_resolve hle, hlast⟩

theorem exists_mem_resolveCalls {given : Entry} {ps : List Pairing} {p : Pairing} (hp : p ∈ ps)
    (fresh : FreshVars) :
    ∃ f, .resolve given p.position p.partner p.partnerPosition f ∈
      (resolveCalls given ps fresh).1 := by
  induction ps generalizing fresh with
  | nil => simp at hp
  | cons q ps ih =>
    rcases List.mem_cons.1 hp with rfl | hp
    · exact ⟨fresh, List.mem_cons_self⟩
    · obtain ⟨f, hf⟩ := ih hp (given.resolve q.position q.partner q.partnerPosition fresh).2
      exact ⟨f, List.mem_cons_of_mem _ hf⟩

namespace Search

/-! ### Histories -/

/-- Where a clause of the archive comes from. -/
inductive Origin where
  /-- The search started with it. -/
  | input
  /-- It is the copy of a given clause in which literals were selected. -/
  | copy (n : Nat)
  /-- It is the conclusion of an inference. -/
  | inference (k : Call)
deriving DecidableEq

/-- What a search has done so far. -/
structure History where
  /-- The calls of the rules, in the order in which they were made. -/
  calls : List Call
  /-- The origins of the clauses of the archive, by number. -/
  origins : List Origin

/-- A conclusion as it is taken in. -/
def Policy.tidy (policy : Policy) (c : Clause) : Clause :=
  if policy.dropRepeated then c.dedup else c

/-- The calls whose conclusions are entered: calls that fail or return a tautology are passed over,
and the first empty clause ends the search. -/
def Policy.entered (policy : Policy) : List Call → List Call
  | [] => []
  | k :: ks =>
    match k.result? with
    | none => policy.entered ks
    | some r =>
      if r.isEmpty then [k]
      else if policy.deleteTautologies && (policy.tidy r).isTautology then policy.entered ks
      else k :: policy.entered ks

namespace State

theorem absorb_cons {P U : Type} [ClauseQueue U] (policy : Policy) (c : Clause) (cs : List Clause)
    (s : State P U) : absorb policy (c :: cs) s =
      if c.isEmpty then
        ({ s with archive := (s.archive.record c).2 } : State P U).succeed (s.archive.record c).1
      else if policy.deleteTautologies && (policy.tidy c).isTautology then
        absorb policy cs s.dropTautology
      else absorb policy cs (s.enqueue (policy.tidy c)) :=
  rfl

theorem subsumeBackward_eq {P U : Type} [ClauseStore P] (policy : Policy) (s : State P U)
    (given : Entry) : s.subsumeBackward policy given =
      if policy.backwardSubsumption then
        { s with
          processed := (removeSubsumed given s.processed).2
          statistics.backwardSubsumed :=
            s.statistics.backwardSubsumed + (removeSubsumed given s.processed).1.length }
      else s :=
  rfl

theorem process_eq {P U : Type} [ClauseStore P] [ClauseQueue U] (policy : Policy) (s : State P U)
    (given : Entry) : s.process policy given =
      if policy.deleteTautologies && given.clause.isTautology then s.dropTautology
      else if policy.forwardSubsumption &&
          isSubsumedBy given.clause (s.subsumeBackward policy given).processed then
        { s.subsumeBackward policy given with
          statistics.forwardSubsumed :=
            (s.subsumeBackward policy given).statistics.forwardSubsumed + 1 }
      else
        ((s.subsumeBackward policy given).select policy given).2.infer policy
          ((s.subsumeBackward policy given).select policy given).1 :=
  rfl

end State

section

variable {P U : Type} [ClauseStore P] [ClauseQueue U]

/-- The state in which the given clause has just been taken out. -/
def State.take (s : State P U) (unprocessed : U) : State P U :=
  { s with unprocessed := unprocessed, statistics.iterations := s.statistics.iterations + 1 }

theorem State.step_eq (policy : Policy) (elapsed : Duration) (s : State P U) :
    s.step policy elapsed =
      if s.status.isTerminal then s
      else if policy.isExhausted s.statistics.iterations elapsed then s.giveUp
      else
        match ClauseQueue.next? s.unprocessed with
        | none => { s with status := .saturated }
        | some (given, unprocessed) =>
          if given.clause.isEmpty then (s.take unprocessed).succeed given
          else (s.take unprocessed).process policy given :=
  rfl

/-- The given clause for which a step makes inferences, and the state in which it does so. -/
def State.inferring? (policy : Policy) (elapsed : Duration) (s : State P U) :
    Option (Entry × State P U) :=
  if s.status.isTerminal || policy.isExhausted s.statistics.iterations elapsed then none
  else
    match ClauseQueue.next? s.unprocessed with
    | none => none
    | some (given, unprocessed) =>
      if given.clause.isEmpty || (policy.deleteTautologies && given.clause.isTautology) then none
      else
        let s := (s.take unprocessed).subsumeBackward policy given
        if policy.forwardSubsumption && isSubsumedBy given.clause s.processed then none
        else some (given, s)

/-- **The step makes these inferences.** -/
theorem State.step_of_inferring? {policy : Policy} {elapsed : Duration} {s s' : State P U}
    {given : Entry} (h : s.inferring? policy elapsed = some (given, s')) :
    s.step policy elapsed =
      (s'.select policy given).2.infer policy (s'.select policy given).1 := by
  simp only [inferring?, Bool.or_eq_true] at h
  split_ifs at h with hover
  obtain ⟨hterminal, hexhausted⟩ := not_or.1 hover
  rw [step_eq, if_neg hterminal, if_neg hexhausted]
  split at h
  · cases h
  · split_ifs at h with hdropped hsubsumed
    simp only [Option.some.injEq, Prod.mk.injEq] at h
    obtain ⟨rfl, rfl⟩ := h
    obtain ⟨hempty, htautology⟩ := not_or.1 hdropped
    simp only [process]
    rw [if_neg hempty, if_neg htautology, if_neg hsubsumed]

/-- The history after a step. -/
def History.after (h : History) (policy : Policy) (elapsed : Duration) (s : State P U) : History :=
  match s.inferring? policy elapsed with
  | none => h
  | some (given, s) =>
    let (selected, s) := s.select policy given
    let calls := (inferenceCalls selected s.processed s.names.vars).1
    { calls := h.calls ++ calls
      origins := h.origins ++ (policy.selection.toList.map fun _ => .copy given.number) ++
        (policy.entered calls).map .inference }

/-- The history at the start of a search. -/
def History.start (s : State P U) : History := ⟨[], List.replicate s.archive.size .input⟩

/-- A search comes from a state to a state: by steps at any times, and by giving up. -/
inductive Run (policy : Policy) (s₀ : State P U) (h₀ : History) : State P U → History → Prop
  /-- Nothing has happened. -/
  | start : Run policy s₀ h₀ s₀ h₀
  /-- One more step. -/
  | step {s h} (run : Run policy s₀ h₀ s h) (elapsed : Duration) :
    Run policy s₀ h₀ (s.step policy elapsed) (h.after policy elapsed s)
  /-- The search gives up before it is over. -/
  | giveUp {s h} (run : Run policy s₀ h₀ s h) (hrunning : s.status = .running) :
    Run policy s₀ h₀ s.giveUp h

theorem Run.trans {policy : Policy} {s₀ s₁ s₂ : State P U} {h₀ h₁ h₂ : History}
    (run₁ : Run policy s₀ h₀ s₁ h₁) (run₂ : Run policy s₁ h₁ s₂ h₂) : Run policy s₀ h₀ s₂ h₂ := by
  induction run₂ with
  | start => exact run₁
  | step _ elapsed ih => exact ih.step elapsed
  | giveUp _ hrunning ih => exact ih.giveUp hrunning

theorem run_saturate (policy : Policy) (n : Nat) (s : State P U) (h : History) :
    ∃ h', Run policy s h (s.saturate policy n) h' := by
  induction n generalizing s h with
  | zero =>
    rw [State.saturate]
    split_ifs with hterminal
    · exact ⟨h, .start⟩
    · exact ⟨h, Run.start.giveUp (by simpa [Status.isTerminal] using hterminal)⟩
  | succ n ih =>
    rw [State.saturate]
    split_ifs
    · exact ⟨h, .start⟩
    · obtain ⟨h', run⟩ := ih (s.step policy .zero) (h.after policy .zero s)
      exact ⟨h', (Run.start.step .zero).trans run⟩

end

/-- The derivation of the clause with number `n` uses the inference `k`. -/
inductive History.Uses (h : History) : Nat → Call → Prop
  /-- The clause is the conclusion. -/
  | conclusion {n k} (ho : h.origins[n]? = some (.inference k)) : h.Uses n k
  /-- The derivation of a premise uses it. -/
  | premise {n k k' e} (ho : h.origins[n]? = some (.inference k')) (he : e ∈ k'.premises)
    (hu : h.Uses e.number k) : h.Uses n k
  /-- The derivation of the clause that was copied uses it. -/
  | copy {n m k} (ho : h.origins[n]? = some (.copy m)) (hu : h.Uses m k) : h.Uses n k

theorem History.Uses.exists_origin {h : History} {n : Nat} {k : Call} (hk : h.Uses n k) :
    ∃ m : Nat, h.origins[m]? = some (.inference k) := by
  induction hk with
  | conclusion ho => exact ⟨_, ho⟩
  | premise _ _ _ ih => exact ih
  | copy _ _ ih => exact ih

end Search

end Refutation
