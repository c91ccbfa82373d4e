import Refutation.Proofs.Search.Freshness
import Refutation.Proofs.Search.Naming
import Refutation.Proofs.Store.Variants

/-!
# The names of variables

A search does not look at the names of the variables of its clauses: two searches that start from
variants of the same clauses stay in step.  At every moment their clauses are variants, one by one,
and they have drawn the same names.  The fresh variables are the only names that a search knows, so
none of them may be used in the clauses that it starts with.

* `Search.State.Similar` : the two states hold variants of the same clauses in the same places.
* `Search.State.Similar.step` : **one step keeps states similar**, if the given clauses have no
  variable in common with fresh copies; `Search.State.Similar.after` : so does any number of steps.
* `Search.State.givesApart_after` : this is so for every clause that a search gives.
* `Search.search_ignores_variable_names` : two searches from variants are in step after any number
  of calls, in full and plain searches.
-/

namespace Refutation

/-! ### Inferences with a given clause -/

namespace Clause.Variant

variable {c c' : Clause} (h : c.Variant c')

include h

theorem isEmpty_eq : c.isEmpty = c'.isEmpty := by
  obtain ⟨ρ, -, rfl⟩ := h
  exact (c.isEmpty_rename ρ).symm

theorem size_eq : c.size = c'.size := by
  obtain ⟨ρ, -, rfl⟩ := h
  exact (c.size_rename ρ).symm

theorem isTautology_eq : c.isTautology = c'.isTautology := by
  obtain ⟨π, rfl⟩ := variant_iff.1 h
  exact (c.isTautology_rename π).symm

theorem isEligible_eq (i : Nat) : c.isEligible i = c'.isEligible i := by
  obtain ⟨ρ, -, rfl⟩ := h
  simp [isEligible, Option.any_map]

theorem dedup : c.dedup.Variant c'.dedup := by
  obtain ⟨π, rfl⟩ := variant_iff.1 h
  exact variant_iff.2 ⟨π, c.dedup_rename π⟩

theorem select (s : LiteralSelection) : (c.select s).Variant (c'.select s) := by
  obtain ⟨π, rfl⟩ := variant_iff.1 h
  exact variant_iff.2 ⟨π, c.select_rename π s⟩

theorem named (name : String) :
    ({ c with name := name } : Clause).Variant { c' with name := name } := by
  obtain ⟨π, rfl⟩ := variant_iff.1 h
  exact variant_iff.2 ⟨π, rfl⟩

theorem factorPairs_eq : factorPairs c = factorPairs c' := by
  simp only [factorPairs, h.size_eq, h.isEligible_eq]

end Clause.Variant

/-- The same literals of variants are to be resolved. -/
structure Pairing.Similar (p q : Pairing) : Prop where
  position : p.position = q.position
  partner : p.partner.Variant q.partner
  partnerPosition : p.partnerPosition = q.partnerPosition

section Inferences

variable {given given' : Entry}

theorem similar_pairings {σ : Type} [ClauseStore σ] [VariantStore σ] {s t : σ}
    (hgiven : given.Variant given') (h : VariantStore.Similar s t) :
    List.Forall₂ Pairing.Similar (pairings given s) (pairings given' t) := by
  obtain ⟨ρ, -, hclause⟩ := hgiven.clause
  have heligible : (fun p : Literal × Nat => p.1.eligible) ∘
      (fun p : Literal × Nat => (p.1.rename ρ, p.2)) = fun p => p.1.eligible := rfl
  rw [pairings, pairings, hclause, Clause.zipIdx_literals_rename, List.filter_map, heligible,
    List.flatMap_map]
  refine List.rel_flatMap (List.forall₂_same.2 fun _ _ => rfl) ?_
  rintro p _ rfl
  refine List.rel_map (fun q q' hq => ⟨rfl, hq.1, hq.2⟩)
    (forall₂_filter (VariantStore.partners p.1 ρ h) fun q q' hq => ?_)
  rw [hq.2, hq.1.clause.isEligible_eq]

/-- **The resolvents of variants are variants**, with the same names. -/
theorem similar_resolveAll (hgiven : given.Variant given') {ps qs : List Pairing}
    (hps : List.Forall₂ Pairing.Similar ps qs) {names : Names}
    (hdrawn : given.clause.IsDrawnOr [] names.vars)
    (hdrawn' : given'.clause.IsDrawnOr [] names.vars) :
    List.Forall₂ Clause.Variant (resolveAll given ps names).1 (resolveAll given' qs names).1 ∧
      (resolveAll given ps names).2 = (resolveAll given' qs names).2 := by
  induction hps generalizing names with
  | nil => exact ⟨.nil, rfl⟩
  | @cons p q ps qs hpq _ ih =>
    have hapart : ∀ {c : Clause}, c.IsDrawnOr [] names.vars → ∀ d : Clause, ∀ x ∈ c.vars,
        x ∉ (d.freshCopy names.vars).1.vars := fun hc d x hx hcopy => by
      simpa using hc.mem_known hx hcopy
    obtain ⟨hresolve, hfresh⟩ := hgiven.resolve hpq.partner q.position q.partnerPosition
      (hapart hdrawn _) (hapart hdrawn' _)
    have hle : names.vars.drawn ≤
        (given'.resolve q.position q.partner q.partnerPosition names.vars).2.drawn :=
      Entry.drawn_le_resolve
    rw [resolveAll, resolveAll, hpq.position, hpq.partnerPosition]
    generalize given.resolve q.position p.partner q.partnerPosition names.vars =
      out at hresolve hfresh
    generalize given'.resolve q.position q.partner q.partnerPosition names.vars =
      out' at hresolve hfresh hle
    obtain ⟨r, vars⟩ := out
    obtain ⟨r', vars'⟩ := out'
    obtain rfl : vars = vars' := hfresh
    cases hresolve with
    | none => exact ih (hdrawn.mono hle) (hdrawn'.mono hle)
    | some hr =>
      have hafter := @ih ⟨vars, names.clauses.next.2⟩ (hdrawn.mono hle) (hdrawn'.mono hle)
      exact ⟨.cons (hr.named _) hafter.1, hafter.2⟩

theorem similar_factorAll (hgiven : given.Variant given') (ps : List (Nat × Nat)) (names : Names) :
    List.Forall₂ Clause.Variant (factorAll given ps names).1 (factorAll given' ps names).1 ∧
      (factorAll given ps names).2 = (factorAll given' ps names).2 := by
  induction ps generalizing names with
  | nil => exact ⟨.nil, rfl⟩
  | cons p ps ih =>
    have hfactor := hgiven.factor p.1 p.2
    rw [factorAll, factorAll]
    generalize given.factor p.1 p.2 = r at hfactor
    generalize given'.factor p.1 p.2 = r' at hfactor
    cases hfactor with
    | none => exact ih names
    | some hr =>
      have hafter := ih ⟨names.vars, names.clauses.next.2⟩
      exact ⟨.cons (hr.named _) hafter.1, hafter.2⟩

theorem similar_resolvents {σ : Type} [ClauseStore σ] [VariantStore σ] {s t : σ}
    (hgiven : given.Variant given') (h : VariantStore.Similar s t) {names : Names}
    (hdrawn : given.clause.IsDrawnOr [] names.vars)
    (hdrawn' : given'.clause.IsDrawnOr [] names.vars) :
    List.Forall₂ Clause.Variant (resolvents given s names).1 (resolvents given' t names).1 ∧
      (resolvents given s names).2 = (resolvents given' t names).2 :=
  similar_resolveAll hgiven (similar_pairings hgiven h) hdrawn hdrawn'

theorem similar_factors (hgiven : given.Variant given') (names : Names) :
    List.Forall₂ Clause.Variant (factors given names).1 (factors given' names).1 ∧
      (factors given names).2 = (factors given' names).2 := by
  unfold factors
  rw [hgiven.clause.factorPairs_eq]
  exact similar_factorAll hgiven _ names

end Inferences

/-! ### Similar states -/

/-- Variants were entered under the same numbers. -/
def Archive.Similar (A B : Archive) : Prop :=
  List.Forall₂ Clause.Variant A.clauses.toList B.clauses.toList

theorem Archive.Similar.record {A B : Archive} (h : A.Similar B) {c c' : Clause}
    (hc : c.Variant c') :
    (A.record c).1.Variant (B.record c').1 ∧ (A.record c).2.Similar (B.record c').2 := by
  refine ⟨⟨?_, hc⟩, ?_⟩
  · simpa [Archive.record, Archive.size] using h.length_eq
  · simpa [Archive.Similar, Archive.record] using forall₂_concat h hc

theorem Archive.Similar.recordAll {A B : Archive} (h : A.Similar B) {cs cs' : List Clause}
    (hcs : List.Forall₂ Clause.Variant cs cs') :
    List.Forall₂ Entry.Variant (A.recordAll cs).1 (B.recordAll cs').1 ∧
      (A.recordAll cs).2.Similar (B.recordAll cs').2 := by
  induction hcs generalizing A B with
  | nil => exact ⟨.nil, h⟩
  | cons hc _ ih =>
    obtain ⟨he, hrecord⟩ := h.record hc
    obtain ⟨hes, hrest⟩ := ih hrecord
    exact ⟨.cons he hes, hrest⟩

namespace Search

theorem Policy.variant_tidy (policy : Policy) {c c' : Clause} (hc : c.Variant c') :
    (policy.tidy c).Variant (policy.tidy c') := by
  unfold Policy.tidy
  split
  · exact hc.dedup
  · exact hc

namespace State

/-- The clause in which literals were selected has the variables of the given one. -/
theorem isDrawnOr_select {P U : Type} [ClauseStore P] {policy : Policy} {s : State P U}
    {given : Entry} {known : List String} (h : given.clause.IsDrawnOr known s.names.vars) :
    ((s.subsumeBackward policy given).select policy given).1.clause.IsDrawnOr known
      ((s.subsumeBackward policy given).select policy given).2.names.vars := by
  obtain ⟨-, hnames⟩ := archive_subsumeBackward policy s given
  obtain ⟨-, hnames'⟩ := archive_select policy (s.subsumeBackward policy given) given
  rw [hnames', hnames]
  unfold State.select
  cases policy.selection with
  | none => exact h
  | some selection => exact h.of_subset fun a ha => (given.clause.signedAtoms_select selection) ▸ ha

/-- The next given clause has no variable in common with fresh copies. -/
def GivesApart {P U : Type} [ClauseQueue U] (s : State P U) : Prop :=
  ∀ e u, ClauseQueue.next? s.unprocessed = some (e, u) → e.clause.IsDrawnOr [] s.names.vars

end State

section

variable {P U : Type} [ClauseStore P] [ClauseQueue U] [VariantStore P] [VariantQueue U]

open VariantStore

/-- The two states hold variants of the same clauses in the same places, and agree in all else. -/
structure State.Similar (s t : State P U) : Prop where
  processed : VariantStore.Similar s.processed t.processed
  unprocessed : VariantStore.Similar s.unprocessed t.unprocessed
  archive : s.archive.Similar t.archive
  names : s.names = t.names
  statistics : s.statistics = t.statistics
  status : s.status = t.status
  result : Option.Rel Entry.Variant s.result t.result

namespace State.Similar

variable {policy : Policy} {s t : State P U} {given given' : Entry} (h : s.Similar t)

include h

theorem succeed (he : given.Variant given') : (s.succeed given).Similar (t.succeed given') :=
  { h with status := rfl, result := .some he }

theorem enqueue {c c' : Clause} (hc : c.Variant c') : (s.enqueue c).Similar (t.enqueue c') := by
  obtain ⟨he, hrecord⟩ := h.archive.record hc
  exact { h with archive := hrecord, unprocessed := insert h.unprocessed he }

theorem dropTautology : s.dropTautology.Similar t.dropTautology :=
  { h with statistics := by rw [State.dropTautology, State.dropTautology, h.statistics] }

theorem absorb {cs cs' : List Clause} (hcs : List.Forall₂ Clause.Variant cs cs') :
    (State.absorb policy cs s).Similar (State.absorb policy cs' t) := by
  induction hcs generalizing s t with
  | nil => exact h
  | @cons c c' _ _ hc _ ih =>
    have htidy := policy.variant_tidy hc
    rw [absorb_cons, absorb_cons, hc.isEmpty_eq, htidy.isTautology_eq]
    split
    · obtain ⟨he, hrecord⟩ := h.archive.record hc
      have hrecorded : State.Similar { s with archive := (s.archive.record c).2 }
          { t with archive := (t.archive.record c').2 } := { h with archive := hrecord }
      exact hrecorded.succeed he
    · split
      · exact ih h.dropTautology
      · exact ih (h.enqueue htidy)

theorem select (hgiven : given.Variant given') :
    (s.select policy given).1.Variant (t.select policy given').1 ∧
      (s.select policy given).2.Similar (t.select policy given').2 := by
  unfold State.select
  cases policy.selection with
  | none => exact ⟨hgiven, h⟩
  | some selection =>
    obtain ⟨he, hrecord⟩ := h.archive.record (hgiven.clause.select selection)
    exact ⟨he, { h with archive := hrecord }⟩

/-- **The inferences with variants keep states similar**, if the given clauses do not share
variables with fresh copies. -/
theorem infer (hgiven : given.Variant given') (hdrawn : given.clause.IsDrawnOr [] s.names.vars)
    (hdrawn' : given'.clause.IsDrawnOr [] t.names.vars) :
    (s.infer policy given).Similar (t.infer policy given') := by
  rw [h.names] at hdrawn
  obtain ⟨hresolvents, hnames⟩ := similar_resolvents hgiven h.processed hdrawn hdrawn'
  obtain ⟨hfactors, hnames'⟩ := similar_factors hgiven (resolvents given' t.processed t.names).2
  have hactive : (s.activate given).Similar (t.activate given') := { h with
    names := by rw [State.activate, State.activate, h.names, hnames, hnames']
    processed := insert h.processed hgiven
    statistics := by
      rw [State.activate, State.activate, h.statistics, h.names, hnames, hresolvents.length_eq,
        hfactors.length_eq] }
  rw [infer_eq, infer_eq, h.names, hnames]
  exact hactive.absorb (List.rel_append hresolvents hfactors)

theorem subsumeBackward (hgiven : given.Variant given') :
    (s.subsumeBackward policy given).Similar (t.subsumeBackward policy given') := by
  rw [subsumeBackward_eq, subsumeBackward_eq]
  split
  · obtain ⟨hremoved, hprocessed⟩ := similar_removeSubsumed hgiven h.processed
    exact { h with
      processed := hprocessed
      statistics := by rw [h.statistics, hremoved.length_eq] }
  · exact h

theorem process (hgiven : given.Variant given') (hdrawn : given.clause.IsDrawnOr [] s.names.vars)
    (hdrawn' : given'.clause.IsDrawnOr [] t.names.vars) :
    (s.process policy given).Similar (t.process policy given') := by
  have hbackward : (s.subsumeBackward policy given).Similar (t.subsumeBackward policy given') :=
    h.subsumeBackward hgiven
  rw [process_eq, process_eq, hgiven.clause.isTautology_eq,
    isSubsumedBy_eq_of_similar hbackward.processed hgiven.clause]
  split
  · exact h.dropTautology
  · split
    · exact { hbackward with
        statistics := congrArg (fun n => { n with forwardSubsumed := n.forwardSubsumed + 1 })
          hbackward.statistics }
    · obtain ⟨hselected, hselect⟩ := hbackward.select hgiven
      exact hselect.infer hselected (isDrawnOr_select hdrawn) (isDrawnOr_select hdrawn')

/-- **One step keeps states similar**, whenever the two calls are made, if there is no time
limit. -/
theorem step (htimeout : policy.timeout = none) (hs : s.GivesApart) (ht : t.GivesApart)
    (elapsed elapsed' : Duration) : (s.step policy elapsed).Similar (t.step policy elapsed') := by
  have hexhausted : policy.isExhausted s.statistics.iterations elapsed =
      policy.isExhausted t.statistics.iterations elapsed' := by
    simp [Policy.isExhausted, htimeout, h.statistics]
  have hnext := VariantQueue.next? h.unprocessed
  unfold GivesApart at hs ht
  rw [step_eq, step_eq, h.status, hexhausted]
  split
  · exact h
  · split
    · exact { h with status := rfl }
    · generalize ClauseQueue.next? s.unprocessed = o at hnext hs
      generalize ClauseQueue.next? t.unprocessed = o' at hnext ht
      cases hnext with
      | none => exact { h with status := rfl }
      | @some p q hpq =>
        obtain ⟨given, u⟩ := p
        obtain ⟨given', u'⟩ := q
        have htaken : (s.take u).Similar (t.take u') := { h with
          unprocessed := hpq.2
          statistics := by rw [State.take, State.take, h.statistics] }
        simp only [hpq.1.clause.isEmpty_eq]
        split
        · exact htaken.succeed hpq.1
        · exact htaken.process hpq.1 (hs _ _ rfl) (ht _ _ rfl)

end State.Similar

/-! ### Two searches -/

theorem State.similar_start {p : P} {u : U} (hp : VariantStore.Similar p p)
    (hu : VariantStore.Similar u u) {S S' : List Clause} (hS : List.Forall₂ Clause.Variant S S') :
    (State.start p u S).Similar (State.start p u S') := by
  have hempty : Archive.empty.Similar Archive.empty := .nil
  obtain ⟨hes, harchive⟩ := hempty.recordAll hS
  have hunprocessed : VariantStore.Similar
      ((Archive.empty.recordAll S).1.foldl ClauseStore.insert u)
      ((Archive.empty.recordAll S').1.foldl ClauseStore.insert u) :=
    List.rel_foldl (P := VariantStore.Similar) (R := Entry.Variant)
      (fun _ _ hs _ _ he => VariantStore.insert hs he) hu hes
  exact
    { processed := hp
      unprocessed := hunprocessed
      archive := harchive
      names := rfl
      statistics := by simp only [State.start, hS.length_eq]
      status := rfl
      result := .none }

/-- The state after one call at each of the given times. -/
def State.after (policy : Policy) (s : State P U) (times : List Duration) : State P U :=
  times.foldl (fun s elapsed => s.step policy elapsed) s

/-- The states cannot be told apart but by the names of variables. -/
structure State.Alike (s t : State P U) : Prop where
  status : s.status = t.status
  statistics : s.statistics = t.statistics
  processed : List.Forall₂ Entry.Variant (ClauseStore.toList s.processed)
    (ClauseStore.toList t.processed)
  unprocessed :
    List.Forall₂ Entry.Variant (ClauseStore.toList s.unprocessed) (ClauseStore.toList t.unprocessed)

theorem State.Similar.alike {s t : State P U} (h : s.Similar t) : s.Alike t :=
  ⟨h.status, h.statistics, toList h.processed, toList h.unprocessed⟩

/-- **Similar states stay similar**, after any number of calls. -/
theorem State.Similar.after {policy : Policy} (htimeout : policy.timeout = none) {s t : State P U}
    (h : s.Similar t) (hs : ∀ times, (s.after policy times).GivesApart)
    (ht : ∀ times, (t.after policy times).GivesApart) {times times' : List Duration}
    (hlength : times.length = times'.length) :
    (s.after policy times).Similar (t.after policy times') := by
  induction times generalizing s t times' with
  | nil =>
    obtain rfl := List.length_eq_zero_iff.1 hlength.symm
    exact h
  | cons elapsed times ih =>
    obtain ⟨elapsed', times', rfl⟩ := List.exists_cons_of_length_eq_add_one hlength.symm
    have hstep := h.step htimeout (hs []) (ht []) elapsed elapsed'
    exact ih hstep (fun times => hs (elapsed :: times)) (fun times => ht (elapsed' :: times))
      (Nat.succ.inj hlength)

end

section

variable {P U : Type} [ClauseStore P] [ClauseQueue U] {policy : Policy} {S : List Clause}

theorem Run.after {s₀ s : State P U} {h₀ h : History} (run : Run policy s₀ h₀ s h)
    (times : List Duration) : ∃ h', Run policy s₀ h₀ (s.after policy times) h' := by
  induction times generalizing s h with
  | nil => exact ⟨h, run⟩
  | cons elapsed times ih => exact ih (run.step elapsed)

/-- A search that did not start with fresh variables never gives a clause that has one in common
with a fresh copy. -/
theorem State.givesApart_after [LawfulStore P] [LawfulQueue U] {s₀ : State P U}
    (hstart : s₀.snapshot [] (.start s₀) = .start S ∧ s₀.Consistent (.start s₀))
    (hS : ∀ b ∈ S, ∀ n, FreshVars.varName n ∉ b.vars) (times : List Duration) :
    (s₀.after policy times).GivesApart := by
  obtain ⟨hsnapshot, hs₀⟩ := hstart
  obtain ⟨h, run⟩ := (Run.start : Run policy s₀ (.start s₀) s₀ _).after times
  obtain ⟨hmoves, hs⟩ := run.moves hs₀
  rw [hsnapshot] at hmoves
  have hdrawn : ((s₀.after policy times).snapshot [] h).DrawnOr [] :=
    .moves (fun b hb n hn => absurd hn (hS b hb n)) hmoves
  intro e u hnext
  obtain ⟨-, he, -⟩ := LawfulQueue.next_some hs.unprocessed hnext
  exact hdrawn.members e (List.mem_append_right _ he)

end

theorem ofClauses_eq_of_variants {S S' : List Clause} (hS : List.Forall₂ Clause.Variant S S') :
    Signature.ofClauses S = Signature.ofClauses S' := by
  have hoccurrences : S.flatMap (·.symbolOccurrences) = S'.flatMap (·.symbolOccurrences) := by
    induction hS with
    | nil => rfl
    | cons hc _ ih =>
      obtain ⟨ρ, -, rfl⟩ := hc
      rw [List.flatMap_cons, List.flatMap_cons, ih, Clause.symbolOccurrences_rename]
  rw [Signature.ofClauses, Signature.ofClauses, hoccurrences]

theorem error_iff_of_variants {α : Type} {S S' : List Clause}
    (hS : List.Forall₂ Clause.Variant S S') (a b : α) (e : Error) :
    (Signature.ofClauses S).map (fun _ => a) = .error e ↔
      (Signature.ofClauses S').map (fun _ => b) = .error e := by
  rw [ofClauses_eq_of_variants hS]
  cases Signature.ofClauses S' with
  | error => rfl
  | ok => exact iff_of_false nofun nofun

/-- **The search does not depend on the names of variables.**  Let no variable of the clauses be
named like a fresh one.  If each clause is renamed injectively, then the same errors occur at the
start, and without a time limit the same things happen in every call, in full and plain searches.
Each member of the two lists is an object of its own, as for every search here. -/
theorem search_ignores_variable_names {S S' : List Clause} (params : Params)
    (htimeout : params.timeout = none) (hvariants : List.Forall₂ Clause.Variant S S')
    (hS : ∀ b ∈ S, ∀ n, FreshVars.varName n ∉ b.vars)
    (hS' : ∀ b ∈ S', ∀ n, FreshVars.varName n ∉ b.vars) :
    ((∀ e, startFull params S = .error e ↔ startFull params S' = .error e) ∧
      ∀ s t, startFull params S = .ok s → startFull params S' = .ok t →
        ∀ times times' : List Duration, times.length = times'.length →
          (s.after params.policy times).Alike (t.after params.policy times')) ∧
    (∀ e, startPlain S = .error e ↔ startPlain S' = .error e) ∧
      ∀ s t, startPlain S = .ok s → startPlain S' = .ok t →
        ∀ times times' : List Duration, times.length = times'.length →
          (s.after params.plainPolicy times).Alike (t.after params.plainPolicy times') := by
  refine ⟨⟨error_iff_of_variants hvariants _ _, ?_⟩, error_iff_of_variants hvariants _ _, ?_⟩
  · intro s t hs ht times times' hlength
    have hsimilar : s.Similar t := by
      rw [eq_of_signature hs, eq_of_signature ht]
      exact State.similar_start IndexedStore.similar_empty (RankedStore.similar_empty _) hvariants
    exact (hsimilar.after htimeout (State.givesApart_after (startFull_spec hs) hS)
      (State.givesApart_after (startFull_spec ht) hS') hlength).alike
  · intro s t hs ht times times' hlength
    have hsimilar : s.Similar t := by
      rw [eq_of_signature hs, eq_of_signature ht]
      exact State.similar_start PlainStore.similar_empty PlainStore.similar_empty hvariants
    exact (hsimilar.after htimeout (State.givesApart_after (startPlain_spec hs) hS)
      (State.givesApart_after (startPlain_spec ht) hS') hlength).alike

theorem forall₂_variant_factAndGoal (y z : String) :
    List.Forall₂ Clause.Variant (factAndGoal y) (factAndGoal z) := by
  refine .cons ⟨id, Function.injective_id.injOn, (Clause.rename_id _).symm⟩
    (.cons ⟨fun _ => z, ?_, by cbv⟩ .nil)
  intro x hx x' hx' _
  have hvars : ∀ {w}, w ∈ [y] → w = y := List.mem_singleton.1
  rw [hvars hx, hvars hx']

/-- The goal may use the variable of the fact: both searches find a proof with either name. -/
theorem search_ignores_variable_names_factAndGoal :
    List.Forall₂ Clause.Variant (factAndGoal "Y") (factAndGoal "X") ∧
    (∀ b ∈ factAndGoal "Y", ∀ n, FreshVars.varName n ∉ b.vars) ∧
    (∀ b ∈ factAndGoal "X", ∀ n, FreshVars.varName n ∉ b.vars) ∧
    (∃ s t, startFull {} (factAndGoal "Y") = .ok s ∧ startFull {} (factAndGoal "X") = .ok t ∧
      (s.after ({} : Params).policy [.zero, .zero]).status = .proofFound ∧
      (s.after ({} : Params).policy [.zero, .zero]).Alike
        (t.after ({} : Params).policy [.zero, .zero])) ∧
    ∃ s t, startPlain (factAndGoal "Y") = .ok s ∧ startPlain (factAndGoal "X") = .ok t ∧
      (s.after ({} : Params).plainPolicy [.zero, .zero]).status = .proofFound ∧
      (s.after ({} : Params).plainPolicy [.zero, .zero]).Alike
        (t.after ({} : Params).plainPolicy [.zero, .zero]) := by
  have hvariants := forall₂_variant_factAndGoal "Y" "X"
  have hY : ∀ b ∈ factAndGoal "Y", ∀ n, FreshVars.varName n ∉ b.vars :=
    varName_not_mem_vars (by decide +kernel)
  have hX : ∀ b ∈ factAndGoal "X", ∀ n, FreshVars.varName n ∉ b.vars :=
    varName_not_mem_vars (by decide +kernel)
  obtain ⟨⟨-, hfull⟩, -, hplain⟩ := search_ignores_variable_names {} rfl hvariants hY hX
  exact ⟨hvariants, hY, hX, ⟨_, _, rfl, rfl, by cbv, hfull _ _ rfl rfl _ _ rfl⟩,
    ⟨_, _, rfl, rfl, by cbv, hplain _ _ rfl rfl _ _ rfl⟩⟩

end Search

end Refutation
