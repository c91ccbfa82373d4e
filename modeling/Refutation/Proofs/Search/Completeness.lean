import Refutation.Proofs.CanonicalModel
import Refutation.Proofs.Search.Freshness

/-!
# Completeness of the search

A search that ends saturated shows that the clauses it started with are satisfiable, provided that
it drops no tautologies but those with opposite literals.  All instances of its processed clauses,
with all lists that have opposite literals, are closed under resolution and factoring
(`ClosedUnderResolution`): an inference between instances is an instance of an inference between the
clauses, whose conclusion has opposite literals or is subsumed by a processed clause.

* `Search.Snapshot.Drawn` : fresh variables are fresh.
* `Search.Snapshot.Eligible` : inferences may use enough literals; every move keeps this.
* `Search.Snapshot.Saturated.closed_covering` : the instances of the processed clauses are closed.
* `Search.saturated_satisfiable` : completeness, for full and plain searches.
-/

namespace Refutation

/-! ### Fresh variables -/

namespace Search

variable {policy : Policy} {v w : Snapshot} {S : List Clause}

/-- Whatever looks like a fresh variable has been drawn, and before it is used. -/
structure Snapshot.Drawn (v : Snapshot) : Prop where
  /-- In processed and unprocessed clauses. -/
  members : ∀ e ∈ v.processed ++ v.unprocessed, e.clause.IsDrawn v.fresh
  /-- In the first premise of a resolution, before the second one is renamed. -/
  called : ∀ c i d j fresh, .resolve c i d j fresh ∈ v.history.calls → c.clause.IsDrawn fresh
  /-- In the conclusions that have not been taken in. -/
  pending : ∀ k ∈ v.pending, ∀ r, k.result? = some r → r.IsDrawn v.fresh

/-- At any time of a search fresh variables are fresh, if none of them was there from the start. -/
theorem Snapshot.Drawn.moves (hS : ∀ c ∈ S, ∀ n, FreshVars.varName n ∉ c.vars)
    (h : Moves policy (.start S) w) : w.Drawn := by
  have hdrawn : w.DrawnOr [] := .moves (fun c hc n hn => absurd hn (hS c hc n)) h
  have hclause : ∀ {c : Clause} {fresh : FreshVars}, c.IsDrawnOr [] fresh → c.IsDrawn fresh :=
    fun h n hn => (h n hn).resolve_right List.not_mem_nil
  exact ⟨fun e he => hclause (hdrawn.members e he),
    fun c i d j fresh hcall => hclause (hdrawn.called c i d j fresh hcall),
    fun k hk r hr => hclause (hdrawn.pending k hk r hr)⟩

end Search

/-! ### Eligible literals -/

theorem mem_of_firstLeast? {α : Type} {lt : α → α → Bool} {as : List α} {a : α}
    (h : firstLeast? lt as = some a) : a ∈ as := by
  induction as generalizing a with
  | nil => simp [firstLeast?] at h
  | cons b as ih =>
    rw [firstLeast?] at h
    cases hrest : firstLeast? lt as with
    | none =>
      rw [hrest] at h
      exact Option.some.inj h ▸ List.mem_cons_self
    | some c =>
      simp only [hrest] at h
      split_ifs at h
      · exact Option.some.inj h ▸ List.mem_cons_of_mem _ (ih hrest)
      · exact Option.some.inj h ▸ List.mem_cons_self

theorem LiteralSelection.exists_of_select {s : LiteralSelection} {ls : List Literal} {i : Nat}
    (h : s.select ls = some i) : ∃ l, ls[i]? = some l ∧ l.negative = true := by
  obtain ⟨⟨l, j⟩, hleast, rfl⟩ := Option.map_eq_some_iff.1 h
  have hmem := mem_of_firstLeast? hleast
  rw [List.mem_filter, List.mem_zipIdx_iff_getElem?] at hmem
  exact ⟨l, hmem⟩

namespace Clause

/-- Inferences may use some negative literal, and all literals if none is negative. -/
structure IsUsable (c : Clause) : Prop where
  /-- All literals if none is negative. -/
  positive : (∀ l ∈ c.literals, l.negative = false) → ∀ l ∈ c.literals, l.eligible = true
  /-- Some negative literal if there is one. -/
  negative : (∃ l ∈ c.literals, l.negative = true) →
    ∃ l ∈ c.literals, l.negative = true ∧ l.eligible = true

theorem isUsable_of_eligible {c : Clause} (h : ∀ l ∈ c.literals, l.eligible = true) : c.IsUsable :=
  ⟨fun _ => h, fun ⟨l, hl, hneg⟩ => ⟨l, hl, hneg, h l hl⟩⟩

theorem isUsable_select {c : Clause} (h : ∀ l ∈ c.literals, l.eligible = true)
    (s : LiteralSelection) : (c.select s).IsUsable := by
  unfold select
  split
  · next i hi =>
    obtain ⟨l, hl, hneg⟩ := LiteralSelection.exists_of_select hi
    have hmem : { l with eligible := true } ∈
        c.literals.mapIdx fun k l => { l with eligible := k = i } := by
      refine List.mem_of_getElem? (i := i) ?_
      simp [hl]
    refine ⟨fun hpos => ?_, fun _ => ⟨_, hmem, hneg, rfl⟩⟩
    have hneg' := hpos _ hmem
    exact absurd (hneg.symm.trans hneg') (by simp)
  · exact isUsable_of_eligible h

theorem isEmpty_select (c : Clause) (s : LiteralSelection) : (c.select s).isEmpty = c.isEmpty := by
  unfold select
  split
  · rw [isEmpty, isEmpty, Bool.eq_iff_iff, List.isEmpty_iff, List.isEmpty_iff]
    exact List.mapIdx_eq_nil_iff
  · rfl

theorem dedupLiterals_sublist (ls : List Literal) : (dedupLiterals ls).Sublist ls := by
  induction ls with
  | nil => exact .slnil
  | cons l ls ih => exact (List.filter_sublist.trans ih).cons_cons l

end Clause

namespace Search

variable {policy : Policy} {v w : Snapshot} {S : List Clause}

theorem Policy.tidy_sublist (policy : Policy) (c : Clause) :
    (policy.tidy c).literals.Sublist c.literals := by
  unfold Policy.tidy
  split_ifs
  · exact Clause.dedupLiterals_sublist c.literals
  · exact .refl _

/-- Inferences may use all literals of unprocessed clauses and enough literals of processed ones,
which are not empty. -/
structure Snapshot.Eligible (v : Snapshot) : Prop where
  /-- All literals of unprocessed clauses. -/
  unprocessed : ∀ e ∈ v.unprocessed, ∀ l ∈ e.clause.literals, l.eligible = true
  /-- Enough literals of processed clauses. -/
  processed : ∀ e ∈ v.processed, e.clause.isEmpty = false ∧ e.clause.IsUsable

namespace Snapshot.Eligible

theorem of_subset (hv : v.Eligible) (hprocessed : ∀ e ∈ w.processed, e ∈ v.processed)
    (hunprocessed : ∀ e ∈ w.unprocessed, e ∈ v.unprocessed) : w.Eligible :=
  ⟨fun e he => hv.unprocessed e (hunprocessed e he), fun e he => hv.processed e (hprocessed e he)⟩

theorem select (hv : v.Eligible) {given : Entry} (hgiven : given ∈ v.unprocessed)
    (hempty : given.clause.isEmpty = false) :
    (v.select policy given).1.clause.isEmpty = false ∧
    (v.select policy given).1.clause.IsUsable := by
  have heligible := hv.unprocessed given hgiven
  unfold Snapshot.select
  split
  · next selection _ =>
    exact ⟨(Clause.isEmpty_select _ _).trans hempty, Clause.isUsable_select heligible selection⟩
  · exact ⟨hempty, Clause.isUsable_of_eligible heligible⟩

/-- **Every move leaves enough literals to inferences.** -/
theorem move (hv : v.Eligible) (h : Move policy v w) : w.Eligible := by
  cases h with
  | giveUp | saturate | skip | dropTautology | conclude =>
    exact hv.of_subset (fun _ => id) fun _ => id
  | finish | discardTautology => exact hv.of_subset (fun _ => id) fun e he => (mem_without.1 he).1
  | discardSubsumed _ _ hthins =>
    exact hv.of_subset (fun e he => hthins.sublist.subset he) fun e he => (mem_without.1 he).1
  | @activate given rest _ hgiven hempty hthins =>
    refine ⟨fun e he => ?_, fun e he => ?_⟩
    · change e ∈ without _ (v.select policy given).2.unprocessed at he
      rw [unprocessed_select] at he
      exact hv.unprocessed e (mem_without.1 he).1
    · rcases List.mem_append.1 he with he | he
      · exact hv.processed e (hthins.sublist.subset he)
      · exact List.mem_singleton.1 he ▸ hv.select hgiven hempty
  | @enqueue k ks r _ _ hr _ name =>
    refine ⟨fun e he => ?_, hv.processed⟩
    rcases List.mem_append.1 he with he | he
    · exact hv.unprocessed e he
    · rw [List.mem_singleton.1 he]
      exact fun l hl => Call.eligible_result hr l ((policy.tidy_sublist r).subset hl)

theorem start (hS : ∀ c ∈ S, ∀ l ∈ c.literals, l.eligible = true) :
    (Snapshot.start S).Eligible where
  unprocessed e he := by
    obtain ⟨⟨c, n⟩, hp, rfl⟩ := List.mem_map.1 he
    exact hS c (List.fst_mem_of_mem_zipIdx hp)
  processed := List.forall_mem_nil _

theorem moves (hS : ∀ c ∈ S, ∀ l ∈ c.literals, l.eligible = true) (h : Moves policy (.start S) w) :
    w.Eligible :=
  h.invariant (Snapshot.consistent_start S) (start hS) fun _ hv hmove => hv.move hmove

end Snapshot.Eligible

/-! ### Instances of processed clauses -/

/-- All instances of the processed clauses. -/
def Snapshot.instances (v : Snapshot) : Set (List SignedAtom) :=
  { g | ∃ c ∈ v.processed, ∃ θ, g = c.clause.signedAtoms.map (·.subst θ) }

/-- The instances of the processed clauses, and all lists with opposite literals. -/
def Snapshot.covering (v : Snapshot) : Set (List SignedAtom) :=
  v.instances ∪ { g | IsComplementary g }

/-- The processed clauses subsume all conclusions from them that have no opposite literals. -/
structure Snapshot.Saturated (policy : Policy) (v : Snapshot) : Prop where
  /-- The rules have been called for all inferences. -/
  exhaustive : v.Exhaustive
  /-- What they returned has opposite literals or is subsumed. -/
  redundant : ∀ k ∈ v.history.calls, ∀ r, k.result? = some r →
    IsComplementary (policy.tidy r).signedAtoms ∨
      ∃ m ∈ v.processed, m.clause.subsumes (policy.tidy r) = true
  /-- Fresh variables were fresh. -/
  drawn : v.Drawn
  /-- Inferences may use enough literals. -/
  eligible : v.Eligible
  /-- No atom is a variable. -/
  compound : ∀ e ∈ v.processed, e.clause.HasCompoundAtoms

theorem pair_sublist_of_ne {α : Type} {a b : α} {as : List α} (ha : a ∈ as) (hb : b ∈ as)
    (hne : a ≠ b) : [a, b].Sublist as ∨ [b, a].Sublist as := by
  induction as with
  | nil => simp at ha
  | cons c as ih =>
    rcases List.mem_cons.1 ha with rfl | ha'
    · have hb' := (List.mem_cons.1 hb).resolve_left (Ne.symm hne)
      exact .inl ((List.singleton_sublist.2 hb').cons_cons a)
    · rcases List.mem_cons.1 hb with rfl | hb'
      · exact .inr ((List.singleton_sublist.2 ha').cons_cons b)
      · exact (ih ha' hb').imp (·.cons c) (·.cons c)

namespace Snapshot.Saturated

/-- Each instance of a conclusion has opposite literals or contains an instance of a processed
clause. -/
theorem exists_covering (hv : v.Saturated policy) {k : Call} (hk : k ∈ v.history.calls) {r : Clause}
    (hr : k.result? = some r) (δ : String → Term) :
    ∃ h ∈ v.covering, h.Subperm (r.signedAtoms.map (·.subst δ)) := by
  have htidy : (policy.tidy r).signedAtoms.Sublist r.signedAtoms := (policy.tidy_sublist r).map _
  rcases hv.redundant k hk r hr with hcomplementary | ⟨m, hm, hsubsumes⟩
  · exact ⟨_, .inr ((hcomplementary.mono htidy.subset).map_subst δ), .refl _⟩
  · obtain ⟨ζ, hζ⟩ := Clause.subsumes_iff_subperm.1 hsubsumes
    exact ⟨_, .inl ⟨m, hm, _, rfl⟩, (hζ.subst δ).trans (htidy.map _).subperm⟩

/-- Resolution between instances, with the older clause as the second premise. -/
theorem resolve_of_sublist (hv : v.Saturated policy) {c d : Entry}
    (hcd : [d, c].Sublist v.processed) {i j : Nat} {l m : Literal}
    (hl : c.clause.literals[i]? = some l) (hm : d.clause.literals[j]? = some m)
    (hli : l.eligible = true) (hmj : m.eligible = true) (hsign : l.negative ≠ m.negative)
    {θ η : String → Term} (hatom : l.atom.subst θ = m.atom.subst η) :
    ∃ h ∈ v.covering, h.Subperm ((c.clause.signedAtoms.eraseIdx i).map (·.subst θ) ++
      (d.clause.signedAtoms.eraseIdx j).map (·.subst η)) := by
  have hlv := hv.compound c (hcd.subset (by simp)) l (List.mem_of_getElem? hl)
  have hmv := hv.compound d (hcd.subset (by simp)) m (List.mem_of_getElem? hm)
  have hpartner : l.isPartner m = true :=
    Literal.isPartner_iff.2 ⟨hsign, Entry.predicate_eq_of_subst_eq hlv hmv hatom⟩
  obtain ⟨fresh, hcall⟩ := hv.exhaustive.resolved c d hcd i j l m hl hli hm hmj hpartner
  obtain ⟨r, δ, hr, hinstance⟩ := Entry.exists_resolvent hl hm hlv hmv hsign hatom
    (hv.drawn.called c i d j fresh hcall)
  rw [← hinstance]
  exact hv.exists_covering hcall hr δ

theorem resolve (hv : v.Saturated policy) {c d : Entry} (hc : c ∈ v.processed)
    (hd : d ∈ v.processed) (hne : c ≠ d) {i j : Nat} {l m : Literal}
    (hl : c.clause.literals[i]? = some l) (hm : d.clause.literals[j]? = some m)
    (hli : l.eligible = true) (hmj : m.eligible = true) (hsign : l.negative ≠ m.negative)
    {θ η : String → Term} (hatom : l.atom.subst θ = m.atom.subst η) :
    ∃ h ∈ v.covering, h.Subperm ((c.clause.signedAtoms.eraseIdx i).map (·.subst θ) ++
      (d.clause.signedAtoms.eraseIdx j).map (·.subst η)) := by
  rcases pair_sublist_of_ne hc hd hne with hcd | hcd
  · -- the roles of the two clauses are exchanged
    obtain ⟨h, hh, hsub⟩ := hv.resolve_of_sublist hcd hm hl hmj hli hsign.symm hatom.symm
    exact ⟨h, hh, hsub.trans List.perm_append_comm.subperm⟩
  · exact hv.resolve_of_sublist hcd hl hm hli hmj hsign hatom

theorem factor (hv : v.Saturated policy) {c : Entry} (hc : c ∈ v.processed) {i j : Nat}
    {l m : Literal} (hl : c.clause.literals[i]? = some l) (hm : c.clause.literals[j]? = some m)
    (hij : i < j) (hli : l.eligible = true) (hsign : l.negative = m.negative) {θ : String → Term}
    (hatom : l.atom.subst θ = m.atom.subst θ) :
    ∃ h ∈ v.covering, h.Subperm ((c.clause.signedAtoms.eraseIdx j).map (·.subst θ)) := by
  have hlv := hv.compound c hc l (List.mem_of_getElem? hl)
  have hmv := hv.compound c hc m (List.mem_of_getElem? hm)
  have heligible : c.clause.isEligible i = true := by
    rw [Clause.isEligible, hl, Option.any_some]
    exact hli
  have hpair : (i, j) ∈ factorPairs c.clause :=
    mem_factorPairs.2 ⟨hij, (List.getElem?_eq_some_iff.1 hm).1, .inl heligible⟩
  obtain ⟨r, hr, hinstance⟩ := Entry.exists_factor hl hm hlv hmv (Nat.ne_of_lt hij) hsign hatom
  rw [← hinstance]
  exact hv.exists_covering (hv.exhaustive.factored c hc i j hpair) hr θ

theorem exists_literal {c : Clause} {θ : String → Term} {i : Nat} {a : SignedAtom}
    (h : (c.signedAtoms.map (·.subst θ))[i]? = some a) :
    ∃ l, c.literals[i]? = some l ∧ a = l.toSignedAtom.subst θ := by
  rw [List.getElem?_map, Clause.getElem?_signedAtoms, Option.map_map] at h
  obtain ⟨l, hl, rfl⟩ := Option.map_eq_some_iff.1 h
  exact ⟨l, hl, rfl⟩

/-- All literals of a clause with a positive instance are positive and may be used. -/
theorem of_isPositive (hv : v.Saturated policy) {d : Entry} (hd : d ∈ v.processed)
    {η : String → Term} (hpos : IsPositive (d.clause.signedAtoms.map (·.subst η))) :
    ∀ m ∈ d.clause.literals, m.negative = false ∧ m.eligible = true := by
  have hpositive : ∀ m ∈ d.clause.literals, m.negative = false := fun m hm =>
    hpos (m.toSignedAtom.subst η) (List.mem_map_of_mem (List.mem_map_of_mem hm))
  exact fun m hm => ⟨hpositive m hm, (hv.eligible.processed d hd).2.positive hpositive m hm⟩

/-- **The instances of the processed clauses are closed under resolution**, together with all lists
that have opposite literals. -/
theorem closed_covering (hv : v.Saturated policy) : ClosedUnderResolution v.covering := by
  refine .union_complementary ?_ ?_ ?_
  · rintro ⟨c, hc, θ, hnil⟩
    have hempty := (hv.eligible.processed c hc).1
    rw [eq_comm, List.map_eq_nil_iff, Clause.signedAtoms, List.map_eq_nil_iff] at hnil
    simp [Clause.isEmpty, hnil] at hempty
  · rintro g ⟨c, hc, θ, rfl⟩ hneg
    have hexists : ∃ l ∈ c.clause.literals, l.negative = true := by
      by_contra hnone
      refine hneg fun a ha => ?_
      obtain ⟨b, hb, rfl⟩ := List.mem_map.1 ha
      obtain ⟨l, hl, rfl⟩ := List.mem_map.1 hb
      by_contra hl'
      exact hnone ⟨l, hl, Bool.eq_true_of_not_eq_false hl'⟩
    obtain ⟨l, hl, hlneg, hli⟩ := (hv.eligible.processed c hc).2.negative hexists
    obtain ⟨i, hi⟩ := List.mem_iff_getElem?.1 hl
    refine ⟨i, l.toSignedAtom.subst θ, ?_, hlneg, ?_⟩
    · rw [List.getElem?_map, Clause.getElem?_signedAtoms, hi]
      rfl
    · rintro p ⟨d, hd, η, rfl⟩ hpos j b hj hatom
      obtain ⟨m, hm, rfl⟩ := exists_literal hj
      obtain ⟨hmpos, hmj⟩ := hv.of_isPositive hd hpos m (List.mem_of_getElem? hm)
      have hsign : l.negative ≠ m.negative := by simp [hlneg, hmpos]
      -- no clause is resolved with itself, but only one of these two is positive
      have hne : c ≠ d := by
        rintro rfl
        exact absurd (hlneg.symm.trans (hv.of_isPositive hd hpos l hl).1) (by simp)
      rw [List.eraseIdx_map, List.eraseIdx_map]
      exact hv.resolve hc hd hne hi hm hli hmj hsign hatom.symm
  · rintro p ⟨d, hd, θ, rfl⟩ hpos i j a hij hi hj
    obtain ⟨l, hl, rfl⟩ := exists_literal hi
    obtain ⟨m, hm, heq⟩ := exists_literal hj
    obtain ⟨hlpos, hli⟩ := hv.of_isPositive hd hpos l (List.mem_of_getElem? hl)
    have hsign := congrArg SignedAtom.negative heq
    have hatom := congrArg SignedAtom.atom heq
    rw [List.eraseIdx_map]
    exact hv.factor hd hl hm hij hli hsign hatom

/-- **The processed clauses have a model.** -/
theorem exists_model (hv : v.Saturated policy) :
    ∃ I : Interpretation Term, ∀ c ∈ v.processed, I.Models c.clause := by
  obtain ⟨T, hT⟩ := hv.closed_covering.exists_model
  refine ⟨.termModel (· ∈ T), fun c hc θ => ?_⟩
  obtain ⟨a, ha, htrue⟩ := hT _ (.inl ⟨c, hc, θ, rfl⟩)
  obtain ⟨b, hb, rfl⟩ := List.mem_map.1 ha
  have hbv := Clause.hasCompoundAtoms_iff.1 (hv.compound c hc) b hb
  refine ⟨b, hb, ?_⟩
  simp only [Interpretation.Holds, Interpretation.holdsAtom_termModel hbv]
  exact htrue

end Snapshot.Saturated

/-! ### Full and plain searches -/

/-- What is dropped as a tautology, of the clauses that a search starts with and of the conclusions
of its calls, has opposite literals. -/
structure Policy.DropsComplementary (policy : Policy) (S : List Clause) (h : History) : Prop where
  /-- Of the clauses at the start. -/
  input : ∀ c ∈ S, policy.deleteTautologies = true → c.isTautology = true →
    IsComplementary c.signedAtoms
  /-- Of the conclusions. -/
  concluded : ∀ k ∈ h.calls, ∀ r, k.result? = some r → policy.deleteTautologies = true →
    (policy.tidy r).isTautology = true → IsComplementary (policy.tidy r).signedAtoms

section

variable {P U : Type} [ClauseStore P] [ClauseQueue U] [LawfulStore P] [LawfulQueue U]
    {s₀ s : State P U}
  {h : History}

/-- **Clauses with which a search ends saturated are satisfiable**, if it drops no tautologies but
those with opposite literals. -/
theorem Run.satisfiable_of_dropsComplementary (hs₀ : s₀.Consistent (.start s₀))
    (hstart : s₀.snapshot [] (.start s₀) = .start S) (hdrops : policy.DropsComplementary S h)
    (hcompound : ∀ c ∈ S, c.HasCompoundAtoms)
    (heligible : ∀ c ∈ S, ∀ l ∈ c.literals, l.eligible = true)
    (hvars : ∀ c ∈ S, ∀ n, FreshVars.varName n ∉ c.vars) (run : Run policy s₀ (.start s₀) s h)
    (hsaturated : s.status = .saturated) : Satisfiable.{0} S := by
  obtain ⟨hmoves, hs⟩ := run.moves hs₀
  rw [hstart] at hmoves
  have hcons := hs.snapshot
  obtain ⟨hsettled, hexhaustive⟩ := hmoves.settled_exhaustive
  have hexplained := Snapshot.Explained.moves hmoves
  have hv : (s.snapshot [] h).Saturated policy := {
    exhaustive := hexhaustive
    redundant := fun k hk r hr => (hsettled.redundant hcons hsaturated hk hr).imp_left
      fun ⟨hdelete, htautology⟩ => hdrops.concluded k hk r hr hdelete htautology
    drawn := .moves hvars hmoves
    eligible := .moves heligible hmoves
    compound := fun e he =>
      hexplained.hasCompoundAtoms hcons hcompound (hcons.archived e (List.mem_append_left _ he)) }
  obtain ⟨I, hI⟩ := hv.exists_model
  refine ⟨Term, I, fun c hc => ?_⟩
  -- each clause of `S` was unprocessed at the start, and so is dropped or subsumed now
  obtain ⟨n, hn⟩ := List.mem_iff_getElem?.1 hc
  have hcovers : (Snapshot.start S).Covers policy ⟨n, c⟩ :=
    .inl (List.mem_map.2 ⟨(c, n), List.mem_zipIdx_iff_getElem?.2 hn, rfl⟩)
  have hcovers' := hcovers.moves (Snapshot.consistent_start S) hmoves
  rcases hcovers'.redundant hcons hsaturated with ⟨hdelete, htautology⟩ | ⟨m, hm, hsubsumes⟩
  · exact I.models_of_isComplementary (hdrops.input c hc hdelete htautology)
  · obtain ⟨θ, hθ⟩ := Clause.subsumes_iff_subperm.1 hsubsumes
    exact (hI m hm).of_instance (hv.compound m hm) fun a ha => hθ.subset (List.mem_map_of_mem ha)

theorem Run.satisfiable (hs₀ : s₀.Consistent (.start s₀))
    (hstart : s₀.snapshot [] (.start s₀) = .start S) (hdelete : policy.deleteTautologies = false)
    (hcompound : ∀ c ∈ S, c.HasCompoundAtoms)
    (heligible : ∀ c ∈ S, ∀ l ∈ c.literals, l.eligible = true)
    (hvars : ∀ c ∈ S, ∀ n, FreshVars.varName n ∉ c.vars) (run : Run policy s₀ (.start s₀) s h)
    (hsaturated : s.status = .saturated) : Satisfiable.{0} S := by
  have hdrops : policy.DropsComplementary S h := by
    constructor <;> simp [hdelete]
  exact run.satisfiable_of_dropsComplementary hs₀ hstart hdrops hcompound heligible hvars hsaturated

end

/-- **Completeness of the search**, full or plain: clauses with which it ends saturated are
satisfiable. -/
theorem saturated_satisfiable (params : Params) (hcompound : ∀ c ∈ S, c.HasCompoundAtoms)
    (heligible : ∀ c ∈ S, ∀ l ∈ c.literals, l.eligible = true)
    (hvars : ∀ c ∈ S, ∀ n, FreshVars.varName n ∉ c.vars) :
    (∀ s₀ s h, params.deleteTautologies = false → startFull params S = .ok s₀ →
      Run params.policy s₀ (.start s₀) s h → s.status = .saturated → Satisfiable.{0} S) ∧
    ∀ s₀ s h, startPlain S = .ok s₀ → Run params.plainPolicy s₀ (.start s₀) s h →
      s.status = .saturated → Satisfiable.{0} S := by
  constructor
  · intro s₀ s h hdelete hstart run hsaturated
    obtain ⟨hsnapshot, hs₀⟩ := startFull_spec hstart
    exact run.satisfiable hs₀ hsnapshot hdelete hcompound heligible hvars hsaturated
  · intro s₀ s h hstart run hsaturated
    obtain ⟨hsnapshot, hs₀⟩ := startPlain_spec hstart
    exact run.satisfiable hs₀ hsnapshot rfl hcompound heligible hvars hsaturated

/-- A disjunction of facts, and a rule. -/
def choiceAndRule : List Clause :=
  [⟨"choice", .axiomatic, [.pos (.app "p" [.app "a" []]), .pos (.app "q" [.app "a" []])], none⟩,
    ⟨"rule", .axiomatic, [.neg (.app "p" [.var "X"]), .pos (.app "q" [.app "f" [.var "X"]])], none⟩]

/-- Both searches end saturated, with subsumption and selection in the first, and the clauses are
satisfiable. -/
theorem saturated_satisfiable_choiceAndRule :
    (∀ c ∈ choiceAndRule, c.HasCompoundAtoms) ∧
      (∀ c ∈ choiceAndRule, ∀ l ∈ c.literals, l.eligible = true) ∧
      (∀ c ∈ choiceAndRule, ∀ n, FreshVars.varName n ∉ c.vars) ∧
      ∃ params : Params, params.deleteTautologies = false ∧
        (∃ s₀ s h, startFull params choiceAndRule = .ok s₀ ∧ Run params.policy s₀ (.start s₀) s h ∧
          s.status = .saturated ∧ Satisfiable.{0} choiceAndRule) ∧
        ∃ s₀ s h, startPlain choiceAndRule = .ok s₀ ∧ Run params.plainPolicy s₀ (.start s₀) s h ∧
          s.status = .saturated ∧ Satisfiable.{0} choiceAndRule := by
  have hcompound : ∀ c ∈ choiceAndRule, c.HasCompoundAtoms := by decide
  have heligible : ∀ c ∈ choiceAndRule, ∀ l ∈ c.literals, l.eligible = true := by decide
  have hvars : ∀ c ∈ choiceAndRule, ∀ n, FreshVars.varName n ∉ c.vars := by
    intro c hc n hn
    have hall : choiceAndRule.flatMap (·.vars) = ["X"] := by cbv
    have hmem : FreshVars.varName n ∈ ["X"] := hall ▸ List.mem_flatMap.2 ⟨c, hc, hn⟩
    have hchars := congrArg String.toList (List.mem_singleton.1 hmem)
    simp [FreshVars.varName] at hchars
  let params : Params :=
    { forwardSubsumption := true, backwardSubsumption := true, selection := some .largest }
  let s₀ : FullState := .start .empty (.empty params.heuristic.schedule) choiceAndRule
  let t₀ : PlainState := .start .empty .empty choiceAndRule
  obtain ⟨h, run⟩ := run_saturate params.policy 4 s₀ (.start s₀)
  obtain ⟨h', run'⟩ := run_saturate params.plainPolicy 4 t₀ (.start t₀)
  have hsaturated : (s₀.saturate params.policy 4).status = .saturated := by cbv
  have hsaturated' : (t₀.saturate params.plainPolicy 4).status = .saturated := by cbv
  obtain ⟨hfull, hplain⟩ := saturated_satisfiable params hcompound heligible hvars
  exact ⟨hcompound, heligible, hvars, params, rfl,
    ⟨s₀, _, h, rfl, run, hsaturated, hfull s₀ _ h rfl rfl run hsaturated⟩,
    ⟨t₀, _, h', rfl, run', hsaturated', hplain t₀ _ h' rfl run' hsaturated'⟩⟩

end Search

end Refutation
