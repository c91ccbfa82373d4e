import Refutation.Proofs.Search.Soundness
import Refutation.Proofs.Store.Redundancy

/-!
# What a step of a full search does

The moves of `Search.Move` say what a search may do.  This module says which of them a step takes:
which processed clauses go, when the given clause is dropped, and what becomes of the conclusions
with it.  The search is a full one without bounds, whose clauses have compound atoms, so that its
index hides no subsumption.

* `Search.Snapshot.kept` : the processed clauses that a given clause leaves.
* `Search.Snapshot.Advances` : all that a step can do.
* `Search.State.advances_step` : **a step does one of these things.**
* `Search.Snapshot.All.moves` : what inferences keep holds of all clauses of a search.
-/

namespace Refutation

open LawfulStore

theorem Clause.signedAtoms_of_isEmpty {c : Clause} (h : c.isEmpty = true) : c.signedAtoms = [] := by
  rw [signedAtoms, List.isEmpty_iff.1 h, List.map_nil]

namespace Search

/-- A policy without bounds never gives up. -/
structure Policy.IsUnbounded (policy : Policy) : Prop where
  /-- The number of steps is not bounded. -/
  maxIterations : policy.maxIterations = none
  /-- The time is not bounded. -/
  timeout : policy.timeout = none

theorem Policy.IsUnbounded.isExhausted {policy : Policy} (h : policy.IsUnbounded) (n : Nat)
    (elapsed : Duration) : policy.isExhausted n elapsed = false := by
  simp [Policy.isExhausted, h.maxIterations, h.timeout]

namespace Snapshot

/-- What is left of the processed clauses when a clause is given. -/
def kept (policy : Policy) (v : Snapshot) (given : Entry) : List Entry :=
  if policy.backwardSubsumption then v.processed.filter fun e => !given.clause.subsumes e.clause
  else v.processed

theorem mem_of_mem_kept {policy : Policy} {v : Snapshot} {given e : Entry}
    (he : e ∈ v.kept policy given) : e ∈ v.processed := by
  unfold kept at he
  split_ifs at he
  · exact List.mem_of_mem_filter he
  · exact he

/-- The calls with the given clause. -/
def givenCalls (policy : Policy) (v : Snapshot) (given : Entry) : List Call :=
  (inferenceCalls (v.select policy given).1 (PlainStore.mk (v.kept policy given)) v.fresh).1

/-- The conclusion is dropped as a tautology or is among the clauses. -/
def TakenIn (policy : Policy) (es : List Entry) (r : Clause) : Prop :=
  (policy.deleteTautologies = true ∧ (policy.tidy r).isTautology = true) ∨
    ∃ e ∈ es, e.clause.literals = (policy.tidy r).literals

/-- What a step of a running search does. -/
inductive Advances (policy : Policy) (v w : Snapshot) : Prop
  /-- Nothing is left to process. -/
  | saturate (hnone : v.unprocessed = []) (hstatus : w.status = .saturated)
  /-- The given clause is empty. -/
  | finish {given} (hgiven : given ∈ v.unprocessed) (hempty : given.clause.isEmpty = true)
    (hstatus : w.status = .proofFound)
  /-- The given clause is dropped as a tautology. -/
  | discardTautology {given} (hgiven : given ∈ v.unprocessed)
    (hpolicy : policy.deleteTautologies = true) (htautology : given.clause.isTautology = true)
    (hstatus : w.status = .running) (hprocessed : w.processed = v.processed)
    (hunprocessed : w.unprocessed = without given.number v.unprocessed)
  /-- The given clause is dropped because a processed clause that it leaves subsumes it. -/
  | discardSubsumed {given m} (hgiven : given ∈ v.unprocessed) (hm : m ∈ v.kept policy given)
    (hsubsumes : m.clause.subsumes given.clause = true) (hstatus : w.status = .running)
    (hprocessed : w.processed = v.kept policy given)
    (hunprocessed : w.unprocessed = without given.number v.unprocessed)
  /-- The given clause becomes a processed one, and the conclusions with it are taken in. -/
  | activate {given} (hgiven : given ∈ v.unprocessed) (hempty : given.clause.isEmpty = false)
    (hforward : policy.forwardSubsumption = true →
      ∀ m ∈ v.kept policy given, m.clause.subsumes given.clause = false)
    (hprocessed : w.processed = v.kept policy given ++ [(v.select policy given).1])
    (hconclusions : w.status = .proofFound ∨ w.status = .running ∧
      ∃ new, w.unprocessed = without given.number v.unprocessed ++ new ∧
        ∀ k ∈ v.givenCalls policy given, ∀ r, k.result? = some r → TakenIn policy new r)

theorem TakenIn.append {policy : Policy} {es es' : List Entry} {r : Clause}
    (h : TakenIn policy es' r) :
    TakenIn policy (es ++ es') r := by
  refine h.imp_right ?_
  rintro ⟨e, he, hliterals⟩
  exact ⟨e, List.mem_append_right _ he, hliterals⟩

end Snapshot

namespace State

open Snapshot (TakenIn)

/-- **Every conclusion is taken in**, unless one of them is empty. -/
theorem absorb_spec {P U : Type} [ClauseQueue U] [LawfulQueue U] (policy : Policy) {s : State P U}
    {ks : List Call} {cs : List Clause} (hks : Concludes ks cs) (hU : Valid s.unprocessed)
    (hlt : ∀ e ∈ ClauseStore.toList s.unprocessed, e.number < s.archive.size) :
    (absorb policy cs s).processed = s.processed ∧
      ((absorb policy cs s).status = .proofFound ∨ (absorb policy cs s).status = s.status ∧
        ∃ new, ClauseStore.toList (absorb policy cs s).unprocessed =
            ClauseStore.toList s.unprocessed ++ new ∧
          ∀ k ∈ ks, ∀ r, k.result? = some r → TakenIn policy new r) := by
  induction hks generalizing s with
  | nil => exact ⟨rfl, .inr ⟨rfl, [], (List.append_nil _).symm, List.forall_mem_nil _⟩⟩
  | fail hk _ ih =>
    obtain ⟨hprocessed, hrest⟩ := ih hU hlt
    refine ⟨hprocessed, hrest.imp_right ?_⟩
    rintro ⟨hstatus, new, hnew, htaken⟩
    refine ⟨hstatus, new, hnew, List.forall_mem_cons.2 ⟨fun r hr => ?_, htaken⟩⟩
    exact absurd (hr.symm.trans hk) (by simp)
  | @succeed k ks cs r hk name _ ih =>
    have hname : (r.named name).isEmpty = r.isEmpty := rfl
    have htaut : ((policy.tidy r).named name).isTautology = (policy.tidy r).isTautology := rfl
    simp only [absorb, tidy_named, hname, htaut]
    by_cases hempty : r.isEmpty = true
    · rw [if_pos hempty]
      exact ⟨rfl, .inl rfl⟩
    rw [if_neg hempty]
    by_cases hdrop : (policy.deleteTautologies && (policy.tidy r).isTautology) = true
    · rw [if_pos hdrop]
      obtain ⟨hprocessed, hrest⟩ := ih (s := s.dropTautology) hU hlt
      refine ⟨hprocessed, hrest.imp_right ?_⟩
      rintro ⟨hstatus, new, hnew, htaken⟩
      refine ⟨hstatus, new, hnew, List.forall_mem_cons.2 ⟨fun r' hr' => ?_, htaken⟩⟩
      obtain rfl := Option.some.inj (hk.symm.trans hr')
      exact .inl (Bool.and_eq_true_iff.1 hdrop)
    · rw [if_neg hdrop]
      obtain ⟨hinsert, hlist, hlt'⟩ := enqueue_spec hU hlt ((policy.tidy r).named name)
      obtain ⟨hprocessed, hrest⟩ := ih (s := s.enqueue ((policy.tidy r).named name)) hinsert hlt'
      refine ⟨hprocessed, hrest.imp_right ?_⟩
      rintro ⟨hstatus, new, hnew, htaken⟩
      rw [hlist, List.append_assoc] at hnew
      refine ⟨hstatus, _, hnew, List.forall_mem_cons.2 ⟨fun r' hr' => ?_, fun k' hk' r' hr' => ?_⟩⟩
      · obtain rfl := Option.some.inj (hk.symm.trans hr')
        exact .inr ⟨_, List.mem_cons_self, rfl⟩
      · exact (htaken k' hk' r' hr').append

/-- The selected clause becomes a processed one, and every conclusion with it is taken in, unless
one of them is empty. -/
theorem infer_spec {P U : Type} [ClauseStore P] [LawfulStore P] [ClauseQueue U] [LawfulQueue U]
    (policy : Policy) {s : State P U} {selected : Entry} (hP : Valid s.processed)
    (hU : Valid s.unprocessed)
    (hlt : ∀ e ∈ ClauseStore.toList s.unprocessed, e.number < s.archive.size)
    (hnew : ∀ d ∈ ClauseStore.toList s.processed, d.number ≠ selected.number) :
    ClauseStore.toList (s.infer policy selected).processed =
        ClauseStore.toList s.processed ++ [selected] ∧
      ((s.infer policy selected).status = .proofFound ∨
        (s.infer policy selected).status = s.status ∧
        ∃ new, ClauseStore.toList (s.infer policy selected).unprocessed =
            ClauseStore.toList s.unprocessed ++ new ∧
          ∀ k ∈ (inferenceCalls selected (PlainStore.mk (ClauseStore.toList s.processed))
            s.names.vars).1, ∀ r, k.result? = some r → TakenIn policy new r) := by
  obtain ⟨hconcludes, -⟩ := concludes_inferenceCalls selected s.processed s.names
  obtain ⟨hprocessed, hrest⟩ := absorb_spec policy (s := s.activate selected) hconcludes hU hlt
  rw [inferenceCalls_eq hP] at hrest
  rw [infer_eq, hprocessed]
  exact ⟨(insert_spec hP hnew).2, hrest⟩

variable {policy : Policy} {s : FullState} {h : History}

/-- **Backward subsumption removes exactly what the given clause subsumes.** -/
theorem toList_subsumeBackward (hP : Valid s.processed) {given : Entry}
    (hgiven : given.clause.HasCompoundAtoms)
    (hnew : ∀ e ∈ ClauseStore.toList s.processed, e.number ≠ given.number) :
    ClauseStore.toList (s.subsumeBackward policy given).processed =
      (s.snapshot [] h).kept policy given := by
  unfold subsumeBackward Snapshot.kept
  split_ifs
  · have hplain := (IndexedStore.Valid.removeSubsumed_eq hP hgiven).2
    rw [PlainStore.removeSubsumed_eq (s := s.processed.plain) (LawfulStore.nodup hP)] at hplain
    refine (congrArg PlainStore.members hplain).trans (List.filter_congr fun e he => ?_)
    rw [Entry.makesRedundant, decide_eq_true (hnew e he), Bool.true_and]
  · rfl

/-- **A clause is dropped exactly if a processed one subsumes it.** -/
theorem isSubsumedBy_iff {store : IndexedStore} (hstore : Valid store)
    (hcompound : ∀ e ∈ ClauseStore.toList store, e.clause.HasCompoundAtoms) {c : Clause} :
    isSubsumedBy c store = true ↔ ∃ m ∈ ClauseStore.toList store, m.clause.subsumes c = true := by
  rw [IndexedStore.Valid.isSubsumedBy_eq hstore hcompound]
  exact List.any_eq_true

/-- **A step does one of the things that `Snapshot.Advances` lists.** -/
theorem advances_step (hs : s.Consistent h) (hpolicy : policy.IsUnbounded)
    (hrunning : s.status = .running)
    (hcompound : ∀ e ∈ ClauseStore.toList s.processed ++ ClauseStore.toList s.unprocessed,
      e.clause.HasCompoundAtoms) (elapsed : Duration) :
    (s.snapshot [] h).Advances policy
      ((s.step policy elapsed).snapshot [] (h.after policy elapsed s)) := by
  have hterminal : ¬ s.status.isTerminal = true := by simp [hrunning, Status.isTerminal]
  rw [step_eq, if_neg hterminal, if_neg (by simp [hpolicy.isExhausted])]
  cases hnext : ClauseQueue.next? s.unprocessed with
  | none => exact .saturate (LawfulQueue.next_none hs.unprocessed hnext) rfl
  | some p =>
    obtain ⟨given, unprocessed⟩ := p
    obtain ⟨hU, hgiven, hlist⟩ := LawfulQueue.next_some hs.unprocessed hnext
    dsimp only
    by_cases hempty : given.clause.isEmpty = true
    · rw [if_pos hempty]
      exact .finish hgiven hempty rfl
    rw [if_neg hempty, process]
    by_cases htautology : (policy.deleteTautologies && given.clause.isTautology) = true
    · rw [if_pos htautology]
      obtain ⟨hflag, htautology⟩ := Bool.and_eq_true_iff.1 htautology
      exact .discardTautology hgiven hflag htautology hrunning rfl hlist
    rw [if_neg htautology]
    -- the given clause and the processed ones have different numbers
    have hnodup := hs.snapshot.nodup
    rw [List.map_append, List.nodup_append] at hnodup
    have hother : ∀ e ∈ ClauseStore.toList s.processed, e.number ≠ given.number := fun e he =>
      hnodup.2.2 _ (List.mem_map_of_mem he) _ (List.mem_map_of_mem hgiven)
    have hkept : ClauseStore.toList ((s.take unprocessed).subsumeBackward policy given).processed =
        (s.snapshot [] h).kept policy given :=
      toList_subsumeBackward (s := s.take unprocessed) (h := h) hs.processed
        (hcompound given (List.mem_append_right _ hgiven)) hother
    obtain ⟨processed, n, hP, -, hbackward⟩ := subsumeBackward_spec policy (s := s.take unprocessed)
      hs.processed given
    rw [hbackward] at hkept ⊢
    have hsubsumed := isSubsumedBy_iff hP (c := given.clause) fun e he =>
      hcompound e (List.mem_append_left _ (Snapshot.mem_of_mem_kept (hkept ▸ he)))
    rw [hkept] at hsubsumed
    by_cases hforward : (policy.forwardSubsumption && isSubsumedBy given.clause processed) = true
    · rw [if_pos hforward]
      obtain ⟨m, hm, hsubsumes⟩ := hsubsumed.1 (Bool.and_eq_true_iff.1 hforward).2
      exact .discardSubsumed hgiven hm hsubsumes hrunning hkept hlist
    · rw [if_neg hforward]
      obtain ⟨selected, A, hselect, hselectv⟩ := select_spec policy { s.take unprocessed with
        processed := processed, statistics.backwardSubsumed := n } (s.snapshot [] h) rfl given
      obtain ⟨hconsistent, -, hnumber⟩ := hs.snapshot.select policy hgiven
      rw [hselectv] at hconsistent hnumber
      rw [hselect]
      have hlt : ∀ e ∈ ClauseStore.toList unprocessed, e.number < A.size := fun e he =>
        hconsistent.lt_size (List.mem_append_right _ (mem_without.1 (hlist ▸ he)).1)
      have hnew : ∀ d ∈ ClauseStore.toList processed, d.number ≠ selected.number := by
        intro d hd
        have hd' : d ∈ ClauseStore.toList s.processed := Snapshot.mem_of_mem_kept (hkept ▸ hd)
        rcases hnumber with hnumber | hnumber
        · rw [hnumber]
          exact hother d hd'
        · exact hnumber d (List.mem_append_left _ hd')
      obtain ⟨hprocessed, hconclusions⟩ := infer_spec policy
        (s := { s.take unprocessed with
          processed := processed, statistics.backwardSubsumed := n, archive := A }) hP hU hlt hnew
      refine .activate hgiven (Bool.eq_false_iff.2 hempty) (fun hflag m hm => ?_) ?_ ?_
      · refine Bool.eq_false_iff.2 fun hsubsumes => hforward ?_
        rw [hflag, hsubsumed.2 ⟨m, hm, hsubsumes⟩, Bool.and_self]
      · rw [hselectv, ← hkept]
        exact hprocessed
      · rw [Snapshot.givenCalls, hselectv, ← hkept]
        refine hconclusions.imp_right ?_
        rintro ⟨hstatus, new, hnew, htaken⟩
        exact ⟨hstatus.trans hrunning, new, hnew.trans (congrArg (· ++ new) hlist), htaken⟩

end State

/-! ### What inferences keep -/

/-- A conclusion from clauses whose literals have the property, as it is taken in, has it too. -/
def Policy.Preserves (policy : Policy) (p : List SignedAtom → Prop) : Prop :=
  ∀ (k : Call) (r : Clause), k.result? = some r → (∀ e ∈ k.premises, p e.clause.signedAtoms) →
    p (policy.tidy r).signedAtoms

/-- The literals of all clauses have the property. -/
structure Snapshot.All (p : List SignedAtom → Prop) (v : Snapshot) : Prop where
  /-- Those of processed and unprocessed clauses. -/
  members : ∀ e ∈ v.processed ++ v.unprocessed, p e.clause.signedAtoms
  /-- Those of the premises of pending calls. -/
  premises : ∀ k ∈ v.pending, ∀ e ∈ k.premises, p e.clause.signedAtoms
  /-- Those of the empty clause, if it was found. -/
  empty : v.status = .proofFound → p []

namespace Snapshot.All

variable {policy : Policy} {p : List SignedAtom → Prop} {v w : Snapshot}

theorem of_subset (hv : v.All p)
    (hmembers : ∀ e ∈ w.processed ++ w.unprocessed, e ∈ v.processed ++ v.unprocessed)
    (hpending : ∀ k ∈ w.pending, k ∈ v.pending) (hstatus : w.status ≠ .proofFound) : w.All p :=
  ⟨fun e he => hv.members e (hmembers e he), fun k hk => hv.premises k (hpending k hk),
    fun h => absurd h hstatus⟩

theorem mem_of_sublist {rest : List Entry} {n : Nat} (hrest : rest.Sublist v.processed) :
    ∀ e ∈ rest ++ without n v.unprocessed, e ∈ v.processed ++ v.unprocessed := fun _ he =>
  (hrest.append (without_sublist n v.unprocessed)).subset he

/-- **Every move keeps what inferences keep.** -/
theorem move (hp : policy.Preserves p) (hv : v.All p) (h : Move policy v w) : w.All p := by
  cases h with
  | giveUp | saturate => exact hv.of_subset (fun _ => id) (fun _ => id) (by simp)
  | skip hrunning hpending | dropTautology hrunning hpending =>
    exact hv.of_subset (fun _ => id) (fun k hk => hpending ▸ List.mem_cons_of_mem _ hk)
      (by simp [hrunning])
  | finish hidle hgiven hempty =>
    refine ⟨fun e he => hv.members e (mem_of_sublist (.refl _) e he), hv.premises, fun _ => ?_⟩
    exact Clause.signedAtoms_of_isEmpty hempty ▸ hv.members _ (List.mem_append_right _ hgiven)
  | discardTautology hidle =>
    exact hv.of_subset (mem_of_sublist (.refl _)) (fun _ => id) (by simp [hidle.1])
  | discardSubsumed hidle _ hthins =>
    exact hv.of_subset (mem_of_sublist hthins.sublist) (fun _ => id) (by simp [hidle.1])
  | @activate given rest hidle hgiven _ hthins =>
    have hselected : p (v.select policy given).1.clause.signedAtoms := by
      rw [v.signedAtoms_select policy given]
      exact hv.members given (List.mem_append_right _ hgiven)
    have hrest : ∀ e ∈ rest, p e.clause.signedAtoms := fun e he =>
      hv.members e (List.mem_append_left _ (hthins.sublist.subset he))
    refine ⟨fun e he => ?_, fun k hk e he => ?_, fun hstatus => ?_⟩
    · simp only [Snapshot.activate, unprocessed_select, List.mem_append, List.mem_singleton] at he
      rcases he with (he | rfl) | he
      · exact hrest e he
      · exact hselected
      · exact hv.members e (List.mem_append_right _ (mem_without.1 he).1)
    · rcases premises_inferenceCalls hk he with rfl | he
      · exact hselected
      · exact hrest e he
    · simp [Snapshot.activate, hidle.1] at hstatus
  | @enqueue k ks r hrunning hpending hr _ name =>
    have hnew : p (policy.tidy r).signedAtoms :=
      hp k r hr (hv.premises k (hpending ▸ List.mem_cons_self))
    refine ⟨fun e he => ?_, fun k' hk' => hv.premises k' (hpending ▸ List.mem_cons_of_mem _ hk'),
      fun hstatus => absurd (hrunning.symm.trans hstatus) (by simp)⟩
    simp only [Snapshot.enqueue, Snapshot.enter, List.mem_append, List.mem_singleton] at he
    rcases he with he | he | rfl
    · exact hv.members e (List.mem_append_left _ he)
    · exact hv.members e (List.mem_append_right _ he)
    · exact hnew
  | @conclude k ks r _ hpending hr hempty name =>
    refine ⟨hv.members, List.forall_mem_nil _, fun _ => ?_⟩
    have hnew : p (policy.tidy r).signedAtoms :=
      hp k r hr (hv.premises k (hpending ▸ List.mem_cons_self))
    have hnil : (policy.tidy r).signedAtoms = [] := by
      refine List.eq_nil_iff_forall_not_mem.2 fun a ha => ?_
      rw [Policy.mem_signedAtoms_tidy, Clause.signedAtoms_of_isEmpty hempty] at ha
      exact List.not_mem_nil ha
    exact hnil ▸ hnew

theorem start {S : List Clause} (hS : ∀ c ∈ S, p c.signedAtoms) : (Snapshot.start S).All p where
  members e he := by
    obtain ⟨⟨c, n⟩, hc, rfl⟩ := List.mem_map.1 he
    exact hS c (List.fst_mem_of_mem_zipIdx hc)
  premises := List.forall_mem_nil _
  empty := nofun

/-- **What inferences keep holds at any time**, if it holds at one. -/
theorem moves (hp : policy.Preserves p) (hcons : v.Consistent) (hv : v.All p)
    (h : Moves policy v w) :
    w.All p :=
  h.invariant hcons hv fun _ hv hmove => hv.move hp hmove

end Snapshot.All

end Search

end Refutation
