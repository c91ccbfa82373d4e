import Refutation.Proofs.Search.Moves
import Refutation.Proofs.Store.Indexed
import Refutation.Proofs.Store.Ranked

/-!
# Steps consist of moves

The given-clause procedure, on any lawful stores, does nothing but the moves of `Search.Move`.

* `Search.State.moves_absorb` : taking in conclusions, one move for each call.
* `Search.State.moves_step` : **every step consists of moves**.
* `Search.Run.moves` : so does every run, from any consistent state.
* `Search.startFull_spec`, `Search.startPlain_spec` : the states that searches start from are
  consistent.
-/

namespace Refutation

open LawfulStore

theorem Archive.recordAll_eq (A : Archive) (cs : List Clause) : A.recordAll cs =
    ((cs.zipIdx A.size).map fun p => ⟨p.2, p.1⟩, ⟨A.clauses ++ cs.toArray⟩) := by
  induction cs generalizing A with
  | nil => simp [recordAll]
  | cons c cs ih =>
    rw [recordAll]
    simp [ih, record, size]

theorem foldl_insert_spec {σ : Type} [ClauseStore σ] [LawfulStore σ] {s : σ} {es : List Entry}
    (hs : Valid s) (hnodup : (es.map (·.number)).Nodup)
    (hnew : ∀ d ∈ ClauseStore.toList s, ∀ e ∈ es, d.number ≠ e.number) :
    Valid (es.foldl ClauseStore.insert s) ∧
      ClauseStore.toList (es.foldl ClauseStore.insert s) = ClauseStore.toList s ++ es := by
  induction es generalizing s with
  | nil => exact ⟨hs, by simp⟩
  | cons e es ih =>
    rw [List.map_cons, List.nodup_cons] at hnodup
    obtain ⟨hvalid, hlist⟩ := insert_spec hs fun d hd => hnew d hd e List.mem_cons_self
    obtain ⟨hvalid', hlist'⟩ := ih hvalid hnodup.2 fun d hd e' he' => by
      rcases List.mem_append.1 (hlist ▸ hd) with hd | hd
      · exact hnew d hd e' (List.mem_cons_of_mem _ he')
      · rw [List.mem_singleton.1 hd]
        exact fun hnumber => hnodup.1 (hnumber ▸ List.mem_map_of_mem he')
    exact ⟨hvalid', by rw [List.foldl_cons, hlist', hlist, List.append_assoc,
      List.singleton_append]⟩

/-- Only the members of the store matter for the calls with a given clause. -/
theorem inferenceCalls_eq {σ : Type} [ClauseStore σ] [LawfulStore σ] {store : σ} (hs : Valid store)
    (given : Entry) (fresh : FreshVars) : inferenceCalls given store fresh =
      inferenceCalls given (PlainStore.mk (ClauseStore.toList store)) fresh := by
  have hpairings : pairings given store =
      pairings given (PlainStore.mk (ClauseStore.toList store)) := by
    simp only [pairings, partners_eq _ hs]
    rfl
  rw [inferenceCalls, hpairings]
  rfl

namespace Search

namespace State

theorem tidy_named (policy : Policy) (c : Clause) (name : String) :
    (if policy.dropRepeated then (c.named name).dedup else c.named name) =
      (policy.tidy c).named name := by
  unfold Policy.tidy
  split_ifs <;> rfl

theorem enqueue_spec {P U : Type} [ClauseQueue U] [LawfulQueue U] {s : State P U}
    (hU : Valid s.unprocessed)
    (hlt : ∀ e ∈ ClauseStore.toList s.unprocessed, e.number < s.archive.size) (c : Clause) :
    Valid (s.enqueue c).unprocessed ∧
      ClauseStore.toList (s.enqueue c).unprocessed =
        ClauseStore.toList s.unprocessed ++ [⟨s.archive.size, c⟩] ∧
      ∀ e ∈ ClauseStore.toList (s.enqueue c).unprocessed,
        e.number < (s.enqueue c).archive.size := by
  obtain ⟨hvalid, hlist⟩ := insert_spec (e := ⟨s.archive.size, c⟩) hU
    fun d hd => Nat.ne_of_lt (hlt d hd)
  refine ⟨hvalid, hlist, fun e he => ?_⟩
  have hsize : (s.enqueue c).archive.size = s.archive.size + 1 := Archive.size_record c
  rw [hsize]
  rcases List.mem_append.1 (hlist ▸ he) with he | he
  · exact Nat.lt_succ_of_lt (hlt e he)
  · rw [List.mem_singleton.1 he]
    exact Nat.lt_succ_self _

section

variable {P U : Type} (policy : Policy)

theorem select_spec (s : State P U) (v : Snapshot) (harchive : s.archive = v.archive)
    (given : Entry) :
    ∃ selected A, s.select policy given = (selected, { s with archive := A }) ∧
      v.select policy given = (selected, { v with
        archive := A
        history.origins :=
          v.history.origins ++ policy.selection.toList.map fun _ => .copy given.number }) := by
  unfold State.select Snapshot.select
  cases policy.selection with
  | none => exact ⟨given, s.archive, rfl, by simp [harchive]⟩
  | some selection => exact ⟨_, _, rfl, by simp [harchive, Archive.record, Snapshot.enter]⟩

theorem exists_select (s : State P U) (given : Entry) :
    ∃ selected A, s.select policy given = (selected, { s with archive := A }) ∧
      s.archive.size ≤ A.size ∧ (selected = given ∨ selected.number = s.archive.size) := by
  unfold State.select
  cases policy.selection with
  | none => exact ⟨given, s.archive, rfl, Nat.le_refl _, .inl rfl⟩
  | some selection =>
    exact ⟨_, _, rfl, Nat.le_of_succ_le (Nat.le_of_eq (Archive.size_record _).symm), .inr rfl⟩

theorem subsumeBackward_spec [ClauseStore P] [LawfulStore P] {s : State P U}
    (hP : Valid s.processed) (given : Entry) :
    ∃ processed n, Valid processed ∧
      Thins given (ClauseStore.toList processed) (ClauseStore.toList s.processed) ∧
      s.subsumeBackward policy given =
        { s with processed := processed, statistics.backwardSubsumed := n } := by
  unfold subsumeBackward
  split_ifs
  · obtain ⟨hvalid, hsublist, hcover⟩ := removeSubsumed_spec hP given
    exact ⟨_, _, hvalid, ⟨hsublist, hcover⟩, rfl⟩
  · exact ⟨s.processed, _, hP, .refl _ _, rfl⟩

end

variable {P U : Type} [ClauseStore P] [ClauseQueue U] {policy : Policy} {s : State P U}
    {h : History}

/-- What a state shows, with the calls that are pending. -/
def snapshot (s : State P U) (pending : List Call) (h : History) : Snapshot :=
  ⟨ClauseStore.toList s.processed, ClauseStore.toList s.unprocessed, s.archive,
    s.names.vars, s.status, s.result, pending, h⟩

/-- The state in which the inferences with a given clause have been made and their conclusions have
not been taken in. -/
def activate (s : State P U) (given : Entry) : State P U :=
  { s with
    names := (factors given (resolvents given s.processed s.names).2).2
    processed := ClauseStore.insert s.processed given
    statistics.resolvents :=
      s.statistics.resolvents + (resolvents given s.processed s.names).1.length
    statistics.factors :=
      s.statistics.factors + (factors given (resolvents given s.processed s.names).2).1.length
    statistics.processed := s.statistics.processed + 1 }

theorem infer_eq (policy : Policy) (s : State P U) (given : Entry) : s.infer policy given =
    absorb policy ((resolvents given s.processed s.names).1 ++
      (factors given (resolvents given s.processed s.names).2).1) (s.activate given) :=
  rfl

variable [LawfulQueue U]

/-- **Conclusions are taken in one by one**, in the order of the calls. -/
theorem moves_absorb {ks : List Call} {cs : List Clause} (hks : Concludes ks cs)
    (hrunning : s.status = .running) (hU : Valid s.unprocessed)
    (hlt : ∀ e ∈ ClauseStore.toList s.unprocessed, e.number < s.archive.size) :
    Moves policy (s.snapshot ks h) ((absorb policy cs s).snapshot []
        ⟨h.calls, h.origins ++ (policy.entered ks).map .inference⟩) ∧
      (absorb policy cs s).processed = s.processed ∧ Valid (absorb policy cs s).unprocessed := by
  -- over the calls, for all states and histories: each conclusion that is entered changes both
  induction hks generalizing s h with
  | nil =>
    rw [absorb, Policy.entered, List.map_nil, List.append_nil]
    exact ⟨.refl, rfl, hU⟩
  | fail hk _ ih =>
    obtain ⟨hmoves, hP, hU'⟩ := ih hrunning hU hlt (h := h)
    rw [Policy.entered, hk]
    exact ⟨.head (.skip hrunning rfl hk) hmoves, hP, hU'⟩
  | @succeed k ks cs r hk name _ ih =>
    have hname : (r.named name).isEmpty = r.isEmpty := rfl
    have htaut : ((policy.tidy r).named name).isTautology = (policy.tidy r).isTautology := rfl
    simp only [absorb, Policy.entered, hk, tidy_named, hname, htaut]
    by_cases hempty : r.isEmpty = true
    · rw [if_pos hempty, if_pos hempty]
      exact ⟨.single (.conclude hrunning rfl hk hempty name), rfl, hU⟩
    rw [if_neg hempty, if_neg hempty]
    by_cases hdrop : (policy.deleteTautologies && (policy.tidy r).isTautology) = true
    · rw [if_pos hdrop, if_pos hdrop]
      obtain ⟨hflag, htautology⟩ := Bool.and_eq_true_iff.1 hdrop
      obtain ⟨hmoves, hP, hU'⟩ := ih (s := s.dropTautology) (h := h) hrunning hU hlt
      exact ⟨.head (.dropTautology hrunning rfl hk hflag htautology) hmoves, hP, hU'⟩
    · rw [if_neg hdrop, if_neg hdrop]
      obtain ⟨hinsert, hlist, hlt'⟩ := enqueue_spec hU hlt ((policy.tidy r).named name)
      obtain ⟨hmoves, hP, hU'⟩ := ih (s := s.enqueue ((policy.tidy r).named name))
        (h := ⟨h.calls, h.origins ++ [.inference k]⟩) hrunning hinsert hlt'
      have hmove : Move policy (s.snapshot (k :: ks) h) _ :=
        .enqueue hrunning rfl hk (Bool.eq_false_iff.2 hempty) name
      refine ⟨.head hmove ?_, hP, hU'⟩
      simp only [snapshot, hlist, List.append_assoc] at hmoves
      exact hmoves

variable [LawfulStore P]

/-- The inferences with a given clause are made and their conclusions taken in. -/
theorem moves_infer (policy : Policy) {selected : Entry} (hrunning : s.status = .running)
    (hP : Valid s.processed) (hU : Valid s.unprocessed)
    (hlt : ∀ e ∈ ClauseStore.toList s.unprocessed, e.number < s.archive.size)
    (hnew : ∀ d ∈ ClauseStore.toList s.processed, d.number ≠ selected.number) {calls : List Call}
    {fresh : FreshVars}
    (hcalls : inferenceCalls selected s.processed s.names.vars = (calls, fresh)) :
    Moves policy
        ⟨ClauseStore.toList s.processed ++ [selected], ClauseStore.toList s.unprocessed,
          s.archive, fresh, s.status, s.result, calls, h⟩
        ((s.infer policy selected).snapshot []
          ⟨h.calls, h.origins ++ (policy.entered calls).map .inference⟩) ∧
      Valid (s.infer policy selected).processed ∧ Valid (s.infer policy selected).unprocessed := by
  obtain ⟨hconcludes, hvars⟩ := concludes_inferenceCalls selected s.processed s.names
  obtain ⟨hinsert, hlist⟩ := insert_spec hP hnew
  rw [hcalls] at hconcludes hvars
  have hactivate : (s.activate selected).snapshot calls h =
      ⟨ClauseStore.toList s.processed ++ [selected], ClauseStore.toList s.unprocessed,
        s.archive, fresh, s.status, s.result, calls, h⟩ := by
    have hvars' : (s.activate selected).names.vars = fresh := hvars
    rw [← hlist, ← hvars']
    rfl
  rw [infer_eq, ← hactivate]
  obtain ⟨hmoves, hprocessed, hunprocessed⟩ :=
    moves_absorb (s := s.activate selected) hconcludes hrunning hU hlt
  exact ⟨hmoves, hprocessed ▸ hinsert, hunprocessed⟩

/-! ### Steps -/

/-- The stores are valid, and all else fits together. -/
structure Consistent (s : State P U) (h : History) : Prop where
  /-- The store of the processed clauses is valid. -/
  processed : Valid s.processed
  /-- The store of the unprocessed clauses is valid. -/
  unprocessed : Valid s.unprocessed
  /-- The snapshot is consistent. -/
  snapshot : (s.snapshot [] h).Consistent

/-- The given clause becomes a processed one, and the conclusions with it are taken in. -/
theorem moves_activate (hs : s.Consistent h) (hidle : (s.snapshot [] h).Idle) {given : Entry}
    (hgiven : given ∈ ClauseStore.toList s.unprocessed) (hempty : given.clause.isEmpty = false)
    {processed : P} {unprocessed : U} {counters : Statistics} (hP : Valid processed)
    (hU : Valid unprocessed)
    (hthins : Thins given (ClauseStore.toList processed) (ClauseStore.toList s.processed))
    (hlist : ClauseStore.toList unprocessed =
      without given.number (ClauseStore.toList s.unprocessed))
    {selected : Entry} {s' : State P U}
    (hselect : State.select policy { s with
      processed := processed, unprocessed := unprocessed, statistics := counters } given =
        (selected, s')) {calls : List Call}
    (hcalls : (inferenceCalls selected s'.processed s'.names.vars).1 = calls) :
    Moves policy (s.snapshot [] h) ((s'.infer policy selected).snapshot []
        ⟨h.calls ++ calls, h.origins ++ (policy.selection.toList.map fun _ => .copy given.number) ++
          (policy.entered calls).map .inference⟩) ∧
      Valid (s'.infer policy selected).processed ∧
        Valid (s'.infer policy selected).unprocessed := by
  obtain ⟨selected', A, hselect', hselectv⟩ := select_spec policy { s with
    processed := processed, unprocessed := unprocessed,
    statistics := counters } (s.snapshot [] h) rfl
    given
  obtain ⟨rfl, rfl⟩ := Prod.mk.inj (hselect.symm.trans hselect')
  have hmove : Move policy (s.snapshot [] h) _ := .activate hidle hgiven hempty hthins
  -- that all numbers are different is read off the snapshot after the move
  have hconsistent := hs.snapshot.move hmove
  rw [hselectv] at hmove hconsistent
  have hmembers : ∀ e ∈ without given.number (ClauseStore.toList s.unprocessed),
      e.number < A.size :=
    fun e he => hconsistent.lt_size (List.mem_append_right _ he)
  have hnodup : ((ClauseStore.toList processed ++ [selected]).map (·.number)).Nodup :=
    hconsistent.nodup.sublist ((List.sublist_append_left _ _).map _)
  have hnew : ∀ d ∈ ClauseStore.toList processed, d.number ≠ selected.number := by
    rw [List.map_append, List.nodup_append] at hnodup
    exact fun d hd => hnodup.2.2 _ (List.mem_map_of_mem hd) _ (by simp)
  obtain ⟨hmoves, hP', hU'⟩ := moves_infer policy
    (s := { s with
      processed := processed, unprocessed := unprocessed, statistics := counters, archive := A })
    (h := ⟨h.calls ++ calls,
      h.origins ++ policy.selection.toList.map fun _ => .copy given.number⟩)
    hidle.1 hP hU (hlist ▸ hmembers) hnew (Prod.ext hcalls rfl)
  refine ⟨.head hmove ?_, hP', hU'⟩
  simp only [Snapshot.activate, snapshot, ← inferenceCalls_eq hP, ← hlist, hcalls]
  exact hmoves

/-- **Every step consists of moves.** -/
theorem moves_step (hs : s.Consistent h) (elapsed : Duration) :
    Moves policy (s.snapshot [] h)
      ((s.step policy elapsed).snapshot [] (h.after policy elapsed s)) ∧
      Valid (s.step policy elapsed).processed ∧ Valid (s.step policy elapsed).unprocessed := by
  have hP := hs.processed
  have hU := hs.unprocessed
  -- the step and the history branch upon the same conditions
  simp only [step_eq, History.after, inferring?, Bool.or_eq_true]
  by_cases hterminal : s.status.isTerminal = true
  · rw [if_pos hterminal, if_pos (.inl hterminal)]
    exact ⟨.refl, hP, hU⟩
  have hrunning : s.status = .running := by simpa [Status.isTerminal] using hterminal
  have hidle : (s.snapshot [] h).Idle := ⟨hrunning, rfl⟩
  rw [if_neg hterminal]
  by_cases hexhausted : policy.isExhausted s.statistics.iterations elapsed = true
  · rw [if_pos hexhausted, if_pos (.inr hexhausted)]
    exact ⟨.single (.giveUp hidle), hP, hU⟩
  rw [if_neg hexhausted, if_neg (not_or.2 ⟨hterminal, hexhausted⟩)]
  cases hnext : ClauseQueue.next? s.unprocessed with
  | none => exact ⟨.single (.saturate hidle (LawfulQueue.next_none hU hnext)), hP, hU⟩
  | some p =>
    obtain ⟨given, unprocessed⟩ := p
    obtain ⟨hU', hgiven, hlist⟩ := LawfulQueue.next_some hU hnext
    have hrest : without given.number (s.snapshot [] h).unprocessed =
        ClauseStore.toList unprocessed :=
      hlist.symm
    dsimp only
    by_cases hempty : given.clause.isEmpty = true
    · rw [if_pos hempty, if_pos (.inl hempty)]
      have hmove : Move policy (s.snapshot [] h) _ := .finish hidle hgiven hempty
      rw [hrest] at hmove
      exact ⟨.single hmove, hP, hU'⟩
    rw [if_neg hempty, process]
    by_cases htautology : (policy.deleteTautologies && given.clause.isTautology) = true
    · rw [if_pos htautology, if_pos (.inr htautology)]
      obtain ⟨hflag, htautology⟩ := Bool.and_eq_true_iff.1 htautology
      have hmove : Move policy (s.snapshot [] h) _ :=
        .discardTautology hidle hgiven hflag htautology
      rw [hrest] at hmove
      exact ⟨.single hmove, hP, hU'⟩
    rw [if_neg htautology, if_neg (not_or.2 ⟨hempty, htautology⟩)]
    obtain ⟨processed, n, hP', hthins, hbackward⟩ := subsumeBackward_spec policy
      (s := s.take unprocessed) hP given
    rw [hbackward]
    by_cases hforward : (policy.forwardSubsumption && isSubsumedBy given.clause processed) = true
    · rw [if_pos hforward, if_pos hforward]
      obtain ⟨m, hm, hsubsumes⟩ := isSubsumedBy_spec hP' (Bool.and_eq_true_iff.1 hforward).2
      have hmove : Move policy (s.snapshot [] h) _ :=
        .discardSubsumed hidle hgiven hthins hm hsubsumes
      rw [hrest] at hmove
      exact ⟨.single hmove, hP', hU'⟩
    · rw [if_neg hforward, if_neg hforward]
      exact moves_activate hs hidle hgiven (Bool.eq_false_iff.2 hempty) hP' hU' hthins hlist rfl rfl

end State

variable {P U : Type} [ClauseStore P] [ClauseQueue U] [LawfulStore P] [LawfulQueue U]
  {policy : Policy} {s : State P U} {h : History}

/-- **Every run consists of moves**, and its states are consistent. -/
theorem Run.moves {s₀ : State P U} {h₀ : History} (hs₀ : s₀.Consistent h₀)
    (run : Run policy s₀ h₀ s h) :
    Moves policy (s₀.snapshot [] h₀) (s.snapshot [] h) ∧ s.Consistent h := by
  induction run with
  | start => exact ⟨.refl, hs₀⟩
  | step _ elapsed ih =>
    obtain ⟨hmoves, hs⟩ := ih
    obtain ⟨hstep, hP, hU⟩ := State.moves_step hs elapsed
    exact ⟨hmoves.trans hstep, hP, hU, hs.snapshot.moves hstep⟩
  | @giveUp s h _ hrunning ih =>
    obtain ⟨hmoves, hs⟩ := ih
    have hmove : Move policy (s.snapshot [] h) _ := .giveUp ⟨hrunning, rfl⟩
    exact ⟨hmoves.tail hmove, hs.processed, hs.unprocessed, hs.snapshot.move hmove⟩

/-! ### The start -/

theorem eq_of_signature {α : Type} {a b : α} {S : List Clause}
    (h : (Signature.ofClauses S).map (fun _ => a) = .ok b) : b = a := by
  cases hsignature : Signature.ofClauses S with
  | error e => simp [hsignature, Except.map] at h
  | ok signature =>
    rw [hsignature] at h
    exact (Except.ok.inj h).symm

/-- The clauses are entered in order and added to the unprocessed ones. -/
theorem start_spec {processed : P} {unprocessed : U} (hP : Valid processed) (hU : Valid unprocessed)
    (hprocessed : ClauseStore.toList processed = [])
    (hunprocessed : ClauseStore.toList unprocessed = []) {S : List Clause}
    (hs : s = State.start processed unprocessed S) :
    s.snapshot [] (.start s) = .start S ∧ s.Consistent (.start s) := by
  have hrecord : Archive.empty.recordAll S = (S.zipIdx.map fun p => ⟨p.2, p.1⟩, ⟨S.toArray⟩) := by
    simp [Archive.recordAll_eq, Archive.empty, Archive.size]
  have hconsistent := Snapshot.consistent_start S
  obtain ⟨hvalid, hlist⟩ := foldl_insert_spec hU hconsistent.nodup (by simp [hunprocessed])
  rw [hunprocessed, List.nil_append] at hlist
  rw [State.start, hrecord] at hs
  have hunprocessed' : ClauseStore.toList s.unprocessed = (Snapshot.start S).unprocessed := by
    rw [hs]
    exact hlist
  have hsnapshot : s.snapshot [] (.start s) = .start S := by
    rw [State.snapshot, hunprocessed', hs]
    simp [Snapshot.start, History.start, hprocessed, Archive.size, Names.initial]
  exact ⟨hsnapshot, hs ▸ hP, hs ▸ hvalid, hsnapshot ▸ hconsistent⟩

theorem startFull_spec {params : Params} {S : List Clause} {s : FullState}
    (hs : startFull params S = .ok s) :
    s.snapshot [] (.start s) = .start S ∧ s.Consistent (.start s) := by
  have hvalid := RankedStore.valid_empty_heuristic params.heuristic
  exact start_spec IndexedStore.valid_empty hvalid rfl rfl (eq_of_signature hs)

theorem startPlain_spec {S : List Clause} {s : PlainState} (hs : startPlain S = .ok s) :
    s.snapshot [] (.start s) = .start S ∧ s.Consistent (.start s) :=
  start_spec PlainStore.valid_empty PlainStore.valid_empty rfl rfl (eq_of_signature hs)

end Search

end Refutation
