import Refutation.Proofs.Search.Refinement

/-!
# The names of conclusions

The names of derived clauses are drawn from a counter, one for each conclusion in the order in which
the inferences are made.  Some are never seen, because the conclusion is a tautology or comes after
the empty clause.

* `ClauseNames.Draws` : the conclusions with a given clause are named with the next names.
* `Search.Policy.taken` : the conclusions that are entered into the archive.
* `Search.State.exists_entered_of_inferring?` : what a step enters into the archive.
* `Search.State.Named` : conclusions have names that were drawn, and no two the same; every step
  keeps this.
-/

namespace Refutation

/-! ### The names of conclusions -/

namespace ClauseNames

theorem clauseName_inj {m n : Nat} : clauseName m = clauseName n ↔ m = n :=
  (String.append_right_inj _).trans toString_inj

/-- The clauses are named with the next names of the source, in order, and what the source is
afterwards. -/
structure Draws (names : ClauseNames) (cs : List Clause) (names' : ClauseNames) : Prop where
  /-- The names that the clauses got. -/
  named : cs.map (·.name) = (List.range' (names.drawn + 1) cs.length).map clauseName
  /-- One name was drawn for each clause. -/
  drawn : names'.drawn = names.drawn + cs.length

namespace Draws

variable {names names' names'' : ClauseNames} {c : Clause} {cs cs' : List Clause}

theorem nil (names : ClauseNames) : names.Draws [] names := ⟨rfl, rfl⟩

theorem cons (hc : c.name = names.next.1) (h : names.next.2.Draws cs names') :
    names.Draws (c :: cs) names' where
  named := by
    rw [List.map_cons, List.length_cons, List.range'_succ, List.map_cons, hc, h.named]
    rfl
  drawn := by
    rw [h.drawn, List.length_cons]
    simp only [next]
    omega

theorem append (h : names.Draws cs names') (h' : names'.Draws cs' names'') :
    names.Draws (cs ++ cs') names'' where
  named := by
    rw [List.map_append, h.named, h'.named, h.drawn, ← List.map_append, List.length_append,
      ← List.range'_append_1, Nat.add_right_comm]
  drawn := by
    rw [h'.drawn, h.drawn, List.length_append, Nat.add_assoc]

theorem exists_name (h : names.Draws cs names') {x : String} (hx : x ∈ cs.map (·.name)) :
    ∃ i, names.drawn < i ∧ i ≤ names'.drawn ∧ x = clauseName i := by
  rw [h.named] at hx
  obtain ⟨i, hi, rfl⟩ := List.mem_map.1 hx
  have hdrawn := h.drawn
  rw [List.mem_range'_1] at hi
  exact ⟨i, by omega, by omega, rfl⟩

theorem nodup (h : names.Draws cs names') : (cs.map (·.name)).Nodup := by
  rw [h.named]
  exact (List.nodup_range' (s := names.drawn + 1)).map fun _ _ => clauseName_inj.1

end Draws

end ClauseNames

theorem draws_resolveAll (given : Entry) (ps : List Pairing) (names : Names) :
    names.clauses.Draws (resolveAll given ps names).1 (resolveAll given ps names).2.clauses := by
  induction ps generalizing names with
  | nil => exact .nil _
  | cons p ps ih =>
    let after : Names :=
      { names with vars := (given.resolve p.position p.partner p.partnerPosition names.vars).2 }
    simp only [resolveAll]
    split
    · exact ih after
    · next c _ => exact (ih (after.christen c).2).cons rfl

theorem draws_factorAll (c : Entry) (ps : List (Nat × Nat)) (names : Names) :
    names.clauses.Draws (factorAll c ps names).1 (factorAll c ps names).2.clauses := by
  induction ps generalizing names with
  | nil => exact .nil _
  | cons p ps ih =>
    simp only [factorAll]
    split
    · exact ih names
    · next d _ => exact (ih (names.christen d).2).cons rfl

/-- **The conclusions with a given clause are named with the next names.** -/
theorem draws_conclusions {σ : Type} [ClauseStore σ] (given : Entry) (store : σ) (names : Names) :
    names.clauses.Draws
      ((resolvents given store names).1 ++ (factors given (resolvents given store names).2).1)
      (factors given (resolvents given store names).2).2.clauses :=
  (draws_resolveAll given _ names).append (draws_factorAll given _ _)

namespace Search

/-! ### What a step enters into the archive -/

theorem Policy.name_tidy (policy : Policy) (c : Clause) : (policy.tidy c).name = c.name := by
  unfold tidy
  split <;> rfl

/-- The clauses that are entered when conclusions are taken in: tautologies are passed over, and the
first empty clause ends the search. -/
def Policy.taken (policy : Policy) : List Clause → List Clause
  | [] => []
  | c :: cs =>
    if c.isEmpty then [c]
    else if policy.deleteTautologies && (policy.tidy c).isTautology then policy.taken cs
    else policy.tidy c :: policy.taken cs

theorem Policy.names_taken_sublist (policy : Policy) (cs : List Clause) :
    ((policy.taken cs).map (·.name)).Sublist (cs.map (·.name)) := by
  fun_induction Policy.taken policy cs with
  | case1 => exact .refl _
  | case2 c cs => exact (List.nil_sublist _).cons_cons _
  | case3 c cs _ _ ih => exact ih.cons _
  | case4 c cs _ _ ih =>
    rw [List.map_cons, policy.name_tidy]
    exact ih.cons_cons _

namespace State

theorem absorb_archive {P U : Type} [ClauseQueue U] (policy : Policy) (cs : List Clause)
    (s : State P U) :
    (absorb policy cs s).archive = ⟨s.archive.clauses ++ (policy.taken cs).toArray⟩ ∧
      (absorb policy cs s).names = s.names := by
  induction cs generalizing s with
  | nil => simp [absorb, Policy.taken]
  | cons c cs ih =>
    have htidy : (if policy.dropRepeated then c.dedup else c) = policy.tidy c := rfl
    simp only [absorb, Policy.taken, htidy]
    split_ifs
    · exact ⟨by simp [succeed, Archive.record], rfl⟩
    · exact ih s.dropTautology
    · obtain ⟨harchive, hnames⟩ := ih (s.enqueue (policy.tidy c))
      exact ⟨harchive.trans (by simp [enqueue, Archive.record]), hnames⟩

theorem archive_subsumeBackward {P U : Type} [ClauseStore P] (policy : Policy) (s : State P U)
    (given : Entry) : (s.subsumeBackward policy given).archive = s.archive ∧
      (s.subsumeBackward policy given).names = s.names := by
  unfold subsumeBackward
  split <;> exact ⟨rfl, rfl⟩

variable {P U : Type} [ClauseStore P] [ClauseQueue U] {policy : Policy} {s s' : State P U}
  {elapsed : Duration} {given : Entry} {h : History}

theorem archive_step_of_inferring?_eq_none (h : s.inferring? policy elapsed = none) :
    (s.step policy elapsed).archive = s.archive ∧ (s.step policy elapsed).names = s.names := by
  simp only [inferring?, Bool.or_eq_true] at h
  rw [step_eq]
  split_ifs at h with hover
  · rcases hover with hover | hover
    · simp [hover]
    · rw [if_pos hover]
      split <;> exact ⟨rfl, rfl⟩
  · obtain ⟨hterminal, hexhausted⟩ := not_or.1 hover
    rw [if_neg hterminal, if_neg hexhausted]
    split at h
    · exact ⟨rfl, rfl⟩
    · next given unprocessed _ =>
      by_cases hempty : given.clause.isEmpty = true
      · rw [if_pos hempty]
        exact ⟨rfl, rfl⟩
      rw [if_neg hempty, process]
      by_cases htautology : (policy.deleteTautologies && given.clause.isTautology) = true
      · rw [if_pos htautology]
        exact ⟨rfl, rfl⟩
      rw [if_neg htautology]
      rw [if_neg (not_or.2 ⟨hempty, htautology⟩)] at h
      split_ifs at h with hsubsumed
      rw [if_pos hsubsumed]
      exact archive_subsumeBackward policy (s.take unprocessed) given

theorem exists_next_of_inferring? (h : s.inferring? policy elapsed = some (given, s')) :
    ∃ unprocessed, ClauseQueue.next? s.unprocessed = some (given, unprocessed) ∧
      s' = (s.take unprocessed).subsumeBackward policy given := by
  simp only [inferring?] at h
  split_ifs at h
  split at h
  · cases h
  · next given' unprocessed hnext =>
    split_ifs at h
    simp only [Option.some.injEq, Prod.mk.injEq] at h
    obtain ⟨rfl, rfl⟩ := h
    exact ⟨unprocessed, hnext, rfl⟩

theorem archive_select {P U : Type} (policy : Policy) (s : State P U) (given : Entry) :
    (s.select policy given).2.archive =
        ⟨s.archive.clauses ++ (policy.selection.toList.map given.clause.select).toArray⟩ ∧
      (s.select policy given).2.names = s.names := by
  unfold select
  cases policy.selection with
  | none => simp
  | some selection => simp [Archive.record]

theorem exists_entered_infer (policy : Policy) (s : State P U) (given : Entry) :
    ∃ cs, s.names.clauses.Draws cs (s.infer policy given).names.clauses ∧
      (s.infer policy given).archive = ⟨s.archive.clauses ++ (policy.taken cs).toArray⟩ := by
  rw [infer_eq]
  obtain ⟨harchive, hnames⟩ := absorb_archive policy ((resolvents given s.processed s.names).1 ++
    (factors given (resolvents given s.processed s.names).2).1) (s.activate given)
  rw [harchive, hnames]
  exact ⟨_, draws_conclusions given s.processed s.names, rfl⟩

/-- **What a step with inferences enters**: a copy of the given clause if literals are selected, and
conclusions with the next names. -/
theorem exists_entered_of_inferring? (h : s.inferring? policy elapsed = some (given, s')) :
    ∃ cs, s.names.clauses.Draws cs (s.step policy elapsed).names.clauses ∧
      (s.step policy elapsed).archive = ⟨s.archive.clauses ++
        (policy.selection.toList.map given.clause.select).toArray ++
          (policy.taken cs).toArray⟩ := by
  obtain ⟨unprocessed, -, rfl⟩ := exists_next_of_inferring? h
  obtain ⟨harchive, hnames⟩ := archive_subsumeBackward policy (s.take unprocessed) given
  obtain ⟨harchive', hnames'⟩ :=
    archive_select policy ((s.take unprocessed).subsumeBackward policy given) given
  obtain ⟨cs, hdraws, hentered⟩ := exists_entered_infer policy
    (((s.take unprocessed).subsumeBackward policy given).select policy given).2
    (((s.take unprocessed).subsumeBackward policy given).select policy given).1
  rw [hnames', hnames] at hdraws
  rw [harchive', harchive] at hentered
  rw [step_of_inferring? h]
  exact ⟨cs, hdraws, hentered⟩

end State

/-! ### Different conclusions have different names -/

/-- The clause is the conclusion of an inference. -/
def Origin.isInference : Origin → Bool
  | inference _ => true
  | _ => false

namespace State

/-- The clauses of the archive with their origins. -/
def log {P U : Type} (s : State P U) (h : History) : List (Origin × Clause) :=
  h.origins.zip s.archive.clauses.toList

theorem getElem?_log {P U : Type} {s : State P U} {h : History} {n : Nat} {o : Origin} {c : Clause}
    (ho : h.origins[n]? = some o) (hc : s.archive.get? n = some c) : (s.log h)[n]? = some (o, c) :=
  List.getElem?_zip_eq_some.2 ⟨ho, by simpa [Archive.get?] using hc⟩

/-- Conclusions are named with names that have been drawn, and no two with the same one. -/
structure Named {P U : Type} (s : State P U) (h : History) : Prop where
  /-- The name of a conclusion has been drawn. -/
  drawn : ∀ e ∈ s.log h, e.1.isInference = true →
    ∃ i, i ≤ s.names.clauses.drawn ∧ e.2.name = ClauseNames.clauseName i
  /-- Different conclusions have different names. -/
  distinct : (s.log h).Pairwise fun e e' =>
    e.1.isInference = true → e'.1.isInference = true → e.2.name ≠ e'.2.name

namespace Named

variable {P U : Type} {s s' : State P U} {h h' : History}

/-- **Conclusions with the next names can be entered**, after clauses that are no conclusions. -/
theorem append (hs : s.Named h) {copies new : List (Origin × Clause)} {cs : List Clause}
    (hlog : s'.log h' = s.log h ++ copies ++ new) (hcopies : ∀ e ∈ copies, e.1.isInference = false)
    (hdraws : s.names.clauses.Draws cs s'.names.clauses)
    (hnew : (new.map (·.2.name)).Sublist (cs.map (·.name))) : s'.Named h' := by
  have hle : s.names.clauses.drawn ≤ s'.names.clauses.drawn :=
    hdraws.drawn ▸ Nat.le_add_right _ _
  have hname : ∀ e ∈ new, ∃ i, s.names.clauses.drawn < i ∧ i ≤ s'.names.clauses.drawn ∧
      e.2.name = ClauseNames.clauseName i := fun e he =>
    hdraws.exists_name (hnew.subset (List.mem_map_of_mem he))
  have hnodup : new.Pairwise fun e e' => e.2.name ≠ e'.2.name :=
    List.pairwise_map.1 (hdraws.nodup.sublist hnew)
  constructor
  · intro e he hinference
    rw [hlog, List.mem_append, List.mem_append] at he
    rcases he with (he | he) | he
    · obtain ⟨i, hi, heq⟩ := hs.drawn e he hinference
      exact ⟨i, Nat.le_trans hi hle, heq⟩
    · exact absurd hinference (by simp [hcopies e he])
    · obtain ⟨i, -, hi, heq⟩ := hname e he
      exact ⟨i, hi, heq⟩
  · rw [hlog, List.pairwise_append, List.pairwise_append]
    refine ⟨⟨hs.distinct, ?_, ?_⟩, hnodup.imp fun hne _ _ => hne, ?_⟩
    · exact List.pairwise_of_forall_mem_list fun e he _ _ hinference =>
        absurd hinference (by simp [hcopies e he])
    · exact fun _ _ e he _ hinference => absurd hinference (by simp [hcopies e he])
    · intro e he e' he' hinference _ heq
      rcases List.mem_append.1 he with he | he
      · -- an old name and a new one
        obtain ⟨i, hi, hei⟩ := hs.drawn e he hinference
        obtain ⟨j, hj, -, hej⟩ := hname e' he'
        obtain rfl : i = j := ClauseNames.clauseName_inj.1 (hei.symm.trans (heq.trans hej))
        exact absurd hi (Nat.not_le_of_lt hj)
      · exact absurd hinference (by simp [hcopies e he])

/-- **Every step keeps the names of conclusions different.** -/
theorem step [ClauseStore P] [ClauseQueue U] {policy : Policy} {elapsed : Duration} (hs : s.Named h)
    (horigins : h.origins.length = s.archive.size)
    (horigins' : (h.after policy elapsed s).origins.length = (s.step policy elapsed).archive.size) :
    (s.step policy elapsed).Named (h.after policy elapsed s) := by
  cases hinferring : s.inferring? policy elapsed with
  | none =>
    obtain ⟨harchive, hnames⟩ := archive_step_of_inferring?_eq_none hinferring
    have hafter : h.after policy elapsed s = h := by rw [History.after, hinferring]
    rw [hafter]
    exact ⟨by simpa only [log, harchive, hnames] using hs.drawn,
      by simpa only [log, harchive] using hs.distinct⟩
  | some p =>
    obtain ⟨given, t⟩ := p
    obtain ⟨cs, hdraws, harchive⟩ := exists_entered_of_inferring? hinferring
    have hafter : ∃ ks : List Call, (h.after policy elapsed s).origins = h.origins ++
        (policy.selection.toList.map fun _ => .copy given.number) ++ ks.map .inference := by
      rw [History.after, hinferring]
      exact ⟨_, rfl⟩
    obtain ⟨ks, hafter⟩ := hafter
    have hlog : (s.step policy elapsed).log (h.after policy elapsed s) = s.log h ++
        (policy.selection.toList.map fun _ => .copy given.number).zip
          (policy.selection.toList.map given.clause.select) ++
        (ks.map Origin.inference).zip (policy.taken cs) := by
      rw [log, hafter, harchive]
      simp only [Array.toList_append]
      rw [List.zip_append (by simp [horigins, Archive.size]), List.zip_append horigins]
      rfl
    refine hs.append hlog (fun e he => ?_) hdraws ?_
    · obtain ⟨_, -, heq⟩ := List.mem_map.1 (List.of_mem_zip (a := e.1) (b := e.2) he).1
      rw [← heq]
      rfl
    · have hlength : (policy.taken cs).length ≤ (ks.map Origin.inference).length := by
        simp only [hafter, harchive, Archive.size, Array.size_append, List.length_append,
          List.length_map, List.size_toArray] at horigins horigins' ⊢
        omega
      have hsnd := congrArg (List.map (·.name)) (List.map_snd_zip hlength)
      rw [List.map_map] at hsnd
      exact hsnd ▸ policy.names_taken_sublist cs

end Named

end State

theorem State.named_start {P U : Type} (s : State P U) : s.Named (.start s) := by
  have hinput : ∀ e ∈ s.log (.start s), e.1.isInference = false := fun e he => by
    rw [List.eq_of_mem_replicate (List.of_mem_zip (a := e.1) (b := e.2) he).1]
    rfl
  exact ⟨fun e he h => absurd h (by simp [hinput e he]),
    List.pairwise_of_forall_mem_list fun e he _ _ h => absurd h (by simp [hinput e he])⟩

/-- **Different conclusions of a run have different names.** -/
theorem Run.named {P U : Type} [ClauseStore P] [ClauseQueue U] [LawfulStore P] [LawfulQueue U]
    {policy : Policy} {s₀ s : State P U} {h₀ h : History} (hs₀ : s₀.Consistent h₀)
    (hnamed : s₀.Named h₀) (run : Run policy s₀ h₀ s h) : s.Named h := by
  induction run with
  | start => exact hnamed
  | step run elapsed ih =>
    exact ih.step (run.moves hs₀).2.snapshot.origins
      ((run.step elapsed).moves hs₀).2.snapshot.origins
  | giveUp _ _ ih => exact ⟨ih.drawn, ih.distinct⟩

end Search

end Refutation
