import Refutation.Proofs.Search.History
import Refutation.Proofs.Store.Lawful
import Mathlib.Logic.Relation

/-!
# What a search can do

A step of a search is a sequence of moves on snapshots.  A snapshot shows the members of the stores,
not how they are stored, and the calls of the rules whose conclusions have not been taken in yet; a
move takes in one conclusion, or deals with one given clause.  A property of all searches is proved
by showing that every move keeps it.

* `Search.Move` : all that a search can do.
* `Search.Snapshot.Consistent` : numbers, archive, history and status fit together; every move keeps
  this.
* `Search.Moves.invariant` : a property that every move keeps, between consistent snapshots, is
  kept.
-/

namespace Refutation

theorem Archive.get?_record {A : Archive} {n : Nat} {c d : Clause} (h : A.get? n = some c) :
    (A.record d).2.get? n = some c := by
  have hn : n < A.size := (Array.getElem?_eq_some_iff.1 h).1
  rw [Archive.get?_record_of_lt d hn, h]

theorem Archive.lt_size {A : Archive} {n : Nat} {c : Clause} (h : A.get? n = some c) : n < A.size :=
  (Array.getElem?_eq_some_iff.1 h).1

namespace Search

/-! ### Snapshots and moves -/

/-- The stage that a search has reached, apart from how clauses are stored. -/
structure Snapshot where
  /-- The processed clauses, oldest first. -/
  processed : List Entry
  /-- The unprocessed clauses, oldest first. -/
  unprocessed : List Entry
  /-- All clauses entered so far. -/
  archive : Archive
  /-- The variables drawn so far. -/
  fresh : FreshVars
  /-- Where the search stands. -/
  status : Status
  /-- The empty clause, once it is found. -/
  result : Option Entry
  /-- The calls whose conclusions have not been taken in yet. -/
  pending : List Call
  /-- What has been done. -/
  history : History

/-- What is left of the processed clauses when some that the given clause subsumes are removed. -/
structure Thins (given : Entry) (rest processed : List Entry) : Prop where
  /-- Nothing is added or moved. -/
  sublist : rest.Sublist processed
  /-- What is removed is subsumed. -/
  cover : ∀ e ∈ processed, e ∈ rest ∨ given.clause.subsumes e.clause = true

theorem Thins.refl (given : Entry) (es : List Entry) : Thins given es es :=
  ⟨.refl es, fun _ => .inl⟩

namespace Snapshot

variable (v : Snapshot)

/-- The search is not over, and all conclusions have been taken in. -/
def Idle : Prop := v.status = .running ∧ v.pending = []

/-- Enter a clause into the archive. -/
def enter (c : Clause) (o : Origin) : Snapshot :=
  { v with archive := (v.archive.record c).2, history.origins := v.history.origins ++ [o] }

/-- Enter a clause into the archive and add it to the unprocessed ones. -/
def enqueue (c : Clause) (o : Origin) : Snapshot :=
  { v.enter c o with unprocessed := v.unprocessed ++ [⟨v.archive.size, c⟩] }

/-- Select literals of the given clause, in a copy of it. -/
def select (policy : Policy) (given : Entry) : Entry × Snapshot :=
  match policy.selection with
  | some selection =>
    (⟨v.archive.size, given.clause.select selection⟩,
      v.enter (given.clause.select selection) (.copy given.number))
  | none => (given, v)

section

variable (policy : Policy) (given : Entry)

@[simp] theorem processed_select : (v.select policy given).2.processed = v.processed := by
  unfold select
  split <;> rfl

@[simp] theorem unprocessed_select : (v.select policy given).2.unprocessed = v.unprocessed := by
  unfold select
  split <;> rfl

@[simp] theorem fresh_select : (v.select policy given).2.fresh = v.fresh := by
  unfold select
  split <;> rfl

@[simp] theorem status_select : (v.select policy given).2.status = v.status := by
  unfold select
  split <;> rfl

@[simp] theorem pending_select : (v.select policy given).2.pending = v.pending := by
  unfold select
  split <;> rfl

@[simp] theorem calls_select : (v.select policy given).2.history.calls = v.history.calls := by
  unfold select
  split <;> rfl

end

/-- Move the given clause, with its literals selected, to what is left of the processed ones, and
call the rules. -/
def activate (given selected : Entry) (rest : List Entry) : Snapshot :=
  { v with
    processed := rest ++ [selected]
    unprocessed := without given.number v.unprocessed
    fresh := (inferenceCalls selected (PlainStore.mk rest) v.fresh).2
    pending := (inferenceCalls selected (PlainStore.mk rest) v.fresh).1
    history.calls := v.history.calls ++ (inferenceCalls selected (PlainStore.mk rest) v.fresh).1 }

end Snapshot

/-- What a search can do. -/
inductive Move (policy : Policy) : Snapshot → Snapshot → Prop
  /-- Give up. -/
  | giveUp {v} (hidle : v.Idle) : Move policy v { v with status := .gaveUp }
  /-- Nothing is left to process. -/
  | saturate {v} (hidle : v.Idle) (hnone : v.unprocessed = []) :
    Move policy v { v with status := .saturated }
  /-- The given clause is empty. -/
  | finish {v given} (hidle : v.Idle) (hgiven : given ∈ v.unprocessed)
    (hempty : given.clause.isEmpty = true) :
    Move policy v { v with
      unprocessed := without given.number v.unprocessed, status := .proofFound,
      result := some given }
  /-- The given clause is dropped as a tautology. -/
  | discardTautology {v given} (hidle : v.Idle) (hgiven : given ∈ v.unprocessed)
    (hpolicy : policy.deleteTautologies = true) (htautology : given.clause.isTautology = true) :
    Move policy v { v with unprocessed := without given.number v.unprocessed }
  /-- The given clause is dropped because one of the processed clauses that it leaves subsumes
  it. -/
  | discardSubsumed {v given rest m} (hidle : v.Idle) (hgiven : given ∈ v.unprocessed)
    (hthins : Thins given rest v.processed) (hm : m ∈ rest)
    (hsubsumes : m.clause.subsumes given.clause = true) :
    Move policy v { v with unprocessed := without given.number v.unprocessed, processed := rest }
  /-- The given clause becomes a processed one. -/
  | activate {v given rest} (hidle : v.Idle) (hgiven : given ∈ v.unprocessed)
    (hempty : given.clause.isEmpty = false) (hthins : Thins given rest v.processed) :
    Move policy v ((v.select policy given).2.activate given (v.select policy given).1 rest)
  /-- A call has failed. -/
  | skip {v k ks} (hrunning : v.status = .running) (hpending : v.pending = k :: ks)
    (hk : k.result? = none) : Move policy v { v with pending := ks }
  /-- A conclusion is dropped as a tautology. -/
  | dropTautology {v k ks r} (hrunning : v.status = .running) (hpending : v.pending = k :: ks)
    (hk : k.result? = some r) (hpolicy : policy.deleteTautologies = true)
    (htautology : (policy.tidy r).isTautology = true) : Move policy v { v with pending := ks }
  /-- A conclusion is added to the unprocessed clauses. -/
  | enqueue {v k ks r} (hrunning : v.status = .running) (hpending : v.pending = k :: ks)
    (hk : k.result? = some r) (hempty : r.isEmpty = false) (name : String) :
    Move policy v { v.enqueue ((policy.tidy r).named name) (.inference k) with pending := ks }
  /-- A conclusion is empty. -/
  | conclude {v k ks r} (hrunning : v.status = .running) (hpending : v.pending = k :: ks)
    (hk : k.result? = some r) (hempty : r.isEmpty = true) (name : String) :
    Move policy v { v.enter (r.named name) (.inference k) with
      pending := []
      status := .proofFound
      result := some ⟨v.archive.size, r.named name⟩ }

/-- Any number of moves. -/
abbrev Moves (policy : Policy) : Snapshot → Snapshot → Prop := Relation.ReflTransGen (Move policy)

/-! ### Consistent snapshots -/

/-- Numbers, archive, history and status fit together. -/
structure Snapshot.Consistent (v : Snapshot) : Prop where
  /-- Different clauses have different numbers. -/
  nodup : ((v.processed ++ v.unprocessed).map (·.number)).Nodup
  /-- A processed or unprocessed clause is the one entered under its number. -/
  archived : ∀ e ∈ v.processed ++ v.unprocessed, v.archive.get? e.number = some e.clause
  /-- So is the empty clause that was found. -/
  result : ∀ e, v.result = some e → v.archive.get? e.number = some e.clause
  /-- So are the premises of all calls. -/
  premises : ∀ k ∈ v.history.calls, ∀ e ∈ k.premises, v.archive.get? e.number = some e.clause
  /-- Every clause entered has an origin. -/
  origins : v.history.origins.length = v.archive.size
  /-- What is pending was called. -/
  pending : ∀ k ∈ v.pending, k ∈ v.history.calls
  /-- While the search runs no empty clause has been found. -/
  running : v.status = .running → v.result = none
  /-- After a proof there is an empty clause. -/
  proofFound : v.status = .proofFound → ∃ e, v.result = some e ∧ e.clause.isEmpty = true
  /-- After saturation nothing is left to do, and there is no proof. -/
  saturated : v.status = .saturated → v.unprocessed = [] ∧ v.pending = [] ∧ v.result = none

/-- The premises of a call are the given clause and members of the store. -/
theorem premises_inferenceCalls {given : Entry} {members : List Entry}
    {fresh : FreshVars} {k : Call} (hk : k ∈ (inferenceCalls given (PlainStore.mk members) fresh).1)
    {e : Entry} (he : e ∈ k.premises) : e = given ∨ e ∈ members := by
  rcases List.mem_append.1 hk with hk | hk
  · obtain ⟨p, hp, f, rfl, -⟩ := mem_resolveCalls hk
    obtain ⟨-, -, -, -, hpartner, -⟩ := mem_pairings.1 hp
    simp only [Call.premises, List.mem_cons, List.not_mem_nil, or_false] at he
    rcases he with rfl | rfl
    · exact .inl rfl
    · exact .inr hpartner
  · obtain ⟨p, -, rfl⟩ := List.mem_map.1 hk
    exact .inl (by simpa [Call.premises] using he)

/-- The numbers stay different when the given clause becomes a processed one. -/
theorem nodup_activate {ps us rest : List Entry} {given selected : Entry}
    (hnodup : ((ps ++ us).map (·.number)).Nodup) (hgiven : given ∈ us) (hrest : rest.Sublist ps)
    (hselected : selected.number = given.number ∨ ∀ e ∈ ps ++ us, e.number ≠ selected.number) :
    ((rest ++ [selected] ++ without given.number us).map (·.number)).Nodup := by
  have hsub : (rest ++ without given.number us).Sublist (ps ++ us) :=
    hrest.append (without_sublist _ _)
  have hnew : ∀ e ∈ rest ++ without given.number us, e.number ≠ selected.number := by
    intro e he
    rcases hselected with hselected | hselected
    · rw [hselected]
      rcases List.mem_append.1 he with he | he
      · -- a processed clause and the given one have different numbers
        rw [List.map_append, List.nodup_append] at hnodup
        exact hnodup.2.2 _ (List.mem_map_of_mem (hrest.subset he)) _ (List.mem_map_of_mem hgiven)
      · exact (mem_without.1 he).2
    · exact hselected e (hsub.subset he)
  have hperm : (rest ++ [selected] ++ without given.number us).Perm
      (selected :: (rest ++ without given.number us)) := by
    rw [List.append_assoc]
    exact List.perm_middle
  rw [(hperm.map _).nodup_iff, List.map_cons, List.nodup_cons]
  refine ⟨fun hmem => ?_, hnodup.sublist (hsub.map _)⟩
  obtain ⟨e, he, hnumber⟩ := List.mem_map.1 hmem
  exact hnew e he hnumber

namespace Snapshot.Consistent

variable {v w : Snapshot} {policy : Policy}

theorem lt_size (hv : v.Consistent) {e : Entry} (he : e ∈ v.processed ++ v.unprocessed) :
    e.number < v.archive.size :=
  Archive.lt_size (hv.archived e he)

theorem enter (hv : v.Consistent) (c : Clause) (o : Origin) : (v.enter c o).Consistent where
  nodup := hv.nodup
  archived e he := Archive.get?_record (hv.archived e he)
  result e he := Archive.get?_record (hv.result e he)
  premises k hk e he := Archive.get?_record (hv.premises k hk e he)
  origins := by simp [Snapshot.enter, hv.origins]
  pending := hv.pending
  running := hv.running
  proofFound := hv.proofFound
  saturated := hv.saturated

/-- What is selected is in the archive, and has the number of the given clause or a new one. -/
theorem select (hv : v.Consistent) (policy : Policy) {given : Entry}
    (hgiven : given ∈ v.unprocessed) :
    (v.select policy given).2.Consistent ∧
      (v.select policy given).2.archive.get? (v.select policy given).1.number =
        some (v.select policy given).1.clause ∧
      ((v.select policy given).1.number = given.number ∨
        ∀ e ∈ v.processed ++ v.unprocessed, e.number ≠ (v.select policy given).1.number) := by
  unfold Snapshot.select
  cases policy.selection with
  | none => exact ⟨hv, hv.archived given (List.mem_append_right _ hgiven), .inl rfl⟩
  | some selection =>
    refine ⟨hv.enter _ _, Archive.get?_record_self _, .inr fun e he => ?_⟩
    exact Nat.ne_of_lt (hv.lt_size he)

theorem activate (hv : v.Consistent) {given selected : Entry} {rest : List Entry}
    (hrunning : v.status = .running) (hgiven : given ∈ v.unprocessed)
    (hrest : rest.Sublist v.processed)
    (harchived : v.archive.get? selected.number = some selected.clause)
    (hselected : selected.number = given.number ∨
      ∀ e ∈ v.processed ++ v.unprocessed, e.number ≠ selected.number) :
    (v.activate given selected rest).Consistent where
  nodup := nodup_activate hv.nodup hgiven hrest hselected
  archived e he := by
    simp only [Snapshot.activate, List.mem_append, List.mem_singleton] at he
    rcases he with (he | rfl) | he
    · exact hv.archived e (List.mem_append_left _ (hrest.subset he))
    · exact harchived
    · exact hv.archived e (List.mem_append_right _ (mem_without.1 he).1)
  result := hv.result
  premises k hk e he := by
    rcases List.mem_append.1 hk with hk | hk
    · exact hv.premises k hk e he
    · rcases premises_inferenceCalls hk he with rfl | he
      · exact harchived
      · exact hv.archived e (List.mem_append_left _ (hrest.subset he))
  origins := hv.origins
  pending _ hk := List.mem_append_right _ hk
  running := hv.running
  proofFound h := absurd (hrunning.symm.trans h) (by decide)
  saturated h := absurd (hrunning.symm.trans h) (by decide)

theorem discard (hv : v.Consistent) {rest : List Entry} (n : Nat) (hrunning : v.status = .running)
    (hrest : rest.Sublist v.processed) :
    { v with unprocessed := without n v.unprocessed, processed := rest }.Consistent := by
  have hsub : (rest ++ without n v.unprocessed).Sublist (v.processed ++ v.unprocessed) :=
    hrest.append (without_sublist _ _)
  exact {
    nodup := hv.nodup.sublist (hsub.map _)
    archived := fun e he => hv.archived e (hsub.subset he)
    result := hv.result
    premises := hv.premises
    origins := hv.origins
    pending := hv.pending
    running := hv.running
    proofFound := fun h => absurd (hrunning.symm.trans h) (by decide)
    saturated := fun h => absurd (hrunning.symm.trans h) (by decide) }

theorem advance (hv : v.Consistent) {ks : List Call} (hrunning : v.status = .running)
    (hks : ∀ k ∈ ks, k ∈ v.pending) : { v with pending := ks }.Consistent where
  nodup := hv.nodup
  archived := hv.archived
  result := hv.result
  premises := hv.premises
  origins := hv.origins
  pending k hk := hv.pending k (hks k hk)
  running := hv.running
  proofFound h := absurd (hrunning.symm.trans h) (by decide)
  saturated h := absurd (hrunning.symm.trans h) (by decide)

theorem halt (hv : v.Consistent) (status : Status) (hstatus : status ≠ .proofFound)
    (hsaturated : status = .saturated → v.unprocessed = [] ∧ v.pending = [] ∧ v.result = none)
    (hrunning : v.status = .running) : { v with status := status }.Consistent where
  nodup := hv.nodup
  archived := hv.archived
  result := hv.result
  premises := hv.premises
  origins := hv.origins
  pending := hv.pending
  running _ := hv.running hrunning
  proofFound h := absurd h hstatus
  saturated := hsaturated

theorem succeed (hv : v.Consistent) {e : Entry} (hempty : e.clause.isEmpty = true)
    (harchived : v.archive.get? e.number = some e.clause) :
    { v with status := .proofFound, result := some e }.Consistent where
  nodup := hv.nodup
  archived := hv.archived
  result _ he' := Option.some.inj he' ▸ harchived
  premises := hv.premises
  origins := hv.origins
  pending := hv.pending
  running := nofun
  proofFound _ := ⟨e, rfl, hempty⟩
  saturated := nofun

/-- A clause that was just entered is added to the unprocessed ones. -/
theorem enqueue (hv : v.Consistent) (hrunning : v.status = .running) (c : Clause) (o : Origin) :
    (v.enqueue c o).Consistent := by
  have hw := hv.enter c o
  refine { hw with nodup := ?_, archived := fun e he => ?_, proofFound := ?_, saturated := ?_ }
  · change ((v.processed ++ (v.unprocessed ++ [_])).map _).Nodup
    rw [← List.append_assoc]
    exact nodup_map_number_append hv.nodup fun d hd => Nat.ne_of_lt (hv.lt_size hd)
  · simp only [Snapshot.enqueue, Snapshot.enter, ← List.append_assoc] at he
    rcases List.mem_append.1 he with he | he
    · exact hw.archived e he
    · obtain rfl := List.mem_singleton.1 he
      exact Archive.get?_record_self c
  · exact fun h => absurd (hrunning.symm.trans h) (by decide)
  · exact fun h => absurd (hrunning.symm.trans h) (by decide)

/-- **Every move keeps a snapshot consistent.** -/
theorem move (hv : v.Consistent) (h : Move policy v w) : w.Consistent := by
  cases h with
  | giveUp hidle => exact hv.halt _ (by decide) (by simp) hidle.1
  | saturate hidle hnone =>
    exact hv.halt _ (by decide) (fun _ => ⟨hnone, hidle.2, hv.running hidle.1⟩) hidle.1
  | finish hidle hgiven hempty =>
    exact (hv.discard _ hidle.1 (.refl _)).succeed hempty
      (hv.archived _ (List.mem_append_right _ hgiven))
  | discardTautology hidle => exact hv.discard _ hidle.1 (.refl _)
  | discardSubsumed hidle _ hthins => exact hv.discard _ hidle.1 hthins.sublist
  | activate hidle hgiven _ hthins =>
    obtain ⟨hw, harchived, hselected⟩ := hv.select policy hgiven
    refine hw.activate ?_ ?_ ?_ harchived ?_
    · simpa using hidle.1
    · simpa using hgiven
    · simpa using hthins.sublist
    · simpa using hselected
  | skip hrunning hpending =>
    exact hv.advance hrunning fun k hk => hpending ▸ List.mem_cons_of_mem _ hk
  | dropTautology hrunning hpending =>
    exact hv.advance hrunning fun k hk => hpending ▸ List.mem_cons_of_mem _ hk
  | enqueue hrunning hpending =>
    exact (hv.enqueue hrunning _ _).advance hrunning fun k hk =>
      hpending ▸ List.mem_cons_of_mem _ hk
  | @conclude k _ r hrunning _ _ hempty name =>
    have hw := hv.enter (r.named name) (.inference k)
    exact (hw.advance hrunning (List.forall_mem_nil _)).succeed hempty (Archive.get?_record_self _)

theorem moves (hv : v.Consistent) (h : Moves policy v w) : w.Consistent := by
  induction h with
  | refl => exact hv
  | tail _ hmove ih => exact ih.move hmove

end Snapshot.Consistent

/-- **What every move keeps holds after any number of moves** from a consistent snapshot. -/
theorem Moves.invariant {policy : Policy} {v w : Snapshot} {p : Snapshot → Prop}
    (h : Moves policy v w) (hv : v.Consistent) (hp : p v)
    (hmove : ∀ {v w}, v.Consistent → p v → Move policy v w → p w) : p w := by
  induction h with
  | refl => exact hp
  | tail hmoves hlast ih => exact hmove (hv.moves hmoves) ih hlast

/-! ### The start -/

/-- The start of a search from a list of clauses. -/
def Snapshot.start (S : List Clause) : Snapshot where
  processed := []
  unprocessed := S.zipIdx.map fun p => ⟨p.2, p.1⟩
  archive := ⟨S.toArray⟩
  fresh := .initial
  status := .running
  result := none
  pending := []
  history := ⟨[], List.replicate S.length .input⟩

theorem Snapshot.consistent_start (S : List Clause) : (Snapshot.start S).Consistent where
  nodup := by
    change (((S.zipIdx.map _).map _)).Nodup
    rw [List.map_map]
    change (S.zipIdx.map (·.2)).Nodup
    rw [List.zipIdx_map_snd]
    exact List.nodup_range'
  archived e he := by
    obtain ⟨⟨c, n⟩, hp, rfl⟩ := List.mem_map.1 he
    simpa [Snapshot.start, Archive.get?] using List.mem_zipIdx_iff_getElem?.1 hp
  result := nofun
  premises := List.forall_mem_nil _
  origins := by simp [Snapshot.start, Archive.size]
  pending := List.forall_mem_nil _
  running _ := rfl
  proofFound := nofun
  saturated := nofun

end Search

end Refutation
