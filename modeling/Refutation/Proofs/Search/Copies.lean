import Refutation.Proofs.Search.Replay

/-!
# Clauses and their copies

Where literals are selected, a copy of the given clause takes its place, under the same name.  The
clause itself stays in the archive, but nothing is derived from it any more.

* `Search.Snapshot.Labelled` : no clause is copied twice, and no copy is copied; every move keeps
  this.
* `Search.Snapshot.Spared` : a clause that has not been copied and will never be.
* `Search.Snapshot.Lineage` : whatever something is derived from is spared; every move keeps this.
-/

namespace Refutation

theorem Clause.parents_select (c : Clause) (s : LiteralSelection) :
    (c.select s).parents = c.parents := by
  rw [parents, derivation_select, parents]

theorem Call.premises_ne_nil (k : Call) : k.premises ≠ [] := by
  cases k <;> simp [premises]

namespace Search

theorem Policy.parents_tidy {policy : Policy} {k : Call} {r : Clause} (hr : k.result? = some r)
    (name : String) : ((policy.tidy r).named name).parents = k.premises.map (·.asParent) := by
  have hparents : ((policy.tidy r).named name).parents = r.parents :=
    congrArg (fun d => (d.map (·.parents)).getD []) (policy.derivation_tidy r)
  rw [hparents, Call.parents_result hr]

/-! ### A clause and its copy -/

/-- What the origin says of the name and the parents of the clause with number `n`. -/
def Origin.Labels (S : List Clause) (A : Archive) (n : Nat) : Origin → Prop
  | input => ∃ c, A.get? n = some c ∧ S[n]? = some c
  | copy m => m < n ∧ ∃ c d, A.get? n = some c ∧ A.get? m = some d ∧ c.name = d.name ∧
    c.parents = d.parents
  | inference k => ∃ c, A.get? n = some c ∧ c.parents = k.premises.map (·.asParent)

theorem Origin.Labels.record {S : List Clause} {A : Archive} {n : Nat} {o : Origin}
    (ho : o.Labels S A n) (c : Clause) : o.Labels S (A.record c).2 n := by
  cases o with
  | input =>
    obtain ⟨d, hd, hS⟩ := ho
    exact ⟨d, Archive.get?_record hd, hS⟩
  | copy m =>
    obtain ⟨hlt, d, d', hd, hd', hsame⟩ := ho
    exact ⟨hlt, d, d', Archive.get?_record hd, Archive.get?_record hd', hsame⟩
  | inference k =>
    obtain ⟨d, hd, hparents⟩ := ho
    exact ⟨d, Archive.get?_record hd, hparents⟩

theorem getElem?_concat_eq_some {α : Type} {as : List α} {a b : α} {n : Nat} :
    (as ++ [a])[n]? = some b ↔ as[n]? = some b ∨ n = as.length ∧ a = b := by
  rcases Nat.lt_trichotomy n as.length with hn | rfl | hn
  · simp [List.getElem?_append_left hn, Nat.ne_of_lt hn]
  · simp
  · have hnone : (as ++ [a])[n]? = none := List.getElem?_eq_none (by simp; omega)
    simp [hnone, List.getElem?_eq_none (Nat.le_of_lt hn), Nat.ne_of_gt hn]

namespace Snapshot

variable {policy : Policy} {S : List Clause} {v w : Snapshot} {n : Nat}

/-- A clause is copied once and a copy never, and names and parents are what the origins say. -/
structure Labelled (S : List Clause) (v : Snapshot) : Prop where
  /-- Names and parents are what the origins say. -/
  origins : ∀ (n : Nat) (o : Origin), v.history.origins[n]? = some o → o.Labels S v.archive n
  /-- No clause is copied twice. -/
  once : ∀ n n' m : Nat, v.history.origins[n]? = some (.copy m) →
    v.history.origins[n']? = some (.copy m) → n = n'
  /-- What was copied is no copy. -/
  original : ∀ n m m' : Nat, v.history.origins[n]? = some (.copy m) →
    v.history.origins[m]? ≠ some (.copy m')
  /-- A clause that waits to be given has not been copied, and is no copy. -/
  waiting : ∀ e ∈ v.unprocessed,
    .copy e.number ∉ v.history.origins ∧ ∀ m, v.history.origins[e.number]? ≠ some (.copy m)

namespace Labelled

theorem lt_of_copy (hv : v.Labelled S) {m : Nat} (h : v.history.origins[n]? = some (.copy m)) :
    m < n :=
  (hv.origins n _ h).1

theorem lt_size_of_copy (hv : v.Labelled S) (hcons : v.Consistent) {m : Nat}
    (h : .copy m ∈ v.history.origins) : m < v.archive.size := by
  obtain ⟨n, hn⟩ := List.mem_iff_getElem?.1 h
  exact hcons.origins ▸ Nat.lt_trans (hv.lt_of_copy hn) (List.getElem?_eq_some_iff.1 hn).1

theorem of_subset (hv : v.Labelled S) (harchive : w.archive = v.archive)
    (horigins : w.history.origins = v.history.origins)
    (hunprocessed : ∀ e ∈ w.unprocessed, e ∈ v.unprocessed) : w.Labelled S where
  origins := harchive ▸ horigins ▸ hv.origins
  once := horigins ▸ hv.once
  original := horigins ▸ hv.original
  waiting e he := horigins ▸ hv.waiting e (hunprocessed e he)

theorem conclude (hv : v.Labelled S) (hcons : v.Consistent) {c : Clause} {k : Call}
    (hparents : c.parents = k.premises.map (·.asParent))
    (harchive : w.archive = (v.archive.record c).2)
    (horigins : w.history.origins = v.history.origins ++ [.inference k])
    (hunprocessed : ∀ e ∈ w.unprocessed, e ∈ v.unprocessed ∨ e.number = v.archive.size) :
    w.Labelled S := by
  have hcopy : ∀ n m : Nat, w.history.origins[n]? = some (.copy m) →
      v.history.origins[n]? = some (.copy m) := fun n m h => by
    rw [horigins, getElem?_concat_eq_some] at h
    simpa using h
  refine ⟨fun n o ho => ?_, fun n n' m h h' => hv.once n n' m (hcopy n m h) (hcopy n' m h'),
    fun n m m' h h' => hv.original n m m' (hcopy n m h) (hcopy m m' h'), fun e he => ?_⟩
  · rw [harchive]
    rw [horigins, getElem?_concat_eq_some] at ho
    rcases ho with ho | ⟨rfl, rfl⟩
    · exact (hv.origins n o ho).record c
    · rw [hcons.origins]
      exact ⟨c, Archive.get?_record_self c, hparents⟩
  · rw [horigins]
    rcases hunprocessed e he with he | he
    · obtain ⟨huncopied, hnocopy⟩ := hv.waiting e he
      exact ⟨by simpa using huncopied, fun m h => hnocopy m (hcopy _ m (horigins ▸ h))⟩
    · rw [he]
      refine ⟨fun hmem => ?_, fun m h => ?_⟩
      · exact Nat.lt_irrefl _ (hv.lt_size_of_copy hcons (by simpa using hmem))
      · have hlt := (List.getElem?_eq_some_iff.1 (hcopy _ m (horigins ▸ h))).1
        rw [hcons.origins] at hlt
        omega

theorem copy (hv : v.Labelled S) (hcons : v.Consistent) {given : Entry}
    (hgiven : given ∈ v.unprocessed) {selection : LiteralSelection}
    (harchive : w.archive = (v.archive.record (given.clause.select selection)).2)
    (horigins : w.history.origins = v.history.origins ++ [.copy given.number])
    (hunprocessed : w.unprocessed = without given.number v.unprocessed) : w.Labelled S := by
  obtain ⟨huncopied, hnocopy⟩ := hv.waiting given hgiven
  have hget := hcons.archived given (List.mem_append_right _ hgiven)
  have hlt := hcons.origins ▸ Archive.lt_size hget
  refine ⟨fun n o ho => ?_, fun n n' m h h' => ?_, fun n m m' h h' => ?_, fun e he => ?_⟩
  · rw [harchive]
    rw [horigins, getElem?_concat_eq_some] at ho
    rcases ho with ho | ⟨rfl, rfl⟩
    · exact (hv.origins n o ho).record _
    · rw [hcons.origins]
      exact ⟨Archive.lt_size hget, _, _, Archive.get?_record_self _, Archive.get?_record hget,
        Clause.name_select _ _, Clause.parents_select _ _⟩
  · simp only [horigins, getElem?_concat_eq_some, Origin.copy.injEq] at h h'
    rcases h with h | ⟨hn, rfl⟩ <;> rcases h' with h' | ⟨hn', hm⟩
    · exact hv.once n n' m h h'
    · exact absurd (List.mem_of_getElem? (hm ▸ h)) huncopied
    · exact absurd (List.mem_of_getElem? h') huncopied
    · exact hn.trans hn'.symm
  · simp only [horigins, getElem?_concat_eq_some, Origin.copy.injEq] at h h'
    rcases h with h | ⟨-, rfl⟩ <;> rcases h' with h' | ⟨hm, -⟩
    · exact hv.original n m m' h h'
    · have := hv.lt_of_copy h
      have := (List.getElem?_eq_some_iff.1 h).1
      omega
    · exact hnocopy m' h'
    · omega
  · rw [hunprocessed] at he
    obtain ⟨he, hne⟩ := mem_without.1 he
    obtain ⟨huncopied', hnocopy'⟩ := hv.waiting e he
    have hlt' := hcons.origins ▸ hcons.lt_size (List.mem_append_right _ he)
    rw [horigins]
    refine ⟨by simpa [huncopied'] using hne, fun m h => ?_⟩
    rcases getElem?_concat_eq_some.1 h with h | ⟨h, -⟩
    · exact hnocopy' m h
    · omega

/-- **Every move keeps clauses and copies apart.** -/
theorem move (hv : v.Labelled S) (hcons : v.Consistent) (h : Move policy v w) : w.Labelled S := by
  cases h with
  | giveUp | saturate | skip | dropTautology => exact hv.of_subset rfl rfl fun _ => id
  | finish | discardTautology | discardSubsumed =>
    exact hv.of_subset rfl rfl fun e he => (mem_without.1 he).1
  | @activate given rest _ hgiven =>
    cases hselection : policy.selection with
    | none =>
      simp only [Snapshot.activate, Snapshot.select, hselection]
      exact hv.of_subset rfl rfl fun e he => (mem_without.1 he).1
    | some selection =>
      simp only [Snapshot.activate, Snapshot.select, hselection]
      exact hv.copy hcons hgiven rfl rfl rfl
  | enqueue _ _ hr _ name =>
    refine hv.conclude hcons (Policy.parents_tidy hr name) rfl rfl fun e he => ?_
    rcases List.mem_append.1 he with he | he
    · exact .inl he
    · exact .inr (List.mem_singleton.1 he ▸ rfl)
  | @conclude k _ r _ _ hr _ name =>
    have hparents : r.parents = k.premises.map (·.asParent) := Call.parents_result hr
    exact hv.conclude hcons (c := r.named name) hparents rfl rfl fun e he => .inl he

theorem start (S : List Clause) : (Snapshot.start S).Labelled S := by
  have hnocopy : ∀ n m : Nat, (Snapshot.start S).history.origins[n]? ≠ some (Origin.copy m) :=
    fun n m h => Origin.noConfusion (List.eq_of_mem_replicate (List.mem_of_getElem? h))
  refine ⟨fun n o ho => ?_, fun n n' m h => absurd h (hnocopy n m),
    fun n m m' h => absurd h (hnocopy n m), fun e _ => ⟨fun hmem => ?_, hnocopy _⟩⟩
  · obtain rfl := List.eq_of_mem_replicate (List.mem_of_getElem? ho)
    have hn : n < S.length := by simpa [Snapshot.start] using (List.getElem?_eq_some_iff.1 ho).1
    exact ⟨S[n], by simp [Snapshot.start, Archive.get?, hn], List.getElem?_eq_getElem hn⟩
  · obtain ⟨n, hn⟩ := List.mem_iff_getElem?.1 hmem
    exact hnocopy n _ hn

end Labelled

/-! ### What is derived from -/

/-- The clause with number `n` has not been copied and will never be. -/
structure Spared (v : Snapshot) (n : Nat) : Prop where
  /-- The clause was entered. -/
  lt_size : n < v.archive.size
  /-- It has not been copied. -/
  uncopied : .copy n ∉ v.history.origins
  /-- It does not wait to be given. -/
  given : ∀ e ∈ v.unprocessed, e.number ≠ n

namespace Spared

theorem of_subset (hn : v.Spared n) (harchive : w.archive = v.archive)
    (horigins : w.history.origins = v.history.origins)
    (hunprocessed : ∀ e ∈ w.unprocessed, e ∈ v.unprocessed) : w.Spared n :=
  ⟨harchive ▸ hn.lt_size, horigins ▸ hn.uncopied, fun e he => hn.given e (hunprocessed e he)⟩

/-- A clause is spared when another one is entered that is no copy of it. -/
theorem of_record (hn : v.Spared n) {c : Clause} {o : Origin} (ho : o ≠ .copy n)
    (harchive : w.archive = (v.archive.record c).2)
    (horigins : w.history.origins = v.history.origins ++ [o])
    (hunprocessed : ∀ e ∈ w.unprocessed, e ∈ v.unprocessed ∨ e.number = v.archive.size) :
    w.Spared n where
  lt_size := by
    rw [harchive, Archive.size_record]
    exact Nat.lt_succ_of_lt hn.lt_size
  uncopied := by
    rw [horigins]
    simpa [hn.uncopied] using ho.symm
  given e he := by
    rcases hunprocessed e he with he | he
    · exact hn.given e he
    · exact he ▸ Nat.ne_of_gt hn.lt_size

/-- **A clause that is spared stays so.** -/
theorem move (hn : v.Spared n) (h : Move policy v w) : w.Spared n := by
  cases h with
  | giveUp | saturate | skip | dropTautology => exact hn.of_subset rfl rfl fun _ => id
  | finish | discardTautology | discardSubsumed =>
    exact hn.of_subset rfl rfl fun e he => (mem_without.1 he).1
  | @activate given rest _ hgiven =>
    have hunprocessed : ∀ e ∈ without given.number v.unprocessed, e ∈ v.unprocessed := fun e he =>
      (mem_without.1 he).1
    cases hselection : policy.selection with
    | none =>
      simp only [Snapshot.activate, Snapshot.select, hselection]
      exact hn.of_subset rfl rfl hunprocessed
    | some selection =>
      simp only [Snapshot.activate, Snapshot.select, hselection]
      exact hn.of_record (o := .copy given.number) (by simpa using hn.given given hgiven) rfl rfl
        fun e he => .inl (hunprocessed e he)
  | enqueue =>
    refine hn.of_record (by simp) rfl rfl fun e he => ?_
    rcases List.mem_append.1 he with he | he
    · exact .inl he
    · exact .inr (List.mem_singleton.1 he ▸ rfl)
  | conclude => exact hn.of_record (by simp) rfl rfl fun e he => .inl he

end Spared

theorem Labelled.spared_given (hv : v.Labelled S) (hcons : v.Consistent) {given : Entry}
    (hgiven : given ∈ v.unprocessed) (harchive : w.archive = v.archive)
    (horigins : w.history.origins = v.history.origins)
    (hunprocessed : w.unprocessed = without given.number v.unprocessed) :
    w.Spared given.number where
  lt_size := harchive ▸ hcons.lt_size (List.mem_append_right _ hgiven)
  uncopied := horigins ▸ (hv.waiting given hgiven).1
  given _ he := (mem_without.1 (hunprocessed ▸ he)).2

theorem Labelled.spared_entered (hv : v.Labelled S) (hcons : v.Consistent) {c : Clause} {o : Origin}
    (ho : o ≠ .copy v.archive.size) (harchive : w.archive = (v.archive.record c).2)
    (horigins : w.history.origins = v.history.origins ++ [o])
    (hunprocessed : ∀ e ∈ w.unprocessed, e ∈ v.unprocessed) : w.Spared v.archive.size where
  lt_size := by
    rw [harchive, Archive.size_record]
    exact Nat.lt_succ_self _
  uncopied := by
    rw [horigins, List.mem_append, List.mem_singleton]
    rintro (hmem | heq)
    · exact Nat.lt_irrefl _ (hv.lt_size_of_copy hcons hmem)
    · exact ho heq.symm
  given e he := Nat.ne_of_lt (hcons.lt_size (List.mem_append_right _ (hunprocessed e he)))

/-- Whatever something is derived from is spared. -/
structure Lineage (v : Snapshot) : Prop where
  /-- Processed clauses. -/
  processed : ∀ e ∈ v.processed, v.Spared e.number
  /-- The premises of pending calls. -/
  premises : ∀ k ∈ v.pending, ∀ e ∈ k.premises, v.Spared e.number
  /-- The parents of all clauses. -/
  parents : ∀ n c, v.archive.get? n = some c → ∀ p ∈ c.parents, v.Spared p.number
  /-- The empty clause that was found. -/
  result : ∀ e, v.result = some e → v.Spared e.number

namespace Lineage

/-- What was spared stays so, and what is new to be derived from is spared. -/
theorem extend (hv : v.Lineage) (hspared : ∀ n, v.Spared n → w.Spared n)
    (hprocessed : ∀ e ∈ w.processed, e ∈ v.processed ∨ w.Spared e.number)
    (hpending : ∀ k ∈ w.pending, k ∈ v.pending ∨ ∀ e ∈ k.premises, w.Spared e.number)
    (harchive : ∀ n c, w.archive.get? n = some c →
      v.archive.get? n = some c ∨ ∀ p ∈ c.parents, v.Spared p.number)
    (hresult : ∀ e, w.result = some e → v.result = some e ∨ w.Spared e.number) : w.Lineage where
  processed e he := (hprocessed e he).elim (fun he => hspared _ (hv.processed e he)) id
  premises k hk := (hpending k hk).elim (fun hk e he => hspared _ (hv.premises k hk e he)) id
  parents n c hc p hp := hspared _ ((harchive n c hc).elim (fun hc => hv.parents n c hc p hp)
    fun h => h p hp)
  result e he := (hresult e he).elim (fun he => hspared _ (hv.result e he)) id

theorem get?_record {c : Clause} (hparents : ∀ p ∈ c.parents, v.Spared p.number) (n : Nat)
    (d : Clause) (hd : (v.archive.record c).2.get? n = some d) :
    v.archive.get? n = some d ∨ ∀ p ∈ d.parents, v.Spared p.number := by
  rcases Archive.get?_record_eq_some hd with hd | ⟨-, rfl⟩
  · exact .inl hd
  · exact .inr hparents

/-- **Every move keeps it that nothing is derived from what was copied.** -/
theorem move (hv : v.Lineage) (hlabelled : v.Labelled S) (hcons : v.Consistent)
    (h : Move policy v w) : w.Lineage := by
  have hspared : ∀ n, v.Spared n → w.Spared n := fun n hn => hn.move h
  cases h with
  | giveUp | saturate | discardTautology =>
    exact hv.extend hspared (fun _ => .inl) (fun _ => .inl) (fun _ _ => .inl) fun _ => .inl
  | finish _ hgiven =>
    refine hv.extend hspared (fun _ => .inl) (fun _ => .inl) (fun _ _ => .inl) fun e he => .inr ?_
    obtain rfl := Option.some.inj he
    exact hlabelled.spared_given hcons hgiven rfl rfl rfl
  | discardSubsumed _ _ hthins =>
    exact hv.extend hspared (fun e he => .inl (hthins.sublist.subset he)) (fun _ => .inl)
      (fun _ _ => .inl) fun _ => .inl
  | skip _ hpending | dropTautology _ hpending =>
    exact hv.extend hspared (fun _ => .inl)
      (fun k hk => .inl (hpending ▸ List.mem_cons_of_mem _ hk)) (fun _ _ => .inl) fun _ => .inl
  | @activate given rest hidle hgiven hempty hthins =>
    have hselected :
        ((v.select policy given).2.activate given (v.select policy given).1 rest).Spared
          (v.select policy given).1.number := by
      cases hselection : policy.selection with
      | none =>
        simp only [Snapshot.select, hselection]
        exact hlabelled.spared_given hcons hgiven rfl rfl rfl
      | some selection =>
        simp only [Snapshot.select, hselection]
        exact hlabelled.spared_entered hcons (by
          simpa using Nat.ne_of_lt (hcons.lt_size (List.mem_append_right _ hgiven))) rfl rfl
          fun e he => (mem_without.1 he).1
    have hrest : ∀ e ∈ rest, v.Spared e.number := fun e he =>
      hv.processed e (hthins.sublist.subset he)
    refine hv.extend hspared (fun e he => ?_) (fun k hk => .inr fun e he => ?_) (fun n c hc => ?_)
      fun e he => ?_
    · rcases List.mem_append.1 he with he | he
      · exact .inr (hspared _ (hrest e he))
      · exact .inr (List.mem_singleton.1 he ▸ hselected)
    · rcases premises_inferenceCalls hk he with rfl | he
      · exact hselected
      · exact hspared _ (hrest e he)
    · -- a copy has the parents of the clause
      have hgivenParents := hv.parents _ _ (hcons.archived given (List.mem_append_right _ hgiven))
      cases hselection : policy.selection with
      | none =>
        simp only [Snapshot.activate, Snapshot.select, hselection] at hc
        exact .inl hc
      | some selection =>
        simp only [Snapshot.activate, Snapshot.select, hselection] at hc
        exact get?_record (given.clause.parents_select selection ▸ hgivenParents) n c hc
    · have hresult : (v.select policy given).2.result = v.result := by
        unfold Snapshot.select
        split <;> rfl
      exact .inl (hresult ▸ he)
  | @enqueue k ks r _ hpending hr _ name =>
    refine hv.extend hspared (fun _ => .inl)
      (fun k hk => .inl (hpending ▸ List.mem_cons_of_mem _ hk))
      (get?_record fun p hp => ?_) fun _ => .inl
    rw [Policy.parents_tidy hr] at hp
    obtain ⟨e, he, rfl⟩ := List.mem_map.1 hp
    exact hv.premises k (hpending ▸ List.mem_cons_self) e he
  | @conclude k ks r _ hpending hr _ name =>
    refine hv.extend hspared (fun _ => .inl) (List.forall_mem_nil _)
      (get?_record (c := r.named name) fun p hp => ?_) fun e he => .inr ?_
    · obtain ⟨e, he, rfl⟩ := List.mem_map.1 (Call.parents_result hr ▸ hp : p ∈ k.premises.map _)
      exact hv.premises k (hpending ▸ List.mem_cons_self) e he
    · obtain rfl := Option.some.inj he
      exact hlabelled.spared_entered hcons (by simp) rfl rfl fun _ => id

theorem start (hS : ∀ b ∈ S, b.parents = []) : (Snapshot.start S).Lineage where
  processed := List.forall_mem_nil _
  premises := List.forall_mem_nil _
  parents n c hc p hp := by
    have hmem : c ∈ S := List.mem_of_getElem? (by simpa [Snapshot.start, Archive.get?] using hc)
    rw [hS c hmem] at hp
    exact absurd hp List.not_mem_nil
  result := nofun

/-- At any time of a search nothing was derived from what was copied. -/
theorem moves (hS : ∀ b ∈ S, b.parents = []) (h : Moves policy (.start S) w) :
    w.Labelled S ∧ w.Lineage :=
  h.invariant (p := fun v => v.Labelled S ∧ v.Lineage) (Snapshot.consistent_start S)
    ⟨.start S, start hS⟩ fun hcons hv hmove => ⟨hv.1.move hcons hmove, hv.2.move hv.1 hcons hmove⟩

theorem spared_of_isAncestor (hv : v.Lineage) {root n : Nat} (hroot : v.Spared root)
    (h : v.archive.IsAncestor root n) : v.Spared n := by
  induction h with
  | refl => exact hroot
  | @tail n m _ hparent _ =>
    unfold Archive.parentsOf at hparent
    split at hparent
    · next c hc =>
      obtain ⟨p, hp, rfl⟩ := List.mem_map.1 (List.mem_of_mem_filter hparent)
      exact hv.parents n c hc p hp
    · exact absurd hparent List.not_mem_nil

end Lineage

end Snapshot

end Search

end Refutation
