import Refutation.Inference.Generate
import Refutation.Proofs.Store.Indexed
import Mathlib.Data.List.Perm.Basic

/-!
# Retrieval from indexed and plain stores

An indexed store and a plain store on which the same clauses were added and taken out give the same
literals to resolve with, in the same order.  The order counts: fresh variables and clause names are
drawn in it.

* `OrderedMap.perm_flatMap_entries` : what is filed by key is all that was to be filed.
* `IndexedStore.Valid.size_resolution`, `IndexedStore.Valid.contains_resolution` and the same for
  subsumption : what the indexes of a store say about its members.
* `StoreOp` : sequences of operations; `StoreOp.valid_runAll` : they keep a lawful store valid.
* `indexed_retrieval_eq_plain` : after any such sequence both stores answer alike.
-/

namespace Refutation

/-! ### Filing by key -/

section Filing

variable {κ α β : Type} [DecidableEq κ] {as : List α} (key : α → κ) (val : α → β)

/-- If every list holds the values that belong to its key, and every key has a list, then the lists
together hold all values. -/
theorem perm_flatMap_of_filed {lists : List (κ × List β)} (hkeys : (lists.map (·.1)).Nodup)
    (hfiled : ∀ p ∈ lists, p.2 = (as.filter (key · = p.1)).map val)
    (hall : ∀ a ∈ as, key a ∈ lists.map (·.1)) : (lists.flatMap (·.2)).Perm (as.map val) := by
  induction lists generalizing as with
  | nil =>
    have has : as = [] := List.eq_nil_iff_forall_not_mem.2 fun a ha => by simpa using hall a ha
    simp [has]
  | cons p lists ih =>
    rw [List.map_cons, List.nodup_cons] at hkeys
    have hother : ∀ q ∈ lists, q.1 ≠ p.1 := fun q hq h => hkeys.1 (h ▸ List.mem_map_of_mem hq)
    -- the other lists hold what does not belong to the first key
    have hrest : (lists.flatMap (·.2)).Perm ((as.filter (key · ≠ p.1)).map val) := by
      refine ih hkeys.2 (fun q hq => ?_) fun a ha => ?_
      · rw [hfiled q (List.mem_cons_of_mem _ hq), List.filter_filter]
        congr 1
        refine List.filter_congr fun a _ => ?_
        by_cases ha : key a = q.1
        · simp [ha, hother q hq]
        · simp [ha]
      · rw [List.mem_filter, decide_eq_true_eq] at ha
        exact (List.mem_cons.1 (hall a ha.1)).resolve_left ha.2
    rw [List.flatMap_cons, hfiled p List.mem_cons_self]
    refine (hrest.append_left _).trans ?_
    rw [← List.map_append]
    refine List.Perm.map val ?_
    simpa using List.filter_append_perm (fun a => decide (key a = p.1)) as

/-- **What is filed by key is all that was to be filed**: the lists of the accepted keys together
hold the values with such a key. -/
theorem OrderedMap.perm_flatMap_entries [Ord κ] [Std.TransOrd κ] [Std.LawfulEqOrd κ]
    {m : OrderedMap κ (List β)} (hfiled : ∀ k, (m.get? k).getD [] = (as.filter (key · = k)).map val)
    (accept : κ → Bool) : ((m.entries.filter fun p => accept p.1).flatMap (·.2)).Perm
      ((as.filter fun a => accept (key a)).map val) := by
  have hmem : ∀ p ∈ m.entries, p.2 = (as.filter (key · = p.1)).map val := by
    intro p hp
    rw [← hfiled, (m.mem_entries_iff).1 hp, Option.getD_some]
  refine perm_flatMap_of_filed key val ?_ (fun p hp => ?_) fun a ha => ?_
  · exact List.Nodup.sublist (List.filter_sublist.map _) m.nodup_keys
  · rw [List.mem_filter] at hp
    rw [hmem p hp.1, List.filter_filter]
    congr 1
    refine List.filter_congr fun a _ => ?_
    by_cases ha : key a = p.1
    · simp [ha, hp.2]
    · simp [ha]
  · rw [List.mem_filter] at ha
    -- the list of the key is not empty
    have hval : val a ∈ (m.get? (key a)).getD [] := by
      rw [hfiled]
      exact List.mem_map_of_mem (List.mem_filter.2 ⟨ha.1, by simp⟩)
    cases hget : m.get? (key a) with
    | none => simp [hget] at hval
    | some bs =>
      exact List.mem_map.2 ⟨(key a, bs), List.mem_filter.2 ⟨m.mem_entries_iff.2 hget, ha.2⟩, rfl⟩

theorem OrderedMap.length_flatten_values [Ord κ] [Std.TransOrd κ] [Std.LawfulEqOrd κ]
    {m : OrderedMap κ (List β)}
    (hfiled : ∀ k, (m.get? k).getD [] = (as.filter (key · = k)).map val) :
    m.values.flatten.length = as.length := by
  have hperm := OrderedMap.perm_flatMap_entries key val hfiled fun _ => true
  rw [List.filter_true, List.filter_true, List.flatMap_def] at hperm
  rw [OrderedMap.values, hperm.length_eq, List.length_map]

end Filing

/-! ### What the indexes say about the members -/

namespace IndexedStore

variable {s : IndexedStore} {e : Entry}

theorem Valid.size_resolution (hs : s.Valid) :
    s.resolution.size = (s.plain.members.flatMap (·.clause.literals)).length := by
  -- the literals of the members, with their clause and position
  let occurrences := s.plain.members.flatMap fun e => e.clause.literals.zipIdx.map (e, ·)
  have hfiled : ∀ k, (s.resolution.slots.get? k).getD [] =
      (occurrences.filter (·.2.1.signedPredicate = k)).map fun o => (o.1, o.2.2) := by
    intro k
    refine (hs.resolution k).trans ?_
    simp only [occurrences, List.filter_flatMap, List.map_flatMap, List.filter_map, List.map_map]
    rfl
  rw [ResolutionIndex.size, OrderedMap.length_flatten_values _ _ hfiled]
  simp [occurrences, List.length_flatMap]

/-- The subsumption index files the members by their abstraction. -/
theorem Valid.filed_subsumption (hs : s.Valid) (k : Abstraction) :
    (s.subsumption.slots.get? k).getD [] =
      (s.plain.members.filter fun e => e.clause.abstraction = k).map id := by
  rw [List.map_id]
  exact hs.subsumption k

theorem Valid.size_subsumption (hs : s.Valid) : s.subsumption.size = s.plain.members.length :=
  OrderedMap.length_flatten_values _ _ hs.filed_subsumption

/-- A clause is in the resolution index if it is a member with a literal. -/
theorem Valid.contains_resolution (hs : s.Valid)
    (he : ∀ d ∈ s.plain.members, d.number = e.number → d = e) :
    s.resolution.contains e = (s.contains e.number && !e.clause.isEmpty) := by
  rw [ResolutionIndex.contains, Clause.isEmpty]
  cases hl : e.clause.literals with
  | nil => simp
  | cons l ls =>
    rw [List.head?_cons, Option.any_some, List.isEmpty_cons, Bool.not_false, Bool.and_true,
      ResolutionIndex.isFiled, hs.resolution, Bool.eq_iff_iff, List.any_eq_true, contains,
      PlainStore.contains, List.any_eq_true]
    constructor
    · rintro ⟨p, hp, hat⟩
      obtain ⟨d, hd, hp⟩ := List.mem_flatMap.1 hp
      obtain rfl := (Entry.mem_filedUnder.1 hp).1
      exact ⟨p.1, hd, by simpa using (ResolutionIndex.isAt_iff.1 hat).1⟩
    · rintro ⟨d, hd, hnumber⟩
      obtain rfl := he d hd (by simpa using hnumber)
      refine ⟨(d, 0), List.mem_flatMap.2 ⟨d, hd, Entry.mem_filedUnder.2 ⟨rfl, l, ?_, rfl⟩⟩,
        ResolutionIndex.isAt_iff.2 ⟨rfl, rfl⟩⟩
      simp [hl]

theorem Valid.contains_subsumption (hs : s.Valid)
    (he : ∀ d ∈ s.plain.members, d.number = e.number → d = e) :
    s.subsumption.contains e = s.contains e.number := by
  rw [SubsumptionIndex.contains, hs.subsumption, contains, PlainStore.contains, Bool.eq_iff_iff,
    List.any_eq_true, List.any_eq_true]
  constructor
  · rintro ⟨d, hd, hnumber⟩
    exact ⟨d, List.mem_of_mem_filter hd, hnumber⟩
  · rintro ⟨d, hd, hnumber⟩
    obtain rfl := he d hd (by simpa using hnumber)
    exact ⟨d, List.mem_filter.2 ⟨hd, by simp⟩, hnumber⟩

end IndexedStore

/-! ### Sequences of operations -/

/-- An operation on a store: the clause with the given number is added or taken out. -/
inductive StoreOp where
  | add (n : Nat)
  | extract (n : Nat)
deriving DecidableEq, Repr

namespace StoreOp

variable {σ : Type} [ClauseStore σ] (clauses : Nat → Clause)

/-- What an operation makes of a store.  Taking out what is not a member changes nothing. -/
def run (s : σ) : StoreOp → σ
  | add n => ClauseStore.insert s ⟨n, clauses n⟩
  | extract n => match ClauseStore.extract? s n with
    | some (_, s) => s
    | none => s

/-- Run operations one after the other. -/
def runAll (s : σ) (ops : List StoreOp) : σ := ops.foldl (run clauses) s

/-- Only a clause that is not a member is added. -/
def Fits (s : σ) : StoreOp → Prop
  | add n => ∀ e ∈ ClauseStore.toList s, e.number ≠ n
  | extract _ => True

instance (s : σ) : (op : StoreOp) → Decidable (op.Fits s)
  | add n => inferInstanceAs (Decidable (∀ e ∈ ClauseStore.toList s, e.number ≠ n))
  | extract _ => isTrue trivial

/-- Every clause is added only while it is not a member. -/
def AllFit (s : σ) : List StoreOp → Prop
  | [] => True
  | op :: ops => op.Fits s ∧ AllFit (run clauses s op) ops

instance decidableAllFit (s : σ) : (ops : List StoreOp) → Decidable (AllFit clauses s ops)
  | [] => isTrue trivial
  | op :: ops =>
    have := decidableAllFit (run clauses s op) ops
    inferInstanceAs (Decidable (op.Fits s ∧ AllFit clauses (run clauses s op) ops))

/-- The members are the clauses of their numbers. -/
def Faithful (s : σ) : Prop := ∀ e ∈ ClauseStore.toList s, e.clause = clauses e.number

variable {clauses} [LawfulStore σ] {s : σ} {op : StoreOp} {ops : List StoreOp}

theorem valid_run (hs : LawfulStore.Valid s) (hop : op.Fits s) :
    LawfulStore.Valid (run clauses s op) := by
  cases op with
  | add n => exact (LawfulStore.insert_spec (e := ⟨n, clauses n⟩) hs hop).1
  | extract n =>
    rw [run]
    split
    · next hextract => exact (LawfulStore.extract_spec hs hextract).1
    · exact hs

theorem faithful_run (hs : LawfulStore.Valid s) (hop : op.Fits s) (h : Faithful clauses s) :
    Faithful clauses (run clauses s op) := by
  cases op with
  | add n =>
    intro e he
    rw [run, (LawfulStore.insert_spec (e := ⟨n, clauses n⟩) hs hop).2] at he
    rcases List.mem_append.1 he with he | he
    · exact h e he
    · rw [List.mem_singleton.1 he]
  | extract n =>
    rw [run]
    split
    · next hextract =>
      intro e he
      rw [(LawfulStore.extract_spec hs hextract).2.2.2] at he
      exact h e (mem_without.1 he).1
    · exact h

/-- **Operations keep a lawful store valid.** -/
theorem valid_runAll (hs : LawfulStore.Valid s) (h : Faithful clauses s)
    (hops : AllFit clauses s ops) :
    LawfulStore.Valid (runAll clauses s ops) ∧ Faithful clauses (runAll clauses s ops) := by
  induction ops generalizing s with
  | nil => exact ⟨hs, h⟩
  | cons op ops ih => exact ih (valid_run hs hops.1) (faithful_run hs hops.1 h) hops.2

theorem plain_run (s : IndexedStore) (op : StoreOp) :
    (run clauses s op).plain = run clauses s.plain op := by
  cases op with
  | add n => rfl
  | extract n =>
    simp only [run, ClauseStore.extract?, IndexedStore.extract?]
    cases s.plain.extract? n <;> rfl

theorem plain_runAll (s : IndexedStore) (ops : List StoreOp) :
    (runAll clauses s ops).plain = runAll clauses s.plain ops := by
  induction ops generalizing s with
  | nil => rfl
  | cons op ops ih => exact (ih _).trans (congrArg (runAll clauses · ops) (plain_run s op))

theorem allFit_plain {s : IndexedStore} : AllFit clauses s.plain ops ↔ AllFit clauses s ops := by
  induction ops generalizing s with
  | nil => rfl
  | cons op ops ih =>
    rw [AllFit, AllFit, ← ih, plain_run]
    exact and_congr_left fun _ => by cases op <;> rfl

/-- The indexed store and the plain store that operations make of the empty ones. -/
theorem runAll_empty (hops : AllFit clauses PlainStore.empty ops) :
    runAll clauses PlainStore.empty ops = (runAll clauses IndexedStore.empty ops).plain ∧
      (runAll clauses IndexedStore.empty ops).Valid ∧
      Faithful clauses (runAll clauses IndexedStore.empty ops) :=
  ⟨(plain_runAll IndexedStore.empty ops).symm,
    valid_runAll (s := IndexedStore.empty) IndexedStore.valid_empty (List.forall_mem_nil _)
      (allFit_plain.1 hops)⟩

end StoreOp

/-! ### Indexed and plain stores answer alike -/

/-- Two stores that give the same literals to resolve with give the same resolvents. -/
theorem resolvents_congr {σ τ : Type} [ClauseStore σ] [ClauseStore τ] {s : σ} {t : τ}
    (h : ∀ l, ClauseStore.partners s l = ClauseStore.partners t l) (given : Entry) (names : Names) :
    resolvents given s names = resolvents given t names := by
  simp only [resolvents, pairings, h]

/-- An indexed store and a plain store with the same members cannot be told apart by retrieval, and
the indexes hold exactly these members.  The clauses are looked up by number. -/
structure IndexedStore.Mirrors (clauses : Nat → Clause) (s : IndexedStore) (t : PlainStore) :
    Prop where
  /-- The members are the same, in the same order. -/
  toList : ClauseStore.toList s = ClauseStore.toList t
  /-- Every literal has the same partners, in the same order. -/
  partners : ∀ l, ClauseStore.partners s l = ClauseStore.partners t l
  /-- The resolvents are the same, with their names and parents, and so are the names that are
  left. -/
  resolvents : ∀ given names, resolvents given s names = resolvents given t names
  /-- The resolution index holds all literals of the members. -/
  size_resolution : s.resolution.size = (t.members.flatMap (·.clause.literals)).length
  /-- The subsumption index holds all members. -/
  size_subsumption : s.subsumption.size = t.members.length
  /-- A clause is in the resolution index if it is a member and has a literal. -/
  contains_resolution : ∀ n, s.resolution.contains ⟨n, clauses n⟩ = true ↔
    t.contains n = true ∧ (clauses n).literals ≠ []
  /-- A clause is in the subsumption index if it is a member. -/
  contains_subsumption : ∀ n, s.subsumption.contains ⟨n, clauses n⟩ = true ↔ t.contains n = true

/-- **Indexed and plain retrieval are interchangeable**, whatever clauses were added and taken
out. -/
theorem indexed_retrieval_eq_plain (clauses : Nat → Clause) (ops : List StoreOp)
    (hops : StoreOp.AllFit clauses PlainStore.empty ops) :
    (StoreOp.runAll clauses IndexedStore.empty ops).Mirrors clauses
      (StoreOp.runAll clauses PlainStore.empty ops) := by
  obtain ⟨hplain, hvalid, hfaithful⟩ := StoreOp.runAll_empty hops
  rw [hplain]
  generalize StoreOp.runAll clauses IndexedStore.empty ops = s at hvalid hfaithful
  have hpartners : ∀ l, ClauseStore.partners s l = ClauseStore.partners s.plain l :=
    fun l => LawfulStore.partners_eq l hvalid
  have hmember : ∀ n, ∀ d ∈ s.plain.members, d.number = n → d = ⟨n, clauses n⟩ := by
    rintro _ ⟨n, c⟩ hd rfl
    rw [← hfaithful _ hd]
  exact {
    toList := rfl
    partners := hpartners
    resolvents := resolvents_congr hpartners
    size_resolution := hvalid.size_resolution
    size_subsumption := hvalid.size_subsumption
    contains_resolution := fun n => by
      rw [hvalid.contains_resolution (hmember n), Bool.and_eq_true]
      simp [Clause.isEmpty, IndexedStore.contains]
    contains_subsumption := fun n => by rw [hvalid.contains_subsumption (hmember n)]; rfl }

/-- A fact, a rule and, under all other numbers, a clause without literals. -/
def factRuleAndEmpty : Nat → Clause
  | 0 => ⟨"fact", .axiomatic, [.pos (.app "p" [.app "a" []])], none⟩
  | 1 => ⟨"rule", .axiomatic, [.pos (.app "p" [.var "X"]), .neg (.app "q" [.var "X"])], none⟩
  | _ => .of []

/-- The fact is taken out and added again: then it is found after the rule. -/
theorem indexed_retrieval_eq_plain_readded :
    let ops : List StoreOp := [.add 0, .add 1, .add 2, .extract 0, .extract 7, .add 0]
    let s := StoreOp.runAll factRuleAndEmpty IndexedStore.empty ops
    StoreOp.AllFit factRuleAndEmpty PlainStore.empty ops ∧
      s.Mirrors factRuleAndEmpty (StoreOp.runAll factRuleAndEmpty PlainStore.empty ops) ∧
      ClauseStore.partners s (.neg (.app "p" [.var "Y"])) =
        [(⟨1, factRuleAndEmpty 1⟩, 0), (⟨0, factRuleAndEmpty 0⟩, 0)] ∧
      s.resolution.size = 3 ∧ s.subsumption.size = 3 := by
  intro ops s
  have hops : StoreOp.AllFit factRuleAndEmpty PlainStore.empty ops := by decide
  have hmirrors := indexed_retrieval_eq_plain factRuleAndEmpty ops hops
  refine ⟨hops, hmirrors, ?_, ?_, ?_⟩
  · rw [hmirrors.partners]
    decide
  · rw [hmirrors.size_resolution]
    decide
  · rw [hmirrors.size_subsumption]
    decide

end Refutation
