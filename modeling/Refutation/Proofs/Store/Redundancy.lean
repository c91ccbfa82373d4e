import Refutation.Proofs.Interpretation
import Refutation.Proofs.Store.Retrieval
import Refutation.Proofs.Subsumption
import Mathlib.Data.List.Sort

/-!
# Subsumption against indexed and plain stores

The subsumption index proposes the members whose abstraction fits the one of the clause.  No other
member can subsume it or be subsumed by it, so an indexed store gives up the same members as a plain
one that proposes all of them.

* `Clause.isSubsequence_of_subsumes` : only a clause with a fitting abstraction is subsumed.
* `PlainStore.removeSubsumedAmong_eq` : what is removed and what stays, for any proposal of members.
* `IndexedStore.removeSubsumedAmong_plain` : an indexed store removes what its plain part removes.
* `indexed_subsumption_eq_plain` : both stores, after any sequence of operations.
-/

namespace Refutation

/-! ### Abstractions of clauses that subsume each other -/

/-- The sign and the predicate of a signed atom. -/
def SignedAtom.signedPredicate (a : SignedAtom) : SignedPredicate :=
  ⟨!a.negative, a.atom.symbol?.getD ""⟩

theorem SignedAtom.signedPredicate_subst {a : SignedAtom} (ha : a.atom.isVar = false)
    (θ : String → Term) : (a.subst θ).signedPredicate = a.signedPredicate := by
  obtain ⟨negative, atom⟩ := a
  cases atom with
  | var x => simp [Term.isVar] at ha
  | app f ts => simp [signedPredicate, subst, Term.subst, Term.symbol?]

namespace Clause

variable {c d : Clause}

theorem map_signedPredicate_signedAtoms (c : Clause) :
    c.signedAtoms.map (·.signedPredicate) = c.literals.map (·.signedPredicate) := by
  simp only [signedAtoms, List.map_map]
  rfl

theorem abstraction_perm (c : Clause) :
    c.abstraction.Perm (c.signedAtoms.map (·.signedPredicate)) := by
  rw [map_signedPredicate_signedAtoms]
  exact List.mergeSort_perm _ _

theorem pairwise_abstraction (c : Clause) :
    c.abstraction.Pairwise fun a b => (compare a b).isLE = true :=
  List.pairwise_mergeSort (fun _ _ _ => Std.TransCmp.isLE_trans)
    (fun a b => by
      rw [Bool.or_eq_true]
      rcases h : compare a b with _ | _ | _
      · exact .inl rfl
      · exact .inl rfl
      · exact .inr (by rw [Std.OrientedCmp.lt_of_gt h]; rfl)) _

/-- **Only a clause with a fitting abstraction is subsumed.** -/
theorem isSubsequence_of_subsumes (hc : c.HasCompoundAtoms) (h : c.subsumes d = true) :
    isSubsequence c.abstraction d.abstraction = true := by
  obtain ⟨θ, hθ⟩ := subsumes_iff_subperm.1 h
  have hsame : (c.signedAtoms.map (·.subst θ)).map (·.signedPredicate) =
      c.signedAtoms.map (·.signedPredicate) := by
    rw [List.map_map]
    exact List.map_congr_left fun a ha =>
      SignedAtom.signedPredicate_subst (hasCompoundAtoms_iff.1 hc a ha) θ
  have hsubperm : c.abstraction.Subperm d.abstraction := by
    rw [c.abstraction_perm.subperm_right, d.abstraction_perm.subperm_left, ← hsame]
    obtain ⟨as, hperm, hsublist⟩ := hθ
    exact ⟨_, hperm.map _, hsublist.map _⟩
  -- both are sorted, so the elements of the one stand in the same order in the other
  have : Std.Antisymm fun a b : SignedPredicate => (compare a b).isLE = true :=
    ⟨fun _ _ hab hba => Std.LawfulEqOrd.eq_of_compare (Std.OrientedCmp.isLE_antisymm hab hba)⟩
  exact isSubsequence_iff_sublist.2 (List.sublist_of_subperm_of_pairwise hsubperm
    c.pairwise_abstraction d.pairwise_abstraction)

end Clause

/-! ### What the subsumption index proposes -/

namespace IndexedStore.Valid

variable {s : IndexedStore}

/-- The index proposes the members whose abstraction is accepted, in some order. -/
theorem perm_collect (hs : s.Valid) (accept : Abstraction → Bool) :
    (s.subsumption.collect accept).Perm
      (s.plain.members.filter fun e => accept e.clause.abstraction) := by
  have h := OrderedMap.perm_flatMap_entries _ _ hs.filed_subsumption accept
  rwa [List.map_id] at h

/-- **The index hides no member that subsumes a clause.** -/
theorem isSubsumedBy_eq (hs : s.Valid)
    (hcompound : ∀ e ∈ s.plain.members, e.clause.HasCompoundAtoms) (c : Clause) :
    isSubsumedBy c s = isSubsumedBy c s.plain := by
  simp only [isSubsumedBy, ClauseStore.subsuming, SubsumptionIndex.subsuming]
  rw [(hs.perm_collect _).any_eq, List.any_filter, Bool.eq_iff_iff, List.any_eq_true,
    List.any_eq_true]
  refine exists_congr fun e => and_congr_right fun he => ?_
  rw [Bool.and_eq_true]
  exact and_iff_right_of_imp (Clause.isSubsequence_of_subsumes (hcompound e he))

end IndexedStore.Valid

/-! ### Removing subsumed members -/

/-- The clause is another one than `c` and subsumed by it. -/
def Entry.makesRedundant (c d : Entry) : Bool := d.number ≠ c.number && c.clause.subsumes d.clause

theorem extractFrom?_of_mem {es : List Entry} {e : Entry} (he : e ∈ es) :
    ∃ d es', extractFrom? e.number es = some (d, es') := by
  induction es with
  | nil => simp at he
  | cons d es ih =>
    rw [extractFrom?]
    split_ifs with hd
    · exact ⟨d, es, rfl⟩
    · obtain ⟨d', es', h⟩ := ih ((List.mem_cons.1 he).resolve_left fun h => hd (h ▸ rfl))
      exact ⟨d', d :: es', by rw [h, Option.map_some]⟩

namespace PlainStore

variable {s : PlainStore}

theorem extract?_of_mem (hs : s.Valid) {e : Entry} (he : e ∈ s.members) :
    s.extract? e.number = some (e, ⟨without e.number s.members⟩) := by
  obtain ⟨d, es, h⟩ := extractFrom?_of_mem he
  obtain ⟨hd, hnumber, rfl⟩ := extractFrom?_spec hs h
  obtain rfl := eq_of_number_eq hs hd he hnumber
  rw [extract?, h, Option.map_some]

/-- **What is removed and what stays**, if the proposals are different members. -/
theorem removeSubsumedAmong_eq (c : Entry) {ds : List Entry} (hs : s.Valid)
    (hds : ∀ d ∈ ds, d ∈ s.members) (hnodup : ds.Nodup) :
    removeSubsumedAmong c ds s =
      (ds.filter c.makesRedundant,
        ⟨s.members.filter fun e => !(e ∈ ds && c.makesRedundant e)⟩) := by
  induction ds generalizing s with
  | nil => simp [removeSubsumedAmong]
  | cons d ds ih =>
    rw [List.nodup_cons] at hnodup
    have hd := hds d List.mem_cons_self
    rw [removeSubsumedAmong, ← Entry.makesRedundant]
    by_cases hred : c.makesRedundant d = true
    · have hother : ∀ e ∈ ds, e ∈ without d.number s.members := by
        intro e he
        refine mem_without.2 ⟨hds e (List.mem_cons_of_mem _ he), fun hnumber => ?_⟩
        obtain rfl := eq_of_number_eq hs (hds e (List.mem_cons_of_mem _ he)) hd hnumber
        exact hnodup.1 he
      have hvalid : Valid ⟨without d.number s.members⟩ := nodup_map_number_without _ hs
      rw [if_pos hred]
      simp only [ClauseStore.extract?, extract?_of_mem hs hd, ih hvalid hother hnodup.2]
      rw [List.filter_cons_of_pos hred, without, List.filter_filter]
      congr 2
      refine List.filter_congr fun e he => ?_
      have hiff : e.number = d.number ↔ e = d :=
        ⟨fun h => eq_of_number_eq hs he hd h, fun h => h ▸ rfl⟩
      by_cases hed : e = d
      · simp [hed, hred]
      · simp [hiff, hed]
    · rw [if_neg hred, ih hs (fun e he => hds e (List.mem_cons_of_mem _ he)) hnodup.2,
        List.filter_cons_of_neg hred]
      congr 2
      refine List.filter_congr fun e _ => ?_
      by_cases hed : e = d
      · simp [hed, hred]
      · simp [hed]

theorem removeSubsumed_eq (hs : s.Valid) (c : Entry) : removeSubsumed c s =
    (s.members.filter c.makesRedundant, ⟨s.members.filter fun e => !c.makesRedundant e⟩) := by
  refine (removeSubsumedAmong_eq c hs (fun _ hd => hd) (List.Nodup.of_map _ hs)).trans ?_
  congr 2
  refine List.filter_congr fun e he => ?_
  rw [decide_eq_true he, Bool.true_and]

end PlainStore

theorem IndexedStore.removeSubsumedAmong_plain (c : Entry) (ds : List Entry) (s : IndexedStore) :
    (removeSubsumedAmong c ds s).1 = (removeSubsumedAmong c ds s.plain).1 ∧
      (removeSubsumedAmong c ds s).2.plain = (removeSubsumedAmong c ds s.plain).2 := by
  induction ds generalizing s with
  | nil => exact ⟨rfl, rfl⟩
  | cons d ds ih =>
    rw [removeSubsumedAmong, removeSubsumedAmong]
    split_ifs
    · simp only [ClauseStore.extract?, IndexedStore.extract?]
      cases s.plain.extract? d.number with
      | none => exact ih s
      | some p =>
        obtain ⟨hremoved, hplain⟩ := ih ⟨p.2, s.resolution.erase p.1, s.subsumption.erase p.1⟩
        exact ⟨congrArg (p.1 :: ·) hremoved, hplain⟩
    · exact ih s

/-- **The index hides no redundant member.** -/
theorem IndexedStore.Valid.removeSubsumed_eq {s : IndexedStore} (hs : s.Valid) {c : Entry}
    (hc : c.clause.HasCompoundAtoms) :
    (removeSubsumed c s).1.Perm (removeSubsumed c s.plain).1 ∧
      (removeSubsumed c s).2.plain = (removeSubsumed c s.plain).2 := by
  let proposed := ClauseStore.subsumed s c.clause
  have hperm : proposed.Perm (s.plain.members.filter fun e =>
      isSubsequence c.clause.abstraction e.clause.abstraction) := hs.perm_collect _
  have hmem : ∀ e ∈ s.plain.members, c.makesRedundant e = true → e ∈ proposed := by
    intro e he hred
    rw [Entry.makesRedundant, Bool.and_eq_true] at hred
    exact hperm.mem_iff.2 (List.mem_filter.2 ⟨he, Clause.isSubsequence_of_subsumes hc hred.2⟩)
  have hnodup : s.plain.members.Nodup := List.Nodup.of_map _ hs.nodup
  have hplain := PlainStore.removeSubsumedAmong_eq c hs.nodup
    (fun e he => List.mem_of_mem_filter (hperm.mem_iff.1 he)) (hperm.nodup_iff.2 (hnodup.filter _))
  obtain ⟨hremoved, hremaining⟩ := removeSubsumedAmong_plain c proposed s
  rw [PlainStore.removeSubsumed_eq hs.nodup]
  constructor
  · change (removeSubsumedAmong c proposed s).1.Perm _
    rw [hremoved, hplain]
    refine (hperm.filter _).trans (.of_eq ?_)
    rw [List.filter_filter]
    refine List.filter_congr fun e he => ?_
    cases hred : c.makesRedundant e with
    | false => rfl
    | true => exact (List.mem_filter.1 (hperm.mem_iff.1 (hmem e he hred))).2
  · change (removeSubsumedAmong c proposed s).2.plain = _
    rw [hremaining, hplain]
    refine congrArg PlainStore.mk (List.filter_congr fun e he => ?_)
    cases hred : c.makesRedundant e with
    | false => simp
    | true => simp [hmem e he hred]

/-! ### Indexed and plain stores agree on subsumption -/

/-- An indexed store and a plain one give the same answers about subsumption. -/
structure IndexedStore.PrunesLike (s : IndexedStore) (t : PlainStore) : Prop where
  /-- A clause is subsumed by both or by none. -/
  forward : ∀ c, isSubsumedBy c s = isSubsumedBy c t
  /-- A clause removes the same members from both. -/
  removed : ∀ c : Entry, c.clause.HasCompoundAtoms →
    (removeSubsumed c s).1.Perm (removeSubsumed c t).1
  /-- It leaves the same members, in the same order. -/
  remaining : ∀ c : Entry, c.clause.HasCompoundAtoms →
    ClauseStore.toList (removeSubsumed c s).2 = ClauseStore.toList (removeSubsumed c t).2
  /-- These are the clause itself, if it is a member, and the members that it does not subsume. -/
  remaining_eq : ∀ c : Entry, ClauseStore.toList (removeSubsumed c t).2 =
    (ClauseStore.toList t).filter fun d => d.number = c.number ∨ c.clause.subsumes d.clause = false

/-- **The subsumption index hides no subsumption**, whatever clauses were added and taken out. -/
theorem indexed_subsumption_eq_plain (clauses : Nat → Clause)
    (hcompound : ∀ n, (clauses n).HasCompoundAtoms) (ops : List StoreOp)
    (hops : StoreOp.AllFit clauses PlainStore.empty ops) :
    (StoreOp.runAll clauses IndexedStore.empty ops).PrunesLike
      (StoreOp.runAll clauses PlainStore.empty ops) := by
  obtain ⟨hplain, hvalid, hfaithful⟩ := StoreOp.runAll_empty hops
  rw [hplain]
  generalize StoreOp.runAll clauses IndexedStore.empty ops = s at hvalid hfaithful
  exact {
    forward := hvalid.isSubsumedBy_eq fun e he => hfaithful e he ▸ hcompound e.number
    removed := fun c hc => (hvalid.removeSubsumed_eq hc).1
    remaining := fun c hc => congrArg PlainStore.members (hvalid.removeSubsumed_eq hc).2
    remaining_eq := fun c => by
      rw [PlainStore.removeSubsumed_eq hvalid.nodup]
      refine List.filter_congr fun d _ => ?_
      by_cases hd : d.number = c.number
      · simp [Entry.makesRedundant, hd]
      · simp [Entry.makesRedundant, hd] }

/-- Clauses with one predicate in both signs. -/
def chains : Nat → Clause
  | 0 => .of [.pos (.app "p" [.var "X", .var "Y"]), .neg (.app "p" [.var "Y", .var "X"])]
  | 1 => .of [.neg (.app "p" [.app "b" [], .app "a" []]), .pos (.app "q" []),
      .pos (.app "p" [.app "a" [], .app "b" []])]
  | 2 => .of [.neg (.app "p" [.app "a" [], .app "b" []]),
      .pos (.app "p" [.app "a" [], .app "b" []])]
  | _ => .of [.pos (.app "p" [.var "Z", .var "Z"]), .neg (.app "p" [.var "Z", .var "Z"])]

/-- One clause subsumes two others and itself; a clause with the same abstraction stays. -/
theorem indexed_subsumption_eq_plain_chains :
    let ops : List StoreOp := [.add 2, .add 1, .add 3, .extract 2, .add 0, .add 2]
    let s := StoreOp.runAll chains IndexedStore.empty ops
    (∀ n, (chains n).HasCompoundAtoms) ∧ StoreOp.AllFit chains PlainStore.empty ops ∧
      s.PrunesLike (StoreOp.runAll chains PlainStore.empty ops) ∧
      (removeSubsumed ⟨0, chains 0⟩ s).1.Perm [⟨1, chains 1⟩, ⟨3, chains 3⟩] ∧
      ClauseStore.toList (removeSubsumed ⟨0, chains 0⟩ s).2 = [⟨0, chains 0⟩, ⟨2, chains 2⟩] := by
  intro ops s
  have hcompound : ∀ n, (chains n).HasCompoundAtoms
    | 0 | 1 | 2 => by decide
    | _ + 3 => show (chains 3).HasCompoundAtoms by decide
  have hops : StoreOp.AllFit chains PlainStore.empty ops := by decide
  have hprunes := indexed_subsumption_eq_plain chains hcompound ops hops
  refine ⟨hcompound, hops, hprunes, (hprunes.removed ⟨0, chains 0⟩ (hcompound 0)).trans (.of_eq ?_),
    ?_⟩
  · decide +kernel
  · rw [hprunes.remaining ⟨0, chains 0⟩ (hcompound 0)]
    decide +kernel

end Refutation
