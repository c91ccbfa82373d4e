import Refutation.Proofs.Store.Lawful
import Refutation.Store.Indexed

/-!
# Indexed stores are lawful

Both indexes of an indexed store say what a scan of the members would say, in the same order.

* `ResolutionIndex.slot_insert`, `ResolutionIndex.slot_erase` : adding and removing a clause, slot
  by slot.
* `SubsumptionIndex.slot_insert`, `SubsumptionIndex.slot_erase` : the same for abstractions.
* `IndexedStore.Valid` : the indexes agree with the members; every operation keeps this.
-/

namespace Refutation

/-! ### The resolution index -/

/-- The positions of a clause's literals with a given sign and predicate. -/
def Entry.filedUnder (e : Entry) (k : SignedPredicate) : List (Entry × Nat) :=
  (e.clause.literals.zipIdx.filter fun p => p.1.signedPredicate = k).map fun p => (e, p.2)

theorem Entry.mem_filedUnder {e : Entry} {k : SignedPredicate} {p : Entry × Nat} :
    p ∈ e.filedUnder k ↔
      p.1 = e ∧ ∃ l, (l, p.2) ∈ e.clause.literals.zipIdx ∧ l.signedPredicate = k := by
  obtain ⟨d, i⟩ := p
  simp only [filedUnder, List.mem_map, List.mem_filter, decide_eq_true_eq, Prod.mk.injEq]
  constructor
  · rintro ⟨⟨l, i⟩, ⟨hl, hk⟩, rfl, rfl⟩
    exact ⟨rfl, l, hl, hk⟩
  · rintro ⟨rfl, l, hl, hk⟩
    exact ⟨(l, i), ⟨hl, hk⟩, rfl, rfl⟩

namespace ResolutionIndex

variable (x : ResolutionIndex)

theorem slot_file (e : Entry) (l : Literal) (i : Nat) (k : SignedPredicate) :
    (x.file e l i).slot k =
      if k = l.signedPredicate ∧ (x.slot k).any (isAt e.number i) = false then
        x.slot k ++ [(e, i)]
      else x.slot k := by
  simp only [slot, file, OrderedMap.get?_alter, Std.LawfulEqOrd.compare_eq_iff_eq]
  by_cases hk : k = l.signedPredicate
  · subst hk
    rcases Bool.eq_false_or_eq_true
      (((x.slots.get? l.signedPredicate).getD []).any (isAt e.number i)) with hany | hany
    · simp [hany]
    · simp [hany]
  · simp [hk]

theorem slot_unfile (e : Entry) (l : Literal) (i : Nat) (k : SignedPredicate) :
    (x.unfile e l i).slot k =
      if k = l.signedPredicate then (x.slot k).filter fun p => !isAt e.number i p
      else x.slot k := by
  simp only [slot, unfile, OrderedMap.get?_alter, Std.LawfulEqOrd.compare_eq_iff_eq]
  by_cases hk : k = l.signedPredicate
  · subst hk
    simp only [if_true]
    split <;> simp_all
  · simp [hk]

theorem isAt_iff {n i : Nat} {p : Entry × Nat} : isAt n i p = true ↔ p.1.number = n ∧ p.2 = i := by
  simp [isAt]

/-- Filing literals at different positions of one clause, none of which is filed yet. -/
theorem slot_foldl_file (e : Entry) {ps : List (Literal × Nat)} (hnodup : (ps.map (·.2)).Nodup)
    (hnew : ∀ k, ∀ p ∈ x.slot k, p.1.number = e.number → p.2 ∉ ps.map (·.2)) (k : SignedPredicate) :
    (ps.foldl (fun x p => x.file e p.1 p.2) x).slot k =
      x.slot k ++ (ps.filter fun p => p.1.signedPredicate = k).map fun p => (e, p.2) := by
  induction ps generalizing x with
  | nil => simp
  | cons p ps ih =>
    obtain ⟨l, i⟩ := p
    rw [List.map_cons, List.nodup_cons] at hnodup
    have hany : ∀ k, (x.slot k).any (isAt e.number i) = false := by
      intro k
      rw [Bool.eq_false_iff, ne_eq, List.any_eq_true]
      rintro ⟨q, hq, hat⟩
      obtain ⟨hnumber, rfl⟩ := isAt_iff.1 hat
      exact hnew k q hq hnumber (by simp)
    have hfile : ∀ k, (x.file e l i).slot k =
        if k = l.signedPredicate then x.slot k ++ [(e, i)] else x.slot k := by
      intro k
      rw [slot_file, hany k]
      simp
    rw [List.foldl_cons, ih (x.file e l i) hnodup.2, hfile]
    · by_cases hk : k = l.signedPredicate
      · simp [hk]
      · simp [hk, Ne.symm hk]
    · intro k' q hq hnumber hmem
      rw [hfile] at hq
      split_ifs at hq with hk'
      · rcases List.mem_append.1 hq with hq | hq
        · exact hnew k' q hq hnumber (List.mem_cons_of_mem _ hmem)
        · obtain rfl : q = (e, i) := by simpa using hq
          exact hnodup.1 hmem
      · exact hnew k' q hq hnumber (List.mem_cons_of_mem _ hmem)

theorem nodup_positions (c : Clause) : (c.literals.zipIdx.map (·.2)).Nodup := by
  rw [List.zipIdx_map_snd]
  exact List.nodup_range'

/-- **A new clause goes to the end of every slot it belongs to.** -/
theorem slot_insert {e : Entry} (hnew : ∀ k, ∀ p ∈ x.slot k, p.1.number ≠ e.number)
    (k : SignedPredicate) : (x.insert e).slot k = x.slot k ++ e.filedUnder k :=
  x.slot_foldl_file e (nodup_positions e.clause)
    (fun k p hp hnumber => absurd hnumber (hnew k p hp)) k

theorem slot_foldl_unfile (e : Entry) (ps : List (Literal × Nat)) (k : SignedPredicate) :
    (ps.foldl (fun x p => x.unfile e p.1 p.2) x).slot k = (x.slot k).filter fun q =>
      !ps.any fun p => p.1.signedPredicate = k && isAt e.number p.2 q := by
  induction ps generalizing x with
  | nil => simp
  | cons p ps ih =>
    rw [List.foldl_cons, ih, slot_unfile]
    by_cases hk : k = p.1.signedPredicate
    · simp only [hk, if_true, List.filter_filter, List.any_cons, decide_true, Bool.true_and,
        Bool.not_or]
      exact List.filter_congr fun q _ => Bool.and_comm _ _
    · simp [hk, Ne.symm hk]

/-- **Removing a clause leaves what is filed for the others.** -/
theorem slot_erase {members : List Entry} {e : Entry} (he : e ∈ members)
    (hnodup : (members.map (·.number)).Nodup) {k : SignedPredicate}
    (hslot : x.slot k = members.flatMap (·.filedUnder k)) :
    (x.erase e).slot k = (without e.number members).flatMap (·.filedUnder k) := by
  have hfiled : ∀ d ∈ members, ∀ q ∈ d.filedUnder k,
      (e.clause.literals.zipIdx.any fun p => p.1.signedPredicate = k && isAt e.number p.2 q) =
        decide (d.number = e.number) := by
    intro d hd q hq
    obtain ⟨rfl, l, hl, hk⟩ := Entry.mem_filedUnder.1 hq
    rw [Bool.eq_iff_iff, List.any_eq_true, decide_eq_true_eq]
    constructor
    · rintro ⟨p, -, hp⟩
      rw [Bool.and_eq_true, isAt_iff] at hp
      exact hp.2.1
    · intro hnumber
      obtain rfl := eq_of_number_eq hnodup hd he hnumber
      exact ⟨(l, q.2), hl, by simp [hk, isAt]⟩
  rw [erase, slot_foldl_unfile, hslot, without]
  clear hslot he hnodup
  induction members with
  | nil => rfl
  | cons d members ih =>
    rw [List.flatMap_cons, List.filter_append,
      ih fun d' hd' => hfiled d' (List.mem_cons_of_mem _ hd')]
    have hd := hfiled d List.mem_cons_self
    by_cases hnumber : d.number = e.number
    · rw [List.filter_cons_of_neg (by simpa using hnumber),
        List.filter_eq_nil_iff.2 fun q hq => by simp [hd q hq, hnumber], List.nil_append]
    · rw [List.filter_cons_of_pos (by simpa using hnumber), List.flatMap_cons,
        List.filter_eq_self.2 fun q hq => by simp [hd q hq, hnumber]]

theorem filedUnder_eq_partners (e : Entry) (l : Literal) :
    e.filedUnder ⟨l.negative, l.predicate⟩ = partnersIn [e] l := by
  have hkey : ∀ m : Literal,
      decide (m.signedPredicate = ⟨l.negative, l.predicate⟩) = m.isPartner l := by
    intro m
    rw [Bool.eq_iff_iff, decide_eq_true_eq]
    cases hm : m.negative <;> cases hl : l.negative <;>
      simp [Literal.signedPredicate, Literal.isPartner, Literal.isPositive, hm, hl]
  simp [Entry.filedUnder, partnersIn, hkey]

end ResolutionIndex

/-! ### The subsumption index -/

namespace SubsumptionIndex

variable (x : SubsumptionIndex)

/-- **A new clause goes to the end of the slot of its abstraction.** -/
theorem slot_insert {e : Entry} (hnew : ∀ d ∈ x.slot e.clause.abstraction, d.number ≠ e.number)
    (k : Abstraction) :
    (x.insert e).slot k = if k = e.clause.abstraction then x.slot k ++ [e] else x.slot k := by
  simp only [slot] at hnew
  simp only [slot, insert, OrderedMap.get?_alter, Std.LawfulEqOrd.compare_eq_iff_eq]
  by_cases hk : k = e.clause.abstraction
  · subst hk
    have hany : ((x.slots.get? e.clause.abstraction).getD []).any (·.number = e.number) =
        false := by
      simpa [List.any_eq_false] using hnew
    simp [hany]
  · simp [hk]

/-- **Removing a clause leaves the others.** -/
theorem slot_erase (e : Entry) (k : Abstraction) : (x.erase e).slot k =
    if k = e.clause.abstraction then without e.number (x.slot k) else x.slot k := by
  simp only [slot, erase, OrderedMap.get?_alter, Std.LawfulEqOrd.compare_eq_iff_eq, without]
  by_cases hk : k = e.clause.abstraction
  · subst hk
    simp only [if_true]
    split <;> simp_all
  · simp [hk]

theorem mem_collect {accept : Abstraction → Bool} {e : Entry} (h : e ∈ x.collect accept) :
    ∃ k, e ∈ x.slot k := by
  simp only [collect, List.mem_flatMap, List.mem_filter] at h
  obtain ⟨⟨k, es⟩, ⟨hmem, -⟩, he⟩ := h
  refine ⟨k, ?_⟩
  rw [slot, (OrderedMap.mem_entries_iff _).1 hmem]
  exact he

end SubsumptionIndex

/-! ### The store -/

namespace IndexedStore

/-- Both indexes say what a scan of the members would say. -/
structure Valid (s : IndexedStore) : Prop where
  /-- Different members have different numbers. -/
  nodup : s.plain.Valid
  /-- The resolution index files the literals of the members. -/
  resolution : ∀ k, s.resolution.slot k = s.plain.members.flatMap (·.filedUnder k)
  /-- The subsumption index files the members. -/
  subsumption : ∀ k, s.subsumption.slot k = s.plain.members.filter fun e => e.clause.abstraction = k

variable {s s' : IndexedStore} {e : Entry} {n : Nat}

theorem valid_empty : empty.Valid := ⟨PlainStore.valid_empty, fun _ => rfl, fun _ => rfl⟩

theorem Valid.insert (hs : s.Valid) (he : ∀ d ∈ s.plain.members, d.number ≠ e.number) :
    (s.insert e).Valid where
  nodup := nodup_map_number_append hs.nodup he
  resolution k := by
    have hnew : ∀ k, ∀ p ∈ s.resolution.slot k, p.1.number ≠ e.number := by
      intro k p hp
      rw [hs.resolution k, List.mem_flatMap] at hp
      obtain ⟨d, hd, hp⟩ := hp
      rw [(Entry.mem_filedUnder.1 hp).1]
      exact he d hd
    change (s.resolution.insert e).slot k = (s.plain.members ++ [e]).flatMap _
    rw [ResolutionIndex.slot_insert _ hnew, hs.resolution]
    simp
  subsumption k := by
    have hnew : ∀ d ∈ s.subsumption.slot e.clause.abstraction, d.number ≠ e.number := by
      intro d hd
      rw [hs.subsumption] at hd
      exact he d (List.mem_of_mem_filter hd)
    change (s.subsumption.insert e).slot k = (s.plain.members ++ [e]).filter _
    rw [SubsumptionIndex.slot_insert _ hnew, hs.subsumption]
    by_cases hk : k = e.clause.abstraction
    · simp [hk]
    · simp [hk, Ne.symm hk]

theorem Valid.extract? (hs : s.Valid) (h : s.extract? n = some (e, s')) :
    s'.Valid ∧ e ∈ s.plain.members ∧ e.number = n ∧
      s'.plain.members = without n s.plain.members := by
  obtain ⟨⟨e', plain⟩, hplain, heq⟩ := Option.map_eq_some_iff.1 h
  simp only [Prod.mk.injEq] at heq
  obtain ⟨rfl, rfl⟩ := heq
  obtain ⟨hvalid, hmem, rfl, hmembers⟩ := PlainStore.extract?_spec hs.nodup hplain
  refine ⟨⟨hvalid, fun k => ?_, fun k => ?_⟩, hmem, rfl, hmembers⟩
  · rw [hmembers]
    exact ResolutionIndex.slot_erase _ hmem hs.nodup (hs.resolution k)
  · have hcomm : ∀ p : Entry → Bool,
        without e'.number (s.plain.members.filter p) =
          (without e'.number s.plain.members).filter p :=
      fun p => by simp only [without, List.filter_filter, Bool.and_comm]
    rw [hmembers]
    change (s.subsumption.erase e').slot k = _
    rw [SubsumptionIndex.slot_erase, hs.subsumption]
    split_ifs with hk
    · exact hcomm _
    · -- the clause is filed elsewhere, so nothing is removed from this slot
      rw [← hcomm]
      refine (List.filter_eq_self.2 fun d hd => ?_).symm
      rw [List.mem_filter, decide_eq_true_eq] at hd
      rw [decide_eq_true_eq]
      intro hnumber
      obtain rfl := eq_of_number_eq hs.nodup hd.1 hmem hnumber
      exact hk hd.2.symm

theorem Valid.mem_of_mem_collect (hs : s.Valid) {accept : Abstraction → Bool}
    (he : e ∈ s.subsumption.collect accept) : e ∈ s.plain.members := by
  obtain ⟨k, hk⟩ := SubsumptionIndex.mem_collect _ he
  rw [hs.subsumption] at hk
  exact List.mem_of_mem_filter hk

instance : LawfulStore IndexedStore where
  Valid := Valid
  nodup hs := hs.nodup
  insert_spec hs he := ⟨hs.insert he, rfl⟩
  extract_spec hs h := hs.extract? h
  partners_eq {s} l hs := by
    change s.resolution.slot _ = _
    rw [hs.resolution]
    simp only [ResolutionIndex.filedUnder_eq_partners]
    simp [partnersIn, ClauseStore.toList]
  mem_of_mem_subsuming {s c e} hs (he : e ∈ s.subsumption.subsuming c) := hs.mem_of_mem_collect he
  mem_of_mem_subsumed {s c e} hs (he : e ∈ s.subsumption.subsumed c) := hs.mem_of_mem_collect he

end IndexedStore

end Refutation
