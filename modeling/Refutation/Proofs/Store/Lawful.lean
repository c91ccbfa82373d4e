import Refutation.Store.Plain
import Refutation.Store.Redundancy
import Mathlib.Data.List.Nodup

/-!
# Lawful stores

What a search relies on in a store, in terms of the list of its members.  The laws speak of stores
whose members have different numbers; each kind of store has a condition `Valid` of its own that its
operations keep.

* `LawfulStore`, `LawfulQueue` : the laws.
* `isSubsumedBy_spec`, `removeSubsumed_spec` : subsumption against a lawful store.
-/

namespace Refutation

/-- The clauses with another number. -/
def without (n : Nat) (es : List Entry) : List Entry := es.filter fun e => e.number ≠ n

theorem mem_without {n : Nat} {es : List Entry} {e : Entry} :
    e ∈ without n es ↔ e ∈ es ∧ e.number ≠ n := by
  simp [without]

theorem without_sublist (n : Nat) (es : List Entry) : (without n es).Sublist es :=
  List.filter_sublist

/-- In a list of different numbers a clause is determined by its number. -/
theorem eq_of_number_eq {es : List Entry} (hnodup : (es.map (·.number)).Nodup) {d e : Entry}
    (hd : d ∈ es) (he : e ∈ es) (h : d.number = e.number) : d = e :=
  List.inj_on_of_nodup_map hnodup hd he h

/-- In a list of different numbers only one clause has the number of a member. -/
theorem length_without_add_one {es : List Entry} (hnodup : (es.map (·.number)).Nodup) {e : Entry}
    (he : e ∈ es) : (without e.number es).length + 1 = es.length := by
  have hcount : (es.map (·.number)).count e.number = 1 :=
    List.count_eq_one_of_mem hnodup (List.mem_map_of_mem he)
  rw [List.count, List.countP_map] at hcount
  have hlength := List.length_eq_countP_add_countP (· == e.number) (l := es.map (·.number))
  rw [List.length_map, List.countP_map, List.countP_map, hcount,
    List.countP_eq_length_filter] at hlength
  rw [hlength, without, Nat.add_comm]
  simp [Function.comp_def]

/-- The laws of a store. -/
class LawfulStore (σ : Type) [ClauseStore σ] where
  /-- The store is one that its operations produce. -/
  Valid : σ → Prop
  /-- Different members have different numbers. -/
  nodup {s : σ} : Valid s → ((ClauseStore.toList s).map (·.number)).Nodup
  /-- A clause with a new number is added as the youngest member. -/
  insert_spec {s : σ} {e : Entry} : Valid s → (∀ d ∈ ClauseStore.toList s, d.number ≠ e.number) →
    Valid (ClauseStore.insert s e) ∧
      ClauseStore.toList (ClauseStore.insert s e) = ClauseStore.toList s ++ [e]
  /-- Taking out a clause removes it and nothing else. -/
  extract_spec {s s' : σ} {n : Nat} {e : Entry} : Valid s →
    ClauseStore.extract? s n = some (e, s') →
      Valid s' ∧ e ∈ ClauseStore.toList s ∧ e.number = n ∧
        ClauseStore.toList s' = without n (ClauseStore.toList s)
  /-- The partners of a literal are those that a scan of the members finds. -/
  partners_eq {s : σ} (l : Literal) : Valid s →
    ClauseStore.partners s l = partnersIn (ClauseStore.toList s) l
  /-- Candidates for subsuming a clause are members. -/
  mem_of_mem_subsuming {s : σ} {c : Clause} {e : Entry} : Valid s →
    e ∈ ClauseStore.subsuming s c → e ∈ ClauseStore.toList s
  /-- Candidates for being subsumed by a clause are members. -/
  mem_of_mem_subsumed {s : σ} {c : Clause} {e : Entry} : Valid s →
    e ∈ ClauseStore.subsumed s c → e ∈ ClauseStore.toList s

/-- The laws of a queue. -/
class LawfulQueue (σ : Type) [ClauseQueue σ] extends LawfulStore σ where
  /-- Only an empty queue has nothing to give. -/
  next_none {s : σ} : Valid s → ClauseQueue.next? s = none → ClauseStore.toList s = []
  /-- The queue gives a member and removes it and nothing else. -/
  next_some {s s' : σ} {e : Entry} : Valid s → ClauseQueue.next? s = some (e, s') →
    Valid s' ∧ e ∈ ClauseStore.toList s ∧
      ClauseStore.toList s' = without e.number (ClauseStore.toList s)

/-! ### Subsumption against a store -/

section Redundancy

variable {σ : Type} [ClauseStore σ] [LawfulStore σ] {s : σ}

open LawfulStore

/-- A clause that is subsumed by the store is subsumed by a member. -/
theorem isSubsumedBy_spec (hs : Valid s) {c : Clause} (h : isSubsumedBy c s = true) :
    ∃ m ∈ ClauseStore.toList s, m.clause.subsumes c = true := by
  obtain ⟨m, hm, hsub⟩ := List.any_eq_true.1 h
  exact ⟨m, mem_of_mem_subsuming hs hm, hsub⟩

theorem removeSubsumedAmong_spec (hs : Valid s) (c : Entry) (ds : List Entry)
    (hds : ∀ d ∈ ds, ∀ e ∈ ClauseStore.toList s, e.number = d.number → e = d) :
    Valid (removeSubsumedAmong c ds s).2 ∧
      (ClauseStore.toList (removeSubsumedAmong c ds s).2).Sublist (ClauseStore.toList s) ∧
      ∀ e ∈ ClauseStore.toList s, e ∈ ClauseStore.toList (removeSubsumedAmong c ds s).2 ∨
        c.clause.subsumes e.clause = true := by
  induction ds generalizing s with
  | nil => exact ⟨hs, .refl _, fun e he => .inl he⟩
  | cons d ds ih =>
    have hrest := fun d' hd' => hds d' (List.mem_cons_of_mem _ hd')
    rw [removeSubsumedAmong]
    split_ifs with hd
    · simp only [ne_eq, Bool.and_eq_true, decide_eq_true_eq] at hd
      cases hx : ClauseStore.extract? s d.number with
      | none => exact ih hs hrest
      | some p =>
        obtain ⟨e, s'⟩ := p
        obtain ⟨hs', he, hnumber, hlist⟩ := extract_spec hs hx
        have hsublist : (ClauseStore.toList s').Sublist (ClauseStore.toList s) :=
          hlist ▸ without_sublist _ _
        obtain ⟨hvalid, hsub, hcover⟩ := ih hs' fun d' hd' e' he' =>
          hrest d' hd' e' (hsublist.subset he')
        refine ⟨hvalid, hsub.trans hsublist, fun e' he' => ?_⟩
        by_cases hn : e'.number = d.number
        · have hed := hds d List.mem_cons_self e' he' hn
          exact .inr (hed ▸ hd.2)
        · exact hcover e' (hlist ▸ mem_without.2 ⟨he', hn⟩)
    · exact ih hs hrest

/-- **Only clauses that the given one subsumes are removed.** -/
theorem removeSubsumed_spec (hs : Valid s) (c : Entry) :
    Valid (removeSubsumed c s).2 ∧
      (ClauseStore.toList (removeSubsumed c s).2).Sublist (ClauseStore.toList s) ∧
      ∀ e ∈ ClauseStore.toList s, e ∈ ClauseStore.toList (removeSubsumed c s).2 ∨
        c.clause.subsumes e.clause = true :=
  removeSubsumedAmong_spec hs c _ fun _ hd _ he hn =>
    eq_of_number_eq (nodup hs) he (mem_of_mem_subsumed hs hd) hn

theorem length_removeSubsumedAmong (hs : Valid s) (c : Entry) (ds : List Entry) :
    (ClauseStore.toList (removeSubsumedAmong c ds s).2).length +
      (removeSubsumedAmong c ds s).1.length =
      (ClauseStore.toList s).length := by
  induction ds generalizing s with
  | nil => rfl
  | cons d ds ih =>
    rw [removeSubsumedAmong]
    split_ifs
    · cases hx : ClauseStore.extract? s d.number with
      | none => exact ih hs
      | some p =>
        obtain ⟨e, s'⟩ := p
        obtain ⟨hs', he, hnumber, hlist⟩ := extract_spec hs hx
        have hremoved := length_without_add_one (nodup hs) he
        have hrest := ih hs'
        rw [hlist, ← hnumber] at hrest
        rw [← hremoved, ← hrest]
        rfl
    · exact ih hs

theorem length_removeSubsumed (hs : Valid s) (c : Entry) :
    (ClauseStore.toList (removeSubsumed c s).2).length + (removeSubsumed c s).1.length =
      (ClauseStore.toList s).length :=
  length_removeSubsumedAmong hs c _

end Redundancy

/-! ### Plain stores -/

theorem extractFrom?_spec {n : Nat} {es es' : List Entry} {e : Entry}
    (hnodup : (es.map (·.number)).Nodup) (h : extractFrom? n es = some (e, es')) :
    e ∈ es ∧ e.number = n ∧ es' = without n es := by
  induction es generalizing e es' with
  | nil => simp [extractFrom?] at h
  | cons d es ih =>
    rw [List.map_cons, List.nodup_cons] at hnodup
    rw [extractFrom?] at h
    split_ifs at h with hd
    · simp only [Option.some.injEq, Prod.mk.injEq] at h
      obtain ⟨rfl, rfl⟩ := h
      refine ⟨List.mem_cons_self, hd, ?_⟩
      have hall : ∀ e ∈ es, e.number ≠ n := by
        rintro e he rfl
        exact hnodup.1 (List.mem_map.2 ⟨e, he, hd.symm⟩)
      rw [without, List.filter_cons_of_neg (by simpa using hd)]
      exact (List.filter_eq_self.2 (by simpa using hall)).symm
    · obtain ⟨⟨e', es''⟩, hrec, heq⟩ := Option.map_eq_some_iff.1 h
      simp only [Prod.mk.injEq] at heq
      obtain ⟨rfl, rfl⟩ := heq
      obtain ⟨hmem, hnumber, rfl⟩ := ih hnodup.2 hrec
      refine ⟨List.mem_cons_of_mem _ hmem, hnumber, ?_⟩
      rw [without, without, List.filter_cons_of_pos (by simpa using hd)]

theorem nodup_map_number_append {es : List Entry} {e : Entry} (hnodup : (es.map (·.number)).Nodup)
    (he : ∀ d ∈ es, d.number ≠ e.number) : ((es ++ [e]).map (·.number)).Nodup := by
  rw [List.map_append, List.nodup_append]
  refine ⟨hnodup, by simp, ?_⟩
  simpa using he

theorem nodup_map_number_without {es : List Entry} (n : Nat)
    (hnodup : (es.map (·.number)).Nodup) : ((without n es).map (·.number)).Nodup :=
  hnodup.sublist ((without_sublist n es).map _)

namespace PlainStore

/-- Different members have different numbers. -/
def Valid (s : PlainStore) : Prop := (s.members.map (·.number)).Nodup

theorem extract?_spec {s s' : PlainStore} {n : Nat} {e : Entry} (hs : s.Valid)
    (h : s.extract? n = some (e, s')) :
    s'.Valid ∧ e ∈ s.members ∧ e.number = n ∧ s'.members = without n s.members := by
  obtain ⟨⟨e', es⟩, hextract, heq⟩ := Option.map_eq_some_iff.1 h
  simp only [Prod.mk.injEq] at heq
  obtain ⟨rfl, rfl⟩ := heq
  obtain ⟨hmem, hnumber, rfl⟩ := extractFrom?_spec hs hextract
  exact ⟨nodup_map_number_without n hs, hmem, hnumber, rfl⟩

theorem valid_empty : empty.Valid := List.nodup_nil

instance : LawfulQueue PlainStore where
  Valid := Valid
  nodup hs := hs
  insert_spec hs he := ⟨nodup_map_number_append hs he, rfl⟩
  extract_spec hs h := extract?_spec hs h
  partners_eq _ _ := rfl
  mem_of_mem_subsuming _ h := h
  mem_of_mem_subsumed _ h := h
  next_none {s} _ h := by
    cases hm : s.members with
    | nil => exact hm
    | cons e es => simp [ClauseQueue.next?, extractFirst?, hm] at h
  next_some {s s' e} hs h := by
    cases hm : s.members with
    | nil => simp [ClauseQueue.next?, extractFirst?, hm] at h
    | cons e' es =>
      simp only [ClauseQueue.next?, extractFirst?, hm, Option.some.injEq, Prod.mk.injEq] at h
      obtain ⟨rfl, rfl⟩ := h
      -- the oldest member is the first with its number
      have hextract : extractFrom? e'.number s.members = some (e', es) := by simp [hm, extractFrom?]
      obtain ⟨hmem, -, hes⟩ := extractFrom?_spec hs hextract
      refine ⟨?_, hmem, hes⟩
      have := nodup_map_number_without e'.number hs
      rwa [← hes] at this

end PlainStore

end Refutation
