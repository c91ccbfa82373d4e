import Refutation.Archive
import Mathlib.Data.List.Nodup
import Mathlib.Logic.Relation
import Mathlib.Tactic.SplitIfs

/-!
# The order of a derivation

The clauses that a clause was derived from are listed in a depth-first visit of the archive.

* `Archive.Ordered` : every clause is listed once and after its parents.
* `Archive.visit_spec` : what a visit adds to a list.
* `Archive.ancestry_spec` : the ancestry of a clause is ordered.
-/

namespace Refutation

namespace Archive

variable {A : Archive} {n m : Nat} {ns seen : List Nat}

theorem lt_of_mem_parentsOf (h : m ∈ A.parentsOf n) : m < n := by
  unfold parentsOf at h
  split at h
  · simpa using (List.mem_filter.1 h).2
  · exact absurd h List.not_mem_nil

/-- The clause with number `m` is the one with number `n`, or `n` was derived from it. -/
def IsAncestor (A : Archive) (n m : Nat) : Prop :=
  Relation.ReflTransGen (fun n m => m ∈ A.parentsOf n) n m

theorem IsAncestor.le (h : A.IsAncestor n m) : m ≤ n := by
  induction h with
  | refl => exact Nat.le_refl n
  | tail _ hparent ih => exact Nat.le_trans (Nat.le_of_lt (lt_of_mem_parentsOf hparent)) ih

/-- Every clause is listed once and after its parents. -/
inductive Ordered (A : Archive) : List Nat → Prop
  /-- Nothing is listed. -/
  | nil : A.Ordered []
  /-- The parents of the last clause are listed. -/
  | snoc {l n} (h : A.Ordered l) (hnew : n ∉ l) (hparents : ∀ m ∈ A.parentsOf n, m ∈ l) :
    A.Ordered (l ++ [n])

namespace Ordered

variable {l earlier later : List Nat}

theorem nodup (h : A.Ordered l) : l.Nodup := by
  induction h with
  | nil => exact List.nodup_nil
  | snoc _ hnew _ ih => exact List.concat_eq_append ▸ ih.concat hnew

theorem mem_earlier (h : A.Ordered l) (hl : l = earlier ++ n :: later) (hm : m ∈ A.parentsOf n) :
    m ∈ earlier := by
  induction h generalizing later with
  | nil => simp at hl
  | @snoc l n' _ _ hparents ih =>
    -- the clause is the last one or stands in the list before it
    rcases List.eq_nil_or_concat later with rfl | ⟨later, x, rfl⟩
    · obtain ⟨rfl, hn⟩ := List.append_inj' hl rfl
      obtain rfl : n' = n := by simpa using hn
      exact hparents m hm
    · rw [List.concat_eq_append, ← List.cons_append, ← List.append_assoc] at hl
      exact ih (List.append_inj' hl rfl).1

end Ordered

/-- What a visit of the clauses `ns` makes of the list `seen`. -/
structure Visits (A : Archive) (ns seen visited : List Nat) : Prop where
  /-- The list stays ordered. -/
  ordered : A.Ordered seen → A.Ordered visited
  /-- Nothing is taken away. -/
  keeps : ∀ m ∈ seen, m ∈ visited
  /-- The clauses are listed. -/
  covers : ∀ n ∈ ns, n ∈ visited
  /-- What is new is one of the clauses or an ancestor. -/
  isAncestor : ∀ m ∈ visited, m ∈ seen ∨ ∃ n ∈ ns, A.IsAncestor n m

theorem Visits.trans {ns' visited visited' : List Nat} (h : A.Visits ns seen visited)
    (h' : A.Visits ns' visited visited') : A.Visits (ns ++ ns') seen visited' where
  ordered hseen := h'.ordered (h.ordered hseen)
  keeps m hm := h'.keeps m (h.keeps m hm)
  covers n hn := (List.mem_append.1 hn).elim (fun hn => h'.keeps n (h.covers n hn)) (h'.covers n)
  isAncestor m hm := by
    rcases h'.isAncestor m hm with hm | ⟨n, hn, hanc⟩
    · rcases h.isAncestor m hm with hm | ⟨n, hn, hanc⟩
      · exact .inl hm
      · exact .inr ⟨n, List.mem_append_left _ hn, hanc⟩
    · exact .inr ⟨n, List.mem_append_right _ hn, hanc⟩

theorem Visits.snoc {visited : List Nat} (h : A.Visits (A.parentsOf n) seen visited)
    (hn : n ∉ seen) :
    A.Visits [n] seen (visited ++ [n]) where
  ordered hseen := by
    refine .snoc (h.ordered hseen) (fun hmem => ?_) h.covers
    -- what a parent was derived from has a smaller number than the clause
    rcases h.isAncestor n hmem with hmem | ⟨p, hp, hanc⟩
    · exact hn hmem
    · exact Nat.lt_irrefl n (Nat.lt_of_le_of_lt hanc.le (lt_of_mem_parentsOf hp))
  keeps m hm := List.mem_append_left _ (h.keeps m hm)
  covers := by simp
  isAncestor m hm := by
    rcases List.mem_append.1 hm with hm | hm
    · rcases h.isAncestor m hm with hm | ⟨p, hp, hanc⟩
      · exact .inl hm
      · exact .inr ⟨n, List.mem_singleton_self n, .head hp hanc⟩
    · obtain rfl := List.mem_singleton.1 hm
      exact .inr ⟨m, List.mem_singleton_self m, .refl⟩

/-- **What a visit does**, if the numbers are below the bound. -/
theorem visit_spec {bound : Nat} (hns : ∀ n ∈ ns, n < bound) :
    A.Visits ns seen (A.visit bound ns seen) := by
  induction bound generalizing ns seen with
  | zero =>
    obtain rfl : ns = [] := List.eq_nil_iff_forall_not_mem.2 fun n hn =>
      Nat.not_lt_zero n (hns n hn)
    exact ⟨id, fun _ => id, List.forall_mem_nil _, fun _ => .inl⟩
  | succ bound ih =>
    induction ns generalizing seen with
    | nil => exact ⟨id, fun _ => id, List.forall_mem_nil _, fun _ => .inl⟩
    | cons n ns ihns =>
      have hfirst : A.Visits [n] seen
          (if n ∈ seen then seen else A.visit bound (A.parentsOf n) seen ++ [n]) := by
        split_ifs with hn
        · exact ⟨id, fun _ => id, by simpa using hn, fun _ => .inl⟩
        · have hbound : n ≤ bound := Nat.le_of_lt_succ (hns n List.mem_cons_self)
          exact (ih fun m hm => Nat.lt_of_lt_of_le (lt_of_mem_parentsOf hm) hbound).snoc hn
      exact hfirst.trans (ihns fun m hm => hns m (List.mem_cons_of_mem _ hm))

/-- **The ancestry of a clause is ordered**, and consists of its ancestors. -/
theorem ancestry_spec (root : Nat) : A.Ordered (A.ancestry root) ∧
    ∀ n ∈ A.ancestry root, A.IsAncestor root n := by
  have h : A.Visits [root] [] (A.ancestry root) := visit_spec (by simp)
  refine ⟨h.ordered .nil, fun n hn => ?_⟩
  obtain hn | ⟨m, hm, hanc⟩ := h.isAncestor n hn
  · exact absurd hn List.not_mem_nil
  · exact List.mem_singleton.1 hm ▸ hanc

theorem exists_ancestry_eq (root : Nat) : ∃ earlier, A.ancestry root = earlier ++ [root] :=
  ⟨A.visit root (A.parentsOf root) [], by simp [ancestry, visit]⟩

end Archive

end Refutation
