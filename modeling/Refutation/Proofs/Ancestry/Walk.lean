import Refutation.Proofs.Ancestry

/-!
# Walking through a derivation

`Archive.ancestry` recurses along a derivation.  A derivation can be deeper than a recursion may be,
and can then be walked through with a stack.  A clause on the stack is to be expanded or to be
listed; when it is expanded, it is put back to be listed, below those of its parents that have not
been visited.  So a clause can be on the stack many times, and one that has been visited may still
have to be listed.  Such a clause is never a parent that would be missing: it is waiting for its
ancestors, and a derivation has no circles.

* `Archive.Walk.next?` : one turn of the walk.
* `Archive.Settled` : **of the ancestors of a clause that is to be expanded, those visited are
  listed.**
* `Archive.exists_expands` : clauses on top of the stack are expanded and listed as `Archive.visit`
  does it.
* `ancestry_topological` : the walk ends with the ancestry, which lists a clause and its ancestors,
  each once, after its parents.
-/

namespace Refutation

namespace Archive

variable {A : Archive} {n : Nat} {ns seen visited order : List Nat}

/-! ### Parents and visits -/

/-- The numbers of the parents of a clause. -/
def parentNumbers (A : Archive) (n : Nat) : List Nat :=
  match A.get? n with
  | some c => c.parents.map (·.number)
  | none => []

theorem WellFormed.parentsOf_eq (hA : A.WellFormed) : A.parentsOf = A.parentNumbers := by
  funext n
  unfold parentsOf parentNumbers
  cases hc : A.get? n with
  | none => rfl
  | some c =>
    refine List.filter_eq_self.2 fun m hm => ?_
    obtain ⟨p, hp, rfl⟩ := List.mem_map.1 hm
    exact decide_eq_true (hA n c hc p hp)

theorem visit_singleton (bound n : Nat) (seen : List Nat) : A.visit (bound + 1) [n] seen =
    if n ∈ seen then seen else A.visit bound (A.parentsOf n) seen ++ [n] := rfl

theorem visit_cons (bound n : Nat) (ns seen : List Nat) :
    A.visit (bound + 1) (n :: ns) seen = A.visit (bound + 1) ns (A.visit (bound + 1) [n] seen) :=
  rfl

theorem visit_filter {bound : Nat} {p : Nat → Bool} (hns : ∀ n ∈ ns, n < bound)
    (hp : ∀ n ∈ ns, p n = false → n ∈ seen) :
    A.visit bound (ns.filter p) seen = A.visit bound ns seen := by
  cases bound with
  | zero => rfl
  | succ bound =>
    induction ns generalizing seen with
    | nil => rfl
    | cons n ns ih =>
      have hns' : ∀ m ∈ ns, m < bound + 1 := fun m hm => hns m (List.mem_cons_of_mem _ hm)
      have hp' : ∀ m ∈ ns, p m = false → m ∈ seen := fun m hm => hp m (List.mem_cons_of_mem _ hm)
      cases hpn : p n with
      | true =>
        have hfirst : A.Visits [n] seen (A.visit (bound + 1) [n] seen) :=
          visit_spec (by simpa using hns n List.mem_cons_self)
        rw [List.filter_cons_of_pos hpn, visit_cons, visit_cons bound n ns]
        exact ih (fun m hm hpm => hfirst.keeps m (hp' m hm hpm)) hns'
      | false =>
        have hskip : A.visit (bound + 1) [n] seen = seen := by
          rw [visit_singleton, if_pos (hp n List.mem_cons_self hpn)]
        rw [List.filter_cons_of_neg (by simp [hpn]), visit_cons, hskip]
        exact ih hp' hns'

/-! ### The walk -/

/-- What is still to be done with a clause. -/
inductive Task where
  /-- Go on with its parents, unless it has been visited. -/
  | expand (n : Nat)
  /-- List it. -/
  | list (n : Nat)

/-- A moment of the walk. -/
structure Walk where
  /-- What is still to be done, the next task first. -/
  stack : List Task
  /-- The clauses that have been expanded. -/
  visited : List Nat
  /-- The clauses that have been listed. -/
  order : List Nat

namespace Walk

/-- Nothing is visited, and the root is to be expanded. -/
def start (root : Nat) : Walk := ⟨[.expand root], [], []⟩

/-- One turn of the walk; there is none if nothing is left to be done. -/
def next? (A : Archive) : Walk → Option Walk
  | ⟨[], _, _⟩ => none
  | ⟨.list n :: stack, visited, order⟩ => some ⟨stack, visited, order ++ [n]⟩
  | ⟨.expand n :: stack, visited, order⟩ =>
    if n ∈ visited then some ⟨stack, visited, order⟩
    else
      let parents := (A.parentNumbers n).filter fun m => m ∉ n :: visited
      some ⟨parents.map .expand ++ .list n :: stack, n :: visited, order⟩

/-- Some number of turns leads from one moment to the other. -/
def Leads (A : Archive) : Walk → Walk → Prop :=
  Relation.ReflTransGen fun w w' => w.next? A = some w'

/-- A walk that has come to an end could not have gone on forever. -/
theorem Leads.acc {w last : Walk} (h : Leads A w last) (hlast : last.next? A = none) :
    Acc (fun w' w => w.next? A = some w') w := by
  induction h using Relation.ReflTransGen.head_induction_on with
  | refl =>
    constructor
    intro w' hw'
    rw [hlast] at hw'
    exact absurd hw' (Option.some_ne_none w').symm
  | head hnext _ ih =>
    constructor
    intro w' hw'
    obtain rfl := Option.some.inj (hnext.symm.trans hw')
    exact ih

end Walk

/-- What is known when the clauses `ns` are to be expanded: what is listed has been visited, and of
the ancestors of these clauses, those visited are listed. -/
structure Settled (A : Archive) (ns visited order : List Nat) : Prop where
  /-- What is listed has been visited. -/
  subset : ∀ m ∈ order, m ∈ visited
  /-- Ancestors that have been visited are listed. -/
  listed : ∀ n ∈ ns, ∀ m, A.IsAncestor n m → m ∈ visited → m ∈ order

/-- The parents of a clause that is being expanded are settled: the clause itself is not among their
ancestors. -/
theorem Settled.parents (h : A.Settled [n] visited order) :
    A.Settled (A.parentsOf n) (n :: visited) order where
  subset m hm := List.mem_cons_of_mem _ (h.subset m hm)
  listed p hp m hanc hm := by
    have hmn : m ≠ n := Nat.ne_of_lt (Nat.lt_of_le_of_lt hanc.le (lt_of_mem_parentsOf hp))
    exact h.listed n List.mem_cons_self m (.head hp hanc) ((List.mem_cons.1 hm).resolve_left hmn)

/-- The clauses `ns` on top of the stack are worked off: their ancestors and they themselves have
been visited, and are listed. -/
structure Expands (A : Archive) (ns visited order visited' order' : List Nat) : Prop where
  /-- The walk gets to what is below. -/
  leads : ∀ stack, Walk.Leads A ⟨ns.map .expand ++ stack, visited, order⟩ ⟨stack, visited', order'⟩
  /-- What is newly visited is listed. -/
  mem_visited : ∀ m, m ∈ visited' ↔ m ∈ visited ∨ m ∈ order'

theorem Expands.nil (h : ∀ m ∈ order, m ∈ visited) : A.Expands [] visited order visited order where
  leads _ := .refl
  mem_visited m := (or_iff_left_of_imp (h m)).symm

theorem Expands.trans {ns' visited₁ order₁ visited₂ order₂ : List Nat}
    (h : A.Expands ns visited order visited₁ order₁)
    (h' : A.Expands ns' visited₁ order₁ visited₂ order₂) (hkeeps : ∀ m ∈ order₁, m ∈ order₂) :
    A.Expands (ns ++ ns') visited order visited₂ order₂ where
  leads stack := by
    rw [List.map_append, List.append_assoc]
    exact (h.leads _).trans (h'.leads stack)
  mem_visited m := by
    rw [h'.mem_visited, h.mem_visited, or_assoc, or_iff_right_of_imp (hkeeps m)]

theorem expands_of_mem (h : ∀ m ∈ order, m ∈ visited) (hn : n ∈ visited) :
    A.Expands [n] visited order visited order where
  leads stack := by
    apply Relation.ReflTransGen.single
    simp [Walk.next?, hn]
  mem_visited m := (or_iff_left_of_imp (h m)).symm

/-- A clause that has not been visited is listed after its parents. -/
theorem expands_of_parents {visited' order' : List Nat} (hA : A.WellFormed) (hn : n ∉ visited)
    (h : A.Expands ((A.parentsOf n).filter fun m => m ∉ n :: visited)
      (n :: visited) order visited' order') :
    A.Expands [n] visited order visited' (order' ++ [n]) where
  leads stack := by
    have hexpand : Walk.next? A ⟨[n].map .expand ++ stack, visited, order⟩ =
        some ⟨((A.parentsOf n).filter fun m => m ∉ n :: visited).map .expand ++ .list n :: stack,
          n :: visited, order⟩ := by
      simp [Walk.next?, hn, hA.parentsOf_eq]
    exact .head hexpand ((h.leads _).tail rfl)
  mem_visited m := by
    rw [h.mem_visited, List.mem_cons, List.mem_append, List.mem_singleton]
    tauto

/-- The walk works off a clause as a visit does, if it works off its parents so. -/
theorem Settled.exists_expands {bound : Nat} (hA : A.WellFormed) (hn : n < bound + 1)
    (h : A.Settled [n] visited order)
    (hparents : ∀ ns visited order, (∀ m ∈ ns, m < bound) → A.Settled ns visited order →
      ∃ visited', A.Expands ns visited order visited' (A.visit bound ns order)) :
    ∃ visited', A.Expands [n] visited order visited' (A.visit (bound + 1) [n] order) := by
  rw [visit_singleton]
  split_ifs with hmem
  · exact ⟨visited, expands_of_mem h.subset (h.subset n hmem)⟩
  · have hunvisited : n ∉ visited := fun hv => hmem (h.listed n List.mem_cons_self n .refl hv)
    have hbound : ∀ m ∈ A.parentsOf n, m < bound := fun m hm =>
      Nat.lt_of_lt_of_le (lt_of_mem_parentsOf hm) (Nat.le_of_lt_succ hn)
    have hsettled := h.parents
    -- parents that have been visited are not put on the stack; a visit finds them listed
    have hvisit : A.visit bound ((A.parentsOf n).filter fun m => m ∉ n :: visited) order =
        A.visit bound (A.parentsOf n) order := by
      apply visit_filter hbound
      intro m hm hvisited
      exact hsettled.listed m hm m .refl (not_not.1 (of_decide_eq_false hvisited))
    obtain ⟨visited', hexpands⟩ := hparents _ _ _ (fun m hm => hbound m (List.mem_of_mem_filter hm))
      ⟨hsettled.subset, fun m hm => hsettled.listed m (List.mem_of_mem_filter hm)⟩
    rw [hvisit] at hexpands
    exact ⟨visited', expands_of_parents hA hunvisited hexpands⟩

/-- **The walk works off clauses as a visit does.** -/
theorem exists_expands {bound : Nat} (hA : A.WellFormed) (hns : ∀ n ∈ ns, n < bound)
    (h : A.Settled ns visited order) :
    ∃ visited', A.Expands ns visited order visited' (A.visit bound ns order) := by
  induction bound generalizing ns visited order with
  | zero =>
    obtain rfl : ns = [] := List.eq_nil_iff_forall_not_mem.2 fun n hn =>
      Nat.not_lt_zero n (hns n hn)
    exact ⟨visited, .nil h.subset⟩
  | succ bound ih =>
    induction ns generalizing visited order with
    | nil => exact ⟨visited, .nil h.subset⟩
    | cons n ns ihns =>
      have hn : n < bound + 1 := hns n List.mem_cons_self
      have hns' : ∀ m ∈ ns, m < bound + 1 := fun m hm => hns m (List.mem_cons_of_mem _ hm)
      have hfirst : A.Settled [n] visited order :=
        ⟨h.subset, fun m hm => h.listed m (List.mem_singleton.1 hm ▸ List.mem_cons_self)⟩
      obtain ⟨visited₁, hexpands⟩ := hfirst.exists_expands hA hn fun _ _ _ => ih
      have hvisits : A.Visits [n] order (A.visit (bound + 1) [n] order) :=
        visit_spec (by simpa using hn)
      have hsettled : A.Settled ns visited₁ (A.visit (bound + 1) [n] order) := by
        constructor
        · intro m hm
          exact (hexpands.mem_visited m).2 (.inr hm)
        · intro p hp m hanc hm
          rcases (hexpands.mem_visited m).1 hm with hm | hm
          · exact hvisits.keeps m (h.listed p (List.mem_cons_of_mem _ hp) m hanc hm)
          · exact hm
      obtain ⟨visited₂, hexpands'⟩ := ihns hns' hsettled
      exact ⟨visited₂, hexpands.trans hexpands' (visit_spec hns').keeps⟩

/-- **The walk ends with the ancestry.** -/
theorem exists_leads_ancestry (hA : A.WellFormed) (root : Nat) : ∃ visited,
    Walk.Leads A (.start root) ⟨[], visited, A.ancestry root⟩ := by
  have hroot : ∀ n ∈ [root], n < root + 1 := by simp
  have hsettled : A.Settled [root] [] [] :=
    ⟨List.forall_mem_nil _, fun _ _ m _ hm => absurd hm List.not_mem_nil⟩
  obtain ⟨visited, hexpands⟩ := exists_expands hA hroot hsettled
  exact ⟨visited, hexpands.leads []⟩

theorem mem_ancestry_of_isAncestor {root : Nat} (h : A.IsAncestor root n) :
    n ∈ A.ancestry root := by
  induction h with
  | refl =>
    obtain ⟨earlier, hlast⟩ := exists_ancestry_eq (A := A) root
    rw [hlast]
    simp
  | @tail m n _ hparent ih =>
    obtain ⟨earlier, later, hsplit⟩ := List.append_of_mem ih
    rw [hsplit]
    exact List.mem_append_left _ ((ancestry_spec root).1.mem_earlier hsplit hparent)

end Archive

/-- **The ancestry of a clause is a topological order.**  In a derivation without circles, whatever
clauses share parents or have one twice, the walk stops and returns the ancestry; this consists of
the clause and its ancestors, each listed once and after all of its parents, with the clause itself
as the last. -/
theorem ancestry_topological {A : Archive} (hA : A.WellFormed) (root : Nat) :
    Acc (fun w' w => w.next? A = some w') (Archive.Walk.start root) ∧
    (∃ last, Archive.Walk.Leads A (.start root) last ∧ last.next? A = none ∧
      last.order = A.ancestry root) ∧
    (∀ n, n ∈ A.ancestry root ↔ Relation.ReflTransGen (fun n m => m ∈ A.parentNumbers n) root n) ∧
    (A.ancestry root).Nodup ∧
    (∀ earlier n later, A.ancestry root = earlier ++ n :: later →
      ∀ m ∈ A.parentNumbers n, m ∈ earlier) ∧
    ∃ earlier, A.ancestry root = earlier ++ [root] := by
  obtain ⟨visited, hleads⟩ := Archive.exists_leads_ancestry hA root
  obtain ⟨hordered, hancestors⟩ := Archive.ancestry_spec (A := A) root
  refine ⟨hleads.acc rfl, ⟨_, hleads, rfl, rfl⟩, fun n => ?_, hordered.nodup, ?_,
    Archive.exists_ancestry_eq root⟩
  · rw [← hA.parentsOf_eq]
    exact ⟨hancestors n, Archive.mem_ancestry_of_isAncestor⟩
  · intro earlier n later hsplit m hm
    rw [← hA.parentsOf_eq] at hm
    exact hordered.mem_earlier hsplit hm

/-- A clause derived from others by resolution. -/
def resolventOf (name : String) (parents : List Parent) : Clause :=
  ⟨name, .plain, [], some (.inference "resolution" parents)⟩

/-- Four clauses: `b` is derived from `a` twice, `c` from `a` and `b`, and `d` from `c`, `b` and `c`
again. -/
def sharedParents : Archive :=
  ⟨#[⟨"a", .axiomatic, [], none⟩, resolventOf "b" [⟨0, "a"⟩, ⟨0, "a"⟩],
    resolventOf "c" [⟨0, "a"⟩, ⟨1, "b"⟩], resolventOf "d" [⟨2, "c"⟩, ⟨1, "b"⟩, ⟨2, "c"⟩]]⟩

theorem wellFormed_sharedParents : sharedParents.WellFormed := by
  intro n c hc p hp
  obtain ⟨hn, rfl⟩ := Array.getElem?_eq_some_iff.1 hc
  have hall : ∀ i : Fin 4, ∀ p ∈ (sharedParents.clauses[i.val]).parents, p.number < i.val := by
    decide
  exact hall ⟨n, hn⟩ p hp

/-- The parents `b` and `c` of `d` share the parent `a`, and `b` is also a parent of `c`. -/
theorem ancestry_topological_sharedParents :
    sharedParents.WellFormed ∧ sharedParents.ancestry 3 = [0, 1, 2, 3] ∧
    (∃ last, Archive.Walk.Leads sharedParents (.start 3) last ∧ last.next? sharedParents = none ∧
      last.order = [0, 1, 2, 3]) ∧
    Relation.ReflTransGen (fun n m => m ∈ sharedParents.parentNumbers n) 3 0 ∧
    ∀ m ∈ sharedParents.parentNumbers 3, m ∈ [0, 1, 2] := by
  obtain ⟨-, hleads, hmem, -, hparents, -⟩ := ancestry_topological wellFormed_sharedParents 3
  have horder : sharedParents.ancestry 3 = [0, 1, 2, 3] := by decide
  rw [horder] at hleads hmem hparents
  exact ⟨wellFormed_sharedParents, horder, hleads,
    (hmem 0).1 (by simp), hparents [0, 1, 2] 3 [] rfl⟩

end Refutation
