import Refutation.Clause.Key
import Refutation.Proofs.Problem.UniqueReading
import Refutation.Proofs.Problem.Writable
import Refutation.Proofs.Variant

/-!
# Which clauses share a key

A key is made in three steps: the literals are sorted by shape, their variables are numbered, and
the result is printed.  Printing loses nothing, numbering loses exactly the names of the variables,
and sorting loses exactly the order of literals of different shapes.  So two clauses share a key if
one renaming turns the literals of each shape of the one, in order, into those of the other.
Literals of one shape keep their order, and a clause can have another key than the same clause with
these literals in another order.

* `numbered_eq_iff` : numbering loses the names of the variables.
* `sortBy_eq_iff` : sorting loses the order of literals of different shapes.
* `Clause.key_eq_iff` : **the clauses that share a key.**
* `key_identifies_variants` : clauses that share a key are variants up to the order of their
  literals, and renaming the variables keeps the key.
* `key_of_reordered` : the reorderings that keep the key.
-/

namespace Refutation

variable {as bs : List SignedAtom} {ρ : String → String}

/-! ### Numbering variables -/

/-- The variables in order of first occurrence. -/
def varsOf (as : List SignedAtom) : List String := (as.flatMap (·.atom.occurrences)).eraseDups

/-- The name of the variable with number `n`. -/
def keyName (n : Nat) : String := "X" ++ toString n

/-- The signed atoms with their variables numbered in order of first occurrence. -/
def numbered (as : List SignedAtom) : List SignedAtom :=
  as.map (·.subst fun x => .var (keyName ((varsOf as).idxOf x)))

theorem mem_varsOf {x : String} : x ∈ varsOf as ↔ ∃ a ∈ as, x ∈ a.atom.occurrences := by
  simp [varsOf]

theorem keyName_injective : Function.Injective keyName := by
  intro m n h
  exact toString_inj.1 ((String.append_right_inj _).1 h)

theorem mem_varsOf_numbered {z : String} :
    z ∈ varsOf (numbered as) ↔ ∃ x ∈ varsOf as, z = keyName ((varsOf as).idxOf x) := by
  refine ⟨fun h => ?_, ?_⟩
  · obtain ⟨_, ha, hz⟩ := mem_varsOf.1 h
    obtain ⟨b, hb, rfl⟩ := List.mem_map.1 ha
    obtain ⟨x, hx, hz⟩ := Term.mem_occurrences_subst.1 hz
    exact ⟨x, mem_varsOf.2 ⟨b, hb, hx⟩, List.mem_singleton.1 hz⟩
  · rintro ⟨x, hx, rfl⟩
    obtain ⟨a, ha, hx⟩ := mem_varsOf.1 hx
    refine mem_varsOf.2 ⟨_, List.mem_map_of_mem ha, ?_⟩
    exact Term.mem_occurrences_subst.2 ⟨x, hx, List.mem_singleton_self _⟩

theorem isVariableWord_of_mem_numbered :
    ∀ a ∈ numbered as, ∀ x ∈ a.atom.occurrences, Symbol.isVariableWord x = true := by
  intro a ha x hx
  obtain ⟨y, -, rfl⟩ := mem_varsOf_numbered.1 (mem_varsOf.2 ⟨a, ha, hx⟩)
  exact Symbol.isVariableWord_append_toString (by decide) _

theorem map_numbered (ys : List String) :
    (numbered as).map (·.subst fun z => .var (ys.getD (Function.invFun keyName z) "")) =
      as.map (·.subst fun x => .var (ys.getD ((varsOf as).idxOf x) "")) := by
  rw [numbered, List.map_map]
  refine List.map_congr_left fun a _ => ?_
  rw [Function.comp_apply, SignedAtom.subst_subst]
  simp only [Term.subst, Function.leftInverse_invFun keyName_injective _]

theorem getD_idxOf {x : String} {xs : List String} (h : x ∈ xs) : xs.getD (xs.idxOf x) "" = x := by
  simp [List.getD_eq_getElem?_getD, List.getElem?_idxOf h]

/-- A list of signed atoms is what its numbered form gives with its own variables in place of the
numbers. -/
theorem map_numbered_varsOf :
    (numbered as).map (·.subst fun z => .var ((varsOf as).getD (Function.invFun keyName z) "")) =
      as := by
  rw [map_numbered]
  conv_rhs => rw [← List.map_id as]
  refine List.map_congr_left fun a ha => ?_
  refine (SignedAtom.subst_congr fun x hx => ?_).trans a.subst_var
  rw [getD_idxOf (mem_varsOf.2 ⟨a, ha, hx⟩)]

theorem numbered_map_perm (π : Equiv.Perm String) :
    numbered (as.map (·.subst fun x => .var (π x))) = numbered as := by
  have hvars : varsOf (as.map (·.subst fun x => .var (π x))) = (varsOf as).map π := by
    rw [varsOf, varsOf, ← eraseDups_map π.injective, List.flatMap_map, List.map_flatMap]
    exact congrArg _ (List.flatMap_congr fun a _ => a.atom.occurrences_rename π)
  rw [numbered, numbered, hvars, List.map_map]
  refine List.map_congr_left fun a _ => ?_
  rw [Function.comp_apply, SignedAtom.subst_subst]
  simp only [Term.subst, idxOf_map π.injective]

/-- The variables of two lists that are numbered alike correspond. -/
theorem exists_idxOf_eq (h : numbered as = numbered bs) {x : String} (hx : x ∈ varsOf as) :
    ∃ y ∈ varsOf bs, (varsOf bs).idxOf y = (varsOf as).idxOf x := by
  have hnumber := mem_varsOf_numbered.2 ⟨x, hx, rfl⟩
  rw [h] at hnumber
  obtain ⟨y, hy, heq⟩ := mem_varsOf_numbered.1 hnumber
  exact ⟨y, hy, (keyName_injective heq).symm⟩

/-- **Numbering loses exactly the names of the variables.** -/
theorem numbered_eq_iff : numbered as = numbered bs ↔
    ∃ ρ : String → String, Set.InjOn ρ {x | x ∈ varsOf as} ∧
      as.map (·.subst fun x => .var (ρ x)) = bs := by
  refine ⟨fun h => ?_, ?_⟩
  · -- a variable goes to the one that has its number in the other list
    refine ⟨fun x => (varsOf bs).getD ((varsOf as).idxOf x) "", fun x hx x' hx' heq => ?_, ?_⟩
    · obtain ⟨y, hy, hxy⟩ := exists_idxOf_eq h hx
      obtain ⟨y', hy', hxy'⟩ := exists_idxOf_eq h hx'
      simp only [← hxy, ← hxy', getD_idxOf hy, getD_idxOf hy'] at heq
      subst heq
      exact (List.idxOf_inj hx).1 (hxy.symm.trans hxy')
    · rw [← map_numbered, h, map_numbered_varsOf]
  · rintro ⟨ρ, hρ, rfl⟩
    obtain ⟨π, hπ⟩ := exists_perm_of_injOn hρ
    rw [← numbered_map_perm π]
    refine congrArg _ (List.map_congr_left fun a ha => SignedAtom.subst_congr fun x hx => ?_)
    rw [hπ x (mem_varsOf.2 ⟨a, ha, hx⟩)]

/-! ### Sorting -/

section Sorting

variable {α β : Type} {f : α → String} {xs ys : List α}

/-- The list in increasing order of `f`; members with the same value keep their order. -/
def sortBy (f : α → String) (xs : List α) : List α := xs.mergeSort fun a b => decide (f a ≤ f b)

theorem sortBy_trans (f : α → String) (a b c : α) :
    decide (f a ≤ f b) = true → decide (f b ≤ f c) = true → decide (f a ≤ f c) = true := by
  simp only [decide_eq_true_eq]
  exact String.le_trans

theorem sortBy_total (f : α → String) (a b : α) :
    (decide (f a ≤ f b) || decide (f b ≤ f a)) = true := by
  simp only [Bool.or_eq_true, decide_eq_true_eq]
  exact String.le_total _ _

theorem sortBy_perm (f : α → String) (xs : List α) : (sortBy f xs).Perm xs :=
  List.mergeSort_perm xs _

theorem pairwise_sortBy (f : α → String) (xs : List α) : (sortBy f xs).Pairwise (f · ≤ f ·) :=
  (List.pairwise_mergeSort (sortBy_trans f) (sortBy_total f) xs).imp of_decide_eq_true

theorem map_sortBy (f : β → String) (g : α → β) (xs : List α) :
    (sortBy (fun a => f (g a)) xs).map g = sortBy f (xs.map g) :=
  List.map_mergeSort fun _ _ _ _ => rfl

theorem filter_sortBy (f : α → String) (xs : List α) (s : String) :
    (sortBy f xs).filter (f · = s) = xs.filter (f · = s) := by
  have hequal : (xs.filter (f · = s)).Pairwise fun a b => decide (f a ≤ f b) = true := by
    refine List.pairwise_of_forall_mem_list fun a ha b hb => ?_
    simp only [List.mem_filter, decide_eq_true_eq] at ha hb
    simp [ha.2, hb.2]
  have hsub : (xs.filter (f · = s)).Sublist (sortBy f xs) :=
    List.sublist_mergeSort (sortBy_trans f) (sortBy_total f) hequal List.filter_sublist
  have hfilter := hsub.filter (f · = s)
  simp only [List.filter_filter, Bool.and_self] at hfilter
  exact (hfilter.eq_of_length ((sortBy_perm f xs).filter _).length_eq.symm).symm

/-- Two sorted lists are equal if they have the same members, in the same order, for each value. -/
theorem eq_of_filter_eq (hxs : xs.Pairwise (f · ≤ f ·)) (hys : ys.Pairwise (f · ≤ f ·))
    (h : ∀ s, xs.filter (f · = s) = ys.filter (f · = s)) : xs = ys := by
  have hmem : ∀ {x} {xs ys : List α}, xs.filter (f · = f x) = ys.filter (f · = f x) → x ∈ xs →
      x ∈ ys := by
    intro x xs ys h hx
    have hfilter : x ∈ xs.filter (f · = f x) := by simpa using hx
    exact (List.mem_filter.1 (h ▸ hfilter)).1
  have hle : ∀ {x z : α} {zs : List α}, (x :: zs).Pairwise (f · ≤ f ·) → z ∈ x :: zs →
      f x ≤ f z := by
    rintro x z zs hzs (_ | ⟨_, hz⟩)
    · exact String.le_refl _
    · exact (List.pairwise_cons.1 hzs).1 z hz
  induction xs generalizing ys with
  | nil =>
    cases ys with
    | nil => rfl
    | cons y ys => cases hmem (h (f y)).symm List.mem_cons_self
  | cons x xs ih =>
    cases ys with
    | nil => cases hmem (h (f x)) List.mem_cons_self
    | cons y ys =>
      have heq : f x = f y := String.le_antisymm (hle hxs (hmem (h (f y)).symm List.mem_cons_self))
        (hle hys (hmem (h (f x)) List.mem_cons_self))
      have hfirst := h (f x)
      rw [List.filter_cons_of_pos (by simp), List.filter_cons_of_pos (by simp [heq])] at hfirst
      obtain ⟨rfl, -⟩ := List.cons.inj hfirst
      refine congrArg _ (ih hxs.tail hys.tail fun s => ?_)
      by_cases hs : f x = s
      · simpa [hs] using h s
      · simpa [hs] using h s

/-- **Sorting loses exactly the order of members with different values.** -/
theorem sortBy_eq_iff :
    sortBy f xs = sortBy f ys ↔ ∀ s, xs.filter (f · = s) = ys.filter (f · = s) := by
  refine ⟨fun h s => ?_, fun h => ?_⟩
  · rw [← filter_sortBy f xs, h, filter_sortBy]
  · refine eq_of_filter_eq (pairwise_sortBy f xs) (pairwise_sortBy f ys) fun s => ?_
    rw [filter_sortBy, filter_sortBy, h]

end Sorting

/-! ### Keys -/

/-- The text with every variable written as an underscore. -/
def SignedAtom.shape (a : SignedAtom) : String := (a.subst fun _ => .var "_").toLiteral.render

theorem SignedAtom.shape_toSignedAtom (l : Literal) : l.toSignedAtom.shape = l.shape := rfl

theorem SignedAtom.shape_rename (ρ : String → String) (a : SignedAtom) :
    (a.subst fun x => .var (ρ x)).shape = a.shape := by
  rw [shape, subst_subst]
  rfl

theorem sortBy_shape_rename (ρ : String → String) (as : List SignedAtom) :
    sortBy SignedAtom.shape (as.map (·.subst fun x => .var (ρ x))) =
      (sortBy SignedAtom.shape as).map (·.subst fun x => .var (ρ x)) := by
  rw [← map_sortBy]
  simp only [SignedAtom.shape_rename]

theorem perm_of_filter_shape_eq (h : ∀ s, as.filter (·.shape = s) = bs.filter (·.shape = s)) :
    as.Perm bs := by
  have hsorted : sortBy SignedAtom.shape as = sortBy SignedAtom.shape bs := sortBy_eq_iff.2 h
  exact (sortBy_perm SignedAtom.shape as).symm.trans (hsorted ▸ sortBy_perm _ _)

namespace Clause

variable {c d : Clause}

/-- The signed atoms that a key prints. -/
def normalForm (c : Clause) : List SignedAtom := numbered (sortBy SignedAtom.shape c.signedAtoms)

theorem numberVars_eq (ls : List Literal) :
    numberVars ls = (numbered (ls.map (·.toSignedAtom))).map (·.toLiteral) := by
  rw [numbered, varsOf, List.map_map, List.map_map, List.flatMap_map]
  rfl

theorem key_eq (c : Clause) :
    c.key = (Clause.of (c.normalForm.map (·.toLiteral))).renderLiterals := by
  have hsorted : (sortedByShape c.literals).map (·.toSignedAtom) =
      sortBy SignedAtom.shape c.signedAtoms := by
    rw [signedAtoms, ← map_sortBy]
    simp only [SignedAtom.shape_toSignedAtom]
    rfl
  rw [key, numberVars_eq, hsorted]
  rfl

theorem key_eq_iff_normalForm : c.key = d.key ↔ c.normalForm = d.normalForm := by
  rw [key_eq, key_eq]
  refine ⟨fun h => ?_, fun h => by rw [h]⟩
  exact renderLiterals_inj isVariableWord_of_mem_numbered isVariableWord_of_mem_numbered h

/-- **The clauses that share a key.** -/
theorem key_eq_iff : c.key = d.key ↔ ∃ ρ : String → String, Set.InjOn ρ {x | x ∈ c.vars} ∧
    ∀ s, (c.rename ρ).signedAtoms.filter (·.shape = s) = d.signedAtoms.filter (·.shape = s) := by
  have hvars : ∀ x, x ∈ varsOf (sortBy SignedAtom.shape c.signedAtoms) ↔ x ∈ c.vars := by
    intro x
    simp only [mem_varsOf, mem_vars, (sortBy_perm _ _).mem_iff]
  rw [key_eq_iff_normalForm, normalForm, normalForm, numbered_eq_iff]
  simp only [hvars, ← sortBy_shape_rename, sortBy_eq_iff, signedAtoms_rename]

/-- **Renaming the variables keeps the key.** -/
theorem key_rename (hρ : Set.InjOn ρ {x | x ∈ c.vars}) : (c.rename ρ).key = c.key :=
  (key_eq_iff.2 ⟨ρ, hρ, fun _ => rfl⟩).symm

theorem key_eq_of_perm (h : c.signedAtoms.Perm d.signedAtoms)
    (heq : ∀ a ∈ c.signedAtoms, ∀ b ∈ c.signedAtoms, a.shape = b.shape → a = b) :
    c.key = d.key := by
  -- members of one shape are equal, so no order is asked of them
  have hall : ∀ as : List SignedAtom, as.Pairwise fun _ _ => True :=
    fun as => List.pairwise_of_forall fun _ _ => trivial
  refine key_eq_iff.2 ⟨id, Function.injective_id.injOn, fun s => ?_⟩
  rw [rename_id]
  refine (h.filter _).eq_of_pairwise (fun a b ha hb _ _ => ?_) (hall _) (hall _)
  simp only [List.mem_filter, decide_eq_true_eq] at ha hb
  exact heq a ha.1 b (h.mem_iff.2 hb.1) (ha.2.trans hb.2.symm)

end Clause

/-- **Clauses that share a key are variants up to the order of their literals**, and an injective
renaming of its variables keeps the key of a clause. -/
theorem key_identifies_variants :
    (∀ c d : Clause, c.key = d.key → ∃ ρ : String → String, Set.InjOn ρ {x | x ∈ c.vars} ∧
      (c.rename ρ).signedAtoms.Perm d.signedAtoms) ∧
    ∀ (c : Clause) (ρ : String → String), Set.InjOn ρ {x | x ∈ c.vars} →
      (c.rename ρ).key = c.key := by
  refine ⟨fun c d h => ?_, fun c ρ hρ => Clause.key_rename hρ⟩
  obtain ⟨ρ, hρ, hshape⟩ := Clause.key_eq_iff.1 h
  exact ⟨ρ, hρ, perm_of_filter_shape_eq hshape⟩

/-- `'X0'(X) | 'a|b'(X,Y)`, with symbols that look like a variable and like two literals. -/
def lookalikes : Clause :=
  .of [SignedAtom.toLiteral ⟨false, .app "X0" [.var "X"]⟩,
    SignedAtom.toLiteral ⟨false, .app "a|b" [.var "X", .var "Y"]⟩]

/-- `'a|b'(Y,X) | 'X0'(Y)` -/
def lookalikesReversed : Clause :=
  .of [SignedAtom.toLiteral ⟨false, .app "a|b" [.var "Y", .var "X"]⟩,
    SignedAtom.toLiteral ⟨false, .app "X0" [.var "Y"]⟩]

theorem key_identifies_variants_lookalikes :
    lookalikes.key = lookalikesReversed.key ∧
    (∃ ρ : String → String, Set.InjOn ρ {x | x ∈ lookalikes.vars} ∧
      (lookalikes.rename ρ).signedAtoms.Perm lookalikesReversed.signedAtoms) ∧
    (lookalikes.rename (Equiv.swap "X" "X1")).key = lookalikes.key := by
  have hkey : lookalikes.key = lookalikesReversed.key := by
    rw [← Clause.key_rename (Equiv.injective (Equiv.swap "X" "Y")).injOn]
    exact Clause.key_eq_of_perm (by decide +kernel) (by decide +kernel)
  exact ⟨hkey, key_identifies_variants.1 _ _ hkey,
    key_identifies_variants.2 _ _ (Equiv.injective _).injOn⟩

/-- **Reordering keeps the key** exactly if it can be undone among the literals of each shape by
exchanging the variables of the clause.  So it does if literals of one shape are equal. -/
theorem key_of_reordered {c d : Clause} (h : c.literals.Perm d.literals) :
    (c.key = d.key ↔ ∃ π : Equiv.Perm String, (∀ x, x ∉ c.vars → π x = x) ∧
      ∀ s, (c.rename π).signedAtoms.filter (·.shape = s) = d.signedAtoms.filter (·.shape = s)) ∧
    ((∀ a ∈ c.signedAtoms, ∀ b ∈ c.signedAtoms, a.shape = b.shape → a = b) → c.key = d.key) := by
  have hatoms : c.signedAtoms.Perm d.signedAtoms := h.map _
  refine ⟨⟨fun hkey => ?_, ?_⟩, fun heq => Clause.key_eq_of_perm hatoms heq⟩
  · obtain ⟨ρ, hρ, hshape⟩ := Clause.key_eq_iff.1 hkey
    have hmaps : ∀ x ∈ c.vars, ρ x ∈ c.vars := by
      intro x hx
      obtain ⟨a, ha, hxa⟩ := Clause.mem_vars.1 hx
      have hrenamed : a.subst (fun x => .var (ρ x)) ∈ (c.rename ρ).signedAtoms := by
        rw [Clause.signedAtoms_rename]
        exact List.mem_map_of_mem ha
      have hthere := ((perm_of_filter_shape_eq hshape).trans hatoms.symm).mem_iff.1 hrenamed
      refine Clause.mem_vars.2 ⟨_, hthere, Term.mem_occurrences_subst.2 ⟨x, hxa, ?_⟩⟩
      simp [Term.occurrences]
    obtain ⟨π, hπ, hfixed⟩ := exists_perm_of_mapsTo hρ hmaps
    refine ⟨π, hfixed, fun s => ?_⟩
    rw [Clause.rename_congr hπ]
    exact hshape s
  · rintro ⟨π, -, hshape⟩
    exact Clause.key_eq_iff.2 ⟨π, π.injective.injOn, hshape⟩

theorem key_of_reordered_lookalikes : lookalikes.literals.Perm lookalikes.literals.reverse ∧
    lookalikes.key = (Clause.of lookalikes.literals.reverse).key := by
  have hperm : lookalikes.literals.Perm (Clause.of lookalikes.literals.reverse).literals :=
    (List.reverse_perm _).symm
  exact ⟨hperm, (key_of_reordered hperm).2 (by decide +kernel)⟩

/-- `p(X,Y) | p(Y,Z)` -/
def chain : Clause :=
  .of [SignedAtom.toLiteral ⟨false, .app "p" [.var "X", .var "Y"]⟩,
    SignedAtom.toLiteral ⟨false, .app "p" [.var "Y", .var "Z"]⟩]

/-- The literals of a chain look alike, and their order decides which variables have their numbers
first. -/
theorem key_depends_on_order : chain.literals.Perm (Clause.of chain.literals.reverse).literals ∧
    chain.key = "p(X0,X1)|p(X1,X2)" ∧
    (Clause.of chain.literals.reverse).key = "p(X0,X1)|p(X2,X0)" := by
  have hsorted : Clause.sortedByShape chain.literals = chain.literals :=
    List.mergeSort_of_pairwise (by decide +kernel)
  have hreversed : Clause.sortedByShape chain.literals.reverse = chain.literals.reverse :=
    List.mergeSort_of_pairwise (by decide +kernel)
  refine ⟨(List.reverse_perm _).symm, ?_, ?_⟩
  · rw [Clause.key, hsorted]
    decide +kernel
  · rw [Clause.key, Clause.of, hreversed]
    decide +kernel

end Refutation
