import Refutation.Clause.Abstraction
import Refutation.Clause.Selection
import Refutation.Proofs.Renaming
import Refutation.Proofs.Subsumption
import Refutation.Signature
import Mathlib.Algebra.Group.End
import Mathlib.Data.Fintype.Sum

/-!
# Variants of clauses

Two clauses are variants if one results from the other by an injective renaming of its variables.
Such a renaming is part of a permutation of all variables, and whatever is said about a clause
without the names of its variables does not change under a permutation.

* `exists_perm_of_injOn` : a renaming that is injective on finitely many variables agrees with a
  permutation.
* `exists_perm_combining` : two permutations can be combined on different variables.
* `Clause.Variant` : one clause results from the other by an injective renaming.
* `Clause.Variant.subsumes_eq` : **variants subsume the same clauses**, up to variants.
* `Clause.freshCopy_rename` : **variants have the same fresh copies.**
-/

namespace Refutation

/-- **A renaming that is injective on finitely many variables agrees with a permutation** there. -/
theorem exists_perm_of_injOn {xs : List String} {ρ : String → String}
    (hρ : Set.InjOn ρ {x | x ∈ xs}) : ∃ π : Equiv.Perm String, ∀ x ∈ xs, π x = ρ x := by
  let vars : Finset String := xs.toFinset ∪ xs.toFinset.image ρ
  let domain : Finset vars := Finset.univ.filter fun x => x.1 ∈ xs
  have hinj : Set.InjOn (fun x : vars => ρ x) domain := by
    intro x hx y hy heq
    have hx' : x.1 ∈ xs := (Finset.mem_filter.1 hx).2
    have hy' : y.1 ∈ xs := (Finset.mem_filter.1 hy).2
    exact Subtype.ext (hρ hx' hy' heq)
  have hrange : domain.image (fun x : vars => ρ x) ⊆ vars := by
    intro y hy
    obtain ⟨x, hx, rfl⟩ := Finset.mem_image.1 hy
    refine Finset.mem_union_right _ (Finset.mem_image_of_mem ρ ?_)
    exact List.mem_toFinset.2 (Finset.mem_filter.1 hx).2
  obtain ⟨g, hg⟩ := Finset.exists_equiv_extend_of_card_eq (Fintype.card_coe vars) hrange hinj
  refine ⟨Equiv.Perm.ofSubtype g, fun x hx => ?_⟩
  have hmem : x ∈ vars := Finset.mem_union_left _ (List.mem_toFinset.2 hx)
  rw [Equiv.Perm.ofSubtype_apply_of_mem g hmem]
  exact hg ⟨x, hmem⟩ (Finset.mem_filter.2 ⟨Finset.mem_univ _, hx⟩)

/-- An injective renaming of finitely many variables among themselves is a permutation of them. -/
theorem exists_perm_of_mapsTo {xs : List String} {ρ : String → String}
    (hρ : Set.InjOn ρ {x | x ∈ xs}) (hmaps : ∀ x ∈ xs, ρ x ∈ xs) :
    ∃ π : Equiv.Perm String, (∀ x ∈ xs, π x = ρ x) ∧ ∀ x, x ∉ xs → π x = x := by
  let own : Finset String := xs.toFinset
  have hmem : ∀ x, x ∈ own ↔ x ∈ xs := fun x => List.mem_toFinset
  let f : own → own := fun x => ⟨ρ x, (hmem _).2 (hmaps x ((hmem _).1 x.2))⟩
  have hinj : Function.Injective f := fun x y heq =>
    Subtype.ext (hρ ((hmem _).1 x.2) ((hmem _).1 y.2) (Subtype.ext_iff.1 heq))
  let g : Equiv.Perm own := Equiv.ofBijective f (Finite.injective_iff_bijective.1 hinj)
  refine ⟨Equiv.Perm.ofSubtype g, fun x hx => ?_, fun x hx => ?_⟩
  · exact Equiv.Perm.ofSubtype_apply_of_mem g ((hmem x).2 hx)
  · exact Equiv.Perm.ofSubtype_apply_of_not_mem g (mt (hmem x).1 hx)

/-- One permutation acts like `π` on some variables and like `π'` on others, if no variable is to be
both. -/
theorem exists_perm_combining (π π' : Equiv.Perm String) {xs ys : List String}
    (hxs : ∀ x ∈ xs, x ∉ ys) (hπ : ∀ x ∈ xs, ∀ y ∈ ys, π x ≠ π' y) :
    ∃ η : Equiv.Perm String, (∀ x ∈ xs, η x = π x) ∧ ∀ y ∈ ys, η y = π' y := by
  have hys : ∀ y ∈ ys, y ∉ xs := fun y hy hx => hxs y hx hy
  have hinj : Set.InjOn (fun x => if x ∈ xs then π x else π' x) {x | x ∈ xs ++ ys} := by
    intro x hx y hy heq
    simp only [Set.mem_ofPred_eq, List.mem_append] at hx hy heq
    rcases hx with hx | hx <;> rcases hy with hy | hy
    · rw [if_pos hx, if_pos hy] at heq
      exact π.injective heq
    · rw [if_pos hx, if_neg (hys y hy)] at heq
      exact absurd heq (hπ x hx y hy)
    · rw [if_neg (hys x hx), if_pos hy] at heq
      exact absurd heq.symm (hπ y hy x hx)
    · rw [if_neg (hys x hx), if_neg (hys y hy)] at heq
      exact π'.injective heq
  obtain ⟨η, hη⟩ := exists_perm_of_injOn hinj
  refine ⟨η, fun x hx => ?_, fun y hy => ?_⟩
  · rw [hη x (List.mem_append_left _ hx), if_pos hx]
  · rw [hη y (List.mem_append_right _ hy), if_neg (hys y hy)]

theorem eraseDups_map {α β : Type} [DecidableEq α] [DecidableEq β] {f : α → β}
    (hf : Function.Injective f) (as : List α) : (as.map f).eraseDups = as.eraseDups.map f := by
  induction as using eraseDups_induct with
  | nil => rfl
  | cons a as ih =>
    have hfilter : (as.map f).filter (fun b => !b == f a) = (as.filter fun b => !b == a).map f := by
      rw [List.filter_map]
      refine congrArg _ (List.filter_congr fun b _ => ?_)
      simp [hf.eq_iff]
    rw [List.map_cons, List.eraseDups_cons, hfilter, ih, List.eraseDups_cons, List.map_cons]

theorem idxOf_map {α β : Type} [DecidableEq α] [DecidableEq β] {f : α → β}
    (hf : Function.Injective f) (a : α) (as : List α) : (as.map f).idxOf (f a) = as.idxOf a := by
  induction as with
  | nil => rfl
  | cons b as ih => simp [List.idxOf_cons, ih, hf.beq_eq]

/-! ### Renaming terms -/

namespace Term

/-- The term with its variables renamed. -/
def rename (ρ : String → String) (t : Term) : Term := t.subst fun x => .var (ρ x)

variable (ρ : String → String) (π : Equiv.Perm String)

@[simp] theorem rename_var (x : String) : (var x).rename ρ = var (ρ x) := rfl

@[simp] theorem rename_app (f : String) (ts : List Term) :
    (app f ts).rename ρ = app f (ts.map (rename ρ)) := by
  rw [rename, subst, substList_eq_map]
  rfl

theorem rename_id (t : Term) : t.rename id = t := t.subst_var

theorem rename_rename (ρ' : String → String) (t : Term) :
    (t.rename ρ).rename ρ' = t.rename (ρ' ∘ ρ) := t.subst_subst _ _

theorem rename_congr {ρ ρ' : String → String} {t : Term} (h : ∀ x ∈ t.occurrences, ρ x = ρ' x) :
    t.rename ρ = t.rename ρ' :=
  subst_congr fun x hx => congrArg var (h x hx)

theorem rename_injective : Function.Injective (rename π) := by
  intro s t h
  have h' := congrArg (rename π.symm) h
  rwa [rename_rename, rename_rename, Equiv.symm_comp_self, rename_id, rename_id] at h'

@[simp] theorem occurrences_rename (t : Term) : (t.rename ρ).occurrences = t.occurrences.map ρ := by
  induction t with
  | var x => rfl
  | app f ts ih =>
    rw [rename_app, occurrences, occurrences, occurrencesList_eq_flatMap,
      occurrencesList_eq_flatMap, List.map_flatMap, List.flatMap_map]
    exact List.flatMap_congr ih

@[simp] theorem weight_rename (f v : Nat) (t : Term) : (t.rename ρ).weight f v = t.weight f v := by
  induction t with
  | var x => rfl
  | app g ts ih =>
    rw [rename_app, weight, weight, weightList_eq_foldr, weightList_eq_foldr, List.foldr_map]
    congr 1
    exact List.foldr_ext _ _ _ fun t ht n => by rw [ih t ht]

@[simp] theorem functionOccurrences_rename (t : Term) :
    (t.rename ρ).functionOccurrences = t.functionOccurrences := by
  induction t with
  | var x => rfl
  | app f ts ih =>
    rw [rename_app, functionOccurrences, functionOccurrences, functionOccurrencesList_eq_flatMap,
      functionOccurrencesList_eq_flatMap, List.flatMap_map, List.length_map, List.flatMap_congr ih]

@[simp] theorem symbol?_rename (t : Term) : (t.rename ρ).symbol? = t.symbol? := by
  cases t with
  | var x => rfl
  | app f ts => rw [rename_app]; rfl

@[simp] theorem args_rename (t : Term) : (t.rename ρ).args = t.args.map (rename ρ) := by
  cases t with
  | var x => rfl
  | app f ts => rw [rename_app]; rfl

@[simp] theorem arity_rename (t : Term) : (t.rename ρ).arity = t.arity := by simp [arity]

end Term

/-! ### Renaming literals -/

namespace Literal

/-- The literal with its variables renamed. -/
def rename (ρ : String → String) (l : Literal) : Literal := { l with atom := l.atom.rename ρ }

variable (ρ : String → String) (π : Equiv.Perm String) (l m : Literal)

@[simp] theorem toSignedAtom_rename :
    (l.rename ρ).toSignedAtom = l.toSignedAtom.subst fun x => .var (ρ x) := rfl

@[simp] theorem negative_rename : (l.rename ρ).negative = l.negative := rfl

@[simp] theorem tag_rename : (l.rename ρ).tag = l.tag := rfl

@[simp] theorem eligible_rename : (l.rename ρ).eligible = l.eligible := rfl

theorem toSignedAtom_rename_inj :
    (l.rename π).toSignedAtom = (m.rename π).toSignedAtom ↔ l.toSignedAtom = m.toSignedAtom := by
  simp [SignedAtom.ext_iff, rename, (Term.rename_injective π).eq_iff]

@[simp] theorem predicate_rename : (l.rename ρ).predicate = l.predicate := by
  simp [predicate, rename]

@[simp] theorem weight_rename (f v : Nat) : (l.rename ρ).weight f v = l.weight f v :=
  l.atom.weight_rename ρ f v

theorem length_vars_rename : (l.rename π).vars.length = l.vars.length := by
  simp [vars, Term.vars, rename, eraseDups_map π.injective]

theorem isOpposite_rename : (l.rename π).isOpposite (m.rename π) = l.isOpposite m := by
  simp [isOpposite, rename, (Term.rename_injective π).eq_iff]

theorem isTrivial_rename : (l.rename π).isTrivial = l.isTrivial := by
  unfold isTrivial
  rw [tag_rename, rename, Term.args_rename]
  rcases l.tag with - | - | - <;> rcases l.atom.args with - | ⟨s, - | ⟨t, - | ⟨u, us⟩⟩⟩ <;>
    simp [(Term.rename_injective π).eq_iff]

@[simp] theorem signedPredicate_rename : (l.rename ρ).signedPredicate = l.signedPredicate := by
  simp [signedPredicate, isPositive, rename, predicate]

theorem symbolOccurrences_rename : (l.rename ρ).symbolOccurrences = l.symbolOccurrences := by
  simp [symbolOccurrences, arity, predicate, rename, List.flatMap_map]

theorem rank_rename (s : LiteralSelection) : s.rank (l.rename π) = s.rank l := by
  have hlightness : LiteralSelection.lightness (l.rename π) = LiteralSelection.lightness l := by
    simp [LiteralSelection.lightness]
  cases s with
  | first => rfl
  | smallest => simp [LiteralSelection.rank]
  | largest => rw [LiteralSelection.rank, LiteralSelection.rank, hlightness]
  | leastVars => rw [LiteralSelection.rank, LiteralSelection.rank, hlightness, length_vars_rename]
  | eqLeastVars =>
    rw [LiteralSelection.rank, LiteralSelection.rank, hlightness, length_vars_rename]
    rfl

end Literal

theorem SignedAtom.toLiteral_rename (ρ : String → String) (a : SignedAtom) :
    (a.subst fun x => .var (ρ x)).toLiteral = a.toLiteral.rename ρ := by
  have htag : SignedAtom.tag ⟨a.negative, a.atom.rename ρ⟩ = a.tag := by simp [tag, isEquation]
  change SignedAtom.toLiteral ⟨a.negative, a.atom.rename ρ⟩ = _
  rw [toLiteral, htag]
  rfl

/-! ### Renaming clauses -/

namespace Clause

/-- The clause with its variables renamed. -/
def rename (ρ : String → String) (c : Clause) : Clause :=
  { c with literals := c.literals.map (·.rename ρ) }

variable (ρ : String → String) (π : Equiv.Perm String) (c : Clause)

@[simp] theorem literals_rename : (c.rename ρ).literals = c.literals.map (·.rename ρ) := rfl

theorem zipIdx_literals_rename :
    (c.rename ρ).literals.zipIdx = c.literals.zipIdx.map fun p => (p.1.rename ρ, p.2) := by
  rw [literals_rename, List.zipIdx_map]
  rfl

theorem rename_congr {ρ ρ' : String → String} {c : Clause} (h : ∀ x ∈ c.vars, ρ x = ρ' x) :
    c.rename ρ = c.rename ρ' := by
  have hliterals : c.literals.map (·.rename ρ) = c.literals.map (·.rename ρ') := by
    refine List.map_congr_left fun l hl => ?_
    have hatom : l.atom.rename ρ = l.atom.rename ρ' := Term.rename_congr fun x hx =>
      h x (mem_vars.2 ⟨_, mem_signedAtoms.2 ⟨l, hl, rfl⟩, hx⟩)
    rw [Literal.rename, Literal.rename, hatom]
  rw [rename, rename, hliterals]

@[simp] theorem signedAtoms_rename :
    (c.rename ρ).signedAtoms = c.signedAtoms.map (·.subst fun x => .var (ρ x)) := by
  simp [signedAtoms]

theorem rename_rename (ρ' : String → String) : (c.rename ρ).rename ρ' = c.rename (ρ' ∘ ρ) := by
  simp [rename, Literal.rename, Term.rename_rename]

theorem rename_id : c.rename id = c := by
  simp [rename, Literal.rename, Term.rename_id]

theorem vars_rename : (c.rename π).vars = c.vars.map π := by
  have hoccurrences : occurrences (c.rename π).literals = (occurrences c.literals).map π := by
    simp [occurrences, List.flatMap_map, List.map_flatMap, Literal.rename]
  rw [vars, hoccurrences, eraseDups_map π.injective, ← vars]

/-! ### What does not depend on names of variables -/

@[simp] theorem isEmpty_rename : (c.rename ρ).isEmpty = c.isEmpty := List.isEmpty_map

@[simp] theorem size_rename : (c.rename ρ).size = c.size := List.length_map _

theorem symbolOccurrences_rename : (c.rename ρ).symbolOccurrences = c.symbolOccurrences := by
  simp [symbolOccurrences, List.flatMap_map, Literal.symbolOccurrences_rename]

@[simp] theorem weight_rename (f v : Nat) : (c.rename ρ).weight f v = c.weight f v := by
  simp [weight, List.foldr_map]

@[simp] theorem abstraction_rename : (c.rename ρ).abstraction = c.abstraction := by
  simp [abstraction, Function.comp_def]

theorem isTautology_rename : (c.rename π).isTautology = c.isTautology := by
  have hopposites : ∀ ls, hasOpposites (ls.map (·.rename π)) = hasOpposites ls := by
    intro ls
    induction ls with
    | nil => rfl
    | cons l ls ih =>
      rw [List.map_cons, hasOpposites, hasOpposites, ih, List.any_map]
      simp [Function.comp_def, Literal.isOpposite_rename]
  rw [isTautology, isTautology, literals_rename, hopposites, List.any_map]
  simp [Function.comp_def, Literal.isTrivial_rename]

theorem dedup_rename : (c.rename π).dedup = c.dedup.rename π := by
  have hdedup : ∀ ls, dedupLiterals (ls.map (·.rename π)) =
      (dedupLiterals ls).map (·.rename π) := by
    intro ls
    induction ls with
    | nil => rfl
    | cons l ls ih =>
      rw [List.map_cons, dedupLiterals, dedupLiterals, ih, List.filter_map, List.map_cons]
      refine congrArg _ (congrArg _ (List.filter_congr fun m _ => ?_))
      exact decide_eq_decide.2 (not_congr (Literal.toSignedAtom_rename_inj π m l))
  simp [dedup, hdedup, rename]

theorem firstLeast?_map {α β : Type} (lt : α → α → Bool) {lt' : β → β → Bool} {f : α → β}
    (h : ∀ a b, lt' (f a) (f b) = lt a b) (as : List α) :
    firstLeast? lt' (as.map f) = (firstLeast? lt as).map f := by
  induction as with
  | nil => rfl
  | cons a as ih =>
    rw [List.map_cons, firstLeast?, firstLeast?, ih]
    cases firstLeast? lt as with
    | none => rfl
    | some b =>
      simp only [Option.map_some, h]
      split <;> rfl

theorem select_rename (s : LiteralSelection) : (c.rename π).select s = (c.select s).rename π := by
  have hselect : s.select (c.rename π).literals = s.select c.literals := by
    rw [LiteralSelection.select, zipIdx_literals_rename, List.filter_map,
      firstLeast?_map fun p q => decide (s.rank p.1 < s.rank q.1)]
    · rw [Option.map_map]
      rfl
    · intro p q
      rw [Literal.rank_rename, Literal.rank_rename]
  unfold select
  rw [hselect]
  cases s.select c.literals with
  | none => rfl
  | some i =>
    have hliterals : (c.literals.map (·.rename π)).mapIdx
        (fun k l => { l with eligible := k = i }) =
        (c.literals.mapIdx fun k l => { l with eligible := k = i }).map (·.rename π) := by
      refine List.ext_getElem? fun k => ?_
      simp only [List.getElem?_mapIdx, List.getElem?_map, Option.map_map]
      rfl
    simp only [rename, hliterals]

theorem subsumes_rename : c.subsumes (c.rename π) = true ∧ (c.rename π).subsumes c = true := by
  refine ⟨subsumes_iff_subperm.2 ⟨fun x => .var (π x), ?_⟩,
    subsumes_iff_subperm.2 ⟨fun x => .var (π.symm x), ?_⟩⟩
  · rw [InstanceWithin, signedAtoms_rename]
  · have hback : (c.rename π).signedAtoms.map (·.subst fun x => .var (π.symm x)) =
        c.signedAtoms := by
      rw [← signedAtoms_rename, rename_rename, Equiv.symm_comp_self, rename_id]
    rw [InstanceWithin, hback]

/-- **Variants have the same fresh copies**: names are given out in the order of first
occurrences. -/
theorem freshCopy_rename (fresh : FreshVars) :
    (c.rename π).freshCopy fresh = c.freshCopy fresh := by
  have hnodup : (c.vars.map π).Nodup := c.nodup_vars.map π.injective
  have hassign : ∀ x ∈ c.vars, (fresh.renamingFor (c.vars.map π)).1.assign (π x) =
      (fresh.renamingFor c.vars).1.assign x := by
    intro x hx
    rw [FreshVars.assign_renamingFor hnodup, FreshVars.assign_renamingFor c.nodup_vars, if_pos hx,
      if_pos (List.mem_map_of_mem hx), idxOf_map π.injective]
  have hdrawn : (fresh.renamingFor (c.vars.map π)).2 = (fresh.renamingFor c.vars).2 := by
    rw [FreshVars.mk.injEq, FreshVars.drawn_renamingFor hnodup,
      FreshVars.drawn_renamingFor c.nodup_vars, List.length_map]
  have hliterals : ∀ l ∈ c.literals, (l.rename π).instantiate (fresh.renamingFor (c.vars.map π)).1 =
      l.instantiate (fresh.renamingFor c.vars).1 := by
    intro l hl
    have hatom : l.toSignedAtom ∈ c.signedAtoms := mem_signedAtoms.2 ⟨l, hl, rfl⟩
    rw [Literal.instantiate, Literal.instantiate, Literal.toSignedAtom_rename,
      SignedAtom.subst_subst]
    exact congrArg _ (SignedAtom.subst_congr fun x hx => hassign x (mem_vars.2 ⟨_, hatom, hx⟩))
  simp only [freshCopy, vars_rename, hdrawn, literals_rename, List.map_map]
  refine Prod.ext ?_ rfl
  simp only [rename, Clause.mk.injEq, true_and, and_true]
  refine List.map_congr_left fun l hl => ?_
  simp only [Function.comp_apply, hliterals l hl, Literal.eligible_rename]

/-! ### Variants -/

/-- The second clause results from the first by a renaming that is injective on its variables. -/
def Variant (c d : Clause) : Prop :=
  ∃ ρ : String → String, Set.InjOn ρ {x | x ∈ c.vars} ∧ d = c.rename ρ

theorem variant_iff {c d : Clause} : c.Variant d ↔ ∃ π : Equiv.Perm String, d = c.rename π := by
  constructor
  · rintro ⟨ρ, hρ, rfl⟩
    obtain ⟨π, hπ⟩ := exists_perm_of_injOn hρ
    exact ⟨π, rename_congr fun x hx => (hπ x hx).symm⟩
  · rintro ⟨π, rfl⟩
    exact ⟨π, π.injective.injOn, rfl⟩

/-- **Variants subsume variants of the same clauses.** -/
theorem Variant.subsumes_eq {c c' d d' : Clause} (hc : c.Variant c') (hd : d.Variant d') :
    c.subsumes d = c'.subsumes d' := by
  obtain ⟨π, rfl⟩ := variant_iff.1 hc
  obtain ⟨π', rfl⟩ := variant_iff.1 hd
  obtain ⟨hto, hfrom⟩ := c.subsumes_rename π
  obtain ⟨hto', hfrom'⟩ := d.subsumes_rename π'
  rw [Bool.eq_iff_iff]
  exact ⟨fun h => subsumes_trans (subsumes_trans hfrom h) hto',
    fun h => subsumes_trans (subsumes_trans hto h) hfrom'⟩

end Clause

end Refutation
