import Refutation.Proofs.Inference
import Mathlib.Data.List.Perm.Subperm
import Mathlib.Order.Zorn

/-!
# A model of closed clauses

Lists of signed atoms, read as disjunctions, have a common model if they are closed under two rules
and the empty list is not among them.  The first rule resolves a negative literal of a list, which
may be chosen once for the list, with lists of positive literals; the second removes one of two
equal literals from a list of positive literals.  Both rules may give less than the whole
conclusion.

The model is a minimal set `T` of atoms in which all positive lists are true.  Each atom of `T` is
needed by some positive list, the shortest of which has the atom only once; resolving with that list
removes a negative literal from a list that is false in `T`.

* `ClosedUnderResolution` : the closure conditions.
* `ClosedUnderResolution.union_complementary` : lists with opposite literals are redundant.
* `exists_minimal_support` : the set `T` exists.
* `ClosedUnderResolution.exists_producer` : each atom of `T` is needed.
* `ClosedUnderResolution.exists_model` : **the model**.
-/

namespace Refutation

/-- No literal is negative. -/
def IsPositive (g : List SignedAtom) : Prop := ∀ a ∈ g, a.negative = false

/-- The literal is true if the atoms of `T` are. -/
def SignedAtom.TrueIn (T : Set Term) (a : SignedAtom) : Prop :=
  if a.negative then a.atom ∉ T else a.atom ∈ T

/-- Lists of literals that are closed under positive resolution and positive factoring. -/
structure ClosedUnderResolution (G : Set (List SignedAtom)) : Prop where
  /-- No list is empty. -/
  nonempty : [] ∉ G
  /-- Each list with negative literals has one that can be resolved upon with all positive lists. -/
  resolve : ∀ g ∈ G, ¬IsPositive g → ∃ i a, g[i]? = some a ∧ a.negative = true ∧
    ∀ p ∈ G, IsPositive p → ∀ j b, p[j]? = some b → b.atom = a.atom →
      ∃ h ∈ G, h.Subperm (g.eraseIdx i ++ p.eraseIdx j)
  /-- The second of two equal literals of a positive list can be removed. -/
  factor : ∀ p ∈ G, IsPositive p → ∀ i j a, i < j → p[i]? = some a → p[j]? = some a →
    ∃ h ∈ G, h.Subperm (p.eraseIdx j)

/-! ### Opposite literals -/

/-- Two of the literals are opposite. -/
def IsComplementary (g : List SignedAtom) : Prop :=
  ∃ a ∈ g, ∃ b ∈ g, a.negative = true ∧ b.negative = false ∧ a.atom = b.atom

namespace IsComplementary

variable {g h : List SignedAtom}

theorem mono (hg : IsComplementary g) (hsub : g ⊆ h) : IsComplementary h := by
  obtain ⟨a, ha, b, hb, hopposite⟩ := hg
  exact ⟨a, hsub ha, b, hsub hb, hopposite⟩

theorem map_subst (hg : IsComplementary g) (θ : String → Term) :
    IsComplementary (g.map (·.subst θ)) := by
  obtain ⟨a, ha, b, hb, hneg, hpos, hatom⟩ := hg
  exact ⟨_, List.mem_map_of_mem ha, _, List.mem_map_of_mem hb, hneg, hpos,
    congrArg (Term.subst θ) hatom⟩

theorem not_isPositive (hg : IsComplementary g) : ¬IsPositive g := by
  obtain ⟨a, ha, -, -, hneg, -⟩ := hg
  exact fun hpos => absurd (hneg.symm.trans (hpos a ha)) (by simp)

/-- Resolution with a list that has opposite literals gives back the other list, and more. -/
theorem subperm_resolve (hg : IsComplementary g) : ∃ i a, g[i]? = some a ∧ a.negative = true ∧
    ∀ p, IsPositive p → ∀ j b, p[j]? = some b → b.atom = a.atom →
      p.Subperm (g.eraseIdx i ++ p.eraseIdx j) := by
  obtain ⟨a, ha, b, hb, hneg, hpos, hatom⟩ := hg
  obtain ⟨i, hi⟩ := List.mem_iff_getElem?.1 ha
  refine ⟨i, a, hi, hneg, fun p hp j b' hj hatom' => ?_⟩
  -- the literal of `p` is the one that is left in `g`
  have hb' : b' = b :=
    SignedAtom.ext ((hp b' (List.mem_of_getElem? hj)).trans hpos.symm) (hatom'.trans hatom)
  have hrest : b ∈ g.eraseIdx i := by
    refine (eq_or_mem_eraseIdx hi hb).resolve_left fun h => ?_
    rw [h, hneg] at hpos
    cases hpos
  refine (perm_cons_eraseIdx hj).subperm.trans ?_
  rw [hb']
  exact (List.singleton_sublist.2 hrest).append (.refl _) |>.subperm

end IsComplementary

theorem Interpretation.models_of_isComplementary {D : Type*} (I : Interpretation D) {c : Clause}
    (hc : IsComplementary c.signedAtoms) : I.Models c := by
  intro v
  obtain ⟨a, ha, b, hb, hneg, hpos, hatom⟩ := hc
  by_cases hv : I.HoldsAtom v a.atom
  · exact ⟨b, hb, by simpa [Interpretation.Holds, hpos, ← hatom] using hv⟩
  · exact ⟨a, ha, by simpa [Interpretation.Holds, hneg] using hv⟩

/-- **Lists with opposite literals are redundant**: if the conclusions from the lists of `G` contain
lists of `G` or have opposite literals, then `G` is closed together with all lists that have
opposite literals. -/
theorem ClosedUnderResolution.union_complementary {G : Set (List SignedAtom)} (hnonempty : [] ∉ G)
    (hresolve : ∀ g ∈ G, ¬IsPositive g → ∃ i a, g[i]? = some a ∧ a.negative = true ∧
      ∀ p ∈ G, IsPositive p → ∀ j b, p[j]? = some b → b.atom = a.atom →
        ∃ h ∈ G ∪ {g | IsComplementary g}, h.Subperm (g.eraseIdx i ++ p.eraseIdx j))
    (hfactor : ∀ p ∈ G, IsPositive p → ∀ i j a, i < j → p[i]? = some a → p[j]? = some a →
      ∃ h ∈ G ∪ {g | IsComplementary g}, h.Subperm (p.eraseIdx j)) :
    ClosedUnderResolution (G ∪ {g | IsComplementary g}) where
  nonempty := by
    rintro (hnil | ⟨a, ha, -⟩)
    · exact hnonempty hnil
    · exact absurd ha List.not_mem_nil
  resolve := by
    rintro g (hg | hg) hneg
    · obtain ⟨i, a, hi, ha, hresolve⟩ := hresolve g hg hneg
      refine ⟨i, a, hi, ha, ?_⟩
      rintro p (hp | hp) hpos
      · exact hresolve p hp hpos
      · exact absurd hpos hp.not_isPositive
    · obtain ⟨i, a, hi, ha, hsubperm⟩ := hg.subperm_resolve
      exact ⟨i, a, hi, ha, fun p hp hpos j b hj hatom => ⟨p, hp, hsubperm p hpos j b hj hatom⟩⟩
  factor := by
    rintro p (hp | hp) hpos
    · exact hfactor p hp hpos
    · exact absurd hpos hp.not_isPositive

/-! ### A minimal set of atoms -/

/-- All positive lists are true if the atoms of `T` are. -/
def Supports (G : Set (List SignedAtom)) (T : Set Term) : Prop :=
  ∀ p ∈ G, IsPositive p → ∃ a ∈ p, a.atom ∈ T

variable {G : Set (List SignedAtom)} {T : Set Term}

/-- Finitely many atoms that are missing in members of a chain are missing in one of them. -/
theorem exists_missing {C : Set (Set Term)} (hC : IsChain (· ⊆ ·) C) (hne : C.Nonempty)
    (as : List SignedAtom) (h : ∀ a ∈ as, ∃ T ∈ C, a.atom ∉ T) :
    ∃ T ∈ C, ∀ a ∈ as, a.atom ∉ T := by
  induction as with
  | nil =>
    obtain ⟨T, hT⟩ := hne
    exact ⟨T, hT, by simp⟩
  | cons a as ih =>
    obtain ⟨T, hT, hmissing⟩ := ih fun b hb => h b (List.mem_cons_of_mem _ hb)
    obtain ⟨T', hT', ha⟩ := h a List.mem_cons_self
    -- the smaller of the two sets lacks all of them
    rcases hC.total hT hT' with hsub | hsub
    · refine ⟨T, hT, fun b hb => ?_⟩
      rcases List.mem_cons.1 hb with rfl | hb
      · exact fun hmem => ha (hsub hmem)
      · exact hmissing b hb
    · refine ⟨T', hT', fun b hb => ?_⟩
      rcases List.mem_cons.1 hb with rfl | hb
      · exact ha
      · exact fun hmem => hmissing b hb (hsub hmem)

/-- **There is a minimal set of atoms in which all positive lists are true.** -/
theorem exists_minimal_support (h : [] ∉ G) : ∃ T, Minimal (Supports G) T := by
  have huniv : Supports G Set.univ := by
    intro p hp _
    obtain ⟨a, ha⟩ := List.exists_mem_of_ne_nil p fun hnil => h (hnil ▸ hp)
    exact ⟨a, ha, Set.mem_univ _⟩
  have hinter : ∀ C ⊆ {T | Supports G T}, IsChain (· ⊆ ·) C → C.Nonempty →
      ∃ T ∈ {T | Supports G T}, ∀ T' ∈ C, T ⊆ T' := by
    intro C hC hchain hne
    refine ⟨⋂₀ C, fun p hp hpos => ?_, fun T hT => Set.sInter_subset_of_mem hT⟩
    by_contra hfalse
    have hmissing : ∀ a ∈ p, ∃ T ∈ C, a.atom ∉ T := by
      intro a ha
      by_contra hall
      refine hfalse ⟨a, ha, fun T hT => ?_⟩
      by_contra hnot
      exact hall ⟨T, hT, hnot⟩
    obtain ⟨T, hT, hT'⟩ := exists_missing hchain hne p hmissing
    obtain ⟨a, ha, hmem⟩ := hC hT p hp hpos
    exact hT' a ha hmem
  obtain ⟨T, -, hT⟩ := zorn_superset_nonempty _ hinter Set.univ huniv
  exact ⟨T, hT⟩

/-- The list is positive, and `A` is its only true atom. -/
def Produces (T : Set Term) (A : Term) (p : List SignedAtom) : Prop :=
  IsPositive p ∧ (∃ a ∈ p, a.atom = A) ∧ ∀ a ∈ p, a.atom ∈ T → a.atom = A

/-- Each atom of a minimal set is the only true atom of some list. -/
theorem exists_produces (hT : Minimal (Supports G) T) {A : Term} (hA : A ∈ T) :
    ∃ p ∈ G, Produces T A p := by
  by_contra hnone
  -- otherwise the set without the atom would do
  have hsupports : Supports G (T \ {A}) := by
    intro p hp hpos
    by_contra hfalse
    have honly : ∀ a ∈ p, a.atom ∈ T → a.atom = A := by
      intro a ha hmem
      by_contra hne
      exact hfalse ⟨a, ha, hmem, hne⟩
    obtain ⟨a, ha, hmem⟩ := hT.prop p hp hpos
    exact hnone ⟨p, hp, hpos, ⟨a, ha, honly a ha hmem⟩, honly⟩
  exact (hT.le_of_le hsupports Set.sdiff_subset hA).2 rfl

namespace ClosedUnderResolution

theorem isPositive_of_subperm {g h : List SignedAtom} (hg : IsPositive g) (hsub : h.Subperm g) :
    IsPositive h :=
  fun a ha => hg a (hsub.subset ha)

/-- **Each atom of a minimal set is needed by a list that has it once.** -/
theorem exists_producer (hG : ClosedUnderResolution G) (hT : Minimal (Supports G) T) {A : Term}
    (hA : A ∈ T) :
    ∃ p ∈ G, IsPositive p ∧ ∃ j b, p[j]? = some b ∧ b.atom = A ∧
      ∀ a ∈ p.eraseIdx j, a.atom ∉ T := by
  obtain ⟨p, hp, hproduces⟩ := exists_produces hT hA
  -- by induction on the length, as the removal of a repeated literal makes the list shorter
  induction hn : p.length using Nat.strongRecOn generalizing p with
  | ind n ih =>
    obtain ⟨hpos, ⟨b, hb, hbA⟩, honly⟩ := hproduces
    obtain ⟨j, hj⟩ := List.mem_iff_getElem?.1 hb
    by_cases hsingle : ∀ a ∈ p.eraseIdx j, a.atom ∉ T
    · exact ⟨p, hp, hpos, j, b, hj, hbA, hsingle⟩
    · obtain ⟨a, ha, haT⟩ : ∃ a ∈ p.eraseIdx j, a.atom ∈ T := by simpa using hsingle
      obtain ⟨i, hij, hi⟩ := List.mem_eraseIdx_iff_getElem?.1 ha
      have hap := List.mem_of_mem_eraseIdx ha
      obtain rfl : a = b := SignedAtom.ext ((hpos a hap).trans (hpos b hb).symm)
        ((honly a hap haT).trans hbA.symm)
      obtain ⟨k, hk, h, hh, hsub⟩ : ∃ k, k < p.length ∧ ∃ h ∈ G, h.Subperm (p.eraseIdx k) := by
        rcases Nat.lt_or_gt_of_ne hij with hlt | hlt
        · exact ⟨j, (List.getElem?_eq_some_iff.1 hj).1, hG.factor p hp hpos i j a hlt hi hj⟩
        · exact ⟨i, (List.getElem?_eq_some_iff.1 hi).1, hG.factor p hp hpos j i a hlt hj hi⟩
      have hsub' : h.Subperm p := hsub.trans (List.eraseIdx_sublist _ _).subperm
      have hlength : h.length < n := by
        have := hsub.length_le
        rw [List.length_eraseIdx_of_lt hk] at this
        omega
      obtain ⟨c, hc, hcT⟩ := hT.prop h hh (isPositive_of_subperm hpos hsub')
      have honly' : ∀ a ∈ h, a.atom ∈ T → a.atom = A := fun a ha => honly a (hsub'.subset ha)
      exact ih h.length hlength h hh
        ⟨isPositive_of_subperm hpos hsub', ⟨c, hc, honly' c hc hcT⟩, honly'⟩ rfl

/-- The number of negative literals. -/
def negatives (g : List SignedAtom) : Nat := g.countP SignedAtom.negative

theorem negatives_eq_zero {g : List SignedAtom} (hg : IsPositive g) : negatives g = 0 := by
  simpa [negatives, List.countP_eq_zero, IsPositive] using hg

/-- **Closed lists have a model.** -/
theorem exists_model (hG : ClosedUnderResolution G) :
    ∃ T : Set Term, ∀ g ∈ G, ∃ a ∈ g, a.TrueIn T := by
  obtain ⟨T, hT⟩ := exists_minimal_support hG.nonempty
  refine ⟨T, fun g hg => ?_⟩
  -- on the number of negative literals: resolving one away brings in none
  induction hn : negatives g using Nat.strongRecOn generalizing g with
  | ind n ih =>
    by_cases hpos : IsPositive g
    · obtain ⟨a, ha, hmem⟩ := hT.prop g hg hpos
      exact ⟨a, ha, by simpa [SignedAtom.TrueIn, hpos a ha] using hmem⟩
    obtain ⟨i, a, hi, hneg, hresolve⟩ := hG.resolve g hg hpos
    by_cases hA : a.atom ∈ T
    · obtain ⟨p, hp, hppos, j, b, hj, hb, hfalse⟩ := hG.exists_producer hT hA
      obtain ⟨h, hh, hsub⟩ := hresolve p hp hppos j b hj hb
      -- the conclusion has fewer negative literals, and what comes from `p` is false
      have hfewer : negatives h < n := by
        have hle := hsub.countP_le SignedAtom.negative
        have hcount := (perm_cons_eraseIdx hi).countP_eq SignedAtom.negative
        have hp0 : negatives (p.eraseIdx j) = 0 :=
          negatives_eq_zero fun c hc => hppos c (List.mem_of_mem_eraseIdx hc)
        rw [List.countP_append] at hle
        rw [List.countP_cons_of_pos hneg] at hcount
        simp only [negatives] at hn hp0 ⊢
        omega
      obtain ⟨c, hc, htrue⟩ := ih (negatives h) hfewer h hh rfl
      rcases List.mem_append.1 (hsub.subset hc) with hc | hc
      · exact ⟨c, List.mem_of_mem_eraseIdx hc, htrue⟩
      · have hcpos := hppos c (List.mem_of_mem_eraseIdx hc)
        simp only [SignedAtom.TrueIn, hcpos, Bool.false_eq_true, if_false] at htrue
        exact absurd htrue (hfalse c hc)
    · exact ⟨a, List.mem_of_getElem? hi, by simpa [SignedAtom.TrueIn, hneg] using hA⟩

end ClosedUnderResolution

end Refutation
