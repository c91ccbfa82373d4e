import Refutation.Proofs.Interpretation
import Refutation.Proofs.Matching
import Refutation.Subsumption
import Mathlib.Data.List.Perm.Subperm

/-!
# Correctness of subsumption

Matching a literal adds exactly the bindings that every assignment making it equal to the target
must have, so nothing is lost when `Clause.embeds` tries one target after the other.

* `Clause.embeds_iff`, `Clause.subsumes_iff_subperm` : subsumption is the existence of an instance
  whose literals are, with multiplicity, among those of the other clause.
* `Clause.subsumes_refl`, `Clause.subsumes_trans` : subsumption is a preorder.
-/

namespace Refutation

/-- Matching a literal admits the assignments that make it equal to the target. -/
theorem Literal.admits_matchOnto {θ : String → Term} {τ : Trail} {l m : Literal} :
    Trail.Admits θ (l.matchOnto m τ) ↔
      Trail.Extends θ τ ∧ l.toSignedAtom.subst θ = m.toSignedAtom := by
  unfold matchOnto
  split_ifs with hsign
  · rw [Trail.admits_matchTerm]
    simp [SignedAtom.subst, hsign, SignedAtom.ext_iff]
  · simp [Trail.Admits, SignedAtom.subst, hsign, SignedAtom.ext_iff]

/-! ### Subsumption -/

theorem perm_of_mem_picks {α : Type} {as : List α} {a : α} {others : List α}
    (h : (a, others) ∈ picks as) : as.Perm (a :: others) := by
  induction as generalizing a others with
  | nil => simp [picks] at h
  | cons b as ih =>
    simp only [picks, List.mem_cons, Prod.mk.injEq, List.mem_map, Prod.exists] at h
    rcases h with ⟨rfl, rfl⟩ | ⟨a', others', hpick, rfl, rfl⟩
    · exact .refl _
    · exact ((ih hpick).cons b).trans (.swap _ _ _)

theorem exists_mem_picks {α : Type} {as : List α} {a : α} (h : a ∈ as) :
    ∃ others, (a, others) ∈ picks as := by
  induction as with
  | nil => simp at h
  | cons b as ih =>
    rcases List.mem_cons.1 h with rfl | h
    · exact ⟨as, by simp [picks]⟩
    · obtain ⟨others, hpick⟩ := ih h
      exact ⟨b :: others, List.mem_cons_of_mem _ (List.mem_map.2 ⟨_, hpick, rfl⟩)⟩

namespace Clause

/-- The instances of the literals are, with multiplicity, among the others. -/
def InstanceWithin (θ : String → Term) (as bs : List SignedAtom) : Prop :=
  (as.map (·.subst θ)).Subperm bs

/-- **The search for an embedding succeeds exactly if there is one.** -/
theorem embeds_iff {ls targets : List Literal} {τ : Trail} :
    embeds ls targets τ = true ↔ ∃ θ, Trail.Extends θ τ ∧
      InstanceWithin θ (ls.map (·.toSignedAtom)) (targets.map (·.toSignedAtom)) := by
  induction ls generalizing targets τ with
  | nil => simpa [embeds, InstanceWithin] using ⟨τ.assign, τ.extends_assign⟩
  | cons l ls ih =>
    simp only [embeds, List.any_eq_true, Prod.exists]
    constructor
    · rintro ⟨m, others, hpick, hrest⟩
      rcases hmatch : l.matchOnto m τ with ⟨ok, τ'⟩
      rw [hmatch] at hrest
      cases ok with
      | false => simp at hrest
      | true =>
        obtain ⟨θ, hθ, hsub⟩ := ih.1 hrest
        have hadmits : Trail.Admits θ (l.matchOnto m τ) := hmatch ▸ hθ
        obtain ⟨hτ, hlm⟩ := Literal.admits_matchOnto.1 hadmits
        refine ⟨θ, hτ, ?_⟩
        have hperm := (perm_of_mem_picks hpick).map (·.toSignedAtom)
        rw [InstanceWithin, hperm.subperm_left, List.map_cons, List.map_cons, List.map_cons, hlm,
          List.subperm_cons]
        exact hsub
    · rintro ⟨θ, hτ, hsub⟩
      rw [InstanceWithin, List.map_cons, List.map_cons] at hsub
      obtain ⟨m, hm, hlm⟩ := List.mem_map.1 (hsub.subset List.mem_cons_self)
      obtain ⟨others, hpick⟩ := exists_mem_picks hm
      refine ⟨m, others, hpick, ?_⟩
      have hadmits := Literal.admits_matchOnto.2 ⟨hτ, hlm.symm⟩
      rcases hmatch : l.matchOnto m τ with ⟨ok, τ'⟩
      rw [hmatch] at hadmits
      cases ok with
      | false => exact hadmits.elim
      | true =>
        refine ih.2 ⟨θ, hadmits, ?_⟩
        rw [((perm_of_mem_picks hpick).map (·.toSignedAtom)).subperm_left, List.map_cons, hlm,
          List.subperm_cons] at hsub
        exact hsub

theorem length_signedAtoms (c : Clause) : c.signedAtoms.length = c.size := by
  simp [signedAtoms, size]

/-- **Subsumption is the existence of an instance within the other clause.** -/
theorem subsumes_iff_subperm {c d : Clause} :
    c.subsumes d = true ↔ ∃ θ, InstanceWithin θ c.signedAtoms d.signedAtoms := by
  rw [subsumes, Bool.and_eq_true, decide_eq_true_eq, embeds_iff]
  constructor
  · rintro ⟨-, θ, -, hsub⟩
    exact ⟨θ, hsub⟩
  · rintro ⟨θ, hsub⟩
    refine ⟨?_, θ, Trail.extends_empty θ, hsub⟩
    rw [← length_signedAtoms, ← length_signedAtoms]
    simpa using hsub.length_le

/-- Subsumption does not look at names, roles, derivations, tags and flags. -/
theorem subsumes_congr {c c' d d' : Clause} (hc : c.signedAtoms = c'.signedAtoms)
    (hd : d.signedAtoms = d'.signedAtoms) : c.subsumes d = c'.subsumes d' := by
  rw [Bool.eq_iff_iff, subsumes_iff_subperm, subsumes_iff_subperm, hc, hd]

theorem subsumes_of_signedAtoms_eq {c d : Clause} (h : c.signedAtoms = d.signedAtoms) :
    c.subsumes d = true := by
  refine subsumes_iff_subperm.2 ⟨.var, ?_⟩
  have hid : c.signedAtoms.map (·.subst .var) = d.signedAtoms := by
    simp [SignedAtom.subst_var, h]
  rw [InstanceWithin, hid]

theorem subsumes_refl (c : Clause) : c.subsumes c = true := subsumes_of_signedAtoms_eq rfl

/-- An instance within a list gives an instance within each instance of the list. -/
theorem InstanceWithin.subst {θ : String → Term} {as bs : List SignedAtom}
    (h : InstanceWithin θ as bs) (η : String → Term) :
    InstanceWithin (fun x => (θ x).subst η) as (bs.map (·.subst η)) := by
  have hcomp : as.map (·.subst fun x => (θ x).subst η) = (as.map (·.subst θ)).map (·.subst η) := by
    simp [SignedAtom.subst_subst]
  obtain ⟨cs, hperm, hsublist⟩ := h
  rw [InstanceWithin, hcomp, ← (hperm.map _).subperm_right]
  exact (hsublist.map _).subperm

/-- **Subsumption is transitive.** -/
theorem subsumes_trans {b c d : Clause} (hbc : b.subsumes c = true) (hcd : c.subsumes d = true) :
    b.subsumes d = true := by
  obtain ⟨θ, hθ⟩ := subsumes_iff_subperm.1 hbc
  obtain ⟨η, hη⟩ := subsumes_iff_subperm.1 hcd
  exact subsumes_iff_subperm.2 ⟨_, (hθ.subst η).trans hη⟩

end Clause

end Refutation
