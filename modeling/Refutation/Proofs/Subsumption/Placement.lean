import Refutation.Proofs.Subsumption
import Mathlib.Data.Fin.SuccPred
import Mathlib.Data.List.FinRange
import Mathlib.Data.List.Forall2

/-!
# Subsumption by positions

A clause subsumes another one if its literals can be placed on different positions of the other
clause, so that one substitution makes each literal equal to the one it is placed on.  The search
for a placement takes back what it did for a choice that leads nowhere.  It can do so in place, with
a flag for each position that is taken and one trail for all choices: `Placement.search` does, and a
failed choice leaves neither a flag nor a binding behind.

* `subperm_map_iff` : to be contained with multiplicity is to be mapped injectively to positions.
* `Placement.attempt_spec` : **an attempt that fails leaves flags and trail as they were.**
* `Placement.placeAll_spec` : the search in place finds what `Clause.embeds` finds.
* `subsumption_decides` : subsumption is the existence of a substitution and an injective map of
  positions; it is reflexive, transitive and independent of the order of the literals.
-/

namespace Refutation

/-! ### Positions -/

/-- One list is contained in another one, with multiplicity, exactly if its positions can be mapped
injectively to positions with the same element. -/
theorem subperm_map_iff {α β γ : Type} {g : α → γ} {h : β → γ} {as : List α} {bs : List β} :
    (as.map g).Subperm (bs.map h) ↔ ∃ f : Fin as.length → Fin bs.length,
      Function.Injective f ∧ ∀ i, g (as.get i) = h (bs.get (f i)) := by
  have hbs : bs.map h = (List.finRange bs.length).map fun j => h (bs.get j) := by
    conv_lhs => rw [← List.map_get_finRange bs, List.map_map]
    rfl
  constructor
  · rintro ⟨cs, hperm, hsublist⟩
    rw [hbs, List.sublist_map_iff] at hsublist
    obtain ⟨js, hjs, rfl⟩ := hsublist
    -- the positions of the chosen elements, in the order of `as`
    have hchosen : List.Forall₂ (fun c j => c = h (bs.get j))
        (js.map fun j => h (bs.get j)) js := by
      rw [List.forall₂_map_left_iff]
      exact List.forall₂_same.2 fun _ _ => rfl
    obtain ⟨is, his, hisjs⟩ := List.perm_comp_forall₂ hperm.symm hchosen
    rw [List.forall₂_map_left_iff, List.forall₂_iff_get] at his
    obtain ⟨hlen, hget⟩ := his
    have hnodup : is.Nodup := hisjs.nodup_iff.2 (hjs.nodup (List.nodup_finRange _))
    exact ⟨fun i => is.get (i.cast hlen), hnodup.injective_get.comp (Fin.cast_injective hlen),
      fun i => hget i i.isLt (hlen ▸ i.isLt)⟩
  · rintro ⟨f, hf, hget⟩
    have has : as.map g = ((List.finRange as.length).map f).map fun j => h (bs.get j) := by
      conv_lhs => rw [← List.map_get_finRange as, List.map_map]
      rw [List.map_map]
      exact List.map_congr_left fun i _ => hget i
    have hnodup : ((List.finRange as.length).map f).Nodup := (List.nodup_finRange _).map hf
    obtain ⟨js, hperm, hsublist⟩ := hnodup.subperm fun j _ => List.mem_finRange j
    rw [has, hbs]
    exact ⟨_, hperm.map _, hsublist.map _⟩

namespace Clause

variable {c d : Clause}

/-- **Subsumption is the existence of a substitution and an injective map of positions.** -/
theorem subsumes_iff_injective : c.subsumes d = true ↔
    ∃ (θ : Substitution) (f : Fin c.literals.length → Fin d.literals.length), Function.Injective f ∧
      ∀ i, ((c.literals.get i).instantiate θ).toSignedAtom =
        (d.literals.get (f i)).toSignedAtom := by
  have hpositions : ∀ θ, InstanceWithin θ c.signedAtoms d.signedAtoms ↔
      ∃ f : Fin c.literals.length → Fin d.literals.length, Function.Injective f ∧
        ∀ i, (c.literals.get i).toSignedAtom.subst θ = (d.literals.get (f i)).toSignedAtom := by
    intro θ
    rw [InstanceWithin, signedAtoms, signedAtoms, List.map_map]
    exact subperm_map_iff
  rw [subsumes_iff_subperm]
  constructor
  · rintro ⟨θ, hθ⟩
    obtain ⟨f, hf, hget⟩ := (hpositions θ).1 hθ
    obtain ⟨σ, hσ⟩ := Substitution.exists_assign_eq (occurrences c.literals) θ
    refine ⟨σ, f, hf, fun i => ?_⟩
    rw [Literal.toSignedAtom_instantiate, ← hget i]
    refine SignedAtom.subst_congr fun x hx => hσ x ?_
    exact List.mem_flatMap.2 ⟨c.literals.get i, List.get_mem _ _, hx⟩
  · rintro ⟨σ, f, hf, hget⟩
    exact ⟨σ.assign, (hpositions σ.assign).2 ⟨f, hf, hget⟩⟩

theorem subsumes_perm {c' d' : Clause} (hc : c.literals.Perm c'.literals)
    (hd : d.literals.Perm d'.literals) : c.subsumes d = c'.subsumes d' := by
  have hwithin : ∀ θ, InstanceWithin θ c.signedAtoms d.signedAtoms ↔
      InstanceWithin θ c'.signedAtoms d'.signedAtoms := fun θ =>
    ((hc.map _).map _).subperm_right.trans (hd.map _).subperm_left
  rw [Bool.eq_iff_iff, subsumes_iff_subperm, subsumes_iff_subperm]
  exact exists_congr hwithin

/-- The target can be matched, and what is left can be done with the bindings made for it. -/
def continues (l m : Literal) (τ : Trail) (rest : Trail → Bool) : Bool :=
  match l.matchOnto m τ with
  | (true, τ') => rest τ'
  | (false, _) => false

theorem embeds_cons (l : Literal) (ls targets : List Literal) (τ : Trail) :
    embeds (l :: ls) targets τ = (picks targets).any fun p => continues l p.1 τ (embeds ls p.2) :=
  rfl

end Clause

theorem Literal.grows_matchOnto (l m : Literal) (τ : Trail) :
    Trail.Grows τ (l.matchOnto m τ).2 := by
  unfold matchOnto
  split_ifs with hsign
  · exact Trail.grows_matchTerm τ l.atom m.atom
  · exact .refl

/-! ### The search in place -/

/-- The positions that are taken, and the bindings made for the literals placed there. -/
structure Placement where
  /-- A flag for each position. -/
  taken : List Bool
  /-- The bindings. -/
  trail : Trail

namespace Placement

/-- Place a literal on the target at a position and go on with `rest`; take both back if that
fails. -/
def attempt (rest : Placement → Bool × Placement) (l m : Literal) (i : Nat) (s : Placement) :
    Bool × Placement :=
  match l.matchOnto m s.trail with
  | (true, τ) =>
    match rest ⟨s.taken.set i true, τ⟩ with
    | (true, s') => (true, s')
    | (false, s') => (false, ⟨s'.taken.set i false, s'.trail.undoTo s.trail.mark⟩)
  | (false, τ) => (false, ⟨s.taken, τ.undoTo s.trail.mark⟩)

/-- Attempt the targets from a position on, except those taken, until one attempt succeeds. -/
def attemptFrom (rest : Placement → Bool × Placement) (l : Literal) :
    (targets : List Literal) → (i : Nat) → Placement → Bool × Placement
  | [], _, s => (false, s)
  | m :: targets, i, s =>
    if s.taken.getD i false then attemptFrom rest l targets (i + 1) s
    else
      match attempt rest l m i s with
      | (true, s') => (true, s')
      | (false, s') => attemptFrom rest l targets (i + 1) s'

/-- Place literals one after the other. -/
def placeAll (targets : List Literal) : List Literal → Placement → Bool × Placement
  | [], s => (true, s)
  | l :: ls, s => attemptFrom (placeAll targets ls) l targets 0 s

/-- No position of the clause is taken. -/
def start (d : Clause) : Placement := ⟨List.replicate d.size false, .empty⟩

/-- Search in place for a placement of the literals of the first clause on those of the second. -/
def search (c d : Clause) : Bool := c.size ≤ d.size && (placeAll d.literals c.literals (start d)).1

/-- The targets whose positions are not taken. -/
def free : (targets : List Literal) → (taken : List Bool) → List Literal
  | m :: targets, b :: taken => if b then free targets taken else m :: free targets taken
  | _, _ => []

theorem free_append {before targets : List Literal} {taken₁ taken₂ : List Bool}
    (hlen : taken₁.length = before.length) :
    free (before ++ targets) (taken₁ ++ taken₂) = free before taken₁ ++ free targets taken₂ := by
  induction before generalizing taken₁ with
  | nil =>
    obtain rfl := List.length_eq_zero_iff.1 hlen
    rfl
  | cons m before ih =>
    cases taken₁ with
    | nil => exact absurd hlen.symm (Nat.succ_ne_zero _)
    | cons b taken₁ =>
      have hrest := ih (Nat.succ.inj hlen)
      cases b with
      | false => simp [free, hrest]
      | true => simp [free, hrest]

theorem free_replicate (targets : List Literal) :
    free targets (List.replicate targets.length false) = targets := by
  induction targets with
  | nil => rfl
  | cons m targets ih => simp [free, List.replicate_succ, ih]

/-- The search answers `found`, and has changed nothing if it found nothing. -/
structure Answers (s : Placement) (found : Bool) (r : Bool × Placement) : Prop where
  /-- The answer. -/
  fst_eq : r.1 = found
  /-- What is left after a failure. -/
  restored : r.1 = false → r.2 = s

variable {rest : Placement → Bool × Placement} {l m : Literal} {s : Placement}

/-- **An attempt that fails leaves flags and trail as they were**, if going on with the literals
that are left does. -/
theorem attempt_spec {found : Trail → Bool} {i : Nat} (hfree : s.taken[i]? = some false)
    (hrest : ∀ τ, Answers ⟨s.taken.set i true, τ⟩ (found τ) (rest ⟨s.taken.set i true, τ⟩)) :
    Answers s (Clause.continues l m s.trail found) (attempt rest l m i s) := by
  have hgrows := l.grows_matchOnto m s.trail
  unfold attempt Clause.continues
  rcases hm : l.matchOnto m s.trail with ⟨ok, τ⟩
  rw [hm] at hgrows
  have hundone : τ.undoTo s.trail.mark = s.trail := hgrows.undoTo_mark
  cases ok with
  | false =>
    refine ⟨rfl, fun _ => ?_⟩
    simp only [hundone]
  | true =>
    have hanswers := hrest τ
    dsimp only
    rcases hr : rest ⟨s.taken.set i true, τ⟩ with ⟨ok, s'⟩
    rw [hr] at hanswers
    cases ok with
    | true => exact ⟨hanswers.fst_eq, fun h => absurd h.symm Bool.false_ne_true⟩
    | false =>
      obtain rfl : s' = ⟨s.taken.set i true, τ⟩ := hanswers.restored rfl
      refine ⟨hanswers.fst_eq, fun _ => ?_⟩
      obtain ⟨hi, hget⟩ := List.getElem?_eq_some_iff.1 hfree
      have hflags : s.taken.set i false = s.taken := by rw [← hget, List.set_getElem_self]
      simp only [List.set_set, hflags, hundone]

/-- Of the free targets from a position on, one is found if there is one.  The targets before the
position have been tried, but stay open to the literals that are left. -/
theorem attemptFrom_spec {ls targets : List Literal} (before : List Literal)
    (taken₁ taken₂ : List Bool)
    (hrest : ∀ s, s.taken.length = (before ++ targets).length →
      Answers s (Clause.embeds ls (free (before ++ targets) s.taken) s.trail) (rest s))
    (htaken : s.taken = taken₁ ++ taken₂) (hlen₁ : taken₁.length = before.length)
    (hlen₂ : taken₂.length = targets.length) :
    Answers s
      ((picks (free targets taken₂)).any fun p =>
        Clause.continues l p.1 s.trail (Clause.embeds ls (free before taken₁ ++ p.2)))
      (attemptFrom rest l targets before.length s) := by
  induction targets generalizing before taken₁ taken₂ with
  | nil =>
    obtain rfl := List.length_eq_zero_iff.1 hlen₂
    exact ⟨rfl, fun _ => rfl⟩
  | cons m targets ih =>
    cases taken₂ with
    | nil => exact absurd hlen₂.symm (Nat.succ_ne_zero _)
    | cons b taken₂ =>
      have hflag : s.taken[before.length]? = some b := by
        rw [htaken, ← hlen₁]
        simp
      have hlater := ih (before ++ [m]) (taken₁ ++ [b]) taken₂ (by simpa using hrest)
        (by simpa using htaken) (by simpa using hlen₁) (by simpa using hlen₂)
      rw [free_append hlen₁, List.length_append] at hlater
      rw [attemptFrom, List.getD_eq_getElem?_getD, hflag, Option.getD_some]
      cases b with
      | true => simpa [free] using hlater
      | false =>
        have hset : s.taken.set before.length true = taken₁ ++ true :: taken₂ := by
          rw [htaken, ← hlen₁]
          simp
        have hfirst : Answers s (Clause.continues l m s.trail
            (Clause.embeds ls (free before taken₁ ++ free targets taken₂)))
            (attempt rest l m before.length s) := by
          refine attempt_spec hflag fun τ => ?_
          have hτ := hrest ⟨s.taken.set before.length true, τ⟩
            (by simpa [htaken, hlen₁] using hlen₂)
          rw [hset, free_append hlen₁] at hτ
          rw [hset]
          exact hτ
        simp only [free, Bool.false_eq_true, if_false, picks, List.any_cons, List.any_map]
        rcases hr : attempt rest l m before.length s with ⟨ok, s'⟩
        rw [hr] at hfirst
        cases ok with
        | true =>
          refine ⟨?_, fun h => absurd h.symm Bool.false_ne_true⟩
          rw [← hfirst.fst_eq, Bool.true_or]
        | false =>
          obtain rfl : s' = s := hfirst.restored rfl
          rw [← hfirst.fst_eq, Bool.false_or]
          simpa [free, Function.comp_def] using hlater

/-- **The search in place finds what there is to find**, and leaves nothing behind if it finds
nothing. -/
theorem placeAll_spec (ls : List Literal) {targets : List Literal} {s : Placement}
    (hlen : s.taken.length = targets.length) :
    Answers s (Clause.embeds ls (free targets s.taken) s.trail) (placeAll targets ls s) := by
  induction ls generalizing s with
  | nil => exact ⟨rfl, fun h => absurd h.symm Bool.false_ne_true⟩
  | cons l ls ih =>
    rw [Clause.embeds_cons]
    exact attemptFrom_spec [] [] s.taken (fun s => ih) rfl rfl hlen

theorem search_eq_subsumes (c d : Clause) : search c d = c.subsumes d := by
  have hlen : (start d).taken.length = d.literals.length := List.length_replicate
  have hanswers := placeAll_spec c.literals hlen
  rw [search, Clause.subsumes, hanswers.fst_eq]
  simp only [start, Clause.size, free_replicate]

end Placement

/-- **Subsumption decides injective embedding**: it is the existence of a substitution that makes
the literals of the one clause equal to literals at different positions of the other, whether or not
the clauses share variables.  The search with flags and one trail for all choices gives the same
answer.  Hence subsumption is reflexive, transitive and independent of the order of the literals. -/
theorem subsumption_decides :
    (∀ c d : Clause, c.subsumes d = true ↔
      ∃ (θ : Substitution) (f : Fin c.literals.length → Fin d.literals.length),
        Function.Injective f ∧
        ∀ i, ((c.literals.get i).instantiate θ).toSignedAtom =
          (d.literals.get (f i)).toSignedAtom) ∧
    (∀ c d : Clause, Placement.search c d = c.subsumes d) ∧
    (∀ c : Clause, c.subsumes c = true) ∧
    (∀ b c d : Clause, b.subsumes c = true → c.subsumes d = true → b.subsumes d = true) ∧
    ∀ c c' d d' : Clause, c.literals.Perm c'.literals → d.literals.Perm d'.literals →
      c.subsumes d = c'.subsumes d' :=
  ⟨fun _ _ => Clause.subsumes_iff_injective, Placement.search_eq_subsumes, Clause.subsumes_refl,
    fun _ _ _ => Clause.subsumes_trans, fun _ _ _ _ => Clause.subsumes_perm⟩

/-- `p(X, Y) | p(Y, a)`. -/
def linked : Clause :=
  .of [.pos (.app "p" [.var "X", .var "Y"]), .pos (.app "p" [.var "Y", .const "a"])]

/-- `p(Y, a) | p(b, Y)`. -/
def crossed : Clause :=
  .of [.pos (.app "p" [.var "Y", .const "a"]), .pos (.app "p" [.const "b", .var "Y"])]

/-- `p(f(X), a) | q | p(b, f(X))`. -/
def widened : Clause :=
  .of [.pos (.app "p" [.app "f" [.var "X"], .const "a"]), .pos (.const "q"),
    .pos (.app "p" [.const "b", .app "f" [.var "X"]])]

/-- `p(X, Y) | p(Y, a)` subsumes `p(Y, a) | p(b, Y)`, though not with its first literal on the first
one, and so it subsumes the instance with a further literal, and in any order.  But `p(X) | p(Y)`
does not subsume `p(a)`, for want of a second position. -/
theorem subsumption_decides_linked :
    linked.subsumes crossed = true ∧ Placement.search linked crossed = true ∧
    crossed.subsumes widened = true ∧ linked.subsumes widened = true ∧
    (Clause.of linked.literals.reverse).subsumes widened = true ∧
    (Clause.of [.pos (.app "p" [.var "X"]), .pos (.app "p" [.var "Y"])]).subsumes
      (.of [.pos (.app "p" [.const "a"])]) = false := by
  obtain ⟨hiff, hsearch, -, htrans, hperm⟩ := subsumption_decides
  have hcrossed : linked.subsumes crossed = true :=
    (hiff _ _).2 ⟨.ofList [("X", .const "b")], Fin.rev, Fin.rev_injective, by decide⟩
  have hwidened : crossed.subsumes widened = true := by
    let f : Fin 2 → Fin 3 := fun i => ⟨2 * i, by omega⟩
    have hf : Function.Injective f := fun i j hij => by
      have hval : 2 * i.val = 2 * j.val := congrArg Fin.val hij
      omega
    exact (hiff _ _).2 ⟨.ofList [("Y", .app "f" [.var "X"])], f, hf, by decide⟩
  have hlinked := htrans _ _ _ hcrossed hwidened
  refine ⟨hcrossed, (hsearch _ _).trans hcrossed, hwidened, hlinked, ?_, ?_⟩
  · rw [← hperm linked _ widened widened (List.reverse_perm _).symm (.refl _), hlinked]
  · rw [Bool.eq_false_iff, Ne, hiff]
    rintro ⟨θ, f, hf, -⟩
    let g : Fin 2 → Fin 1 := f
    have hfirst : (0 : Fin 2) = 1 := hf (Subsingleton.elim (g 0) (g 1))
    exact absurd hfirst (by decide)

end Refutation
