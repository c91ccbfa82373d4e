import Refutation.Matching
import Mathlib.Data.List.Nodup
import Mathlib.Tactic.SplitIfs

/-!
# Matching

A match has no choices: a variable of the pattern that is not bound yet must be bound to what stands
at its place in the target, and a bound one must be bound to just that.  So the bindings that a
match adds are those of every assignment that maps the pattern to the target and agrees with the
bindings made before.  A match only ever binds unbound variables, one after the other, and what it
added before a mismatch is on top of the trail, where undoing finds it.

* `Trail.Reachable` : the trails that binding unbound variables, marking and undoing lead to.
* `Trail.Grows` : one trail results from the other by binding unbound variables.
* `Trail.Reachable.listsBound` : **the names on a trail are the variables bound in its table**, each
  once.
* `Trail.matchStack_spec` : **the assignments that extend the trail after a match are those that
  extend the trail before it and solve the pairs.**
* `Trail.domain_matchStack` : a match binds the unbound variables of its patterns, in order of
  occurrence.
* `Trail.matchStack_append`, `Trail.matchStack_singleton` : the work stack is matched pair by pair,
  and each pair as the recursion along the pattern does it.
* `matching_decides` : a match succeeds exactly if there is a substitution for it.
* `matchers_agree` : the matcher with a work stack is the recursive one.
-/

namespace Refutation

theorem eraseDups_filter {α : Type} [DecidableEq α] (p : α → Bool) (as : List α) :
    (as.filter p).eraseDups = as.eraseDups.filter p := by
  induction as using eraseDups_induct with
  | nil => rfl
  | cons a as ih =>
    rw [List.eraseDups_cons, List.filter_cons, List.filter_cons, ← ih]
    split_ifs with ha
    · rw [List.eraseDups_cons, List.filter_comm]
    · -- the elements equal to `a` are not kept anyway
      rw [List.filter_filter]
      refine congrArg _ (List.filter_congr fun b _ => ?_)
      by_cases hb : b = a
      · simp [hb, ha]
      · simp [hb]

namespace Trail

variable {τ τ' τ'' : Trail} {x y : String} {u : Term}

/-! ### Trails that grow -/

/-- The trails that binding unbound variables, marking and undoing lead to. -/
inductive Reachable : Trail → Prop
  /-- Nothing is bound at first. -/
  | empty : Reachable .empty
  /-- An unbound variable is bound. -/
  | bind {τ : Trail} {x : String} (h : Reachable τ) (hx : τ.get? x = none) (u : Term) :
    Reachable (τ.bind x u)
  /-- What was bound after a mark is undone. -/
  | undoTo {τ : Trail} (h : Reachable τ) (m : Mark) : Reachable (τ.undoTo m)
  /-- The newest binding is undone. -/
  | undoLast {τ τ' : Trail} (h : Reachable τ) (hlast : τ.undoLast? = some τ') : Reachable τ'

/-- Binding unbound variables, one after the other, makes `τ'` of `τ`. -/
inductive Grows (τ : Trail) : Trail → Prop
  /-- Nothing is bound. -/
  | refl : Grows τ τ
  /-- A further variable is bound. -/
  | bind {τ' : Trail} {x : String} (h : Grows τ τ') (hx : τ'.get? x = none) (u : Term) :
    Grows τ (τ'.bind x u)

namespace Grows

theorem trans (h : Grows τ τ') (h' : Grows τ' τ'') : Grows τ τ'' := by
  induction h' with
  | refl => exact h
  | bind _ hx u ih => exact ih.bind hx u

theorem reachable (h : Grows τ τ') (hτ : τ.Reachable) : τ'.Reachable := by
  induction h with
  | refl => exact hτ
  | bind _ hx u ih => exact ih.bind hx u

theorem get?_eq (h : Grows τ τ') (hu : τ.get? x = some u) : τ'.get? x = some u := by
  induction h with
  | refl => exact hu
  | @bind τ' y _ hy v ih =>
    have hxy : x ≠ y := by
      rintro rfl
      exact Option.some_ne_none u (ih.symm.trans hy)
    rw [get?_bind, if_neg hxy, ih]

theorem size_le (h : Grows τ τ') : τ.size ≤ τ'.size := by
  induction h with
  | refl => exact Nat.le_refl _
  | bind _ _ _ ih => exact Nat.le_succ_of_le ih

theorem undoTo_mark (h : Grows τ τ') : τ'.undoTo τ.mark = τ := by
  induction h with
  | refl => exact Trail.undoTo_mark
  | bind hgrows hx u ih => exact (undoTo_bind hx hgrows.size_le).trans ih

/-- Undoing that does not go below `τ` leaves a trail that has grown from `τ`. -/
theorem undoTo {m : Mark} (h : Grows τ τ') (hm : τ.size ≤ m.depth) : Grows τ (τ'.undoTo m) := by
  induction h with
  | refl =>
    rw [undoTo_of_size_le hm]
    exact .refl
  | @bind τ' x hgrows hx u ih =>
    by_cases hdepth : m.depth ≤ τ'.size
    · rw [undoTo_bind hx hdepth]
      exact ih
    · have hkept : (τ'.bind x u).size ≤ m.depth := Nat.lt_of_not_le hdepth
      rw [undoTo_of_size_le hkept]
      exact hgrows.bind hx u

end Grows

/-- **A trail that has been in use has grown from the empty one**: what was undone has left no
trace. -/
theorem Reachable.grows (h : τ.Reachable) : Grows .empty τ := by
  induction h with
  | empty => exact .refl
  | bind _ hx u ih => exact ih.bind hx u
  | undoTo _ m ih => exact ih.undoTo (Nat.zero_le _)
  | undoLast _ hlast ih =>
    cases ih with
    | refl => cases hlast
    | bind hgrows hx u =>
      rw [undoLast?_bind hx] at hlast
      exact Option.some.inj hlast ▸ hgrows

/-- The names on the trail are the variables bound in the table, each of them once. -/
def ListsBound (τ : Trail) : Prop := τ.domain.Nodup ∧ ∀ x, x ∈ τ.domain ↔ τ.isBound x = true

theorem listsBound_empty : ListsBound .empty := by simp [ListsBound, domain, isBound, get?, empty]

theorem ListsBound.bind (h : τ.ListsBound) (hx : τ.get? x = none) (u : Term) :
    (τ.bind x u).ListsBound := by
  have hnot : x ∉ τ.domain := by simp [h.2, isBound, hx]
  refine ⟨?_, fun y => ?_⟩
  · rw [domain_bind, ← List.concat_eq_append]
    exact h.1.concat hnot
  · rw [domain_bind, List.mem_append, List.mem_singleton, h.2, isBound, isBound, get?_bind]
    by_cases hy : y = x <;> simp [hy]

theorem Grows.listsBound (h : Grows τ τ') (hτ : τ.ListsBound) : τ'.ListsBound := by
  induction h with
  | refl => exact hτ
  | bind _ hx u ih => exact ih.bind hx u

/-- **Table and names stay in step** on a trail that has been in use. -/
theorem Reachable.listsBound (h : τ.Reachable) : τ.ListsBound := h.grows.listsBound listsBound_empty

/-- The variables of a list that are not bound, in order of first occurrence. -/
def unbound (τ : Trail) (xs : List String) : List String :=
  xs.eraseDups.filter fun x => !τ.isBound x

theorem unbound_cons_of_some {xs : List String} (h : τ.get? x = some u) :
    τ.unbound (x :: xs) = τ.unbound xs := by
  have hbound : τ.isBound x = true := by simp [isBound, h]
  simp only [unbound, ← eraseDups_filter, List.filter_cons, hbound, Bool.not_true,
    Bool.false_eq_true, if_false]

theorem unbound_cons_of_none {xs : List String} (h : τ.get? x = none) :
    τ.unbound (x :: xs) = x :: (τ.bind x u).unbound xs := by
  have hbound : τ.isBound x = false := by simp [isBound, h]
  simp only [unbound, ← eraseDups_filter, List.filter_cons, hbound, Bool.not_false, if_true,
    List.eraseDups_cons, List.filter_filter]
  refine congrArg (fun ys => x :: List.eraseDups ys) (List.filter_congr fun y _ => ?_)
  by_cases hyx : y = x
  · simp [isBound, get?_bind, hyx]
  · simp [isBound, get?_bind, hyx]

/-! ### What a match admits -/

/-- The assignment gives every bound variable the term bound to it. -/
def Extends (θ : String → Term) (τ : Trail) : Prop := ∀ x u, τ.get? x = some u → θ x = u

theorem extends_empty (θ : String → Term) : Extends θ .empty := by
  intro x u hu
  simp [get?, empty] at hu

theorem extends_assign (τ : Trail) : Extends τ.assign τ := by
  intro x u hu
  simp [assign, hu]

theorem extends_bind {θ : String → Term} {τ : Trail} {x : String} {t : Term}
    (hx : τ.get? x = none) : Extends θ (τ.bind x t) ↔ Extends θ τ ∧ θ x = t := by
  simp only [Extends, get?_bind]
  constructor
  · intro h
    refine ⟨fun y u hu => h y u ?_, h x t (if_pos rfl)⟩
    have hyx : y ≠ x := by
      rintro rfl
      simp [hx] at hu
    rw [if_neg hyx, hu]
  · rintro ⟨h, hxt⟩ y u hu
    split_ifs at hu with hyx
    · subst hyx
      rw [hxt]
      simpa using hu
    · exact h y u hu

/-- The assignment makes the first term of every pair equal to the second. -/
def Matches (θ : String → Term) (pairs : List (Term × Term)) : Prop :=
  ∀ p ∈ pairs, p.1.subst θ = p.2

theorem matches_cons {θ : String → Term} {p : Term × Term} {pairs : List (Term × Term)} :
    Matches θ (p :: pairs) ↔ p.1.subst θ = p.2 ∧ Matches θ pairs := by
  simp [Matches]

theorem matches_append {θ : String → Term} {pairs pairs' : List (Term × Term)} :
    Matches θ (pairs ++ pairs') ↔ Matches θ pairs ∧ Matches θ pairs' := by
  simp only [Matches, List.mem_append]
  exact ⟨fun h => ⟨fun p hp => h p (.inl hp), fun p hp => h p (.inr hp)⟩,
    fun h p hp => hp.elim (h.1 p) (h.2 p)⟩

theorem matches_zip {θ : String → Term} {ss ts : List Term} (hlen : ss.length = ts.length) :
    Matches θ (ss.zip ts) ↔ ss.map (Term.subst θ) = ts := by
  induction ss generalizing ts with
  | nil =>
    cases ts with
    | nil => simp [Matches]
    | cons t ts => simp at hlen
  | cons s ss ih =>
    cases ts with
    | nil => simp at hlen
    | cons t ts =>
      rw [List.zip_cons_cons, matches_cons, ih (by simpa using hlen)]
      simp

/-- What is left of the assignments after an attempt to match. -/
def Admits (θ : String → Term) : Bool × Trail → Prop
  | (true, τ) => Extends θ τ
  | (false, _) => False

theorem matchVar_spec {θ : String → Term} {τ : Trail} {x : String} {t : Term} :
    Admits θ (τ.matchVar x t) ↔ Extends θ τ ∧ θ x = t := by
  unfold matchVar
  cases hx : τ.get? x with
  | none => exact extends_bind hx
  | some u =>
    by_cases hut : u = t
    · subst hut
      simp only [decide_true, Admits]
      exact ⟨fun h => ⟨h, h x u hx⟩, And.left⟩
    · simp only [hut, decide_false, Admits, false_iff, not_and]
      exact fun h hxt => hut ((h x u hx).symm.trans hxt)

/-- **The assignments that extend the trail after a match are those that extend the trail before it
and solve the pairs.** -/
theorem matchStack_spec {θ : String → Term} (stack : List (Term × Term)) (τ : Trail) :
    Admits θ (matchStack stack τ) ↔ Extends θ τ ∧ Matches θ stack := by
  fun_induction matchStack stack τ with
  | case1 τ => simp [Admits, Matches]
  | case2 x t rest τ τ' hvar ih =>
    have hspec := matchVar_spec (θ := θ) (τ := τ) (x := x) (t := t)
    rw [hvar] at hspec
    rw [ih, matches_cons, show Extends θ τ' ↔ _ from hspec, and_assoc]
    rfl
  | case3 x t rest τ τ' hvar =>
    have hspec := matchVar_spec (θ := θ) (τ := τ) (x := x) (t := t)
    rw [hvar] at hspec
    simp only [Admits, false_iff, not_and, matches_cons] at hspec ⊢
    exact fun h hxt => absurd hxt (hspec h)
  | case4 f ss g ts rest τ hfg ih =>
    obtain ⟨rfl, hlen⟩ := hfg
    rw [ih, matches_cons, matches_append, matches_zip hlen]
    simp [Term.subst]
  | case5 f ss g ts rest τ hfg =>
    simp only [Admits, false_iff, not_and, matches_cons, Term.subst, Term.substList_eq_map,
      Term.app.injEq]
    rintro - ⟨rfl, rfl⟩
    exact absurd ⟨rfl, by simp⟩ hfg
  | case6 f ss y rest τ => simp [Admits, matches_cons, Term.subst]

theorem admits_matchTerm {θ : String → Term} {τ : Trail} {p t : Term} :
    Admits θ (τ.matchTerm p t) ↔ Extends θ τ ∧ p.subst θ = t := by
  have hspec := matchStack_spec (θ := θ) [(p, t)] τ
  rw [matches_cons] at hspec
  rw [matchTerm]
  rcases hm : matchStack [(p, t)] τ with ⟨ok, τ'⟩
  rw [hm] at hspec
  cases ok with
  | false => simpa [commit, Admits, Matches] using hspec
  | true => simpa [commit, Admits, Matches] using hspec

/-! ### What a match binds -/

theorem matchVar_eq_true_iff {t : Term} : τ.matchVar x t = (true, τ') ↔
    τ.get? x = some t ∧ τ' = τ ∨ τ.get? x = none ∧ τ' = τ.bind x t := by
  unfold matchVar
  cases hx : τ.get? x with
  | none => simp [eq_comm]
  | some u => simp [eq_comm]

theorem grows_matchVar (τ : Trail) (x : String) (t : Term) : Grows τ (τ.matchVar x t).2 := by
  unfold matchVar
  cases hx : τ.get? x with
  | none => exact .bind .refl hx t
  | some u => exact .refl

/-- A match only binds unbound variables, also if it fails in the end. -/
theorem grows_matchStack (stack : List (Term × Term)) (τ : Trail) :
    Grows τ (matchStack stack τ).2 := by
  fun_induction matchStack stack τ with
  | case1 τ => exact .refl
  | case2 x t rest τ τ' hvar ih =>
    have hgrows := grows_matchVar τ x t
    rw [hvar] at hgrows
    exact hgrows.trans ih
  | case3 x t rest τ τ' hvar =>
    have hgrows := grows_matchVar τ x t
    rwa [hvar] at hgrows
  | case4 f ss g ts rest τ hfg ih => exact ih
  | case5 f ss g ts rest τ hfg => exact .refl
  | case6 f ss y rest τ => exact .refl

/-- The variables of the patterns of a stack, one entry for each occurrence. -/
def patternVars (stack : List (Term × Term)) : List String := stack.flatMap (·.1.occurrences)

theorem patternVars_zip {ss ts : List Term} (hlen : ss.length = ts.length) :
    patternVars (ss.zip ts) = ss.flatMap Term.occurrences := by
  have hfst : (ss.zip ts).map (·.1) = ss := List.map_fst_zip (Nat.le_of_eq hlen)
  calc patternVars (ss.zip ts) = ((ss.zip ts).map (·.1)).flatMap Term.occurrences := by
        rw [List.flatMap_map]; rfl
    _ = ss.flatMap Term.occurrences := by rw [hfst]

/-- **A match binds the unbound variables of its patterns**, each once and in order of first
occurrence. -/
theorem domain_matchStack {stack : List (Term × Term)} (h : matchStack stack τ = (true, τ')) :
    τ'.domain = τ.domain ++ τ.unbound (patternVars stack) := by
  fun_induction matchStack stack τ generalizing τ' with
  | case1 τ =>
    obtain rfl : τ = τ' := congrArg Prod.snd h
    simp [patternVars, unbound]
  | case2 x t rest τ τ₁ hvar ih =>
    have hvars : patternVars ((.var x, t) :: rest) = x :: patternVars rest := rfl
    rw [ih h, hvars]
    rcases matchVar_eq_true_iff.1 hvar with ⟨hx, rfl⟩ | ⟨hx, rfl⟩
    · rw [unbound_cons_of_some hx]
    · rw [domain_bind, unbound_cons_of_none hx, List.append_assoc]
      rfl
  | case3 x t rest τ τ₁ hvar => exact absurd (congrArg Prod.fst h) Bool.false_ne_true
  | case4 f ss g ts rest τ hfg ih =>
    have hvars : patternVars (ss.zip ts ++ rest) =
        patternVars ((.app f ss, .app g ts) :: rest) := by
      have hsplit : patternVars (ss.zip ts ++ rest) = patternVars (ss.zip ts) ++ patternVars rest :=
        List.flatMap_append
      rw [hsplit, patternVars_zip hfg.2]
      simp [patternVars, Term.occurrences]
    rw [ih h, hvars]
  | case5 f ss g ts rest τ hfg => exact absurd (congrArg Prod.fst h) Bool.false_ne_true
  | case6 f ss y rest τ => exact absurd (congrArg Prod.fst h) Bool.false_ne_true

variable {p t : Term}

theorem matchStack_of_matchTerm (h : τ.matchTerm p t = (true, τ')) :
    matchStack [(p, t)] τ = (true, τ') := by
  unfold matchTerm at h
  rcases hm : matchStack [(p, t)] τ with ⟨ok, τ''⟩
  rw [hm] at h
  cases ok with
  | false => exact absurd (congrArg Prod.fst h) Bool.false_ne_true
  | true => exact h

theorem eq_of_matchTerm_eq_false (h : τ.matchTerm p t = (false, τ')) : τ' = τ := by
  have hgrows := grows_matchStack [(p, t)] τ
  unfold matchTerm at h
  rcases hm : matchStack [(p, t)] τ with ⟨ok, τ''⟩
  rw [hm] at h hgrows
  cases ok with
  | false => exact (congrArg Prod.snd h).symm.trans hgrows.undoTo_mark
  | true => exact absurd (congrArg Prod.fst h) Bool.false_ne_true.symm

theorem grows_matchTerm (τ : Trail) (p t : Term) : Grows τ (τ.matchTerm p t).2 := by
  rcases hm : τ.matchTerm p t with ⟨ok, τ'⟩
  cases ok with
  | false =>
    rw [eq_of_matchTerm_eq_false hm]
    exact .refl
  | true =>
    have hgrows := grows_matchStack [(p, t)] τ
    rwa [matchStack_of_matchTerm hm] at hgrows

/-- Among the assignments that a match is to find there is one if there is any. -/
theorem matchTerm_eq_true_iff :
    (τ.matchTerm p t).1 = true ↔ ∃ θ, Extends θ τ ∧ p.subst θ = t := by
  have hspec := fun θ => admits_matchTerm (θ := θ) (τ := τ) (p := p) (t := t)
  rcases hm : τ.matchTerm p t with ⟨ok, τ'⟩
  rw [hm] at hspec
  cases ok with
  | false =>
    refine iff_of_false Bool.false_ne_true ?_
    rintro ⟨θ, hθ⟩
    exact (hspec θ).2 hθ
  | true => exact iff_of_true rfl ⟨_, (hspec _).1 τ'.extends_assign⟩

theorem exists_substitution_iff : (∃ θ, Extends θ τ ∧ p.subst θ = t) ↔
    ∃ σ : Substitution, Extends σ.assign τ ∧ σ.apply p = t := by
  constructor
  · rintro ⟨θ, hθ, rfl⟩
    obtain ⟨σ, hσ⟩ := Substitution.exists_assign_eq (τ.table.keys ++ p.occurrences) θ
    refine ⟨σ, fun x u hu => ?_, Term.subst_congr fun x hx => hσ x (List.mem_append_right _ hx)⟩
    have hx : x ∈ τ.table.keys := τ.table.mem_keys_iff.2 (Option.isSome_of_eq_some hu)
    rw [hσ x (List.mem_append_left _ hx), hθ x u hu]
  · rintro ⟨σ, hσ, hp⟩
    exact ⟨σ.assign, hσ, hp⟩

/-! ### The matcher with a work stack and the recursive one -/

/-- Go on with the trail of a successful attempt. -/
def andThen (next : Trail → Bool × Trail) : Bool × Trail → Bool × Trail
  | (true, τ) => next τ
  | (false, τ) => (false, τ)

theorem matchStack_var (x : String) (t : Term) (rest : List (Term × Term)) (τ : Trail) :
    matchStack ((.var x, t) :: rest) τ = andThen (matchStack rest) (τ.matchVar x t) := by
  rw [matchStack]
  rcases τ.matchVar x t with ⟨ok, τ'⟩
  cases ok <;> rfl

theorem matchAlongList_cons (s t : Term) (ss ts : List Term) (τ : Trail) :
    matchAlongList (s :: ss) (t :: ts) τ = andThen (matchAlongList ss ts) (matchAlong s t τ) := by
  rw [matchAlongList]
  rcases matchAlong s t τ with ⟨ok, τ'⟩
  cases ok <;> rfl

theorem matchStack_append (stack rest : List (Term × Term)) (τ : Trail) :
    matchStack (stack ++ rest) τ = andThen (matchStack rest) (matchStack stack τ) := by
  fun_induction matchStack stack τ with
  | case1 τ => rfl
  | case2 x t stack τ τ' hvar ih => rw [List.cons_append, matchStack_var, hvar]; exact ih
  | case3 x t stack τ τ' hvar => rw [List.cons_append, matchStack_var, hvar]; rfl
  | case4 f ss g ts stack τ hfg ih =>
    rw [List.cons_append, matchStack, if_pos hfg, ← List.append_assoc]
    exact ih
  | case5 f ss g ts stack τ hfg =>
    rw [List.cons_append, matchStack, if_neg hfg]
    rfl
  | case6 f ss y stack τ =>
    rw [List.cons_append, matchStack]
    rfl

/-- The pairs of two argument lists are matched from left to right. -/
theorem matchStack_zip {ss ts : List Term} (hlen : ss.length = ts.length)
    (h : ∀ s ∈ ss, ∀ t τ, matchStack [(s, t)] τ = matchAlong s t τ) (τ : Trail) :
    matchStack (ss.zip ts) τ = matchAlongList ss ts τ := by
  induction ss generalizing ts τ with
  | nil => rw [List.zip_nil_left, matchStack, matchAlongList]
  | cons s ss ih =>
    cases ts with
    | nil => exact absurd hlen (Nat.succ_ne_zero _)
    | cons t ts =>
      have hrest : matchStack (ss.zip ts) = matchAlongList ss ts :=
        funext (ih (Nat.succ.inj hlen) fun s hs => h s (List.mem_cons_of_mem _ hs))
      rw [List.zip_cons_cons, ← List.singleton_append, matchStack_append, hrest,
        h s List.mem_cons_self, matchAlongList_cons]

/-- **A pair is matched from the stack as it is along the pattern.** -/
theorem matchStack_singleton (s t : Term) (τ : Trail) :
    matchStack [(s, t)] τ = matchAlong s t τ := by
  induction s generalizing t τ with
  | var x =>
    rw [matchStack_var, matchAlong]
    rcases τ.matchVar x t with ⟨ok, τ'⟩
    cases ok <;> simp [andThen, matchStack]
  | app f ss ih =>
    cases t with
    | var y => rw [matchStack, matchAlong]
    | app g ts =>
      rw [matchStack, matchAlong, List.append_nil]
      split_ifs with hfg
      · exact matchStack_zip hfg.2 ih τ
      · rfl

end Trail

/-- **Matching decides whether there is a substitution** that agrees with the bindings made before
and maps the pattern to the target.  If there is one, all bindings are kept, the unbound variables
of the pattern are added in order of first occurrence, and the trail itself maps the pattern to the
target; if there is none, the trail is as before. -/
theorem matching_decides {τ : Trail} (hτ : τ.Reachable) (p t : Term) :
    ((τ.matchTerm p t).1 = true ↔
      ∃ σ : Substitution, (∀ x u, τ.get? x = some u → σ.assign x = u) ∧ σ.apply p = t) ∧
    (∀ τ', τ.matchTerm p t = (true, τ') →
      (∀ x u, τ.get? x = some u → τ'.get? x = some u) ∧
      τ'.domain = τ.domain ++ p.vars.filter (fun x => !τ.isBound x) ∧
      τ'.domain.Nodup ∧ τ'.Reachable ∧ τ'.apply p = t) ∧
    ∀ τ', τ.matchTerm p t = (false, τ') → τ' = τ := by
  refine ⟨Trail.matchTerm_eq_true_iff.trans Trail.exists_substitution_iff, fun τ' h => ?_,
    fun τ' => Trail.eq_of_matchTerm_eq_false⟩
  have hgrows : Trail.Grows τ τ' := by
    have hgrows := Trail.grows_matchTerm τ p t
    rwa [h] at hgrows
  have hreachable := hgrows.reachable hτ
  refine ⟨fun x u => hgrows.get?_eq, ?_, hreachable.listsBound.1, hreachable, ?_⟩
  · rw [Trail.domain_matchStack (Trail.matchStack_of_matchTerm h), Trail.patternVars,
      List.flatMap_singleton]
    rfl
  · have hadmits : Trail.Admits τ'.assign (τ.matchTerm p t) := h ▸ τ'.extends_assign
    exact (Trail.admits_matchTerm.1 hadmits).2

/-- A trail on which `X` is bound to `f(Y)` and a binding of `Z` was undone. -/
def undoneTrail : Trail :=
  ((Trail.empty.bind "X" (.app "f" [.var "Y"])).bind "Z" (.const "a")).undoTo ⟨1⟩

/-- The pattern `g(X, Y, h(Y, W))` and the target `g(f(Y), X, h(X, Y))` share their variables.  Onto
`g(a, b)` the pattern `g(Y, X)` cannot be matched, which is found out after `Y` has been bound. -/
theorem matching_decides_undoneTrail :
    undoneTrail.Reachable ∧
    (∃ τ', undoneTrail.matchTerm (.app "g" [.var "X", .var "Y", .app "h" [.var "Y", .var "W"]])
        (.app "g" [.app "f" [.var "Y"], .var "X", .app "h" [.var "X", .var "Y"]]) = (true, τ') ∧
      τ'.get? "X" = some (.app "f" [.var "Y"]) ∧ τ'.domain = ["X", "Y", "W"] ∧
      τ'.apply (.app "g" [.var "X", .var "Y", .app "h" [.var "Y", .var "W"]]) =
        .app "g" [.app "f" [.var "Y"], .var "X", .app "h" [.var "X", .var "Y"]]) ∧
    undoneTrail.matchTerm (.app "g" [.var "Y", .var "X"]) (.app "g" [.const "a", .const "b"]) =
      (false, undoneTrail) := by
  have hreachable : undoneTrail.Reachable := .undoTo (.bind (.bind .empty rfl _) rfl _) _
  refine ⟨hreachable, ?_, ?_⟩
  · obtain ⟨hiff, hsuccess, -⟩ := matching_decides hreachable
      (.app "g" [.var "X", .var "Y", .app "h" [.var "Y", .var "W"]])
      (.app "g" [.app "f" [.var "Y"], .var "X", .app "h" [.var "X", .var "Y"]])
    have hok := hiff.2 ⟨.ofList [("X", .app "f" [.var "Y"]), ("Y", .var "X"), ("W", .var "Y")],
      (Trail.extends_bind rfl).2 ⟨Trail.extends_empty _, by decide⟩, by decide⟩
    obtain ⟨hkept, hdomain, -, -, happly⟩ := hsuccess _ (Prod.ext hok rfl)
    exact ⟨_, Prod.ext hok rfl, hkept _ _ rfl, hdomain, happly⟩
  · obtain ⟨hiff, -, hfailure⟩ := matching_decides hreachable (.app "g" [.var "Y", .var "X"])
      (.app "g" [.const "a", .const "b"])
    rcases hm : undoneTrail.matchTerm (.app "g" [.var "Y", .var "X"])
      (.app "g" [.const "a", .const "b"])
      with ⟨ok, τ'⟩
    cases ok with
    | false => rw [hfailure τ' hm]
    | true =>
      obtain ⟨σ, hσ, happly⟩ := hiff.1 (congrArg Prod.fst hm)
      have hX : σ.assign "X" = .app "f" [.var "Y"] := hσ _ _ rfl
      simp [Substitution.apply, Term.subst, hX, Term.const] at happly

/-- **The two matchers are the same function**: with the work stack and along the pattern, the
answer, the bindings and their order are the same. -/
theorem matchers_agree (τ : Trail) (p t : Term) : τ.matchTerm p t = τ.matchTermRec p t := by
  rw [Trail.matchTerm, Trail.matchTermRec, Trail.matchStack_singleton]

end Refutation
