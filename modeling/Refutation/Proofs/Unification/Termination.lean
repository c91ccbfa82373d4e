import Refutation.Proofs.Equivariance
import Mathlib.Data.Finset.Card

/-!
# Unification stops

Unification is a loop that takes the first pending equation and solves it.  A cyclic binding puts a
larger term, which still contains the variable, in place of the variable in all pending equations;
so neither the equations nor the variables in them become fewer.  But the variable is bound from
then on, and an equation with a bound variable on either side is not solved by binding another one
to it.  What decreases is the number of *unbound* variables of the pending equations and, between
two bindings, the size of the equations.

* `Unifier.State.next?` : one turn of the loop.
* `Unifier.Turn` : all that a turn can do.
* `Unifier.Turn.rank_lt` : **each turn leaves fewer unbound variables, or as many and smaller
  equations.**
* `Unifier.Path` : turns one after the other, with the variables that they bind.
* `Unifier.Path.binds` : **no variable is bound twice**, and only variables of the equations are
  bound.
* `Unifier.Path.solve_eq` : the loop returns what `Unifier.solve` does.
* `unification_terminates` : unification reaches an empty list of equations or a failure, with at
  most one binding for each variable of the two terms.
-/

namespace Refutation

namespace Unifier

/-! ### The loop -/

/-- The equations that are still to be solved, and the bindings made so far. -/
structure State where
  /-- The equations, of which the first is solved next. -/
  pending : List Equation
  /-- The bindings. -/
  bindings : Substitution

/-- The term is a variable that is bound already. -/
def isBoundVar (σ : Substitution) : Term → Bool
  | .var x => σ.isBound x
  | .app _ _ => false

namespace State

/-- Nothing is bound yet, and the two terms are to be made equal. -/
def start (s t : Term) : State := ⟨[(s, t)], .empty⟩

/-- One turn of the loop: the variable that is bound, if any, and the next state.  There is no next
state if nothing is left to solve or the first equation has no solution. -/
def next? : State → Option (Option String × State)
  | ⟨[], _⟩ => none
  | ⟨(s, t) :: rest, σ⟩ =>
    if s = t then some (none, ⟨rest, σ⟩)
    else if isBoundVar σ s || isBoundVar σ t then none
    else
      match s, t with
      | .var x, t => some (some x, ⟨rest.map (replace x t), σ.bind x t⟩)
      | s, .var x => some (some x, ⟨rest.map (replace x s), σ.bind x s⟩)
      | .app f ss, .app g ts =>
        if f = g ∧ ss.length = ts.length then some (none, ⟨ss.zip ts ++ rest, σ⟩) else none

/-- What the loop returns when it is over: the bindings, if nothing is left to solve. -/
def outcome (st : State) : Option Substitution :=
  if st.pending.isEmpty then some st.bindings else none

end State

/-- All that a turn of the loop can do. -/
inductive Turn : State → Option String → State → Prop where
  /-- The two sides are equal. -/
  | drop {t : Term} {rest : List Equation} {σ : Substitution} :
      Turn ⟨(t, t) :: rest, σ⟩ none ⟨rest, σ⟩
  /-- One side is an unbound variable, and the other side is not a bound one. -/
  | bind {x : String} {t : Term} {e : Equation} {rest : List Equation} {σ : Substitution}
      (he : e = (.var x, t) ∨ e = (t, .var x)) (hx : σ.get? x = none) :
      Turn ⟨e :: rest, σ⟩ (some x) ⟨rest.map (replace x t), σ.bind x t⟩
  /-- Both sides are applications of one symbol. -/
  | split {f : String} {ss ts : List Term} {rest : List Equation} {σ : Substitution} :
      Turn ⟨(.app f ss, .app f ts) :: rest, σ⟩ none ⟨ss.zip ts ++ rest, σ⟩

theorem turn_of_next? {st st' : State} {x? : Option String} (h : st.next? = some (x?, st')) :
    Turn st x? st' := by
  revert h
  fun_cases State.next? st with
  | case1 => simp
  | case2 =>
    rintro ⟨⟩
    exact .drop
  | case3 => simp
  | case4 rest σ x t hne hbound =>
    rintro ⟨⟩
    rw [Bool.or_eq_true, not_or, Bool.not_eq_true, isBoundVar,
      Substitution.isBound_eq_false_iff] at hbound
    exact .bind (.inl rfl) hbound.1
  | case5 rest σ s x hs hne hbound =>
    rintro ⟨⟩
    rw [Bool.or_eq_true, not_or, Bool.not_eq_true, Bool.not_eq_true, isBoundVar,
      Substitution.isBound_eq_false_iff] at hbound
    exact .bind (.inr rfl) hbound.2
  | case6 rest σ f ss g ts hfg =>
    rintro ⟨⟩
    rw [hfg.1]
    exact .split
  | case7 => simp

/-! ### The unbound variables of the equations -/

/-- The variables of the equations, one entry for each occurrence. -/
def occurrences (eqs : List Equation) : List String :=
  eqs.flatMap fun e => e.1.occurrences ++ e.2.occurrences

theorem varsIn_iff {vars : List String} {eqs : List Equation} :
    VarsIn vars eqs ↔ occurrences eqs ⊆ vars := by
  simp only [VarsIn, occurrences, List.subset_def, List.mem_flatMap]
  exact ⟨fun h x ⟨e, he, hx⟩ => h e he x hx, fun h e he x hx => h ⟨e, he, hx⟩⟩

theorem Turn.occurrences_subset {st st' : State} {x? : Option String} (h : Turn st x? st') :
    occurrences st'.pending ⊆ occurrences st.pending := by
  have hvars : VarsIn (occurrences st.pending) st.pending := varsIn_iff.2 (List.Subset.refl _)
  rw [← varsIn_iff]
  cases h with
  | drop => exact hvars.tail
  | @bind x t e rest σ he hx =>
    have ht : ∀ y ∈ t.occurrences, y ∈ occurrences (e :: rest) := by
      intro y hy
      rcases he with rfl | rfl
      · exact hvars.head y (List.mem_append_right _ hy)
      · exact hvars.head y (List.mem_append_left _ hy)
    exact hvars.tail.replaced (fun y hy _ => hy) ht
  | split => exact hvars.zip

/-- The variables of the pending equations that are not bound. -/
def State.unbound (st : State) : Finset String :=
  ((occurrences st.pending).filter fun x => !st.bindings.isBound x).toFinset

theorem State.mem_unbound {st : State} {x : String} :
    x ∈ st.unbound ↔ x ∈ occurrences st.pending ∧ st.bindings.get? x = none := by
  simp [unbound, Substitution.isBound_eq_false_iff]

theorem Turn.unbound_subset {st st' : State} {x? : Option String} (h : Turn st x? st') :
    st'.unbound ⊆ st.unbound := by
  intro y hy
  obtain ⟨hmem, hget⟩ := State.mem_unbound.1 hy
  refine State.mem_unbound.2 ⟨h.occurrences_subset hmem, ?_⟩
  cases h with
  | drop => exact hget
  | bind => exact (Substitution.get?_bind_eq_none_iff.1 hget).2
  | split => exact hget

/-- What decreases from turn to turn. -/
def State.rank (st : State) : Nat × Nat := (st.unbound.card, size st.pending)

/-- **Each turn leaves fewer unbound variables, or as many and smaller equations.** -/
theorem Turn.rank_lt {st st' : State} {x? : Option String} (h : Turn st x? st') :
    Prod.Lex (· < ·) (· < ·) st'.rank st.rank := by
  have hsubset := h.unbound_subset
  cases h with
  | @drop t rest σ =>
    refine Prod.Lex.right' _ (Finset.card_le_card hsubset) ?_
    have := t.size_pos
    simp only [size_cons]
    omega
  | @bind x t e rest σ he hx =>
    refine Prod.Lex.left _ _ (Finset.card_lt_card ⟨hsubset, fun hsub => ?_⟩)
    -- the variable is among the unbound ones before the turn, even if it is still in the equations
    -- after it
    have hmem : x ∈ State.unbound ⟨e :: rest, σ⟩ := by
      refine State.mem_unbound.2 ⟨?_, hx⟩
      rcases he with rfl | rfl <;> simp [occurrences, Term.occurrences]
    exact (Substitution.get?_bind_eq_none_iff.1 (State.mem_unbound.1 (hsub hmem)).2).1 rfl
  | @split f ss ts rest σ =>
    refine Prod.Lex.right' _ (Finset.card_le_card hsubset) ?_
    have := size_zip_le ss ts
    simp only [size_append, size_cons, Term.size]
    omega

/-- **The loop stops**, from whatever state it starts. -/
theorem wellFounded_next? : WellFounded fun st' st : State => ∃ x?, st.next? = some (x?, st') :=
  Subrelation.wf (fun ⟨_, h⟩ => (turn_of_next? h).rank_lt)
    (InvImage.wf State.rank (Prod.lex Nat.lt_wfRel Nat.lt_wfRel).wf)

/-! ### Turns one after the other -/

/-- The loop gets from one state to another, and binds the variables of the list, in this order. -/
inductive Path : State → List String → State → Prop where
  /-- No turn has been made. -/
  | refl (st : State) : Path st [] st
  /-- One turn, and then the others. -/
  | turn {st st' last : State} {x? : Option String} {xs : List String}
      (h : st.next? = some (x?, st')) (hpath : Path st' xs last) : Path st (x?.toList ++ xs) last

theorem exists_path (st : State) : ∃ xs last, Path st xs last ∧ last.next? = none := by
  induction st using wellFounded_next?.induction with
  | _ st ih =>
    cases hnext : st.next? with
    | none => exact ⟨[], st, .refl st, hnext⟩
    | some p =>
      obtain ⟨x?, st'⟩ := p
      obtain ⟨xs, last, hpath, hlast⟩ := ih st' ⟨x?, hnext⟩
      exact ⟨_, last, .turn hnext hpath, hlast⟩

/-- What the turns between two states bind. -/
structure Binds (st : State) (xs : List String) (st' : State) : Prop where
  /-- No variable is bound twice. -/
  nodup : xs.Nodup
  /-- Nor is one that was bound before. -/
  unbound : ∀ x ∈ xs, st.bindings.get? x = none
  /-- The bound variables are variables of the equations. -/
  mem_occurrences : ∀ x ∈ xs, x ∈ occurrences st.pending
  /-- All others stay unbound. -/
  get?_eq_none_iff (y : String) : st'.bindings.get? y = none ↔ st.bindings.get? y = none ∧ y ∉ xs

/-- **No variable is bound twice**, and only variables of the equations are bound. -/
theorem Path.binds {st st' : State} {xs : List String} (h : Path st xs st') : Binds st xs st' := by
  induction h with
  | refl st => exact ⟨.nil, by simp, by simp, by simp⟩
  | @turn st st' last x? xs hnext _ ih =>
    have hturn := turn_of_next? hnext
    have hmem : ∀ y ∈ xs, y ∈ occurrences st.pending :=
      fun y hy => hturn.occurrences_subset (ih.mem_occurrences y hy)
    cases hturn with
    | drop => exact ⟨ih.nodup, ih.unbound, hmem, ih.get?_eq_none_iff⟩
    | @bind x t e rest σ he hx =>
      have hbound : ∀ y ∈ xs, y ≠ x ∧ σ.get? y = none :=
        fun y hy => Substitution.get?_bind_eq_none_iff.1 (ih.unbound y hy)
      refine ⟨List.nodup_cons.2 ⟨fun hxs => (hbound x hxs).1 rfl, ih.nodup⟩,
        List.forall_mem_cons.2 ⟨hx, fun y hy => (hbound y hy).2⟩,
        List.forall_mem_cons.2 ⟨?_, hmem⟩, fun y => ?_⟩
      · rcases he with rfl | rfl <;> simp [occurrences, Term.occurrences]
      · rw [ih.get?_eq_none_iff, Substitution.get?_bind_eq_none_iff]
        simp only [Option.toList_some, List.singleton_append, List.mem_cons, not_or]
        tauto
    | split => exact ⟨ih.nodup, ih.unbound, hmem, ih.get?_eq_none_iff⟩

/-! ### The loop and the procedure -/

/-- The variables that may still be bound are those that are not bound. -/
structure Tracks (free : List String) (st : State) : Prop where
  nodup : free.Nodup
  mem_iff : ∀ x ∈ occurrences st.pending, x ∈ free ↔ st.bindings.get? x = none

namespace Tracks

variable {free : List String} {st st' : State} {x? : Option String} (h : Tracks free st)

include h

theorem turn (hturn : Turn st x? st') : Tracks (x?.elim free free.erase) st' := by
  have hsubset := hturn.occurrences_subset
  cases hturn with
  | drop => exact ⟨h.nodup, fun y hy => h.mem_iff y (hsubset hy)⟩
  | bind =>
    refine ⟨h.nodup.erase _, fun y hy => ?_⟩
    rw [Option.elim_some, List.Nodup.mem_erase_iff h.nodup, h.mem_iff y (hsubset hy),
      Substitution.get?_bind_eq_none_iff]
  | split => exact ⟨h.nodup, fun y hy => h.mem_iff y (hsubset hy)⟩

theorem isClosedVar_eq {t : Term} (ht : ∀ x ∈ t.occurrences, x ∈ occurrences st.pending) :
    isClosedVar free t = isBoundVar st.bindings t := by
  cases t with
  | var x =>
    have hiff := h.mem_iff x (ht x (by simp [Term.occurrences]))
    rw [← Substitution.isBound_eq_false_iff] at hiff
    rw [Bool.eq_iff_iff, isClosedVar_var_iff, hiff, isBoundVar, Bool.not_eq_false]
  | app f ts => rfl

end Tracks

theorem Tracks.closed_eq {free : List String} {s t : Term} {rest : List Equation} {σ : Substitution}
    (h : Tracks free ⟨(s, t) :: rest, σ⟩) :
    (isClosedVar free s || isClosedVar free t) = (isBoundVar σ s || isBoundVar σ t) := by
  have hvars : VarsIn (occurrences ((s, t) :: rest)) ((s, t) :: rest) :=
    varsIn_iff.2 (List.Subset.refl _)
  rw [h.isClosedVar_eq fun x hx => hvars.head x (List.mem_append_left _ hx),
    h.isClosedVar_eq fun x hx => hvars.head x (List.mem_append_right _ hx)]

theorem Tracks.solve_next? {free : List String} {st st' : State} {x? : Option String}
    (h : Tracks free st) (hnext : st.next? = some (x?, st')) :
    solve free st.pending st.bindings =
      solve (x?.elim free free.erase) st'.pending st'.bindings := by
  revert hnext
  fun_cases State.next? st with
  | case1 => simp
  | case2 =>
    rintro ⟨⟩
    exact solve_self
  | case3 => simp
  | case4 rest σ x t hne hbound =>
    rintro ⟨⟩
    rw [← h.closed_eq] at hbound
    exact solve_var_left hne hbound
  | case5 rest σ s x hs hne hbound =>
    rintro ⟨⟩
    rw [← h.closed_eq] at hbound
    exact solve_var_right hs hbound
  | case6 rest σ f ss g ts hfg hne =>
    rintro ⟨⟩
    exact (solve_app hne).trans (if_pos hfg)
  | case7 => simp

theorem Tracks.solve_eq_outcome {free : List String} {st : State} (h : Tracks free st)
    (hnext : st.next? = none) : solve free st.pending st.bindings = st.outcome := by
  revert hnext
  fun_cases State.next? st with
  | case1 => intro _; rw [solve]; rfl
  | case2 => simp
  | case3 s t rest σ hne hbound =>
    intro _
    exact solve_closed hne (h.closed_eq ▸ hbound)
  | case4 => simp
  | case5 => simp
  | case6 => simp
  | case7 rest σ f ss g ts hfg hne =>
    intro _
    exact (solve_app hne).trans (if_neg hfg)

theorem Path.solve_eq {free : List String} {st last : State} {xs : List String}
    (h : Path st xs last) (hfree : Tracks free st) (hlast : last.next? = none) :
    solve free st.pending st.bindings = last.outcome := by
  induction h generalizing free with
  | refl st => exact hfree.solve_eq_outcome hlast
  | turn hnext _ ih =>
    rw [hfree.solve_next? hnext]
    exact ih (hfree.turn (turn_of_next? hnext)) hlast

/-! ### Unifiers of two terms -/

variable {s t : Term} {st : State} {xs : List String}

theorem tracks_start (s t : Term) :
    Tracks (s.occurrences ++ t.occurrences).eraseDups (.start s t) :=
  ⟨nodup_eraseDups _, fun x hx => iff_of_true (by simpa [State.start, occurrences] using hx) rfl⟩

theorem Path.unifier?_eq (h : Path (.start s t) xs st) (hst : st.next? = none) :
    s.unifier? t = st.outcome :=
  h.solve_eq (tracks_start s t) hst

theorem Path.mem_vars (h : Path (.start s t) xs st) :
    ∀ x ∈ xs, x ∈ s.occurrences ++ t.occurrences := by
  simpa [State.start, occurrences] using h.binds.mem_occurrences

theorem Path.domain_perm (h : Path (.start s t) xs st) : st.bindings.domain.Perm xs := by
  refine (List.perm_ext_iff_of_nodup st.bindings.bindings.nodup_keys h.binds.nodup).2 fun x => ?_
  change x ∈ st.bindings.domain ↔ x ∈ xs
  rw [Substitution.mem_domain_iff, Ne, h.binds.get?_eq_none_iff, not_and, not_not]
  exact ⟨fun hx => hx rfl, fun hx _ => hx⟩

end Unifier

/-- **Unification terminates**, without an occurs check.  No run of the loop is infinite; the loop
gets to an empty list of equations, or to one that has no solution, and returns the result; no
variable is bound twice on the way, and so a result has at most as many bindings as the two terms
have variables. -/
theorem unification_terminates (s t : Term) :
    Acc (fun st' st => ∃ x?, st.next? = some (x?, st')) (Unifier.State.start s t) ∧
    (∃ xs last, Unifier.Path (.start s t) xs last ∧ last.next? = none ∧
      s.unifier? t = last.outcome) ∧
    (∀ xs st, Unifier.Path (.start s t) xs st → xs.Nodup ∧ st.bindings.domain.Perm xs ∧
      ∀ x ∈ xs, x ∈ s.occurrences ++ t.occurrences) ∧
    ∀ σ, s.unifier? t = some σ → σ.size ≤ (s.occurrences ++ t.occurrences).eraseDups.length := by
  obtain ⟨xs, last, hpath, hlast⟩ := Unifier.exists_path (.start s t)
  have houtcome := hpath.unifier?_eq hlast
  refine ⟨Unifier.wellFounded_next?.apply _, ⟨xs, last, hpath, hlast, houtcome⟩,
    fun xs st hpath => ⟨hpath.binds.nodup, hpath.domain_perm, hpath.mem_vars⟩, fun σ hσ => ?_⟩
  obtain rfl : last.bindings = σ := by
    rw [houtcome, Unifier.State.outcome] at hσ
    split_ifs at hσ
    exact Option.some.inj hσ
  have hsubperm : xs.Subperm (s.occurrences ++ t.occurrences).eraseDups :=
    hpath.binds.nodup.subperm fun x hx => List.mem_eraseDups.2 (hpath.mem_vars x hx)
  calc last.bindings.size = last.bindings.domain.length := (List.length_map _).symm
    _ = xs.length := hpath.domain_perm.length_eq
    _ ≤ _ := hsubperm.length_le

/-- For `p(X, Y)` and `p(f(X), X)` the first binding is cyclic, and puts `f(X)` for `X` into the
second equation; the loop goes on, binds the other variable to this term and stops.  With a third
equation between `Y` and `f(X)` it stops at the variable that is bound already, and fails. -/
theorem unification_terminates_cyclicBinding :
    ∃ st, Unifier.Path (.start (.app "p" [.var "X", .var "Y"])
      (.app "p" [.app "f" [.var "X"], .var "X"]))
        ["X", "Y"] st ∧ st.next? = none ∧
      ["X", "Y"].Nodup ∧ st.bindings.domain.Perm ["X", "Y"] ∧ st.bindings.isCyclic = true ∧
      (Term.app "p" [.var "X", .var "Y"]).unifier? (.app "p" [.app "f" [.var "X"], .var "X"]) =
        some st.bindings ∧
      st.bindings.size ≤ 2 ∧
      (Term.app "p" [.var "X", .var "Y", .var "Y"]).unifier?
        (.app "p" [.app "f" [.var "X"], .var "X", .app "f" [.var "X"]]) = none := by
  let σ : Substitution := .ofList [("X", .app "f" [.var "X"]), ("Y", .app "f" [.var "X"])]
  have hpath : Unifier.Path
      (.start (.app "p" [.var "X", .var "Y"]) (.app "p" [.app "f" [.var "X"], .var "X"]))
      (none.toList ++ ((some "X").toList ++ ((some "Y").toList ++ []))) ⟨[], σ⟩ :=
    .turn rfl (.turn rfl (.turn rfl (.refl _)))
  obtain ⟨-, -, hpaths, hsize⟩ := unification_terminates (.app "p" [.var "X", .var "Y"])
    (.app "p" [.app "f" [.var "X"], .var "X"])
  have hσ : (Term.app "p" [.var "X", .var "Y"]).unifier?
      (.app "p" [.app "f" [.var "X"], .var "X"]) = some σ := by cbv
  exact ⟨_, hpath, rfl, (hpaths _ _ hpath).1, (hpaths _ _ hpath).2.1, by decide, hσ, hsize σ hσ,
    by cbv⟩

end Refutation
