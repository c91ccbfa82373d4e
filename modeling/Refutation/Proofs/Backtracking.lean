import Refutation.Proofs.Matching

/-!
# Backtracking

A trail is put to use by binding unbound variables, by matching and by undoing.  A binding enters a
variable in the table and puts its name on the list of names, and undoing works by name: the newest
names are taken off the list and removed from the table.  This gives back what was there before
because a variable is unbound when it is bound, so its entry is the only thing that its name
removes.  Each use either adds bindings or takes the newest ones back, and so a trail that never
becomes shorter than it was at a mark has all the while grown from the marked one.

* `Trail.Step`, `Trail.Run` : a use of a trail, and uses one after the other.
* `Trail.Step.grows_or_undone` : a use adds bindings or undoes to some depth.
* `Trail.Run.grows` : **a run that stays above its mark ends in a trail that has grown from the
  marked one.**
* `Trail.Reachable.history_undoTo` : undoing by name cuts the history of bindings off at the mark.
* `undoing_restores` : undoing to a mark restores the table and the names of the marked trail.
-/

namespace Refutation

namespace Trail

variable {τ τ' τ'' : Trail} {m : Mark} {x : String}

/-! ### Uses of a trail -/

/-- One use of a trail makes another of it. -/
inductive Step (τ : Trail) : Trail → Prop
  /-- An unbound variable is bound. -/
  | bind {x : String} (hx : τ.get? x = none) (u : Term) : Step τ (τ.bind x u)
  /-- A pattern is matched onto a target with the work stack, with or without success. -/
  | matchTerm (p t : Term) : Step τ (τ.matchTerm p t).2
  /-- A pattern is matched onto a target by recursion, with or without success. -/
  | matchTermRec (p t : Term) : Step τ (τ.matchTermRec p t).2
  /-- The newest binding is undone, if there is one. -/
  | undoLast : Step τ (τ.undoLast?.getD τ)
  /-- What was bound after a mark is undone. -/
  | undoTo (m : Mark) : Step τ (τ.undoTo m)

/-- Uses one after the other, none of which leaves the trail shorter than it was at the mark.  A
mark of depth zero is no restriction. -/
inductive Run (m : Mark) (τ : Trail) : Trail → Prop
  /-- The trail has not been used yet. -/
  | refl : Run m τ τ
  /-- It is used once more. -/
  | step {τ' τ'' : Trail} (h : Run m τ τ') (hstep : Step τ' τ'') (hdepth : m.depth ≤ τ''.size) :
    Run m τ τ''

theorem undoLast?_getD (τ : Trail) : τ.undoLast?.getD τ = τ.undoTo ⟨τ.size - 1⟩ := by
  obtain ⟨table, names⟩ := τ
  cases names with
  | nil => rfl
  | cons x names =>
    have hstep : (Trail.mk table (x :: names)).undoTo ⟨names.length⟩ =
        (Trail.mk (table.erase x) names).undoTo ⟨names.length⟩ := if_pos (Nat.lt_succ_self _)
    exact (hstep.trans (undoTo_of_size_le (Nat.le_refl _))).symm

theorem grows_matchTermRec (τ : Trail) (p t : Term) : Grows τ (τ.matchTermRec p t).2 := by
  have hgrows := τ.grows_matchTerm p t
  rw [matchTerm, matchStack_singleton] at hgrows
  exact hgrows

/-- **A use adds bindings or undoes to some depth.** -/
theorem Step.grows_or_undone (h : Step τ τ') : Grows τ τ' ∨ ∃ m, τ' = τ.undoTo m := by
  cases h with
  | bind hx u => exact .inl (.bind .refl hx u)
  | matchTerm p t => exact .inl (grows_matchTerm τ p t)
  | matchTermRec p t => exact .inl (grows_matchTermRec τ p t)
  | undoLast => exact .inr ⟨_, undoLast?_getD τ⟩
  | undoTo m => exact .inr ⟨m, rfl⟩

theorem Step.reachable (h : Step τ τ') (hτ : τ.Reachable) : τ'.Reachable := by
  rcases h.grows_or_undone with hgrows | ⟨m, rfl⟩
  · exact hgrows.reachable hτ
  · exact hτ.undoTo m

theorem Run.reachable (h : Run m τ τ') (hτ : τ.Reachable) : τ'.Reachable := by
  induction h with
  | refl => exact hτ
  | step _ hstep _ ih => exact hstep.reachable ih

/-- A use that leaves the trail at least as long as an earlier one leaves one grown from the earlier
one. -/
theorem Step.grows (h : Step τ' τ'') (hgrows : Grows τ τ') (hsize : τ.size ≤ τ''.size) :
    Grows τ τ'' := by
  rcases h.grows_or_undone with hadded | ⟨m, rfl⟩
  · exact hgrows.trans hadded
  · exact hgrows.undoTo (Nat.le_trans hsize (τ'.size_undoTo_le m))

/-- **A run that stays above its mark ends in a trail that has grown from the marked one**, whatever
was bound and undone on the way. -/
theorem Run.grows (h : Run τ.mark τ τ') : Grows τ τ' := by
  induction h with
  | refl => exact .refl
  | step _ hstep hdepth ih => exact hstep.grows ih hdepth

/-! ### The history of a trail -/

/-- The bindings in the order in which they were made: each name with its entry in the table. -/
def history (τ : Trail) : List (String × Option Term) := τ.domain.map fun x => (x, τ.get? x)

theorem length_history (τ : Trail) : τ.history.length = τ.size := by
  rw [history, List.length_map, length_domain]

theorem ListsBound.history_bind (h : τ.ListsBound) (hx : τ.get? x = none) (u : Term) :
    (τ.bind x u).history = τ.history ++ [(x, some u)] := by
  have hearlier : ∀ y ∈ τ.domain, (τ.bind x u).get? y = τ.get? y := by
    intro y hy
    have hbound := (h.2 y).1 hy
    rw [get?_bind, if_neg]
    rintro rfl
    simp [isBound, hx] at hbound
  rw [history, domain_bind, List.map_append, history, List.map_singleton, get?_bind, if_pos rfl]
  refine congrArg (· ++ _) (List.map_congr_left fun y hy => ?_)
  rw [hearlier y hy]

/-- **Undoing by name cuts the history off at the mark**: the bindings made before it stay as they
were, and no entry of a later one is left in the table. -/
theorem Reachable.history_undoTo (h : τ.Reachable) (m : Mark) :
    (τ.undoTo m).history = τ.history.take m.depth := by
  have hgrows := h.grows
  clear h
  induction hgrows with
  | refl => exact List.take_nil.symm
  | @bind τ x hgrows hx u ih =>
    have hlists := hgrows.listsBound listsBound_empty
    by_cases hdepth : m.depth ≤ τ.size
    · rw [undoTo_bind hx hdepth, ih, hlists.history_bind hx,
        List.take_append_of_le_length (by rwa [length_history])]
    · have hkept : (τ.bind x u).size ≤ m.depth := Nat.lt_of_not_le hdepth
      rw [undoTo_of_size_le hkept, List.take_of_length_le (by rwa [length_history])]

end Trail

/-- **Undoing restores exactly the marked state.**  Whatever is done to a trail that has been in
use, with its own marks, matches and undoing, as long as it does not become shorter than it was at
the mark, undoing to the mark gives back the table and the names as they were, and with them the
action on every term.  At any time the names on the trail are exactly the variables bound in the
table, each once, and undoing to any mark leaves the bindings made before it and no others. -/
theorem undoing_restores {s : Trail} (hs : Trail.Run ⟨0⟩ .empty s) :
    s.ListsBound ∧
    ∀ s', Trail.Run s.mark s s' →
      s'.ListsBound ∧
      (s'.undoTo s.mark).table = s.table ∧ (s'.undoTo s.mark).names = s.names ∧
      (∀ t, (s'.undoTo s.mark).apply t = s.apply t) ∧
      ∀ m, (s'.undoTo m).ListsBound ∧ (s'.undoTo m).history = s'.history.take m.depth := by
  have hreachable : s.Reachable := hs.reachable .empty
  refine ⟨hreachable.listsBound, fun s' h => ?_⟩
  have hreachable' := h.reachable hreachable
  rw [h.grows.undoTo_mark]
  exact ⟨hreachable'.listsBound, rfl, rfl, fun _ => rfl, fun m =>
    ⟨(hreachable'.undoTo m).listsBound, hreachable'.history_undoTo m⟩⟩

/-- A trail on which `X` is bound to `f(Y)`. -/
def markedTrail : Trail := Trail.empty.bind "X" (.app "f" [.var "Y"])

/-- The same trail with `Z` bound to `b`. -/
def laterTrail : Trail := markedTrail.bind "Z" (.const "b")

/-- Matching `g(Z, W)` onto `g(a, X)` binds `Z` and `W`; matching `g(V, Z)` onto `g(b, c)` then
fails at `Z`, when `V` has been bound already.  The newest binding is undone, then all since the
mark, and `Z` is bound to something else. -/
theorem undoing_restores_markedTrail :
    Trail.Run ⟨0⟩ .empty markedTrail ∧ Trail.Run markedTrail.mark markedTrail laterTrail ∧
    (laterTrail.undoTo markedTrail.mark).table = markedTrail.table ∧
    (laterTrail.undoTo markedTrail.mark).names = ["X"] ∧
    laterTrail.apply (.app "h" [.var "X", .var "Z"]) = .app "h" [.app "f" [.var "Y"], .const "b"] ∧
    (laterTrail.undoTo markedTrail.mark).apply (.app "h" [.var "X", .var "Z"]) =
      .app "h" [.app "f" [.var "Y"], .var "Z"] := by
  have hmarked : Trail.Run ⟨0⟩ .empty markedTrail := .step .refl (.bind rfl _) (Nat.zero_le _)
  have hmatch : (markedTrail.matchTerm (.app "g" [.var "Z", .var "W"])
      (.app "g" [.const "a", .var "X"])).2 =
      (markedTrail.bind "Z" (.const "a")).bind "W" (.var "X") := by
    rw [Trail.matchTerm, Trail.matchStack_singleton]
    rfl
  have hbound : Trail.Run markedTrail.mark markedTrail
      ((markedTrail.bind "Z" (.const "a")).bind "W" (.var "X")) := by
    rw [← hmatch]
    exact .step .refl (.matchTerm _ _) (by rw [hmatch]; decide)
  have hfailed := hbound.step (.matchTermRec (.app "g" [.var "V", .var "Z"])
    (.app "g" [.const "b", .const "c"])) (by decide)
  have hback := (hfailed.step .undoLast (by decide)).step (.undoTo markedTrail.mark) (by decide)
  have hlater : Trail.Run markedTrail.mark markedTrail laterTrail :=
    hback.step (.bind rfl (.const "b")) (by decide)
  obtain ⟨-, hrestores⟩ := undoing_restores hmarked
  obtain ⟨-, htable, hnames, happly, -⟩ := hrestores _ hlater
  exact ⟨hmarked, hlater, htable, hnames, by decide, (happly _).trans (by decide)⟩

end Refutation
