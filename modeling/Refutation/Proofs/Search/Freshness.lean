import Refutation.Proofs.Search.Soundness

/-!
# Renaming apart

A resolution renames its second premise with the next fresh variables.  The source of fresh
variables counts the names it has given out and does not look at the clauses that a search starts
with: a variable of theirs that is named like a fresh one is the only thing that two premises can
have in common.

* `Clause.IsDrawnOr` : whatever is named like a fresh variable has been drawn or is a known
  variable.
* `Search.Snapshot.DrawnOr` : whatever is named like a fresh variable has been drawn or was there
  from the start; every move keeps this.
* `Search.renaming_apart` : when the premises of a resolution have no variable in common, in full
  and plain searches.
* `Search.not_renamed_apart` : a search in which they have one, and which therefore misses a proof.
-/

namespace Refutation

universe u

/-! ### Variables that may be taken for fresh ones -/

namespace Clause

variable {c d : Clause} {fresh : FreshVars}

/-- Every variable of the clause that is named like a fresh one has been drawn or is a known one. -/
def IsDrawnOr (known : List String) (c : Clause) (fresh : FreshVars) : Prop :=
  ∀ n, FreshVars.varName n ∈ c.vars → n ≤ fresh.drawn ∨ FreshVars.varName n ∈ known

variable {known : List String}

theorem IsDrawnOr.mono {fresh' : FreshVars} (h : c.IsDrawnOr known fresh)
    (hle : fresh.drawn ≤ fresh'.drawn) : c.IsDrawnOr known fresh' :=
  fun n hn => (h n hn).imp_left fun hn => Nat.le_trans hn hle

theorem IsDrawnOr.of_subset (h : c.IsDrawnOr known fresh)
    (hsub : ∀ a ∈ d.signedAtoms, a ∈ c.signedAtoms) : d.IsDrawnOr known fresh := by
  intro n hn
  obtain ⟨a, ha, hx⟩ := mem_vars.1 hn
  exact h n (mem_vars.2 ⟨a, hsub a ha, hx⟩)

/-- A clause and a fresh copy have only known variables in common. -/
theorem IsDrawnOr.mem_known (h : c.IsDrawnOr known fresh) {x : String} (hx : x ∈ c.vars)
    (hcopy : x ∈ (d.freshCopy fresh).1.vars) : x ∈ known := by
  obtain ⟨n, hlt, -, rfl⟩ := FreshVars.mem_upcoming.1 (mem_vars_freshCopy.1 hcopy)
  exact (h n hx).resolve_left (Nat.not_le_of_lt hlt)

end Clause

namespace Entry

variable {known : List String} {c d : Entry} {i j : Nat} {fresh : FreshVars} {r : Clause}

theorem isDrawnOr_resolve (h : (c.resolve i d j fresh).1 = some r)
    (hc : c.clause.IsDrawnOr known fresh) : r.IsDrawnOr known (c.resolve i d j fresh).2 := by
  intro n hn
  rw [drawn_resolve_of_eq_some h]
  rcases mem_vars_resolve h hn with hn | ⟨m, hm, hnm⟩
  · exact (hc n hn).imp_left fun hn => Nat.le_add_right_of_le hn
  · exact .inl (FreshVars.varName_inj.1 hnm ▸ hm)

theorem isDrawnOr_factor (h : c.factor i j = some r) (hc : c.clause.IsDrawnOr known fresh) :
    r.IsDrawnOr known fresh :=
  fun n hn => hc n (mem_vars_factor h hn)

end Entry

namespace Search

variable {policy : Policy} {v w : Snapshot} {S : List Clause} {known : List String}

/-! ### What is named like a fresh variable -/

/-- Whatever is named like a fresh variable has been drawn, and before it is used, or is a known
one. -/
structure Snapshot.DrawnOr (known : List String) (v : Snapshot) : Prop where
  /-- In processed and unprocessed clauses. -/
  members : ∀ e ∈ v.processed ++ v.unprocessed, e.clause.IsDrawnOr known v.fresh
  /-- In the first premise of a resolution, before the second one is renamed. -/
  called : ∀ c i d j fresh, .resolve c i d j fresh ∈ v.history.calls →
    c.clause.IsDrawnOr known fresh
  /-- In the conclusions that have not been taken in. -/
  pending : ∀ k ∈ v.pending, ∀ r, k.result? = some r → r.IsDrawnOr known v.fresh

namespace Snapshot.DrawnOr

theorem isDrawnOr_inferenceCalls {given : Entry} {members : List Entry} {fresh : FreshVars}
    (hgiven : given.clause.IsDrawnOr known fresh) {k : Call}
    (hk : k ∈ (inferenceCalls given (PlainStore.mk members) fresh).1) :
    (∀ c i d j f, k = .resolve c i d j f → c.clause.IsDrawnOr known f) ∧
      ∀ r, k.result? = some r →
        r.IsDrawnOr known (inferenceCalls given (PlainStore.mk members) fresh).2 := by
  rcases List.mem_append.1 hk with hk | hk
  · obtain ⟨p, -, f, rfl, hle, hlast⟩ := mem_resolveCalls hk
    constructor
    · intro c i d j f' heq
      simp only [Call.resolve.injEq] at heq
      obtain ⟨rfl, -, -, -, rfl⟩ := heq
      exact hgiven.mono hle
    · -- what the call draws is drawn before the last call
      intro r hr
      exact (Entry.isDrawnOr_resolve hr (hgiven.mono hle)).mono hlast
  · obtain ⟨p, -, rfl⟩ := List.mem_map.1 hk
    refine ⟨fun _ _ _ _ _ heq => Call.noConfusion heq, fun r hr => ?_⟩
    exact Entry.isDrawnOr_factor hr (hgiven.mono (drawn_le_resolveCalls _ _ _))

theorem of_subset (hv : v.DrawnOr known) (hfresh : w.fresh = v.fresh)
    (hmembers : ∀ e ∈ w.processed ++ w.unprocessed, e ∈ v.processed ++ v.unprocessed)
    (hcalls : w.history.calls = v.history.calls) (hpending : ∀ k ∈ w.pending, k ∈ v.pending) :
    w.DrawnOr known where
  members e he := hfresh ▸ hv.members e (hmembers e he)
  called c i d j f h := hv.called c i d j f (hcalls ▸ h)
  pending k hk r hr := hfresh ▸ hv.pending k (hpending k hk) r hr

theorem activate (hv : v.DrawnOr known) {given selected : Entry} {rest : List Entry}
    (hrest : rest.Sublist v.processed) (hselected : selected.clause.IsDrawnOr known v.fresh) :
    (v.activate given selected rest).DrawnOr known where
  members e he := by
    have hle := drawn_le_resolveCalls selected (pairings selected (PlainStore.mk rest)) v.fresh
    have hdrawn : e.clause.IsDrawnOr known v.fresh := by
      rcases List.mem_append.1 he with he | he
      · rcases List.mem_append.1 he with he | he
        · exact hv.members e (List.mem_append_left _ (hrest.subset he))
        · exact List.mem_singleton.1 he ▸ hselected
      · exact hv.members e (List.mem_append_right _ (mem_without.1 he).1)
    exact hdrawn.mono hle
  called c i d j f h := by
    rcases List.mem_append.1 h with h | h
    · exact hv.called c i d j f h
    · exact (isDrawnOr_inferenceCalls hselected h).1 c i d j f rfl
  pending k hk r hr := (isDrawnOr_inferenceCalls hselected hk).2 r hr

/-- **Every move keeps fresh variables fresh.** -/
theorem move (hv : v.DrawnOr known) (h : Move policy v w) : w.DrawnOr known := by
  have hdiscard : ∀ (n : Nat) {rest : List Entry}, rest.Sublist v.processed →
      ∀ e ∈ rest ++ without n v.unprocessed, e ∈ v.processed ++ v.unprocessed :=
    fun n rest hrest e he => (hrest.append (without_sublist n v.unprocessed)).subset he
  cases h with
  | giveUp | saturate => exact hv.of_subset rfl (fun _ => id) rfl fun _ => id
  | finish | discardTautology => exact hv.of_subset rfl (hdiscard _ (.refl _)) rfl fun _ => id
  | discardSubsumed _ _ hthins =>
    exact hv.of_subset rfl (hdiscard _ hthins.sublist) rfl fun _ => id
  | @activate given rest hidle hgiven _ hthins =>
    have hselect : (v.select policy given).2.DrawnOr known :=
      hv.of_subset (by simp) (by simp) (by simp) (by simp)
    refine hselect.activate (by simpa using hthins.sublist) ?_
    rw [fresh_select]
    refine (hv.members given (List.mem_append_right _ hgiven)).of_subset fun a ha => ?_
    rwa [Snapshot.signedAtoms_select] at ha
  | skip _ hpending | dropTautology _ hpending =>
    exact hv.of_subset rfl (fun _ => id) rfl fun k hk => hpending ▸ List.mem_cons_of_mem _ hk
  | @enqueue k ks r _ hpending hr _ name =>
    refine ⟨fun e he => ?_, hv.called, fun k' hk' =>
      hv.pending k' (hpending ▸ List.mem_cons_of_mem _ hk')⟩
    change e ∈ v.processed ++ (v.unprocessed ++ [_]) at he
    rw [← List.append_assoc] at he
    rcases List.mem_append.1 he with he | he
    · exact hv.members e he
    · rw [List.mem_singleton.1 he]
      exact (hv.pending k (hpending ▸ List.mem_cons_self) r hr).of_subset fun a ha =>
        Policy.mem_signedAtoms_tidy.1 ha
  | conclude => exact hv.of_subset rfl (fun _ => id) rfl (List.forall_mem_nil _)

theorem start (hS : ∀ c ∈ S, ∀ n, FreshVars.varName n ∈ c.vars → FreshVars.varName n ∈ known) :
    (Snapshot.start S).DrawnOr known where
  members e he := by
    obtain ⟨⟨c, m⟩, hp, rfl⟩ := List.mem_map.1 he
    exact fun n hn => .inr (hS c (List.fst_mem_of_mem_zipIdx hp) n hn)
  called _ _ _ _ _ h := absurd h List.not_mem_nil
  pending := List.forall_mem_nil _

theorem moves (hS : ∀ c ∈ S, ∀ n, FreshVars.varName n ∈ c.vars → FreshVars.varName n ∈ known)
    (h : Moves policy (.start S) w) : w.DrawnOr known :=
  h.invariant (Snapshot.consistent_start S) (start hS) fun _ hv hmove => hv.move hmove

end Snapshot.DrawnOr

/-! ### Full and plain searches -/

theorem varName_not_mem_vars (h : ∀ c ∈ S, ∀ x ∈ c.vars, x.toList.head? ≠ some 'V') :
    ∀ c ∈ S, ∀ n, FreshVars.varName n ∉ c.vars := by
  intro c hc n hn
  exact h c hc _ hn (by simp [FreshVars.varName])

/-- When the resolutions of a search from the clauses `S` rename their second premise apart from the
first one. -/
structure History.RenamesApart (S : List Clause) (h : History) : Prop where
  /-- Always, if no variable of `S` is named like a fresh one. -/
  disjoint : (∀ b ∈ S, ∀ n, FreshVars.varName n ∉ b.vars) → ∀ c i d j fresh,
    .resolve c i d j fresh ∈ h.calls → ∀ x ∈ c.clause.vars, x ∉ (d.clause.freshCopy fresh).1.vars
  /-- In general, exactly if none of the names that are drawn for the copy is a variable of the
  first premise that comes from `S`. -/
  disjoint_iff : ∀ c i d j fresh, .resolve c i d j fresh ∈ h.calls →
    ((∀ x ∈ c.clause.vars, x ∉ (d.clause.freshCopy fresh).1.vars) ↔
      ∀ b ∈ S, ∀ x ∈ b.vars, x ∈ c.clause.vars → x ∉ fresh.upcoming d.clause.vars.length)

theorem Run.renamesApart {P U : Type} [ClauseStore P] [ClauseQueue U] [LawfulStore P]
    [LawfulQueue U] {s₀ s : State P U} {h : History} (hs₀ : s₀.Consistent (.start s₀))
    (hstart : s₀.snapshot [] (.start s₀) = .start S) (run : Run policy s₀ (.start s₀) s h) :
    h.RenamesApart S := by
  obtain ⟨hmoves, -⟩ := run.moves hs₀
  rw [hstart] at hmoves
  have hdrawn : (s.snapshot [] h).DrawnOr (S.flatMap (·.vars)) :=
    .moves (fun c hc _ hn => List.mem_flatMap.2 ⟨c, hc, hn⟩) hmoves
  -- a variable in common comes from one of the clauses at the start
  have hshared : ∀ c i d j fresh, .resolve c i d j fresh ∈ h.calls → ∀ x ∈ c.clause.vars,
      x ∈ (d.clause.freshCopy fresh).1.vars → ∃ b ∈ S, x ∈ b.vars :=
    fun c i d j fresh hcall x hx hcopy =>
      List.mem_flatMap.1 ((hdrawn.called c i d j fresh hcall).mem_known hx hcopy)
  constructor
  · intro hS c i d j fresh hcall x hx hcopy
    obtain ⟨b, hb, hxb⟩ := hshared c i d j fresh hcall x hx hcopy
    obtain ⟨n, -, -, rfl⟩ := FreshVars.mem_upcoming.1 (Clause.mem_vars_freshCopy.1 hcopy)
    exact hS b hb n hxb
  · intro c i d j fresh hcall
    constructor
    · intro hdisjoint b _ x _ hx hupcoming
      exact hdisjoint x hx (Clause.mem_vars_freshCopy.2 hupcoming)
    · intro hinput x hx hcopy
      obtain ⟨b, hb, hxb⟩ := hshared c i d j fresh hcall x hx hcopy
      exact hinput b hb x hxb hx (Clause.mem_vars_freshCopy.1 hcopy)

/-- **Renaming apart**, in full and plain searches: two premises of a resolution have no variable in
common, unless a clause that the search started with has a variable named like a fresh one. -/
theorem renaming_apart (params : Params) :
    (∀ s₀ s h, startFull params S = .ok s₀ → Run params.policy s₀ (.start s₀) s h →
      h.RenamesApart S) ∧
    ∀ s₀ s h, startPlain S = .ok s₀ → Run params.plainPolicy s₀ (.start s₀) s h →
      h.RenamesApart S := by
  constructor
  · intro s₀ s h hstart run
    obtain ⟨hsnapshot, hs₀⟩ := startFull_spec hstart
    exact run.renamesApart hs₀ hsnapshot
  · intro s₀ s h hstart run
    obtain ⟨hsnapshot, hs₀⟩ := startPlain_spec hstart
    exact run.renamesApart hs₀ hsnapshot

/-- A fact and a goal that contradict each other; the variable of the goal has the given name. -/
def factAndGoal (y : String) : List Clause :=
  [⟨"fact", .axiomatic, [.pos (.app "p" [.var "X", .app "b" []])], none⟩,
    ⟨"goal", .negatedConjecture, [.neg (.app "p" [.app "c" [], .var y])], none⟩]

/-- The goal is resolved with the fact, from which it is renamed apart, and both searches find a
proof. -/
theorem renaming_apart_factAndGoal :
    (∀ b ∈ factAndGoal "Y", ∀ n, FreshVars.varName n ∉ b.vars) ∧
    (∃ s₀ s h, startFull {} (factAndGoal "Y") = .ok s₀ ∧
      Run ({} : Params).policy s₀ (.start s₀) s h ∧
      s.status = .proofFound ∧ ∃ c i d j fresh, .resolve c i d j fresh ∈ h.calls ∧
        ∀ x ∈ c.clause.vars, x ∉ (d.clause.freshCopy fresh).1.vars) ∧
    ∃ s₀ s h, startPlain (factAndGoal "Y") = .ok s₀ ∧
      Run ({} : Params).plainPolicy s₀ (.start s₀) s h ∧
      s.status = .proofFound ∧ ∃ c i d j fresh, .resolve c i d j fresh ∈ h.calls ∧
        ∀ x ∈ c.clause.vars, x ∉ (d.clause.freshCopy fresh).1.vars := by
  have hS : ∀ b ∈ factAndGoal "Y", ∀ n, FreshVars.varName n ∉ b.vars := by
    intro b hb n hn
    have hall : (factAndGoal "Y").flatMap (·.vars) = ["X", "Y"] := by cbv
    have hmem : FreshVars.varName n ∈ ["X", "Y"] := hall ▸ List.mem_flatMap.2 ⟨b, hb, hn⟩
    have hchars := List.mem_map_of_mem (f := String.toList) hmem
    simp [FreshVars.varName] at hchars
  let fact : Entry := ⟨0, ⟨"fact", .axiomatic, [.pos (.app "p" [.var "X", .app "b" []])], none⟩⟩
  let goal : Entry :=
    ⟨1, ⟨"goal", .negatedConjecture, [.neg (.app "p" [.app "c" [], .var "Y"])], none⟩⟩
  let s₀ : FullState := .start .empty (.empty ({} : Params).heuristic.schedule) (factAndGoal "Y")
  let t₀ : PlainState := .start .empty .empty (factAndGoal "Y")
  have run : Run ({} : Params).policy s₀ (.start s₀) _ _ := (Run.start.step .zero).step .zero
  have run' : Run ({} : Params).plainPolicy t₀ (.start t₀) _ _ := (Run.start.step .zero).step .zero
  obtain ⟨hfull, hplain⟩ := renaming_apart (S := factAndGoal "Y") {}
  refine ⟨hS,
    ⟨s₀, _, _, rfl, run, by cbv, goal, 0, fact, 0, .initial, ?_,
      (hfull s₀ _ _ rfl run).disjoint hS goal 0 fact 0 .initial ?_⟩,
    ⟨t₀, _, _, rfl, run', by cbv, goal, 0, fact, 0, .initial, ?_,
      (hplain t₀ _ _ rfl run').disjoint hS goal 0 fact 0 .initial ?_⟩⟩
  all_goals exact of_decide_eq_true (by cbv)

theorem not_satisfiable_factAndGoal (y : String) : ¬Satisfiable.{u} (factAndGoal y) := by
  rintro ⟨D, I, hI⟩
  have hfact := hI _ List.mem_cons_self fun _ => I.func "c" []
  have hgoal := hI _ (List.mem_cons_of_mem _ List.mem_cons_self) fun _ => I.func "b" []
  simp only [Clause.signedAtoms, List.map_cons, List.map_nil, List.mem_singleton,
    exists_eq_left] at hfact hgoal
  let atom : Term := .app "p" [.app "c" [], .app "b" []]
  exact Interpretation.not_holds_of_opposite (a := ⟨false, atom⟩) (b := ⟨true, atom⟩)
    (by decide) rfl
    (v := fun _ => I.func "c" []) hfact hgoal

/-- **A variable of the goal is taken for a fresh one.**  The copy of the fact gets the name that
the variable of the goal has already, the two cannot be unified any more, and the search ends
saturated although the clauses are unsatisfiable. -/
theorem not_renamed_apart : ∃ s₀ s h, startFull {} (factAndGoal "V_1") = .ok s₀ ∧
    Run ({} : Params).policy s₀ (.start s₀) s h ∧
    (∃ c i d j fresh, .resolve c i d j fresh ∈ h.calls ∧
      ∃ x ∈ c.clause.vars, x ∈ (d.clause.freshCopy fresh).1.vars) ∧
    s.status = .saturated ∧ ¬Satisfiable.{u} (factAndGoal "V_1") := by
  let fact : Entry := ⟨0, ⟨"fact", .axiomatic, [.pos (.app "p" [.var "X", .app "b" []])], none⟩⟩
  let goal : Entry :=
    ⟨1, ⟨"goal", .negatedConjecture, [.neg (.app "p" [.app "c" [], .var "V_1"])], none⟩⟩
  let s₀ : FullState := .start .empty (.empty ({} : Params).heuristic.schedule) (factAndGoal "V_1")
  have run : Run ({} : Params).policy s₀ (.start s₀) _ _ :=
    ((Run.start.step .zero).step .zero).step .zero
  refine ⟨s₀, _, _, rfl, run, ⟨goal, 0, fact, 0, .initial, ?_, "V_1", ?_, ?_⟩, by cbv,
    not_satisfiable_factAndGoal _⟩
  · exact of_decide_eq_true (by cbv)
  · exact of_decide_eq_true (by cbv)
  · exact of_decide_eq_true (by cbv)

end Search

end Refutation
