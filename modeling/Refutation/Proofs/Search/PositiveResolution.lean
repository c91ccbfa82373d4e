import Refutation.Proofs.Search.Completeness

/-!
# Positive resolution

A search that selects literals leaves one negative literal of a processed clause to inferences, or
all literals if none is negative.  A resolution takes literals of opposite signs, so its premise
with the positive literal has no negative ones: the search does nothing but positive resolution.

* `LiteralSelection.Chooses` : what is selected, said without ranks.
* `LiteralSelection.chooses_of_select` : this is the literal that `LiteralSelection.select` finds.
* `Clause.IsRestricted` : inferences may use the selected literal only.
* `Search.Snapshot.Restricted` : all processed clauses are restricted, and one premise of every
  resolution is positive; every move keeps this.
* `Search.selection_makes_resolution_positive` : full and plain searches do positive resolution.
-/

namespace Refutation

/-! ### Preferences -/

namespace LiteralSelection

variable {s : LiteralSelection} {l m k : Literal} {ls : List Literal} {i : Nat}

/-- The literal `l` has fewer variables than `m`, or as many and is not lighter. -/
def HasFewerVars (l m : Literal) : Prop :=
  l.vars.length < m.vars.length ∨ l.vars.length = m.vars.length ∧ m.weight 1 1 ≤ l.weight 1 1

/-- The literal `l` is as good a choice as `m`, or a better one. -/
def Prefers : LiteralSelection → Literal → Literal → Prop
  | first, _, _ => True
  | smallest, l, m => l.weight 1 1 ≤ m.weight 1 1
  | largest, l, m => m.weight 1 1 ≤ l.weight 1 1
  | leastVars, l, m => HasFewerVars l m
  | eqLeastVars, l, m => l.tag = some .notEqual ∧ m.tag ≠ some .notEqual ∨
    (l.tag = some .notEqual ↔ m.tag = some .notEqual) ∧ HasFewerVars l m

/-- The literal at position `i` is negative, and no negative literal is a better choice. -/
def IsBest (s : LiteralSelection) (ls : List Literal) (i : Nat) : Prop :=
  ∃ l, ls[i]? = some l ∧ l.negative = true ∧ ∀ m ∈ ls, m.negative = true → s.Prefers l m

/-- The position `i` is the first one of a best negative literal. -/
def Chooses (s : LiteralSelection) (ls : List Literal) (i : Nat) : Prop :=
  s.IsBest ls i ∧ ∀ j < i, ¬s.IsBest ls j

theorem Prefers.trans (hlm : s.Prefers l m) (hmk : s.Prefers m k) : s.Prefers l k := by
  cases s <;> simp only [Prefers, HasFewerVars] at * <;> grind

theorem prefers_total (s : LiteralSelection) (l m : Literal) : s.Prefers l m ∨ s.Prefers m l := by
  cases s <;> simp only [Prefers, HasFewerVars] <;> grind

theorem rank_lt_iff : s.rank l < s.rank m ↔ ¬s.Prefers m l := by
  cases s <;>
    simp only [rank, Prefers, HasFewerVars, lightness, List.cons_lt_cons_iff, List.not_lt_nil] <;>
      grind

end LiteralSelection

/-! ### The first of the least elements -/

section

variable {α : Type} {lt : α → α → Bool} {as : List α} {a : α}

theorem firstLeast?_eq_none_iff : firstLeast? lt as = none ↔ as = [] := by
  cases as with
  | nil => simp [firstLeast?]
  | cons a as =>
    rw [firstLeast?]
    cases firstLeast? lt as with
    | none => simp
    | some b => grind

/-- The first of the least elements is less than all before it, and nothing after it is less. -/
theorem exists_of_firstLeast? (hasymm : ∀ a b, lt a b = true → lt b a = false)
    (htrans : ∀ a b c, lt a b = false → lt b c = false → lt a c = false)
    (h : firstLeast? lt as = some a) : ∃ before after, as = before ++ a :: after ∧
      (∀ b ∈ before, lt a b = true) ∧ ∀ b ∈ after, lt b a = false := by
  induction as generalizing a with
  | nil => simp [firstLeast?] at h
  | cons b as ih =>
    rw [firstLeast?] at h
    cases hrest : firstLeast? lt as with
    | none =>
      rw [hrest] at h
      obtain rfl := Option.some.inj h
      rw [firstLeast?_eq_none_iff.1 hrest]
      exact ⟨[], [], rfl, List.forall_mem_nil _, List.forall_mem_nil _⟩
    | some c =>
      simp only [hrest] at h
      obtain ⟨before, after, rfl, hbefore, hafter⟩ := ih hrest
      split_ifs at h with hlt
      · obtain rfl := Option.some.inj h
        exact ⟨b :: before, after, rfl, List.forall_mem_cons.2 ⟨hlt, hbefore⟩, hafter⟩
      · -- nothing is less than the least element of the rest, which is not less than `b`
        obtain rfl := Option.some.inj h
        refine ⟨[], _, rfl, List.forall_mem_nil _, fun x hx => ?_⟩
        refine htrans x c b ?_ (Bool.eq_false_iff.2 hlt)
        rcases List.mem_append.1 hx with hx | hx
        · exact hasymm c x (hbefore x hx)
        · rcases List.mem_cons.1 hx with rfl | hx
          · exact Bool.eq_false_iff.2 fun hself => absurd (hasymm x x hself) (by simp [hself])
          · exact hafter x hx

end

namespace LiteralSelection

variable {s : LiteralSelection} {ls : List Literal} {i : Nat}

theorem select_eq_none_iff : s.select ls = none ↔ ∀ l ∈ ls, l.negative = false := by
  rw [select, Option.map_eq_none_iff, firstLeast?_eq_none_iff, List.filter_eq_nil_iff]
  constructor
  · intro h l hl
    obtain ⟨i, hi⟩ := List.mem_iff_getElem?.1 hl
    simpa using h (l, i) (List.mem_zipIdx_iff_getElem?.2 hi)
  · intro h p hp
    simp [h p.1 (List.fst_mem_of_mem_zipIdx hp)]

/-- A selected literal is preferred to all negative ones, and no earlier one is preferred to it. -/
theorem prefers_of_select (h : s.select ls = some i) : ∃ l, ls[i]? = some l ∧ l.negative = true ∧
    ∀ m j, ls[j]? = some m → m.negative = true → s.Prefers l m ∧ (j < i → ¬s.Prefers m l) := by
  obtain ⟨⟨l, i⟩, hleast, rfl⟩ := Option.map_eq_some_iff.1 h
  have hcandidate : ∀ m j, (m, j) ∈ ls.zipIdx.filter (fun p => p.1.negative) ↔
      ls[j]? = some m ∧ m.negative = true := by
    intro m j
    rw [List.mem_filter, List.mem_zipIdx_iff_getElem?]
  have hprefers : ∀ p q : Literal × Nat,
      decide (s.rank p.1 < s.rank q.1) = false ↔ s.Prefers q.1 p.1 := by
    intro p q
    rw [decide_eq_false_iff_not, rank_lt_iff, not_not]
  obtain ⟨before, after, hsplit, hbefore, hafter⟩ := exists_of_firstLeast?
    (fun p q hpq => (hprefers q p).2 <| by
      rw [decide_eq_true_iff, rank_lt_iff] at hpq
      exact (s.prefers_total p.1 q.1).resolve_right hpq)
    (fun p q r hpq hqr => (hprefers p r).2 (((hprefers q r).1 hqr).trans ((hprefers p q).1 hpq)))
    hleast
  have hsorted : (ls.zipIdx.filter fun p => p.1.negative).Pairwise fun p q => p.2 < q.2 :=
    (pairwise_zipIdx ls).filter _
  rw [hsplit, List.pairwise_append, List.pairwise_cons] at hsorted
  obtain ⟨-, ⟨hlater, -⟩, -⟩ := hsorted
  obtain ⟨hl, hneg⟩ := (hcandidate l i).1 (hsplit ▸ List.mem_append_right _ List.mem_cons_self)
  refine ⟨l, hl, hneg, fun m j hm hmneg => ?_⟩
  have hmem := (hcandidate m j).2 ⟨hm, hmneg⟩
  rw [hsplit, List.mem_append, List.mem_cons, Prod.mk.injEq] at hmem
  rcases hmem with hmem | ⟨rfl, rfl⟩ | hmem
  · have hworse := hbefore _ hmem
    rw [decide_eq_true_iff, rank_lt_iff] at hworse
    exact ⟨(s.prefers_total l m).resolve_right hworse, fun _ => hworse⟩
  · exact ⟨(s.prefers_total m m).elim id id, fun hlt => absurd hlt (Nat.lt_irrefl _)⟩
  · exact ⟨(hprefers _ _).1 (hafter _ hmem), fun hlt => absurd (hlater _ hmem) (Nat.lt_asymm hlt)⟩

/-- **What is selected is the first of the best negative literals.** -/
theorem chooses_of_select (h : s.select ls = some i) : s.Chooses ls i := by
  obtain ⟨l, hl, hneg, hbest⟩ := prefers_of_select h
  refine ⟨⟨l, hl, hneg, fun m hm hmneg => ?_⟩, fun j hj ⟨m, hm, hmneg, hmbest⟩ => ?_⟩
  · obtain ⟨j, hj⟩ := List.mem_iff_getElem?.1 hm
    exact (hbest m j hj hmneg).1
  · exact (hbest m j hm hmneg).2 hj (hmbest l (List.mem_of_getElem? hl) hneg)

theorem isBest_mapIdx (flag : Nat → Bool) :
    s.IsBest (ls.mapIdx fun k l => { l with eligible := flag k }) i ↔ s.IsBest ls i := by
  have hprefers : ∀ (l m : Literal) (b c : Bool),
      s.Prefers { l with eligible := b } { m with eligible := c } ↔ s.Prefers l m := by
    intro l m b c
    cases s <;> rfl
  constructor
  · rintro ⟨_, hl, hneg, hbest⟩
    rw [List.getElem?_mapIdx] at hl
    obtain ⟨l, hget, rfl⟩ := Option.map_eq_some_iff.1 hl
    refine ⟨l, hget, hneg, fun m hm hmneg => ?_⟩
    obtain ⟨j, hj⟩ := List.mem_iff_getElem?.1 hm
    have hmem : { m with eligible := flag j } ∈
        ls.mapIdx fun k l => { l with eligible := flag k } :=
      List.mem_of_getElem? (i := j) (by rw [List.getElem?_mapIdx, hj]; rfl)
    exact (hprefers ..).1 (hbest _ hmem hmneg)
  · rintro ⟨l, hl, hneg, hbest⟩
    refine ⟨{ l with eligible := flag i }, by rw [List.getElem?_mapIdx, hl]; rfl, hneg,
      fun m hm hmneg => ?_⟩
    obtain ⟨j, hj⟩ := List.mem_iff_getElem?.1 hm
    rw [List.getElem?_mapIdx] at hj
    obtain ⟨m, hget, rfl⟩ := Option.map_eq_some_iff.1 hj
    exact (hprefers ..).2 (hbest m (List.mem_of_getElem? hget) hmneg)

end LiteralSelection

/-! ### Restricted clauses -/

namespace Clause

variable {s : LiteralSelection} {c : Clause} {i : Nat} {l : Literal}

/-- Inferences may use the chosen negative literal only, or all literals if none is negative. -/
structure IsRestricted (s : LiteralSelection) (c : Clause) : Prop where
  /-- All literals if none is negative. -/
  positive : IsPositive c.signedAtoms → ∀ l ∈ c.literals, l.eligible = true
  /-- Otherwise the first of the best negative literals, and no other. -/
  negative : ¬IsPositive c.signedAtoms → ∃ i, s.Chooses c.literals i ∧
    ∀ j l, c.literals[j]? = some l → (l.eligible = true ↔ j = i)

theorem isPositive_signedAtoms :
    IsPositive c.signedAtoms ↔ ∀ l ∈ c.literals, l.negative = false := by
  simp [IsPositive, signedAtoms]

/-- Selecting a literal restricts a clause all of whose literals could be used. -/
theorem isRestricted_select (h : ∀ l ∈ c.literals, l.eligible = true) (s : LiteralSelection) :
    (c.select s).IsRestricted s := by
  unfold select
  split
  · next i hi =>
    obtain ⟨hbest, hfirst⟩ := LiteralSelection.chooses_of_select hi
    have hchooses : s.Chooses (c.literals.mapIdx fun k l =>
        { l with eligible := decide (k = i) }) i :=
      ⟨(LiteralSelection.isBest_mapIdx _).2 hbest, fun j hj hj' =>
        hfirst j hj ((LiteralSelection.isBest_mapIdx _).1 hj')⟩
    constructor
    · intro hpos
      obtain ⟨l, hl, hneg, -⟩ := hchooses.1
      exact absurd (isPositive_signedAtoms.1 hpos l (List.mem_of_getElem? hl)) (by simp [hneg])
    · refine fun _ => ⟨i, hchooses, fun j l hl => ?_⟩
      rw [List.getElem?_mapIdx] at hl
      obtain ⟨l, -, rfl⟩ := Option.map_eq_some_iff.1 hl
      exact decide_eq_true_iff
  · next hnone =>
    refine ⟨fun _ => h, fun hneg => absurd ?_ hneg⟩
    exact isPositive_signedAtoms.2 (LiteralSelection.select_eq_none_iff.1 hnone)

/-- A literal that inferences may use is positive exactly if all literals are. -/
theorem IsRestricted.isPositive_iff (h : c.IsRestricted s) (hl : c.literals[i]? = some l)
    (heligible : l.eligible = true) : IsPositive c.signedAtoms ↔ l.negative = false := by
  refine ⟨fun hpos => isPositive_signedAtoms.1 hpos l (List.mem_of_getElem? hl), fun hl' => ?_⟩
  by_contra hneg
  obtain ⟨j, ⟨⟨m, hm, hmneg, -⟩, -⟩, honly⟩ := h.negative hneg
  obtain rfl := (honly i l hl).1 heligible
  rw [Option.some.inj (hl.symm.trans hm), hmneg] at hl'
  exact absurd hl' (by simp)

end Clause

namespace Search

variable {policy : Policy} {selection : LiteralSelection} {v w : Snapshot} {S : List Clause}

/-! ### Resolutions with a positive premise -/

/-- Exactly one premise of every resolution that was called has only positive literals. -/
def History.IsPositive (h : History) : Prop :=
  ∀ c i d j fresh, .resolve c i d j fresh ∈ h.calls →
    Xor (Refutation.IsPositive c.clause.signedAtoms) (Refutation.IsPositive d.clause.signedAtoms)

/-- Inferences may use only the literals selected in processed clauses, and one premise of every
resolution is positive. -/
structure Snapshot.Restricted (selection : LiteralSelection) (v : Snapshot) : Prop where
  /-- All literals of unprocessed clauses can still be selected. -/
  eligible : v.Eligible
  /-- Literals of processed clauses have been selected. -/
  processed : ∀ e ∈ v.processed, e.clause.IsRestricted selection
  /-- One premise is positive. -/
  calls : v.history.IsPositive

namespace Snapshot.Restricted

/-- A resolution between restricted clauses has one positive premise. -/
theorem xor_of_mem_inferenceCalls {given : Entry} {members : List Entry} {fresh : FreshVars}
    (hgiven : given.clause.IsRestricted selection)
    (hmembers : ∀ e ∈ members, e.clause.IsRestricted selection) {c d : Entry} {i j : Nat}
    {f : FreshVars}
    (hk : .resolve c i d j f ∈ (inferenceCalls given (PlainStore.mk members) fresh).1) :
    Xor (IsPositive c.clause.signedAtoms) (IsPositive d.clause.signedAtoms) := by
  rcases List.mem_append.1 hk with hk | hk
  · obtain ⟨p, hp, f, heq, -⟩ := mem_resolveCalls hk
    obtain ⟨rfl, rfl, rfl, rfl, rfl⟩ := Call.resolve.inj heq
    obtain ⟨l, m, hl, hleligible, hpartner, hsigns, hm, hmeligible⟩ := mem_pairings.1 hp
    rw [xor_iff_not_iff, hgiven.isPositive_iff hl hleligible,
      (hmembers _ hpartner).isPositive_iff hm hmeligible]
    -- the literals resolved upon have opposite signs
    simp only [Literal.isPartner, Bool.and_eq_true, bne_iff_ne] at hsigns
    cases hlneg : l.negative <;> simp_all
  · obtain ⟨p, -, hp⟩ := List.mem_map.1 hk
    exact Call.noConfusion hp

/-- **Every move of a search that selects literals keeps processed clauses restricted.** -/
theorem move (hpolicy : policy.selection = some selection) (hv : v.Restricted selection)
    (h : Move policy v w) : w.Restricted selection := by
  have heligible := hv.eligible.move h
  cases h with
  | giveUp | saturate | skip | dropTautology | conclude | finish | discardTautology | enqueue =>
    exact ⟨heligible, hv.processed, hv.calls⟩
  | discardSubsumed _ _ hthins =>
    exact ⟨heligible, fun e he => hv.processed e (hthins.sublist.subset he), hv.calls⟩
  | @activate given rest _ hgiven _ hthins =>
    have hrest : ∀ e ∈ rest, e.clause.IsRestricted selection :=
      fun e he => hv.processed e (hthins.sublist.subset he)
    have hselected : (v.select policy given).1.clause.IsRestricted selection := by
      rw [Snapshot.select, hpolicy]
      exact Clause.isRestricted_select (hv.eligible.unprocessed given hgiven) selection
    refine ⟨heligible, fun e he => ?_, fun c i d j f hcall => ?_⟩
    · rcases List.mem_append.1 he with he | he
      · exact hrest e he
      · exact List.mem_singleton.1 he ▸ hselected
    · rcases List.mem_append.1 hcall with hcall | hcall
      · exact hv.calls c i d j f (calls_select v policy given ▸ hcall)
      · exact xor_of_mem_inferenceCalls hselected hrest hcall

theorem moves (hpolicy : policy.selection = some selection)
    (hS : ∀ c ∈ S, ∀ l ∈ c.literals, l.eligible = true) (h : Moves policy (.start S) w) :
    w.Restricted selection := by
  refine h.invariant (Snapshot.consistent_start S) ?_ fun _ hv hmove => hv.move hpolicy hmove
  exact ⟨.start hS, List.forall_mem_nil _, fun _ _ _ _ _ hcall => absurd hcall List.not_mem_nil⟩

end Snapshot.Restricted

/-! ### Full and plain searches -/

theorem Run.restricted {P U : Type} [ClauseStore P] [ClauseQueue U] [LawfulStore P] [LawfulQueue U]
    {s₀ s : State P U} {h : History} (hpolicy : policy.selection = some selection)
    (hS : ∀ c ∈ S, ∀ l ∈ c.literals, l.eligible = true) (hs₀ : s₀.Consistent (.start s₀))
    (hstart : s₀.snapshot [] (.start s₀) = .start S) (run : Run policy s₀ (.start s₀) s h) :
    (∀ e ∈ ClauseStore.toList s.processed, e.clause.IsRestricted selection) ∧ h.IsPositive := by
  obtain ⟨hmoves, -⟩ := run.moves hs₀
  rw [hstart] at hmoves
  have hrestricted : (s.snapshot [] h).Restricted selection := .moves hpolicy hS hmoves
  exact ⟨hrestricted.processed, hrestricted.calls⟩

/-- **Selection makes resolution positive**, in full and plain searches from clauses whose literals
may all be used: at any time inferences may use only the chosen negative literal of a processed
clause, or all literals if none is negative, and exactly one premise of every resolution has only
positive literals. -/
theorem selection_makes_resolution_positive (params : Params)
    (hparams : params.selection = some selection)
    (hS : ∀ c ∈ S, ∀ l ∈ c.literals, l.eligible = true) :
    (∀ s₀ s h, startFull params S = .ok s₀ → Run params.policy s₀ (.start s₀) s h →
      (∀ e ∈ ClauseStore.toList s.processed, e.clause.IsRestricted selection) ∧ h.IsPositive) ∧
    ∀ s₀ s h, startPlain S = .ok s₀ → Run params.plainPolicy s₀ (.start s₀) s h →
      (∀ e ∈ ClauseStore.toList s.processed, e.clause.IsRestricted selection) ∧ h.IsPositive := by
  constructor
  · intro s₀ s h hstart run
    obtain ⟨hsnapshot, hs₀⟩ := startFull_spec hstart
    exact run.restricted hparams hS hs₀ hsnapshot
  · intro s₀ s h hstart run
    obtain ⟨hsnapshot, hs₀⟩ := startPlain_spec hstart
    exact run.restricted hparams hS hs₀ hsnapshot

/-- Two facts, and a rule that needs both. -/
def factsAndRule : List Clause :=
  [⟨"first", .axiomatic, [.pos (.app "p" [.app "a" []])], none⟩,
    ⟨"second", .axiomatic, [.pos (.app "q" [.app "f" [.app "a" []]])], none⟩,
    ⟨"rule", .axiomatic, [.neg (.app "p" [.var "X"]), .neg (.app "q" [.app "f" [.var "X"]]),
      .pos (.app "r" [.var "X"])], none⟩]

/-- The heavier condition of the rule is selected, and the rule is resolved with the second fact
only. -/
theorem selection_makes_resolution_positive_factsAndRule :
    (∀ c ∈ factsAndRule, ∀ l ∈ c.literals, l.eligible = true) ∧
    ∃ s₀ s h, startFull { selection := some .largest } factsAndRule = .ok s₀ ∧
      Run ({ selection := some .largest } : Params).policy s₀ (.start s₀) s h ∧
      (ClauseStore.toList s.processed).map (fun e => e.clause.literals.map (·.eligible)) =
        [[true], [true], [false, true, false]] ∧
      (h.calls.filterMap fun
        | .resolve _ i d j _ => some (i, d.clause.name, j)
        | .factor .. => none) = [(1, "second", 0)] ∧
      (∀ e ∈ ClauseStore.toList s.processed, e.clause.IsRestricted .largest) ∧ h.IsPositive := by
  have hS : ∀ c ∈ factsAndRule, ∀ l ∈ c.literals, l.eligible = true := of_decide_eq_true (by cbv)
  let params : Params := { selection := some .largest }
  let s₀ : FullState := .start .empty (.empty params.heuristic.schedule) factsAndRule
  have run : Run params.policy s₀ (.start s₀) _ _ :=
    ((Run.start.step .zero).step .zero).step .zero
  obtain ⟨hfull, -⟩ := selection_makes_resolution_positive params rfl hS
  exact ⟨hS, s₀, _, _, rfl, run, by cbv, by cbv, hfull s₀ _ _ rfl run⟩

end Search

end Refutation
