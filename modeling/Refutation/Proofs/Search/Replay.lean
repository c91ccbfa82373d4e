import Refutation.Proofs.Ancestry
import Refutation.Proofs.Search.Soundness

/-!
# Replaying a proof

A clause changes after its derivation was recorded: it gets a name, repeated literals are removed,
and a copy with selected literals takes its place.  Still the parents that a derivation names are
the premises from which the rule makes the clause again.

* `Search.Recorded` : what is known of a clause of the archive.
* `Search.Snapshot.Recorded.move` : every move keeps this of all clauses.
* `Search.Replays` : one step of a proof, made again from clauses listed earlier.
* `Search.proof_replayable` : every proof can be replayed, in full and plain searches.
-/

namespace Refutation

/-! ### What derivations name -/

namespace Entry

variable {c d : Entry} {i j : Nat} {fresh : FreshVars} {r : Clause}

theorem derivation_resolve (h : (c.resolve i d j fresh).1 = some r) :
    r.derivation = some (.inference "resolution" [c.asParent, d.asParent]) := by
  obtain ⟨_, _, _, _, _, _, _, rfl⟩ := resolve_eq_some_iff.1 h
  rfl

theorem derivation_factor (h : c.factor i j = some r) :
    r.derivation = some (.inference "factor" [c.asParent]) := by
  obtain ⟨_, _, _, _, _, _, _, _, _, rfl⟩ := factor_eq_some_iff.1 h
  rfl

end Entry

/-- **A conclusion names its premises.** -/
theorem Call.parents_result {k : Call} {r : Clause} (h : k.result? = some r) :
    r.parents = k.premises.map (·.asParent) := by
  cases k with
  | resolve c i d j fresh =>
    rw [Clause.parents, Entry.derivation_resolve h]
    rfl
  | factor c i j =>
    rw [Clause.parents, Entry.derivation_factor h]
    rfl

namespace Clause

variable (c : Clause) (s : LiteralSelection)

theorem name_select : (c.select s).name = c.name := by
  unfold select
  split <;> rfl

theorem role_select : (c.select s).role = c.role := by
  unfold select
  split <;> rfl

theorem derivation_select : (c.select s).derivation = c.derivation := by
  unfold select
  split <;> rfl

end Clause

theorem Archive.get?_record_eq_some {A : Archive} {n : Nat} {c d : Clause}
    (h : (A.record d).2.get? n = some c) : A.get? n = some c ∨ n = A.size ∧ c = d := by
  rcases Nat.lt_or_ge n A.size with hn | hn
  · exact .inl (Archive.get?_record_of_lt d hn ▸ h)
  · have hlt := Archive.lt_size h
    rw [Archive.size_record] at hlt
    obtain rfl : n = A.size := by omega
    rw [Archive.get?_record_self] at h
    exact .inr ⟨rfl, (Option.some.inj h).symm⟩

namespace Search

variable {policy : Policy} {v w : Snapshot} {S : List Clause} {A : Archive} {n : Nat} {c : Clause}

theorem Policy.derivation_tidy (c : Clause) : (policy.tidy c).derivation = c.derivation := by
  unfold Policy.tidy
  split <;> rfl

theorem Policy.signedAtoms_tidy_of_isEmpty (h : c.isEmpty = true) :
    (policy.tidy c).signedAtoms = c.signedAtoms := by
  have hnil : c.literals = [] := List.isEmpty_iff.1 h
  unfold Policy.tidy
  split
  · simp [Clause.signedAtoms, Clause.dedup, hnil, Clause.dedupLiterals]
  · rfl

/-! ### The records of the archive -/

/-- What is known of the clause with number `n`. -/
inductive Recorded (S : List Clause) (policy : Policy) (A : Archive) (n : Nat) (c : Clause) : Prop
  /-- It is a clause of `S`, apart from the selection of literals. -/
  | input {b : Clause} (hb : b ∈ S) (hname : c.name = b.name) (hrole : c.role = b.role)
    (hatoms : c.signedAtoms = b.signedAtoms) (hderivation : c.derivation = b.derivation)
  /-- It is the conclusion of an inference from earlier clauses, apart from its name, repeated
  literals and the selection of literals. -/
  | inference {k : Call} {r : Clause} (hr : k.result? = some r)
    (hatoms : c.signedAtoms = (policy.tidy r).signedAtoms)
    (hderivation : c.derivation = r.derivation)
    (hpremises : ∀ e ∈ k.premises, e.number < n ∧ A.get? e.number = some e.clause)

theorem Recorded.record (h : Recorded S policy A n c) (d : Clause) :
    Recorded S policy (A.record d).2 n c := by
  cases h with
  | input hb hname hrole hatoms hderivation => exact .input hb hname hrole hatoms hderivation
  | inference hr hatoms hderivation hpremises =>
    exact .inference hr hatoms hderivation fun e he =>
      ⟨(hpremises e he).1, Archive.get?_record (hpremises e he).2⟩

theorem Recorded.select (h : Recorded S policy A n c) {m : Nat} (hm : n ≤ m)
    (s : LiteralSelection) :
    Recorded S policy A m (c.select s) := by
  have hatoms' := c.signedAtoms_select s
  have hderivation' := c.derivation_select s
  cases h with
  | input hb hname hrole hatoms hderivation =>
    exact .input hb ((c.name_select s).trans hname) ((c.role_select s).trans hrole)
      (hatoms'.trans hatoms) (hderivation'.trans hderivation)
  | inference hr hatoms hderivation hpremises =>
    exact .inference hr (hatoms'.trans hatoms) (hderivation'.trans hderivation) fun e he =>
      ⟨Nat.lt_of_lt_of_le (hpremises e he).1 hm, (hpremises e he).2⟩

/-- This is known of all clauses of the archive. -/
def Snapshot.Recorded (S : List Clause) (policy : Policy) (v : Snapshot) : Prop :=
  ∀ n c, v.archive.get? n = some c → Search.Recorded S policy v.archive n c

namespace Snapshot.Recorded

theorem enter (hv : v.Recorded S policy) (o : Origin)
    (hc : Search.Recorded S policy (v.archive.record c).2 v.archive.size c) :
    (v.enter c o).Recorded S policy := by
  intro n d hd
  rcases Archive.get?_record_eq_some hd with hd | ⟨rfl, rfl⟩
  · exact (hv n d hd).record c
  · exact hc

theorem inference (hcons : v.Consistent) {k : Call} {ks : List Call}
    (hpending : v.pending = k :: ks) {r : Clause} (hr : k.result? = some r)
    (hatoms : c.signedAtoms = (policy.tidy r).signedAtoms)
    (hderivation : c.derivation = r.derivation) :
    Search.Recorded S policy (v.archive.record c).2 v.archive.size c := by
  refine .inference hr hatoms hderivation fun e he => ?_
  have hk : k ∈ v.pending := hpending ▸ List.mem_cons_self
  have hget := hcons.premises k (hcons.pending k hk) e he
  exact ⟨Archive.lt_size hget, Archive.get?_record hget⟩

/-- **Every move enters clauses with what is known of them.** -/
theorem move (hv : v.Recorded S policy) (hcons : v.Consistent) (h : Move policy v w) :
    w.Recorded S policy := by
  cases h with
  | giveUp | saturate | finish | discardTautology | discardSubsumed | skip | dropTautology =>
    exact hv
  | @activate given rest _ hgiven =>
    have hselect : (v.select policy given).2.Recorded S policy := by
      unfold Snapshot.select
      split
      · have hget := hcons.archived given (List.mem_append_right _ hgiven)
        have hlt := Archive.lt_size hget
        exact hv.enter _ (((hv _ _ hget).record _).select (Nat.le_of_lt hlt) _)
      · exact hv
    exact hselect
  | @enqueue k ks r _ hpending hr _ name =>
    exact hv.enter (.inference k) (inference hcons hpending hr rfl (Policy.derivation_tidy _))
  | @conclude k ks r _ hpending hr hempty name =>
    exact hv.enter (.inference k)
      (inference hcons hpending hr (Policy.signedAtoms_tidy_of_isEmpty hempty).symm rfl)

theorem start (S : List Clause) (policy : Policy) : (Snapshot.start S).Recorded S policy := by
  intro n c hc
  have hmem : c ∈ S := List.mem_of_getElem? (by simpa [Snapshot.start, Archive.get?] using hc)
  exact .input hmem rfl rfl rfl rfl

theorem moves (h : Moves policy (.start S) w) : w.Recorded S policy :=
  h.invariant (Snapshot.consistent_start S) (start S policy) fun hcons hv hmove =>
    hv.move hcons hmove

theorem exists_get?_of_mem_parentsOf (hv : v.Recorded S policy) (hS : ∀ b ∈ S, b.parents = [])
    {m : Nat} (hm : m ∈ v.archive.parentsOf n) : ∃ d, v.archive.get? m = some d := by
  unfold Archive.parentsOf at hm
  split at hm
  · next c hc =>
    obtain ⟨p, hp, rfl⟩ := List.mem_map.1 (List.mem_of_mem_filter hm)
    cases hv n c hc with
    | input hb _ _ _ hderivation =>
      rw [Clause.parents, hderivation, ← Clause.parents, hS _ hb] at hp
      exact absurd hp List.not_mem_nil
    | inference hr _ hderivation hpremises =>
      rw [Clause.parents, hderivation, ← Clause.parents, Call.parents_result hr] at hp
      obtain ⟨e, he, rfl⟩ := List.mem_map.1 hp
      exact ⟨e.clause, (hpremises e he).2⟩
  · exact absurd hm List.not_mem_nil

end Snapshot.Recorded

/-! ### Steps of a proof -/

/-- The clause is made again from clauses of the archive that are listed earlier; conclusions are
treated with `treat`.  Literals are the same if their signed atoms are. -/
inductive Replays (S : List Clause) (treat : Clause → Clause) (A : Archive) (earlier : List Nat)
    (c : Clause) : Prop
  /-- It is a copy of a clause of `S`. -/
  | input {b : Clause} (hb : b ∈ S) (hname : c.name = b.name) (hrole : c.role = b.role)
    (hatoms : c.signedAtoms = b.signedAtoms) (hparents : c.parents = [])
  /-- It is the resolvent of its two parents. -/
  | resolution {p q : Entry} {i j : Nat} {fresh : FreshVars} {r : Clause}
    (hderivation : c.derivation = some (.inference "resolution" [p.asParent, q.asParent]))
    (hp : p.number ∈ earlier ∧ A.get? p.number = some p.clause)
    (hq : q.number ∈ earlier ∧ A.get? q.number = some q.clause)
    (hr : (p.resolve i q j fresh).1 = some r) (hatoms : c.signedAtoms = (treat r).signedAtoms)
  /-- It is a factor of its only parent. -/
  | factor {p : Entry} {i j : Nat} {r : Clause}
    (hderivation : c.derivation = some (.inference "factor" [p.asParent]))
    (hp : p.number ∈ earlier ∧ A.get? p.number = some p.clause)
    (hr : p.factor i j = some r) (hatoms : c.signedAtoms = (treat r).signedAtoms)

theorem Recorded.replays {earlier : List Nat} (h : Recorded S policy A n c) (hc : A.get? n = some c)
    (hS : ∀ b ∈ S, b.parents = []) (hearlier : ∀ m ∈ A.parentsOf n, m ∈ earlier) :
    Replays S policy.tidy A earlier c := by
  cases h with
  | input hb hname hrole hatoms hderivation =>
    refine .input hb hname hrole hatoms ?_
    rw [Clause.parents, hderivation, ← Clause.parents, hS _ hb]
  | @inference k r hr hatoms hderivation hpremises =>
    have hparents : c.parents = k.premises.map (·.asParent) := by
      rw [Clause.parents, hderivation, ← Clause.parents, Call.parents_result hr]
    have hlisted : ∀ e ∈ k.premises, e.number ∈ earlier ∧ A.get? e.number = some e.clause := by
      intro e he
      refine ⟨hearlier _ ?_, (hpremises e he).2⟩
      simp only [Archive.parentsOf, hc, hparents, List.map_map]
      exact List.mem_filter.2 ⟨List.mem_map.2 ⟨e, he, rfl⟩, by simpa using (hpremises e he).1⟩
    cases k with
    | resolve p i q j fresh =>
      exact .resolution (hderivation.trans (Entry.derivation_resolve hr))
        (hlisted p List.mem_cons_self) (hlisted q (List.mem_cons_of_mem _ List.mem_cons_self)) hr
          hatoms
    | factor p i j =>
      exact .factor (hderivation.trans (Entry.derivation_factor hr))
        (hlisted p List.mem_cons_self) hr
        hatoms

/-! ### Full and plain searches -/

/-- The state shows a proof from the clauses `S` that can be replayed. -/
structure State.Replayable {P U : Type} [ClauseStore P] [ClauseQueue U] (S : List Clause)
    (treat : Clause → Clause) (s : State P U) : Prop where
  /-- The proof ends with a clause without literals. -/
  result : ∃ e earlier, s.result = some e ∧ s.archive.get? e.number = some e.clause ∧
    e.clause.literals = [] ∧ s.derivation = earlier ++ [e.number]
  /-- Every clause is listed once. -/
  nodup : s.derivation.Nodup
  /-- Every clause is made again from what is listed before it. -/
  replays : ∀ earlier n later, s.derivation = earlier ++ n :: later →
    ∃ c, s.archive.get? n = some c ∧ Replays S treat s.archive earlier c

theorem Run.replayable {P U : Type} [ClauseStore P] [ClauseQueue U] [LawfulStore P] [LawfulQueue U]
    {s₀ s : State P U} {h : History} (hs₀ : s₀.Consistent (.start s₀))
    (hstart : s₀.snapshot [] (.start s₀) = .start S) (hS : ∀ b ∈ S, b.parents = [])
    (run : Run policy s₀ (.start s₀) s h) (hproof : s.status = .proofFound) :
    s.Replayable S policy.tidy := by
  obtain ⟨hmoves, hs⟩ := run.moves hs₀
  rw [hstart] at hmoves
  have hrecorded := Snapshot.Recorded.moves hmoves
  obtain ⟨e, hresult, hempty⟩ := hs.snapshot.proofFound hproof
  have hget := hs.snapshot.result e hresult
  have hderivation : s.derivation = s.archive.ancestry e.number := by
    rw [State.derivation, show s.result = some e from hresult]
  obtain ⟨hordered, hancestors⟩ := Archive.ancestry_spec (A := s.archive) e.number
  -- whatever the result was derived from is in the archive
  have harchived : ∀ n, s.archive.IsAncestor e.number n → ∃ c, s.archive.get? n = some c := by
    intro n hn
    induction hn with
    | refl => exact ⟨_, hget⟩
    | tail _ hparent _ => exact hrecorded.exists_get?_of_mem_parentsOf hS hparent
  refine ⟨?_, hderivation ▸ hordered.nodup, fun earlier n later hsplit => ?_⟩
  · obtain ⟨earlier, hlast⟩ := Archive.exists_ancestry_eq (A := s.archive) e.number
    exact ⟨e, earlier, hresult, hget, List.isEmpty_iff.1 hempty, hderivation.trans hlast⟩
  · rw [hderivation] at hsplit
    obtain ⟨c, hc⟩ := harchived n
      (hancestors n (hsplit ▸ List.mem_append_right _ List.mem_cons_self))
    exact ⟨c, hc, (hrecorded n c hc).replays hc hS fun m hm => hordered.mem_earlier hsplit hm⟩

/-- **Every proof can be replayed**, in full and plain searches: a full search removes repeated
literals from a conclusion, a plain one leaves it as it is. -/
theorem proof_replayable (params : Params) (hS : ∀ b ∈ S, b.parents = []) :
    (∀ s₀ s h, startFull params S = .ok s₀ → Run params.policy s₀ (.start s₀) s h →
      s.status = .proofFound → s.Replayable S Clause.dedup) ∧
    ∀ s₀ s h, startPlain S = .ok s₀ → Run params.plainPolicy s₀ (.start s₀) s h →
      s.status = .proofFound → s.Replayable S id := by
  constructor
  · intro s₀ s h hstart run hproof
    obtain ⟨hsnapshot, hs₀⟩ := startFull_spec hstart
    exact run.replayable hs₀ hsnapshot hS hproof
  · intro s₀ s h hstart run hproof
    obtain ⟨hsnapshot, hs₀⟩ := startPlain_spec hstart
    exact run.replayable hs₀ hsnapshot hS hproof

/-- Two clauses that contradict each other only after factoring. -/
def twoChoices : List Clause :=
  [⟨"choice", .axiomatic, [.pos (.app "p" [.var "X"]), .pos (.app "p" [.var "Y"])], none⟩,
    ⟨"goal", .negatedConjecture, [.neg (.app "p" [.var "U"]), .neg (.app "p" [.var "V"])], none⟩]

/-- Both searches, with selected literals, find a proof that can be replayed. -/
theorem proof_replayable_twoChoices : (∀ b ∈ twoChoices, b.parents = []) ∧
    (∃ s₀ s h, startFull { selection := some .first } twoChoices = .ok s₀ ∧
      Run ({ selection := some .first } : Params).policy s₀ (.start s₀) s h ∧
      s.status = .proofFound ∧
      s.Replayable twoChoices Clause.dedup) ∧
    ∃ s₀ s h, startPlain twoChoices = .ok s₀ ∧
      Run ({ selection := some .first } : Params).plainPolicy s₀ (.start s₀) s h ∧
      s.status = .proofFound ∧ s.Replayable twoChoices id := by
  have hS : ∀ b ∈ twoChoices, b.parents = [] := by decide
  let params : Params := { selection := some .first }
  let s₀ : FullState := .start .empty (.empty params.heuristic.schedule) twoChoices
  let t₀ : PlainState := .start .empty .empty twoChoices
  obtain ⟨h, run⟩ := run_saturate params.policy 10 s₀ (.start s₀)
  obtain ⟨h', run'⟩ := run_saturate params.plainPolicy 10 t₀ (.start t₀)
  have hproof : (s₀.saturate params.policy 10).status = .proofFound := by cbv
  have hproof' : (t₀.saturate params.plainPolicy 10).status = .proofFound := by cbv
  obtain ⟨hfull, hplain⟩ := proof_replayable params hS
  exact ⟨hS, ⟨s₀, _, h, rfl, run, hproof, hfull s₀ _ h rfl run hproof⟩,
    ⟨t₀, _, h', rfl, run', hproof', hplain t₀ _ h' rfl run' hproof'⟩⟩

end Search

end Refutation
