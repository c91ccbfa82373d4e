import Refutation.Proofs.Search.Copies
import Refutation.Proofs.Search.Naming

/-!
# The names of proof steps

A proof refers to its steps by name.  No two input clauses of a proof have the same name, if none of
those that the search started with have, and no two derived clauses.  But the counter that names
derived clauses does not look at the names that a search starts with: a derived clause may get the
name of an input clause.

* `Search.State.Named.name_ne` : two clauses that something was derived from have different names.
* `Proof.Identified` : the names of the steps tell them apart.
* `Search.step_names_identify` : when the names of the steps of a proof tell them apart, in full and
  plain searches.
* `Search.step_name_ambiguous` : a proof in which one name stands for two steps.
-/

namespace Refutation

theorem Archive.exists_entries {A : Archive} {ns : List Nat}
    (h : ∀ n ∈ ns, ∃ c, A.get? n = some c) :
    ∃ es : List Entry, ns = es.map (·.number) ∧ ∀ e ∈ es, A.get? e.number = some e.clause := by
  induction ns with
  | nil => exact ⟨[], rfl, List.forall_mem_nil _⟩
  | cons n ns ih =>
    obtain ⟨c, hc⟩ := h n List.mem_cons_self
    obtain ⟨es, rfl, hes⟩ := ih fun m hm => h m (List.mem_cons_of_mem _ hm)
    exact ⟨⟨n, c⟩ :: es, rfl, List.forall_mem_cons.2 ⟨hc, hes⟩⟩

namespace Search

/-! ### Names tell clauses apart -/

/-- Every clause is an input clause, a conclusion, or a copy of one of these. -/
theorem Snapshot.Labelled.exists_original {S : List Clause} {v : Snapshot} (hv : v.Labelled S)
    (hcons : v.Consistent) {n : Nat} {c : Clause} (hc : v.archive.get? n = some c) :
    ∃ m d, (m = n ∨ v.history.origins[n]? = some (.copy m)) ∧ v.archive.get? m = some d ∧
      d.name = c.name ∧ d.parents = c.parents ∧
      (S[m]? = some d ∨ d.parents ≠ [] ∧ ∃ k, v.history.origins[m]? = some (.inference k)) := by
  have hroot : ∀ m d, v.archive.get? m = some d → (∀ m', v.history.origins[m]? ≠ some (.copy m')) →
      S[m]? = some d ∨ d.parents ≠ [] ∧ ∃ k, v.history.origins[m]? = some (.inference k) := by
    intro m d hd hnocopy
    have hm : m < v.history.origins.length := hcons.origins ▸ Archive.lt_size hd
    have ho := List.getElem?_eq_getElem hm
    cases horigin : v.history.origins[m] with
    | copy m' => exact absurd (horigin ▸ ho) (hnocopy m')
    | input =>
      obtain ⟨d', hd', hS⟩ := hv.origins m _ (horigin ▸ ho)
      exact .inl (Option.some.inj (hd'.symm.trans hd) ▸ hS)
    | inference k =>
      obtain ⟨d', hd', hparents⟩ := hv.origins m _ (horigin ▸ ho)
      obtain rfl := Option.some.inj (hd'.symm.trans hd)
      exact .inr ⟨by simpa [hparents] using k.premises_ne_nil, k, horigin ▸ ho⟩
  by_cases hcopy : ∃ m, v.history.origins[n]? = some (.copy m)
  · obtain ⟨m, hm⟩ := hcopy
    obtain ⟨-, c', d, hc', hd, hname, hparents⟩ := hv.origins n _ hm
    obtain rfl := Option.some.inj (hc.symm.trans hc')
    exact ⟨m, d, .inr hm, hd, hname.symm, hparents.symm, hroot m d hd fun m' =>
      hv.original n m m' hm⟩
  · exact ⟨n, c, .inl rfl, hc, rfl, rfl, hroot n c hc fun m hm => hcopy ⟨m, hm⟩⟩

namespace State

variable {P U : Type} {s : State P U} {h : History}

theorem Named.eq_of_name_eq (hs : s.Named h) {m n : Nat} {k k' : Call} {c d : Clause}
    (hk : h.origins[m]? = some (.inference k)) (hk' : h.origins[n]? = some (.inference k'))
    (hc : s.archive.get? m = some c) (hd : s.archive.get? n = some d) (heq : c.name = d.name) :
    m = n := by
  obtain ⟨hm, hlogm⟩ := List.getElem?_eq_some_iff.1 (getElem?_log hk hc)
  obtain ⟨hn, hlogn⟩ := List.getElem?_eq_some_iff.1 (getElem?_log hk' hd)
  have hdistinct := List.pairwise_iff_getElem.1 hs.distinct
  rcases Nat.lt_trichotomy m n with hlt | hmn | hlt
  · exact absurd heq (by simpa [hlogm, hlogn, Origin.isInference] using hdistinct m n hm hn hlt)
  · exact hmn
  · have hne := hdistinct n m hn hm hlt
    exact absurd heq.symm (by simpa [hlogm, hlogn, Origin.isInference] using hne)

variable [ClauseStore P] [ClauseQueue U] {S : List Clause}

/-- **Two clauses that something was derived from have different names**, if both or neither of them
have parents. -/
theorem Named.name_ne (hs : s.Named h) (hcons : (s.snapshot [] h).Consistent)
    (hlabelled : (s.snapshot [] h).Labelled S) (hS : ∀ b ∈ S, b.parents = [])
    (hnames : (S.map (·.name)).Nodup) {m n : Nat} {c d : Clause} (hc : s.archive.get? m = some c)
    (hd : s.archive.get? n = some d) (hm : (s.snapshot [] h).Spared m)
    (hn : (s.snapshot [] h).Spared n) (hmn : m ≠ n) (hparents : c.parents = [] ↔ d.parents = []) :
    c.name ≠ d.name := by
  intro heq
  obtain ⟨m', c', hm', hc', hcname, hcparents, hcroot⟩ := hlabelled.exists_original hcons hc
  obtain ⟨n', d', hn', hd', hdname, hdparents, hdroot⟩ := hlabelled.exists_original hcons hd
  have hname : c'.name = d'.name := hcname.trans (heq.trans hdname.symm)
  rw [← hcparents, ← hdparents] at hparents
  -- neither of the two clauses is a copy of the other, nor are both copies of a third
  have hmn' : m' ≠ n' := by
    rintro rfl
    rcases hm' with rfl | hm' <;> rcases hn' with rfl | hn'
    · exact hmn rfl
    · exact hm.uncopied (List.mem_of_getElem? hn')
    · exact hn.uncopied (List.mem_of_getElem? hm')
    · exact hmn (hlabelled.once m n m' hm' hn')
  rcases hcroot with hSc | ⟨hcne, k, hk⟩ <;> rcases hdroot with hSd | ⟨hdne, k', hk'⟩
  · have hlt : m' < (S.map (·.name)).length := by
      simpa using (List.getElem?_eq_some_iff.1 hSc).1
    exact hmn' ((List.getElem?_inj hlt hnames).1 (by simp [hSc, hSd, hname]))
  · exact hdne (hparents.1 (hS c' (List.mem_of_getElem? hSc)))
  · exact hcne (hparents.2 (hS d' (List.mem_of_getElem? hSd)))
  · exact hmn' (hs.eq_of_name_eq hk hk' hc' hd' hname)

end State

/-! ### The steps of a proof -/

/-- What a step was made from is listed earlier, under the name that the step gives. -/
theorem Replays.exists_parent {S : List Clause} {treat : Clause → Clause} {A : Archive}
    {earlier : List Nat} {c : Clause} (h : Replays S treat A earlier c) {p : Parent}
    (hp : p ∈ c.parents) :
    p.number ∈ earlier ∧ ∃ d, A.get? p.number = some d ∧ d.name = p.name := by
  cases h with
  | input _ _ _ _ hparents =>
    rw [hparents] at hp
    exact absurd hp List.not_mem_nil
  | resolution hderivation hq hq' =>
    simp only [Clause.parents, hderivation, Derivation.inference, Option.map_some, Option.getD_some,
      List.mem_cons, List.not_mem_nil, or_false] at hp
    rcases hp with rfl | rfl
    · exact ⟨hq.1, _, hq.2, rfl⟩
    · exact ⟨hq'.1, _, hq'.2, rfl⟩
  | factor hderivation hq =>
    simp only [Clause.parents, hderivation, Derivation.inference, Option.map_some, Option.getD_some,
      List.mem_cons, List.not_mem_nil, or_false] at hp
    subst hp
    exact ⟨hq.1, _, hq.2, rfl⟩

/-- **The steps of a proof are the clauses of the derivation**, in order. -/
theorem State.proof?_eq {P U : Type} {s : State P U} {e : Entry} (hresult : s.result = some e)
    {cs : List Clause} (hcs : s.derivation.map s.archive.get? = cs.map some) :
    s.proof? = some ⟨cs.map .ofClause⟩ := by
  have hancestry : s.archive.ancestry e.number = s.derivation := by
    rw [State.derivation, hresult]
  have hsteps : s.derivation.filterMap (fun n => (s.archive.get? n).map ProofStep.ofClause) =
      (s.derivation.map s.archive.get?).filterMap (Option.map ProofStep.ofClause) := by
    rw [List.filterMap_map]
    rfl
  rw [State.proof?, hresult, Option.map_some, Proof.ofArchive, hancestry, hsteps, hcs,
    List.filterMap_map, ← List.filterMap_eq_map]
  rfl

theorem State.Replayable.exists_entries {P U : Type} [ClauseStore P] [ClauseQueue U]
    {S : List Clause} {treat : Clause → Clause} {s : State P U} (h : s.Replayable S treat) :
    ∃ es : List Entry, s.derivation = es.map (·.number) ∧
      (∀ e ∈ es, s.archive.get? e.number = some e.clause) ∧
      s.proof? = some ⟨es.map fun e => .ofClause e.clause⟩ := by
  have hentered : ∀ n ∈ s.derivation, ∃ c, s.archive.get? n = some c := by
    intro n hn
    obtain ⟨earlier, later, hsplit⟩ := List.append_of_mem hn
    obtain ⟨c, hc, -⟩ := h.replays earlier n later hsplit
    exact ⟨c, hc⟩
  obtain ⟨es, hnumbers, hes⟩ := Archive.exists_entries hentered
  refine ⟨es, hnumbers, hes, ?_⟩
  obtain ⟨e, -, hresult, -⟩ := h.result
  have hclauses : s.derivation.map s.archive.get? = (es.map (·.clause)).map some := by
    rw [hnumbers, List.map_map, List.map_map]
    exact List.map_congr_left hes
  rw [State.proof?_eq hresult hclauses, List.map_map]
  rfl

end Search

/-! ### Names that identify steps -/

/-- The names of the steps tell them apart: every name that a step gives for a parent stands for one
step before it. -/
structure Proof.Identified (p : Proof) : Prop where
  /-- Different steps have different names. -/
  nodup : (p.steps.map (·.name)).Nodup
  /-- Exactly one of the earlier steps has the name of a parent. -/
  parents : ∀ earlier step later, p.steps = earlier ++ step :: later →
    ∀ x ∈ step.parents, ∃ t, earlier.filter (fun u => u.name = x) = [t]

/-- What the names of the steps of a proof from the clauses `S` tell. -/
structure Proof.NamedFrom (S : List Clause) (p : Proof) : Prop where
  /-- Different steps without parents have different names. -/
  inputs : ((p.steps.filter fun t => t.parents.isEmpty).map (·.name)).Nodup
  /-- Different steps with parents have different names. -/
  derived : ((p.steps.filter fun t => !t.parents.isEmpty).map (·.name)).Nodup
  /-- The names tell the steps apart exactly if no step with parents has the name of one without. -/
  identified_iff : p.Identified ↔
    ∀ t ∈ p.steps, t.parents ≠ [] → ∀ u ∈ p.steps, u.parents = [] → t.name ≠ u.name
  /-- So they do if no clause of `S` is named like a derived one. -/
  identified : (∀ b ∈ S, ∀ n, b.name ≠ ClauseNames.clauseName n) → p.Identified

theorem filter_eq_singleton {α β : Type} [DecidableEq β] {f : α → β} {as : List α}
    (hnodup : (as.map f).Nodup) {a : α} (ha : a ∈ as) : as.filter (fun b => f b = f a) = [a] := by
  obtain ⟨before, after, rfl⟩ := List.append_of_mem ha
  rw [List.map_append, List.map_cons, List.nodup_middle, List.nodup_cons,
    ← List.map_append] at hnodup
  have hne : ∀ b ∈ before ++ after, f b ≠ f a := fun b hb heq =>
    hnodup.1 (List.mem_map.2 ⟨b, hb, heq⟩)
  rw [List.filter_append, List.filter_cons_of_pos (by simp),
    List.filter_eq_nil_iff.2 fun b hb => by simpa using hne b (List.mem_append_left _ hb),
    List.filter_eq_nil_iff.2 fun b hb => by simpa using hne b (List.mem_append_right _ hb),
    List.nil_append]

namespace Search

variable {P U : Type} [ClauseStore P] [ClauseQueue U] {policy : Policy} {S : List Clause}
  {treat : Clause → Clause} {s : State P U}

theorem State.Replayable.identified (h : s.Replayable S treat) {p : Proof} (hp : s.proof? = some p)
    (hnodup : (p.steps.map (·.name)).Nodup) : p.Identified := by
  refine ⟨hnodup, fun earlier step later hsplit x hx => ?_⟩
  obtain ⟨es, hnumbers, hes, hproof⟩ := h.exists_entries
  obtain rfl := Option.some.inj (hproof.symm.trans hp)
  obtain ⟨es₁, es₂, rfl, rfl, hlater⟩ := List.map_eq_append_iff.1 hsplit
  obtain ⟨e, es₂, rfl, rfl, rfl⟩ := List.map_eq_cons_iff.1 hlater
  rw [List.map_append, List.map_cons] at hnumbers
  obtain ⟨c, hc, hreplays⟩ := h.replays _ _ _ hnumbers
  obtain rfl : c = e.clause := Option.some.inj (hc.symm.trans (hes e (by simp)))
  obtain ⟨q, hq, rfl⟩ := List.mem_map.1 hx
  obtain ⟨hearlier, d, hd, hname⟩ := hreplays.exists_parent hq
  obtain ⟨e', he', hnumber⟩ := List.mem_map.1 hearlier
  obtain rfl : d = e'.clause := by
    have := hes e' (List.mem_append_left _ he')
    rw [hnumber, hd] at this
    exact Option.some.inj this
  have hmem := List.mem_map_of_mem (f := fun e : Entry => ProofStep.ofClause e.clause) he'
  rw [← hname]
  refine ⟨_, filter_eq_singleton (f := ProofStep.name) ?_ hmem⟩
  rw [List.map_append, List.map_append] at hnodup
  exact hnodup.of_append_left

theorem Proof.namedFrom_of_pairwise {p : Proof}
    (hpairwise : p.steps.Pairwise fun t u => (t.parents = [] ↔ u.parents = []) → t.name ≠ u.name)
    (hidentified : (p.steps.map (·.name)).Nodup → p.Identified)
    (hderived : ∀ t ∈ p.steps, t.parents ≠ [] → ∃ n, t.name = ClauseNames.clauseName n)
    (hinputs : ∀ t ∈ p.steps, t.parents = [] → ∃ b ∈ S, t.name = b.name) : p.NamedFrom S := by
  have hiff : p.Identified ↔
      ∀ t ∈ p.steps, t.parents ≠ [] → ∀ u ∈ p.steps, u.parents = [] → t.name ≠ u.name := by
    constructor
    · intro h t ht htne u hu hunil heq
      exact htne (List.inj_on_of_nodup_map h.nodup ht hu heq ▸ hunil)
    · intro h
      refine hidentified (List.pairwise_map.2 (hpairwise.imp_of_mem fun {t u} ht hu htu => ?_))
      by_cases htnil : t.parents = [] <;> by_cases hunil : u.parents = []
      · exact htu (by simp [htnil, hunil])
      · exact (h u hu hunil t ht htnil).symm
      · exact h t ht htnil u hu hunil
      · exact htu (by simp [htnil, hunil])
  refine ⟨?_, ?_, hiff, fun hS => hiff.2 fun t ht htne u hu hunil heq => ?_⟩
  · refine List.pairwise_map.2
      (List.pairwise_filter.2 (hpairwise.imp fun {t u} htu ht hu => htu ?_))
    simp only [List.isEmpty_iff] at ht hu
    simp [ht, hu]
  · refine List.pairwise_map.2
      (List.pairwise_filter.2 (hpairwise.imp fun {t u} htu ht hu => htu ?_))
    simp only [Bool.not_eq_true', List.isEmpty_eq_false_iff] at ht hu
    simp [ht, hu]
  · obtain ⟨n, hn⟩ := hderived t ht htne
    obtain ⟨b, hb, hbn⟩ := hinputs u hu hunil
    exact hS b hb n (hbn.symm.trans (heq.symm.trans hn))

theorem Run.namedFrom [LawfulStore P] [LawfulQueue U] {s₀ : State P U} {h : History}
    (hs₀ : s₀.Consistent (.start s₀)) (hstart : s₀.snapshot [] (.start s₀) = .start S)
    (hS : ∀ b ∈ S, b.parents = []) (hnames : (S.map (·.name)).Nodup)
    (run : Run policy s₀ (.start s₀) s h) (hproof : s.status = .proofFound) :
    ∃ p, s.proof? = some p ∧ p.NamedFrom S := by
  obtain ⟨hmoves, hs⟩ := run.moves hs₀
  rw [hstart] at hmoves
  obtain ⟨hlabelled, hlineage⟩ := Snapshot.Lineage.moves hS hmoves
  have hnamed := run.named hs₀ s₀.named_start
  have hreplayable := run.replayable hs₀ hstart hS hproof
  obtain ⟨es, hnumbers, hes, hp⟩ := hreplayable.exists_entries
  -- every clause of the derivation is an ancestor of the result, and so it is spared
  have hspared : ∀ e ∈ es, (s.snapshot [] h).Spared e.number := by
    obtain ⟨e, -, hresult, -⟩ := hreplayable.result
    intro e' he'
    refine hlineage.spared_of_isAncestor (hlineage.result e hresult) ?_
    refine (Archive.ancestry_spec e.number).2 _ ?_
    have hmem : e'.number ∈ s.derivation := hnumbers ▸ List.mem_map_of_mem he'
    rwa [State.derivation, hresult] at hmem
  have hnil : ∀ c : Clause, (ProofStep.ofClause c).parents = [] ↔ c.parents = [] := fun c => by
    simp [ProofStep.ofClause]
  refine ⟨_, hp, Proof.namedFrom_of_pairwise ?_ (hreplayable.identified hp) ?_ ?_⟩
  · have hnodup : es.Pairwise fun e e' => e.number ≠ e'.number :=
      List.pairwise_map.1 (hnumbers ▸ hreplayable.nodup)
    refine List.pairwise_map.2 (hnodup.imp_of_mem fun {e e'} he he' hne hparents => ?_)
    rw [hnil, hnil] at hparents
    exact hnamed.name_ne hs.snapshot hlabelled hS hnames (hes e he) (hes e' he') (hspared e he)
      (hspared e' he') hne hparents
  · refine List.forall_mem_map.2 fun e he hne => ?_
    obtain ⟨m, d, -, hd, hname, hparents, hroot⟩ := hlabelled.exists_original hs.snapshot (hes e he)
    rcases hroot with hSd | ⟨-, k, hk⟩
    · exact absurd ((hnil _).2 (hparents.symm.trans (hS d (List.mem_of_getElem? hSd)))) hne
    · obtain ⟨i, -, hi⟩ := hnamed.drawn _ (List.mem_of_getElem? (State.getElem?_log hk hd)) rfl
      exact ⟨i, hname.symm.trans hi⟩
  · refine List.forall_mem_map.2 fun e he hempty => ?_
    obtain ⟨m, d, -, hd, hname, hparents, hroot⟩ := hlabelled.exists_original hs.snapshot (hes e he)
    rcases hroot with hSd | ⟨hne, -⟩
    · exact ⟨d, List.mem_of_getElem? hSd, hname.symm⟩
    · exact absurd (hparents.trans ((hnil _).1 hempty)) hne

/-- **The names of the steps of a proof tell them apart**, in full and plain searches, unless a
derived clause got the name of an input clause. -/
theorem step_names_identify (params : Params) (hS : ∀ b ∈ S, b.parents = [])
    (hnames : (S.map (·.name)).Nodup) :
    (∀ s₀ s h, startFull params S = .ok s₀ → Run params.policy s₀ (.start s₀) s h →
      s.status = .proofFound → ∃ p, s.proof? = some p ∧ p.NamedFrom S) ∧
    ∀ s₀ s h, startPlain S = .ok s₀ → Run params.plainPolicy s₀ (.start s₀) s h →
      s.status = .proofFound → ∃ p, s.proof? = some p ∧ p.NamedFrom S := by
  constructor
  · intro s₀ s h hstart run hproof
    obtain ⟨hsnapshot, hs₀⟩ := startFull_spec hstart
    exact run.namedFrom hs₀ hsnapshot hS hnames hproof
  · intro s₀ s h hstart run hproof
    obtain ⟨hsnapshot, hs₀⟩ := startPlain_spec hstart
    exact run.namedFrom hs₀ hsnapshot hS hnames hproof

/-- A choice that two facts refute one after the other; the choice has the given name. -/
def refutedChoice (name : String) : List Clause :=
  [⟨name, .axiomatic, [.pos (.app "p" []), .pos (.app "q" [])], none⟩,
    ⟨"left", .axiomatic, [.neg (.app "p" [])], none⟩,
    ⟨"right", .axiomatic, [.neg (.app "q" [])], none⟩]

/-- Both searches, with selected literals, find a proof whose steps are told apart by their
names. -/
theorem step_names_identify_refutedChoice : (∀ b ∈ refutedChoice "either", b.parents = []) ∧
    ((refutedChoice "either").map (·.name)).Nodup ∧
    (∃ s₀ s h p, startFull { selection := some .first } (refutedChoice "either") = .ok s₀ ∧
      Run ({ selection := some .first } : Params).policy s₀ (.start s₀) s h ∧
      s.status = .proofFound ∧ s.proof? = some p ∧ p.Identified) ∧
    ∃ s₀ s h p, startPlain (refutedChoice "either") = .ok s₀ ∧
      Run ({ selection := some .first } : Params).plainPolicy s₀ (.start s₀) s h ∧
      s.status = .proofFound ∧ s.proof? = some p ∧ p.Identified := by
  have hS : ∀ b ∈ refutedChoice "either", b.parents = [] := by decide
  have hnames : ((refutedChoice "either").map (·.name)).Nodup := by decide
  have hfresh : ∀ b ∈ refutedChoice "either", ∀ n, b.name ≠ ClauseNames.clauseName n := by
    intro b hb n heq
    have hchars := List.mem_map_of_mem (f := fun b : Clause => b.name.toList) hb
    simp [heq, refutedChoice, ClauseNames.clauseName] at hchars
  let params : Params := { selection := some .first }
  let s₀ : FullState := .start .empty (.empty params.heuristic.schedule) (refutedChoice "either")
  let t₀ : PlainState := .start .empty .empty (refutedChoice "either")
  obtain ⟨h, run⟩ := run_saturate params.policy 10 s₀ (.start s₀)
  obtain ⟨h', run'⟩ := run_saturate params.plainPolicy 10 t₀ (.start t₀)
  have hproof : (s₀.saturate params.policy 10).status = .proofFound := by cbv
  have hproof' : (t₀.saturate params.plainPolicy 10).status = .proofFound := by cbv
  obtain ⟨hfull, hplain⟩ := step_names_identify params hS hnames
  obtain ⟨p, hp, hnamed⟩ := hfull s₀ _ h rfl run hproof
  obtain ⟨p', hp', hnamed'⟩ := hplain t₀ _ h' rfl run' hproof'
  exact ⟨hS, hnames, ⟨s₀, _, h, p, rfl, run, hproof, hp, hnamed.identified hfresh⟩,
    ⟨t₀, _, h', p', rfl, run', hproof', hp', hnamed'.identified hfresh⟩⟩

/-- **A derived clause gets the name of an input clause**, and is then a parent under this name,
after both have been listed. -/
theorem step_name_ambiguous : ((refutedChoice "c1").map (·.name)).Nodup ∧
    ∃ s₀ s h p earlier step later, startFull {} (refutedChoice "c1") = .ok s₀ ∧
      Run ({} : Params).policy s₀ (.start s₀) s h ∧ s.status = .proofFound ∧ s.proof? = some p ∧
      ¬(p.steps.map (·.name)).Nodup ∧ p.steps = earlier ++ step :: later ∧ "c1" ∈ step.parents ∧
      (earlier.filter fun u => u.name = "c1").length = 2 := by
  let s₀ : FullState := .start .empty (.empty ({} : Params).heuristic.schedule) (refutedChoice "c1")
  obtain ⟨h, run⟩ := run_saturate ({} : Params).policy 10 s₀ (.start s₀)
  let earlier : List Clause :=
    [⟨"c1", .axiomatic, [.pos (.app "p" []), .pos (.app "q" [])], none⟩,
      ⟨"left", .axiomatic, [.neg (.app "p" [])], none⟩,
      ⟨"c1", .plain, [.pos (.app "q" [])], some ⟨"resolution", [⟨0, "c1"⟩, ⟨1, "left"⟩], none⟩⟩,
      ⟨"right", .axiomatic, [.neg (.app "q" [])], none⟩]
  let last : Clause := ⟨"c3", .plain, [], some ⟨"resolution", [⟨3, "c1"⟩, ⟨2, "right"⟩], none⟩⟩
  have hresult : (s₀.saturate ({} : Params).policy 10).result = some ⟨5, last⟩ := by cbv
  have hclauses : (s₀.saturate ({} : Params).policy 10).derivation.map
      (s₀.saturate ({} : Params).policy 10).archive.get? = (earlier ++ [last]).map some := by cbv
  refine ⟨by decide, s₀, _, h, ⟨(earlier ++ [last]).map .ofClause⟩, earlier.map .ofClause,
    .ofClause last, [], rfl, run, by cbv, State.proof?_eq hresult hclauses, by decide, rfl,
    by decide, by decide⟩

end Search

end Refutation
