import Refutation.Proofs.Problem.Writable
import Refutation.Proofs.Search.Completeness
import Refutation.Proofs.Search.StepNames

/-!
# Printed proofs are readable

Every step of a proof is printed like the clause that makes it.  The clauses of a search have names,
and their literals are instances of what the search started with, so that the text of a proof can be
read.

* `ProofStep.render_ofClause` : a step is printed like its clause.
* `Search.Snapshot.Literals.moves` : what inferences and selection keep holds of all literals of the
  archive.
* `Search.Run.isPrintable` : **all clauses of a search are printable**, if those at the start are.
* `Search.printed_proof_read_back` : the text of a proof is read as the clauses of the derivation,
  for problems that were read, with or without the axioms of equality, in full and plain searches.
-/

namespace Refutation

/-! ### The text of a step -/

namespace Token

@[simp] theorem spellAll_nil : spellAll [] = "" := rfl

@[simp] theorem spellAll_cons (t : Token) (ts : List Token) :
    spellAll (t :: ts) = t.spell ++ spellAll ts := by
  simp [spellAll, String.join_cons]

@[simp] theorem spellAll_append (ts us : List Token) :
    spellAll (ts ++ us) = spellAll ts ++ spellAll us := by
  induction ts with
  | nil => simp
  | cons t ts ih => rw [List.cons_append, spellAll_cons, ih, spellAll_cons, String.append_assoc]

theorem spellAll_separated (sep : Token) (groups : List (List Token)) :
    spellAll (separated sep groups) = String.intercalate sep.spell (groups.map spellAll) := by
  induction groups with
  | nil => rfl
  | cons group groups ih =>
    cases groups with
    | nil => simp [separated]
    | cons group' groups =>
      rw [separated, spellAll_append, spellAll_cons, ih]
      · rw [List.map_cons, List.map_cons, List.map_cons, String.intercalate_cons_cons,
          String.append_assoc]
      · exact List.cons_ne_nil _ _

end Token

theorem ProofStep.annotation_ofClause {c : Clause} (hstatus : ∀ d ∈ c.derivation, d.status = none) :
    ProofStep.annotation (ofClause c) = Token.spellAll (c.noteTokens true) := by
  cases hd : c.derivation with
  | none => simp [ofClause, Clause.noteTokens, hd, annotation]
  | some d =>
    have hstatus' := hstatus d hd
    have hparents : c.parents = d.parents := by simp [Clause.parents, hd]
    have hnames : Token.spellAll
        (Token.separated .comma (d.parents.map fun p => [.ofName p.name])) =
        String.intercalate "," ((d.parents.map (·.name)).map fun p => (Token.ofName p).spell) := by
      simp [Token.spellAll_separated, Token.spell, Function.comp_def]
    simp only [ofClause, annotation, Clause.noteTokens, hd, hparents, Derivation.tokens, hstatus',
      Option.map_some, Option.getD_none, List.isEmpty_map, Token.spellAll_cons]
    split
    · exact String.toList_inj.1 (by simp [Token.spell])
    · rw [Token.spellAll_append, Token.spellAll_append, hnames]
      exact String.toList_inj.1 (by simp [Token.spell])

/-- **A step is printed like its clause.** -/
theorem ProofStep.render_ofClause {c : Clause} (hname : c.name ≠ "")
    (hstatus : ∀ d ∈ c.derivation, d.status = none) : (ofClause c).render = c.render true := by
  have hname' : (if c.name.isEmpty then "unnamed" else c.name) = c.name := by simp [hname]
  rw [render, annotation_ofClause hstatus, Clause.render, Clause.tokens_eq, hname']
  refine String.toList_inj.1 ?_
  simp [ofClause, Clause.renderLiterals, Token.spell]

theorem Clause.render_released (c : Clause) (annotated : Bool) :
    c.released.render annotated = c.render annotated := by
  have htokens : c.released.literals.map (·.tokens) = c.literals.map (·.tokens) := List.map_map ..
  have hempty : c.released.literals.isEmpty = c.literals.isEmpty := List.isEmpty_map
  have hliterals : literalTokens c.released.literals = literalTokens c.literals := by
    rw [literalTokens, literalTokens, htokens, hempty]
  rw [render, render, tokens_eq, tokens_eq, hliterals]
  rfl

theorem Proof.render_of_isPrintable {cs : List Clause} (hcs : ∀ c ∈ cs, c.IsPrintable) :
    Proof.render ⟨cs.map .ofClause⟩ = Clause.renderAll true (cs.map Clause.released) := by
  rw [render, Clause.renderAll, List.map_map, List.map_map]
  refine congrArg String.join (List.map_congr_left fun c hc => congrArg (· ++ "\n") ?_)
  have hstatus : ∀ d ∈ c.derivation, d.status = none :=
    fun d hd => ((hcs c hc).derivation d hd).status
  exact (ProofStep.render_ofClause (hcs c hc).name hstatus).trans (c.render_released true).symm

/-- **Printed steps are read back.** -/
theorem readClauses_render_of_isPrintable {cs : List Clause} (hcs : ∀ c ∈ cs, c.IsPrintable) :
    readClauses (Proof.render ⟨cs.map .ofClause⟩) =
      .ok (cs.map fun c => { c.released with derivation := none }) := by
  have hwritable : ∀ c ∈ cs.map Clause.released, c.IsWritable :=
    List.forall_mem_map.2 fun c hc => (hcs c hc).isWritable_released
  have hderivation : ∀ c ∈ cs.map Clause.released, ∀ d ∈ c.derivation, d.IsWritable :=
    List.forall_mem_map.2 fun c hc => (hcs c hc).derivation
  rw [Proof.render_of_isPrintable hcs, readClauses_eq_ok_iff]
  refine ⟨_, Clause.written_renderAll hwritable fun _ => hderivation, ?_⟩
  have hdocument : IsDocument ((cs.map Clause.released).flatMap (·.tokens true)) _ :=
    Clause.isDocument_tokens hwritable
  rwa [List.map_map] at hdocument

/-! ### The clauses of a search -/

/-- **Conclusions from writable literals are writable.** -/
theorem Call.isWritable_result {k : Call} {r : Clause} (h : k.result? = some r)
    (hpremises : ∀ e ∈ k.premises, ∀ l ∈ e.clause.literals, l.IsWritable) :
    ∀ l ∈ r.literals, l.IsWritable := by
  intro l hl
  have hatom : l.toSignedAtom ∈ r.signedAtoms := Clause.mem_signedAtoms.2 ⟨l, hl, rfl⟩
  refine ⟨?_, ?_, ?_⟩
  · obtain ⟨e, he, b, hb, θ, heq⟩ := exists_of_mem_result h hatom
    obtain ⟨m, hm, rfl⟩ := Clause.mem_signedAtoms.1 hb
    have hinstance : l.atom = m.atom.subst θ := congrArg SignedAtom.atom heq
    exact hinstance ▸ Term.isVar_subst (hpremises e he m hm).compound θ
  · refine hereditary_result Term.hereditary_isWritable
      (fun n => Term.isWritable_var (FreshVars.isVariableWord_varName n)) h
        (fun e he b hb => ?_) _ hatom
    obtain ⟨m, hm, rfl⟩ := Clause.mem_signedAtoms.1 hb
    exact (hpremises e he m hm).atom
  · exact (congrArg Literal.tag (toLiteral_toSignedAtom h l hl)).symm

theorem Clause.forall_literals_select {p : Literal → Prop}
    (heligible : ∀ l eligible, p l → p { l with eligible := eligible }) {c : Clause}
    (hc : ∀ l ∈ c.literals, p l) (s : LiteralSelection) : ∀ l ∈ (c.select s).literals, p l := by
  unfold select
  split
  · intro l hl
    obtain ⟨i, hi, rfl⟩ := List.mem_mapIdx.1 hl
    exact heligible _ _ (hc _ (List.getElem_mem hi))
  · exact hc

namespace Search

variable {policy : Policy} {v w : Snapshot} {S : List Clause}

/-- All literals of the archive have the property. -/
def Snapshot.Literals (p : Literal → Prop) (v : Snapshot) : Prop :=
  ∀ n c, v.archive.get? n = some c → ∀ l ∈ c.literals, p l

namespace Snapshot.Literals

variable {p : Literal → Prop}

theorem enter (hv : v.Literals p) {c : Clause} (hc : ∀ l ∈ c.literals, p l) (o : Origin) :
    (v.enter c o).Literals p := by
  intro n d hd
  rcases Archive.get?_record_eq_some hd with hd | ⟨-, rfl⟩
  · exact hv n d hd
  · exact hc

variable (heligible : ∀ l eligible, p l → p { l with eligible := eligible })
  (hresult : ∀ k r, Call.result? k = some r → (∀ e ∈ k.premises, ∀ l ∈ e.clause.literals, p l) →
    ∀ l ∈ r.literals, p l)

include heligible hresult

/-- **Every move keeps what inferences and selection keep.** -/
theorem move (hv : v.Literals p) (hcons : v.Consistent) (h : Move policy v w) : w.Literals p := by
  have hconclusion : ∀ {k ks r}, v.pending = k :: ks → Call.result? k = some r →
      ∀ l ∈ r.literals, p l := by
    intro k ks r hpending hr
    have hk : k ∈ v.history.calls := hcons.pending k (hpending ▸ List.mem_cons_self)
    exact hresult k r hr fun e he => hv _ _ (hcons.premises k hk e he)
  cases h with
  | giveUp | saturate | finish | discardTautology | discardSubsumed | skip | dropTautology =>
    exact hv
  | @activate given rest _ hgiven =>
    have hselect : (v.select policy given).2.Literals p := by
      unfold Snapshot.select
      split
      · have hget := hcons.archived given (List.mem_append_right _ hgiven)
        exact hv.enter (Clause.forall_literals_select heligible (hv _ _ hget) _) _
      · exact hv
    exact hselect
  | @enqueue k ks r _ hpending hr _ name =>
    exact hv.enter (c := (policy.tidy r).named name)
      (fun l hl => hconclusion hpending hr l ((policy.tidy_sublist r).subset hl)) (.inference k)
  | @conclude k ks r _ hpending hr _ name =>
    exact hv.enter (c := r.named name) (fun l hl => hconclusion hpending hr l hl) (.inference k)

/-- What inferences and selection keep holds of all literals, if it holds at the start. -/
theorem moves (hS : ∀ c ∈ S, ∀ l ∈ c.literals, p l) (h : Moves policy (.start S) w) :
    w.Literals p := by
  refine h.invariant (Snapshot.consistent_start S) (fun n c hc => hS c ?_) fun hcons hv hmove =>
    hv.move heligible hresult hcons hmove
  exact List.mem_of_getElem? (by simpa [Snapshot.start, Archive.get?] using hc)

end Snapshot.Literals

section

variable {P U : Type} [ClauseStore P] [ClauseQueue U] [LawfulStore P] [LawfulQueue U]
    {s₀ s : State P U}
  {h : History}

/-- Every clause of a search has a name, if those at the start have. -/
theorem Run.name_ne_empty (hs₀ : s₀.Consistent (.start s₀))
    (hstart : s₀.snapshot [] (.start s₀) = .start S) (hS : ∀ b ∈ S, b.parents = [])
    (hnames : ∀ b ∈ S, b.name ≠ "") (run : Run policy s₀ (.start s₀) s h) {n : Nat} {c : Clause}
    (hc : s.archive.get? n = some c) : c.name ≠ "" := by
  obtain ⟨hmoves, hs⟩ := run.moves hs₀
  rw [hstart] at hmoves
  obtain ⟨hlabelled, -⟩ := Snapshot.Lineage.moves hS hmoves
  obtain ⟨m, d, -, hd, hname, -, hroot⟩ := hlabelled.exists_original hs.snapshot hc
  rw [← hname]
  rcases hroot with hSd | ⟨-, k, hk⟩
  · exact hnames d (List.mem_of_getElem? hSd)
  · have hnamed := run.named hs₀ s₀.named_start
    obtain ⟨i, -, hi⟩ := hnamed.drawn _ (List.mem_of_getElem? (State.getElem?_log hk hd)) rfl
    rw [show d.name = _ from hi, ClauseNames.clauseName]
    simp

/-- **All clauses of a search are printable**, if those at the start are. -/
theorem Run.isPrintable (hs₀ : s₀.Consistent (.start s₀))
    (hstart : s₀.snapshot [] (.start s₀) = .start S)
    (hS : ∀ b ∈ S, b.IsPrintable ∧ b.parents = []) (run : Run policy s₀ (.start s₀) s h) {n : Nat}
    {c : Clause} (hc : s.archive.get? n = some c) : c.IsPrintable := by
  obtain ⟨hmoves, hs⟩ := run.moves hs₀
  rw [hstart] at hmoves
  have hname : ∀ {n c}, s.archive.get? n = some c → c.name ≠ "" :=
    run.name_ne_empty hs₀ hstart (fun b hb => (hS b hb).2) fun b hb => (hS b hb).1.name
  refine ⟨hname hc, ?_, ?_⟩
  · exact Snapshot.Literals.moves (fun l eligible hl => ⟨hl.compound, hl.atom, hl.tag⟩)
      (fun k r hr => Call.isWritable_result hr) (fun b hb => (hS b hb).1.literals) hmoves n c hc
  · cases Snapshot.Recorded.moves hmoves n c hc with
    | input hb _ _ _ hderivation => exact hderivation ▸ (hS _ hb).1.derivation
    | @inference k r hr _ hderivation hpremises =>
      have hparents : ∀ q ∈ k.premises.map (·.asParent), q.name ≠ "" :=
        List.forall_mem_map.2 fun e he => hname (hpremises e he).2
      intro d hd
      rw [hderivation] at hd
      cases k with
      | resolve =>
        obtain rfl := Option.some.inj ((Entry.derivation_resolve hr).symm.trans hd)
        exact ⟨show Symbol.isLowerWord "resolution" = true by decide, rfl, hparents⟩
      | factor =>
        obtain rfl := Option.some.inj ((Entry.derivation_factor hr).symm.trans hd)
        exact ⟨show Symbol.isLowerWord "factor" = true by decide, rfl, hparents⟩

end

/-! ### Full and plain searches -/

/-- The proof that the state shows prints as a text that is read as the clauses of the derivation,
in order; the last one is empty. -/
structure State.ReadsBack {P U : Type} (s : State P U) (p : Proof) (cs ds : List Clause) :
    Prop where
  /-- The state shows the proof. -/
  proof : s.proof? = some p
  /-- The derivation lists the clauses `cs`. -/
  derivation : s.derivation.map s.archive.get? = cs.map some
  /-- Each of them makes one step. -/
  steps : p.steps = cs.map .ofClause
  /-- The text is read as the clauses `ds`. -/
  read : readClauses p.render = .ok ds
  /-- These have the names, the roles and the literals of the derivation; all literals are
  eligible. -/
  same : List.Forall₂ (fun d c => d.name = c.name ∧ d.role = c.role ∧
    d.literals = c.literals.map fun l => { l with eligible := true }) ds cs
  /-- The last of them is empty. -/
  last : ∃ d, ds.getLast? = some d ∧ d.literals = []

theorem Run.readsBack {P U : Type} [ClauseStore P] [ClauseQueue U] [LawfulStore P] [LawfulQueue U]
    {s₀ s : State P U} {h : History} (hs₀ : s₀.Consistent (.start s₀))
    (hstart : s₀.snapshot [] (.start s₀) = .start S)
    (hS : ∀ b ∈ S, b.IsPrintable ∧ b.parents = []) (run : Run policy s₀ (.start s₀) s h)
    (hproof : s.status = .proofFound) : ∃ p cs ds, s.ReadsBack p cs ds := by
  have hreplayable := run.replayable hs₀ hstart (fun b hb => (hS b hb).2) hproof
  obtain ⟨es, hnumbers, hes, -⟩ := hreplayable.exists_entries
  obtain ⟨e, earlier, hresult, he, hempty, hlast⟩ := hreplayable.result
  have hderivation : s.derivation.map s.archive.get? = (es.map (·.clause)).map some := by
    rw [hnumbers, List.map_map, List.map_map]
    exact List.map_congr_left hes
  have hprintable : ∀ c ∈ es.map (·.clause), c.IsPrintable :=
    List.forall_mem_map.2 fun e he => run.isPrintable hs₀ hstart hS (hes e he)
  generalize es.map (·.clause) = cs at hderivation hprintable
  refine ⟨_, cs, _, State.proof?_eq hresult hderivation, hderivation, rfl,
    readClauses_render_of_isPrintable hprintable, ?_, ?_⟩
  · rw [List.forall₂_map_left_iff, List.forall₂_same]
    exact fun c _ => ⟨rfl, rfl, rfl⟩
  · have hcs : cs.getLast? = some e.clause := by
      rw [hlast, List.map_append, List.map_singleton, he] at hderivation
      have hlast' := congrArg List.getLast? hderivation
      rw [List.getLast?_concat, List.getLast?_map] at hlast'
      simpa using hlast'.symm
    refine ⟨_, by rw [List.getLast?_map, hcs, Option.map_some], ?_⟩
    simp [Clause.released, hempty]

/-- **Printed proofs are readable**: for every problem that was read, with or without the axioms of
equality, in full and plain searches. -/
theorem printed_proof_read_back {text : String} {problem : Problem} {axs : List Clause}
    (hread : readProblem text = .ok problem)
    (haxs : axs = [] ∨ Equality.axiomsFor problem.clauses = .ok axs) (params : Params) :
    (∀ s₀ s h, startFull params (problem.clauses ++ axs) = .ok s₀ →
      Run params.policy s₀ (.start s₀) s h → s.status = .proofFound →
        ∃ p cs ds, s.ReadsBack p cs ds) ∧
    ∀ s₀ s h, startPlain (problem.clauses ++ axs) = .ok s₀ →
      Run params.plainPolicy s₀ (.start s₀) s h → s.status = .proofFound →
      ∃ p cs ds, s.ReadsBack p cs ds := by
  have hclauses := isPrintable_of_readClauses (readClauses_of_readProblem hread)
  have hS : ∀ b ∈ problem.clauses ++ axs, b.IsPrintable ∧ b.parents = [] := by
    refine List.forall_mem_append.2 ⟨hclauses, ?_⟩
    rcases haxs with rfl | haxs
    · exact List.forall_mem_nil _
    · exact Equality.isPrintable_of_axiomsFor (fun c hc => (hclauses c hc).1) haxs
  constructor
  · intro s₀ s h hstart run hproof
    obtain ⟨hsnapshot, hs₀⟩ := startFull_spec hstart
    exact run.readsBack hs₀ hsnapshot hS hproof
  · intro s₀ s h hstart run hproof
    obtain ⟨hsnapshot, hs₀⟩ := startPlain_spec hstart
    exact run.readsBack hs₀ hsnapshot hS hproof

/-- Two names that need quotes, in a clause that contradicts the axioms of equality. -/
def deniedIdentity : List Clause :=
  [⟨"it's", .negatedConjecture, [.disequation (.app "F" [.var "X"]) (.app "F" [.const "2"])], none⟩]

theorem readProblem_deniedIdentity :
    readProblem (Clause.renderAll false deniedIdentity) = .ok ⟨deniedIdentity, none⟩ := by
  have hwritable : ∀ c ∈ deniedIdentity, c.IsWritable := by
    refine List.forall_mem_singleton.2 ⟨?_, ?_, ?_, ?_, ?_⟩ <;> decide
  have hclauses : readClauses (Clause.renderAll false deniedIdentity) = .ok deniedIdentity :=
    readClauses_eq_ok_iff.2 ⟨_, Clause.written_renderAll hwritable nofun,
      Clause.isDocument_tokens hwritable⟩
  have hstatus : readStatus (Clause.renderAll false deniedIdentity) = .ok none := by decide +kernel
  simp only [readProblem, hstatus, hclauses, bind, Except.bind, pure, Except.pure]

/-- Both searches, with selected literals, find a proof that is printed with these names and read
back. -/
theorem printed_proof_read_back_deniedIdentity :
    readProblem (Clause.renderAll false deniedIdentity) = .ok ⟨deniedIdentity, none⟩ ∧
    ∃ axs, Equality.axiomsFor deniedIdentity = .ok axs ∧
      (∃ s₀ s h p cs ds, startFull { selection := some .first } (deniedIdentity ++ axs) = .ok s₀ ∧
        Run ({ selection := some .first } : Params).policy s₀ (.start s₀) s h ∧
        s.status = .proofFound ∧ s.ReadsBack p cs ds) ∧
      ∃ s₀ s h p cs ds, startPlain (deniedIdentity ++ axs) = .ok s₀ ∧
        Run ({ selection := some .first } : Params).plainPolicy s₀ (.start s₀) s h ∧
        s.status = .proofFound ∧ s.ReadsBack p cs ds := by
  let axs := Equality.equivalence ++ [Equality.functionAxiom "F" 1]
  have haxs : Equality.axiomsFor deniedIdentity = .ok axs := by decide +kernel
  let params : Params := { selection := some .first }
  let s₀ : FullState := .start .empty (.empty params.heuristic.schedule) (deniedIdentity ++ axs)
  let t₀ : PlainState := .start .empty .empty (deniedIdentity ++ axs)
  obtain ⟨h, run⟩ := run_saturate params.policy 8 s₀ (.start s₀)
  obtain ⟨h', run'⟩ := run_saturate params.plainPolicy 8 t₀ (.start t₀)
  have hproof : (s₀.saturate params.policy 8).status = .proofFound := by cbv
  have hproof' : (t₀.saturate params.plainPolicy 8).status = .proofFound := by cbv
  obtain ⟨hfull, hplain⟩ := printed_proof_read_back readProblem_deniedIdentity (.inr haxs) params
  obtain ⟨p, cs, ds, hreads⟩ := hfull s₀ _ h rfl run hproof
  obtain ⟨p', cs', ds', hreads'⟩ := hplain t₀ _ h' rfl run' hproof'
  exact ⟨readProblem_deniedIdentity, axs, haxs, ⟨s₀, _, h, p, cs, ds, rfl, run, hproof, hreads⟩,
    ⟨t₀, _, h', p', cs', ds', rfl, run', hproof', hreads'⟩⟩

end Search

end Refutation
