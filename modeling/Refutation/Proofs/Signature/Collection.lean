import Mathlib.Data.List.Forall2
import Mathlib.Data.List.Perm.Basic
import Mathlib.Tactic.Choose
import Refutation.Proofs.Signature

/-!
# Collecting a signature

The symbols of clauses are entered into a signature in one pass.  An occurrence is accepted if it
fits the earlier ones, so all are accepted exactly if any two of them fit, whatever their order.

Occurrences are told apart by their addresses: the number of a clause, the number of a literal, and
a path of argument positions.  Addresses are ordered lexicographically, which is the order of
reading: a symbol comes before the symbols of its arguments.

An atom is expected to be a compound term.  Where it is a variable, a predicate with the empty name
is entered for it, though no symbol occurs there.

* `symbolAt?` : the symbol at an address.
* `Enumerates` : a list is what is found at all addresses, in order.
* `ListsSymbols` : a table lists the symbols of one kind in order of first occurrence.
* `Signature.Lists.exists_declare`, `Signature.Lists.compatible_of_declare` : one occurrence is
  entered.
* `Signature.Lists.exists_declareAll`, `Signature.Lists.compatible_of_declareAll` : all are entered.
* `signature_exactly_if_unambiguous` : a signature is found exactly if no name is used in two ways.
-/

namespace Refutation

/-! ### Addresses -/

/-- The subterm to which a path of argument positions leads. -/
def Term.subterm? : List Nat → Term → Option Term
  | [], t => some t
  | i :: p, t => t.args[i]?.bind (subterm? p)

/-- The function symbol to which a path of argument positions leads. -/
def Term.functionAt? (t : Term) (p : List Nat) : Option Occurrence :=
  match subterm? p t with
  | some (.app f ts) => some ⟨.function, f, ts.length⟩
  | _ => none

/-- The symbol at an address of a literal: the predicate at the empty one, the function symbols of
the arguments at the others.  No symbol stands anywhere in an atom that is a variable. -/
def Literal.symbolAt? (l : Literal) : List Nat → Option Occurrence
  | [] => l.atom.symbol?.map (⟨.predicate, ·, l.arity⟩)
  | i :: p => l.atom.functionAt? (i :: p)

/-- The symbol at an address of a clause, which starts with the position of a literal. -/
def Clause.symbolAt? (c : Clause) : List Nat → Option Occurrence
  | [] => none
  | i :: p => c.literals[i]?.bind (·.symbolAt? p)

/-- The symbol at an address of a list of clauses, which starts with the position of a clause. -/
def symbolAt? (cs : List Clause) : List Nat → Option Occurrence
  | [] => none
  | i :: p => cs[i]?.bind (·.symbolAt? p)

/-- The list is what is found at all addresses, in lexicographic order. -/
def Enumerates (os : List Occurrence) (find : List Nat → Option Occurrence) : Prop :=
  ∃ ps : List (List Nat × Occurrence), ps.map (·.2) = os ∧ ps.Pairwise (fun x y => x.1 < y.1) ∧
    ∀ p o, (p, o) ∈ ps ↔ find p = some o

namespace Enumerates

variable {os : List Occurrence} {find : List Nat → Option Occurrence} {o : Occurrence}

theorem nil : Enumerates [] fun _ => none := ⟨[], rfl, .nil, by simp⟩

theorem mem_iff (h : Enumerates os find) : o ∈ os ↔ ∃ p, find p = some o := by
  obtain ⟨ps, rfl, -, hps⟩ := h
  simp [hps]

theorem cons (h : Enumerates os find) (hnil : find [] = none) {find' : List Nat → Option Occurrence}
    (hfirst : find' [] = some o) (hrest : ∀ i p, find' (i :: p) = find (i :: p)) :
    Enumerates (o :: os) find' := by
  obtain ⟨ps, rfl, hsorted, hps⟩ := h
  refine ⟨([], o) :: ps, rfl, List.pairwise_cons.2 ⟨?_, hsorted⟩, fun p o' => ?_⟩
  · rintro ⟨p, o'⟩ hp
    cases p with
    | nil => exact absurd ((hps [] o').1 hp) (by simp [hnil])
    | cons i p => exact List.nil_lt_cons i p
  · cases p with
    | nil =>
      have hnot : ([], o') ∉ ps := fun hp => absurd ((hps [] o').1 hp) (by simp [hnil])
      simp [hfirst, hnot, eq_comm]
    | cons i p => simp [hrest, hps]

/-- One list after the other is enumerated by addresses that start with the number of the list. -/
theorem flatMap {α : Type} {as : List α} {g : α → List Occurrence}
    {find : α → List Nat → Option Occurrence} (h : ∀ a ∈ as, Enumerates (g a) (find a))
    {find' : List Nat → Option Occurrence} (hnil : find' [] = none)
    (hcons : ∀ i p, find' (i :: p) = as[i]?.bind (find · p)) : Enumerates (as.flatMap g) find' := by
  choose! ps hmap hsorted hps using h
  refine ⟨as.zipIdx.flatMap fun x => (ps x.1).map fun y => (x.2 :: y.1, y.2), ?_, ?_, fun p o => ?_⟩
  · have hfst : as.flatMap g = (as.zipIdx.map (·.1)).flatMap g := by rw [List.zipIdx_map_fst]
    rw [List.map_flatMap, hfst, List.flatMap_map]
    refine List.flatMap_congr fun x hx => ?_
    rw [List.map_map, ← hmap x.1 (List.fst_mem_of_mem_zipIdx hx)]
    rfl
  · rw [List.pairwise_flatMap]
    constructor
    · intro x hx
      rw [List.pairwise_map]
      exact (hsorted x.1 (List.fst_mem_of_mem_zipIdx hx)).imp fun h =>
        List.cons_lt_cons_iff.2 (.inr ⟨rfl, h⟩)
    · refine (pairwise_zipIdx as).imp fun {x y} hlt x' hx' y' hy' => ?_
      obtain ⟨x'', -, rfl⟩ := List.mem_map.1 hx'
      obtain ⟨y'', -, rfl⟩ := List.mem_map.1 hy'
      exact List.cons_lt_cons_iff.2 (.inl hlt)
  · cases p with
    | nil => simp [hnil]
    | cons i p =>
      rw [hcons, Option.bind_eq_some_iff, List.mem_flatMap]
      constructor
      · rintro ⟨⟨a, j⟩, hx, hy⟩
        have ha := List.mem_zipIdx_iff_getElem?.1 hx
        obtain ⟨⟨p', o'⟩, hp', heq⟩ := List.mem_map.1 hy
        simp only [Prod.mk.injEq, List.cons.injEq] at heq
        obtain ⟨⟨rfl, rfl⟩, rfl⟩ := heq
        exact ⟨a, ha, (hps a (List.mem_of_getElem? ha) p' o').1 hp'⟩
      · rintro ⟨a, ha, ho⟩
        exact ⟨(a, i), List.mem_zipIdx_iff_getElem?.2 ha,
          List.mem_map.2 ⟨(p, o), (hps a (List.mem_of_getElem? ha) p o).2 ho, rfl⟩⟩

end Enumerates

theorem Term.functionAt?_cons (t : Term) (i : Nat) (p : List Nat) :
    t.functionAt? (i :: p) = t.args[i]?.bind (·.functionAt? p) := by
  unfold functionAt?
  rw [subterm?]
  cases t.args[i]? <;> rfl

theorem Term.enumerates_functionOccurrences (t : Term) :
    Enumerates t.functionOccurrences t.functionAt? := by
  induction t with
  | var x =>
    have hnone : (Term.var x).functionAt? = fun _ => none := by
      funext p
      cases p with
      | nil => rfl
      | cons i p => rw [functionAt?_cons, args, List.getElem?_nil, Option.bind_none]
    rw [hnone]
    exact .nil
  | app f ts ih =>
    have hargs : Enumerates (ts.flatMap (·.functionOccurrences))
        (fun | [] => none | i :: p => ts[i]?.bind (·.functionAt? p)) :=
      .flatMap ih rfl fun _ _ => rfl
    rw [functionOccurrences, functionOccurrencesList_eq_flatMap]
    exact hargs.cons rfl rfl fun i p => functionAt?_cons _ i p

/-- The symbols that stand in a literal, in the order of their addresses. -/
def Literal.symbols (l : Literal) : List Occurrence :=
  match l.atom with
  | .var _ => []
  | .app _ _ => l.symbolOccurrences

/-- The symbols that stand in clauses, in the order of their addresses. -/
def symbolsIn (cs : List Clause) : List Occurrence :=
  cs.flatMap fun c => c.literals.flatMap (·.symbols)

theorem Literal.enumerates_symbols (l : Literal) : Enumerates l.symbols l.symbolAt? := by
  have hargs : Enumerates (l.atom.args.flatMap (·.functionOccurrences))
      (fun | [] => none | i :: p => l.atom.args[i]?.bind (·.functionAt? p)) :=
    .flatMap (fun t _ => t.enumerates_functionOccurrences) rfl fun _ _ => rfl
  have hrest : ∀ i p, l.symbolAt? (i :: p) = l.atom.args[i]?.bind (·.functionAt? p) :=
    fun i p => l.atom.functionAt?_cons i p
  unfold symbols
  split
  · next x hatom =>
    have hnone : l.symbolAt? = fun _ => none := by
      funext p
      cases p with
      | nil => simp [symbolAt?, hatom, Term.symbol?]
      | cons i p => simp [hrest, hatom, Term.args]
    rw [hnone]
    exact .nil
  · next f ts hatom =>
    have hfirst : l.symbolAt? [] = some ⟨.predicate, l.predicate, l.arity⟩ := by
      simp [symbolAt?, predicate, hatom, Term.symbol?]
    exact hargs.cons rfl hfirst hrest

theorem enumerates_symbolsIn (cs : List Clause) : Enumerates (symbolsIn cs) (symbolAt? cs) := by
  refine .flatMap (fun c _ => ?_) rfl fun _ _ => rfl
  exact .flatMap (fun l _ => l.enumerates_symbols) rfl fun _ _ => rfl

/-! ### Compound atoms -/

/-- No atom is a variable. -/
def HaveCompoundAtoms (cs : List Clause) : Prop :=
  ∀ c ∈ cs, ∀ l ∈ c.literals, ∃ f ts, l.atom = .app f ts

/-- **What is entered are the symbols, in the order of their addresses**, if no atom is a
variable. -/
theorem HaveCompoundAtoms.symbolsIn_eq {cs : List Clause} (h : HaveCompoundAtoms cs) :
    symbolsIn cs = cs.flatMap (·.symbolOccurrences) := by
  refine List.flatMap_congr fun c hc => List.flatMap_congr fun l hl => ?_
  obtain ⟨f, ts, hatom⟩ := h c hc l hl
  rw [Literal.symbols, hatom]

/-- What a term counts as where it is an atom: a variable counts as a predicate with the empty name
and no arguments. -/
def Term.asPredicate : Term → Term
  | .var _ => .app "" []
  | .app f ts => .app f ts

/-- The clause with each atom replaced by what it counts as. -/
def Clause.withPredicates (c : Clause) : Clause :=
  { c with literals := c.literals.map fun l => { l with atom := l.atom.asPredicate } }

theorem haveCompoundAtoms_withPredicates (cs : List Clause) :
    HaveCompoundAtoms (cs.map (·.withPredicates)) := by
  intro c hc l hl
  obtain ⟨c, -, rfl⟩ := List.mem_map.1 hc
  obtain ⟨l, -, rfl⟩ := List.mem_map.1 hl
  change ∃ f ts, l.atom.asPredicate = _
  cases l.atom with
  | var x => exact ⟨_, _, rfl⟩
  | app f ts => exact ⟨f, ts, rfl⟩

theorem Clause.symbolOccurrences_withPredicates (c : Clause) :
    c.withPredicates.symbolOccurrences = c.symbolOccurrences := by
  rw [symbolOccurrences, withPredicates, List.flatMap_map, symbolOccurrences]
  refine List.flatMap_congr fun l _ => ?_
  simp only [Literal.symbolOccurrences, Literal.predicate, Literal.arity]
  cases l.atom <;> rfl

/-! ### First occurrences -/

/-- What is left of a list without repetitions stands in the order of first occurrence. -/
theorem pairwise_eraseDups {α : Type} [BEq α] [LawfulBEq α] (as : List α) :
    as.eraseDups.Pairwise fun a b =>
      ∃ before after, as = before ++ a :: after ∧ b ∉ before ∧ b ≠ a := by
  induction as using eraseDups_induct with
  | nil => simp
  | cons a as ih =>
    rw [List.eraseDups_cons, List.pairwise_cons]
    have hne : ∀ b ∈ (as.filter fun b => !b == a).eraseDups, b ≠ a := by simp
    refine ⟨fun b hb => ⟨[], as, rfl, List.not_mem_nil, hne b hb⟩, ?_⟩
    refine ih.imp_of_mem fun {b c} hb hc h => ?_
    obtain ⟨before, after, hsplit, hbefore, hcb⟩ := h
    obtain ⟨us, vs, rfl, rfl, hvs⟩ := List.filter_eq_append_iff.1 hsplit
    obtain ⟨ws, xs, rfl, hws, -, rfl⟩ := List.filter_eq_cons_iff.1 hvs
    refine ⟨a :: (us ++ ws), xs, by simp, ?_, hcb⟩
    have hca := hne c hc
    rw [List.mem_cons, List.mem_append]
    rintro (rfl | hus | hw)
    · exact hca rfl
    · exact hbefore (List.mem_filter.2 ⟨hus, by simpa using hca⟩)
    · exact hws c hw (by simpa using hca)

/-- If a list is ordered, so are the values of a function, each taken where it is first found. -/
theorem pairwise_eraseDups_map {α β : Type} [BEq β] [LawfulBEq β] {R : α → α → Prop} {as : List α}
    (h : as.Pairwise R) (f : α → β) : (as.map f).eraseDups.Pairwise fun x y =>
      ∃ a ∈ as, f a = x ∧ ∀ b ∈ as, f b = y → R a b := by
  refine (pairwise_eraseDups _).imp fun {x y} hxy => ?_
  obtain ⟨before, after, hsplit, hbefore, hne⟩ := hxy
  obtain ⟨us, vs, rfl, rfl, hvs⟩ := List.map_eq_append_iff.1 hsplit
  obtain ⟨a, vs, rfl, rfl, -⟩ := List.map_eq_cons_iff.1 hvs
  refine ⟨a, List.mem_append_right _ List.mem_cons_self, rfl, ?_⟩
  rintro b hb rfl
  rw [List.pairwise_append, List.pairwise_cons] at h
  rcases List.mem_append.1 hb with hb | hb
  · exact absurd (List.mem_map_of_mem hb) hbefore
  · rcases List.mem_cons.1 hb with rfl | hb
    · exact absurd rfl hne
    · exact h.2.1.1 b hb

/-- The symbols of one kind among occurrences, each once. -/
def symbolsOf (kind : SymbolKind) (os : List Occurrence) : List (String × Nat) :=
  ((os.filter (·.kind = kind)).map fun o => (o.symbol, o.arity)).eraseDups

/-- The table holds the symbols of one kind that are found at addresses, in order of first
occurrence. -/
structure ListsSymbols (find : List Nat → Option Occurrence) (kind : SymbolKind)
    (table : List (String × Nat)) : Prop where
  /-- All that occur, and no others. -/
  mem_iff : ∀ name arity, (name, arity) ∈ table ↔ ∃ p, find p = some ⟨kind, name, arity⟩
  /-- A symbol occurs for the first time before the symbols that are listed after it. -/
  sorted : table.Pairwise fun x y => ∃ p, find p = some ⟨kind, x.1, x.2⟩ ∧
    ∀ q, find q = some ⟨kind, y.1, y.2⟩ → p < q

theorem mem_symbolsOf {kind : SymbolKind} {os : List Occurrence} {name : String} {arity : Nat} :
    (name, arity) ∈ symbolsOf kind os ↔ ⟨kind, name, arity⟩ ∈ os := by
  simp only [symbolsOf, List.mem_eraseDups, List.mem_map, List.mem_filter, decide_eq_true_eq,
    Prod.mk.injEq]
  constructor
  · rintro ⟨o, ⟨ho, rfl⟩, rfl, rfl⟩
    exact ho
  · exact fun ho => ⟨_, ⟨ho, rfl⟩, rfl, rfl⟩

/-- **Each symbol is listed once, in order of first occurrence.** -/
theorem Enumerates.listsSymbols {os : List Occurrence} {find : List Nat → Option Occurrence}
    (h : Enumerates os find) (kind : SymbolKind) : ListsSymbols find kind (symbolsOf kind os) where
  mem_iff name arity := mem_symbolsOf.trans h.mem_iff
  sorted := by
    obtain ⟨ps, rfl, hsorted, hps⟩ := h
    rw [symbolsOf, List.filter_map, List.map_map]
    refine (pairwise_eraseDups_map (hsorted.filter _) _).imp fun {x y} hxy => ?_
    obtain ⟨⟨p, o⟩, hmem, rfl, hlater⟩ := hxy
    obtain ⟨hp, hkind⟩ := List.mem_filter.1 hmem
    obtain rfl : o.kind = kind := of_decide_eq_true hkind
    refine ⟨p, (hps p o).1 hp, fun q hq => ?_⟩
    exact hlater (q, ⟨o.kind, y.1, y.2⟩) (List.mem_filter.2 ⟨(hps q _).2 hq, decide_eq_true rfl⟩)
      rfl

/-! ### Compatible occurrences -/

/-- A symbol is of one kind and has one arity. -/
def Compatible (os : List Occurrence) : Prop := ∀ o ∈ os, ∀ o' ∈ os, o.symbol = o'.symbol → o = o'

instance (os : List Occurrence) : Decidable (Compatible os) :=
  inferInstanceAs (Decidable (∀ o ∈ os, ∀ o' ∈ os, o.symbol = o'.symbol → o = o'))

theorem compatible_concat {os : List Occurrence} {o : Occurrence} :
    Compatible (os ++ [o]) ↔ Compatible os ∧ ∀ o' ∈ os, o'.symbol = o.symbol → o' = o := by
  unfold Compatible
  grind

theorem symbolsOf_concat (kind : SymbolKind) (os : List Occurrence) (o : Occurrence) :
    symbolsOf kind (os ++ [o]) =
      symbolsOf kind os ++ if kind = o.kind ∧ o ∉ os then [(o.symbol, o.arity)] else [] := by
  have hmem : (o.symbol, o.arity) ∈ symbolsOf o.kind os ↔ o ∈ os := mem_symbolsOf
  rw [symbolsOf, List.mem_eraseDups] at hmem
  rw [symbolsOf, List.filter_append, List.map_append, List.eraseDups_append, ← symbolsOf]
  congr 1
  by_cases hkind : kind = o.kind
  · subst hkind
    by_cases ho : o ∈ os <;> simp [List.removeAll, List.eraseDups_cons, hmem, ho]
  · simp [List.removeAll, hkind, Ne.symm hkind]

namespace Signature

variable {S S' : Signature} {o : Occurrence} {os done : List Occurrence}

/-- The signature lists the symbols of the occurrences. -/
def Lists (S : Signature) (os : List Occurrence) : Prop :=
  ∀ kind, S.symbols kind = symbolsOf kind os

namespace Lists

/-- A signature knows what it lists, if each symbol has one arity. -/
theorem knows_iff (hS : S.Lists done) (hdone : Compatible done) : S.Knows o ↔ o ∈ done := by
  have hmem : ∀ name arity, (name, arity) ∈ S.symbols o.kind ↔ ⟨o.kind, name, arity⟩ ∈ done := by
    intro name arity
    rw [hS o.kind, mem_symbolsOf]
  refine ⟨fun h => (hmem _ _).1 h.mem, fun h => ?_⟩
  obtain ⟨arity, harity⟩ := Option.isSome_iff_exists.1
    (List.lookup_isSome_iff.2 ⟨_, (hmem o.symbol o.arity).2 h, beq_self_eq_true _⟩)
  have hknows : S.Knows ⟨o.kind, o.symbol, arity⟩ := harity
  have heq := hdone o h _ ((hmem _ _).1 hknows.mem) rfl
  exact harity.trans (congrArg (fun o => some o.arity) heq.symm)

theorem clashes_iff (hS : S.Lists done) (hdone : Compatible done) :
    S.clashes o = true ↔ ∃ o' ∈ done, o'.symbol = o.symbol ∧ o'.kind ≠ o.kind := by
  have hsome : ∀ kind name, ((S.symbols kind).lookup name).isSome = true ↔
      ∃ arity, ⟨kind, name, arity⟩ ∈ done := by
    intro kind name
    rw [Option.isSome_iff_exists]
    exact exists_congr fun arity => hS.knows_iff hdone (o := ⟨kind, name, arity⟩)
  have hother : ∀ kind ≠ o.kind,
      (S.clashes o = true ↔ ∃ arity, ⟨kind, o.symbol, arity⟩ ∈ done) := by
    intro kind hne
    rw [← hsome, clashes]
    cases hkind : o.kind with
    | function =>
      cases kind with
      | function => exact absurd hkind.symm hne
      | predicate => rfl
    | predicate =>
      cases kind with
      | function => rfl
      | predicate => exact absurd hkind.symm hne
  constructor
  · intro hclash
    obtain ⟨kind, hne⟩ : ∃ kind, kind ≠ o.kind := by
      cases o.kind
      · exact ⟨.predicate, nofun⟩
      · exact ⟨.function, nofun⟩
    obtain ⟨arity, harity⟩ := (hother kind hne).1 hclash
    exact ⟨_, harity, rfl, hne⟩
  · rintro ⟨o', ho', hsymbol, hne⟩
    exact (hother o'.kind hne).2 ⟨o'.arity, hsymbol ▸ ho'⟩

/-- An occurrence that fits the earlier ones is accepted and listed. -/
theorem exists_declare (hS : S.Lists done) (h : Compatible (done ++ [o])) :
    ∃ S', S.declare o = .ok S' ∧ S'.Lists (done ++ [o]) := by
  obtain ⟨hdone, hfits⟩ := compatible_concat.1 h
  have hclash : ¬S.clashes o = true := by
    rw [hS.clashes_iff hdone]
    rintro ⟨o', ho', hsymbol, hkind⟩
    exact hkind (congrArg Occurrence.kind (hfits o' ho' hsymbol))
  unfold Signature.declare
  rw [if_neg hclash]
  cases hlookup : (S.symbols o.kind).lookup o.symbol with
  | none =>
    have hnew : o ∉ done := by
      rw [← hS.knows_iff hdone, Knows, hlookup]
      exact nofun
    refine ⟨_, rfl, fun kind => ?_⟩
    rw [symbols_extend, symbolsOf_concat, hS kind]
    simp [hnew]
  | some arity =>
    have hknown := (hS.knows_iff hdone (o := ⟨o.kind, o.symbol, arity⟩)).1 hlookup
    have harity : arity = o.arity := congrArg Occurrence.arity (hfits _ hknown rfl)
    refine ⟨S, if_pos harity, fun kind => ?_⟩
    have hold : o ∈ done := (hS.knows_iff hdone).1 (hlookup.trans (congrArg some harity))
    rw [symbolsOf_concat, hS kind]
    simp [hold]

theorem compatible_of_declare (hS : S.Lists done) (hdone : Compatible done)
    (h : S.declare o = .ok S') :
    Compatible (done ++ [o]) := by
  refine compatible_concat.2 ⟨hdone, fun o' ho' hsymbol => ?_⟩
  have hkind : o'.kind = o.kind := by
    by_contra hkind
    rw [Signature.declare, if_pos ((hS.clashes_iff hdone).2 ⟨o', ho', hsymbol, hkind⟩)] at h
    cases h
  obtain ⟨hknown, hkeeps⟩ := knows_declare h
  have harity := (hkeeps o' ((hS.knows_iff hdone).2 ho')).arity_eq hknown hkind hsymbol
  cases o
  cases o'
  simp_all

/-- Occurrences that fit each other are accepted one after the other, and listed. -/
theorem exists_declareAll (hS : S.Lists done) (h : Compatible (done ++ os)) :
    ∃ S', S.declareAll os = (S', none) ∧ S'.Lists (done ++ os) := by
  induction os generalizing S done with
  | nil => exact ⟨S, rfl, by simpa using hS⟩
  | cons o os ih =>
    rw [List.append_cons] at h ⊢
    obtain ⟨S₁, hdeclare, hS₁⟩ := hS.exists_declare (o := o) fun o₁ ho₁ o₂ ho₂ =>
      h o₁ (List.mem_append_left _ ho₁) o₂ (List.mem_append_left _ ho₂)
    obtain ⟨S', hall, hS'⟩ := ih hS₁ h
    refine ⟨S', ?_, hS'⟩
    rw [declareAll, hdeclare]
    exact hall

theorem compatible_of_declareAll (hS : S.Lists done) (hdone : Compatible done)
    (h : S.declareAll os = (S', none)) : Compatible (done ++ os) := by
  induction os generalizing S done with
  | nil => simpa using hdone
  | cons o os ih =>
    rw [declareAll] at h
    split at h
    · next S₁ hdeclare =>
      have hfits := hS.compatible_of_declare hdone hdeclare
      obtain ⟨S₂, hdeclare', hS₂⟩ := hS.exists_declare hfits
      obtain rfl := Except.ok.inj (hdeclare.symm.trans hdeclare')
      rw [List.append_cons]
      exact ih hS₂ hfits h
    · cases (Prod.mk.inj h).2

end Lists

theorem lists_empty : empty.Lists [] := by
  intro kind
  cases kind <;> rfl

theorem ofClauses_eq_ok_iff {cs : List Clause} :
    ofClauses cs = .ok S ↔ empty.declareAll (cs.flatMap (·.symbolOccurrences)) = (S, none) := by
  unfold ofClauses
  split
  · next S₁ hall => simp [hall]
  · next S₁ e hall => simp [hall]

/-- A signature is found exactly if the occurrences fit each other. -/
theorem exists_ofClauses_iff {cs : List Clause} :
    (∃ S, ofClauses cs = .ok S) ↔ Compatible (cs.flatMap (·.symbolOccurrences)) := by
  simp only [ofClauses_eq_ok_iff]
  constructor
  · rintro ⟨S, hall⟩
    exact lists_empty.compatible_of_declareAll (by simp [Compatible]) hall
  · intro h
    obtain ⟨S, hall, -⟩ := lists_empty.exists_declareAll h
    exact ⟨S, hall⟩

theorem lists_ofClauses {cs : List Clause} (h : ofClauses cs = .ok S) :
    S.Lists (cs.flatMap (·.symbolOccurrences)) := by
  obtain ⟨S', hall, hS'⟩ := lists_empty.exists_declareAll (exists_ofClauses_iff.1 ⟨S, h⟩)
  obtain rfl := (Prod.mk.inj ((ofClauses_eq_ok_iff.1 h).symm.trans hall)).1
  exact hS'

end Signature

/-! ### The order of clauses, literals and arguments -/

/-- The arguments stand in another order, at any depth. -/
inductive Term.Reordered : Term → Term → Prop
  /-- Nothing has been moved. -/
  | refl (t) : Reordered t t
  /-- The arguments of the outermost symbol. -/
  | args (f) {ss ts} (h : ss.Perm ts) : Reordered (.app f ss) (.app f ts)
  /-- One argument is itself reordered. -/
  | inside (f before after) {s t} (h : Reordered s t) :
    Reordered (.app f (before ++ s :: after)) (.app f (before ++ t :: after))
  /-- One change after the other. -/
  | trans {s t u} (hst : Reordered s t) (htu : Reordered t u) : Reordered s u

/-- The members of two lists correspond to each other, in any order. -/
def UpToOrder {α : Type} (R : α → α → Prop) (as bs : List α) : Prop :=
  ∃ cs, List.Forall₂ R as cs ∧ cs.Perm bs

/-- The literals of the clause, and the arguments in them, stand in another order. -/
def Clause.Reordered (c d : Clause) : Prop :=
  UpToOrder (fun l m => l.negative = m.negative ∧ l.atom.Reordered m.atom) c.literals d.literals

theorem UpToOrder.flatMap {α β : Type} {R : α → α → Prop} {as bs : List α} (h : UpToOrder R as bs)
    {f : α → List β} (hf : ∀ a b, R a b → (f a).Perm (f b)) :
    (as.flatMap f).Perm (bs.flatMap f) := by
  obtain ⟨cs, hcs, hperm⟩ := h
  refine .trans ?_ (hperm.flatMap_right f)
  clear hperm
  induction hcs with
  | nil => exact .refl _
  | cons hab _ ih => exact (hf _ _ hab).append ih

/-- Reordering the arguments keeps the symbol and reorders the symbols of the arguments. -/
theorem Term.Reordered.symbols {s t : Term} (h : s.Reordered t) :
    s.symbol? = t.symbol? ∧ s.arity = t.arity ∧
      (s.args.flatMap (·.functionOccurrences)).Perm (t.args.flatMap (·.functionOccurrences)) ∧
      s.functionOccurrences.Perm t.functionOccurrences := by
  induction h with
  | refl t => exact ⟨rfl, rfl, .refl _, .refl _⟩
  | @args f ss ts h =>
    have hargs := h.flatMap_right (·.functionOccurrences)
    refine ⟨rfl, h.length_eq, hargs, ?_⟩
    simp only [functionOccurrences, functionOccurrencesList_eq_flatMap, h.length_eq]
    exact hargs.cons _
  | @inside f before after s t h ih =>
    have hargs : ((before ++ s :: after).flatMap (·.functionOccurrences)).Perm
        ((before ++ t :: after).flatMap (·.functionOccurrences)) := by
      simp only [List.flatMap_append, List.flatMap_cons]
      exact (ih.2.2.2.append_right _).append_left _
    refine ⟨rfl, by simp [arity, Term.args], hargs, ?_⟩
    simp only [functionOccurrences, functionOccurrencesList_eq_flatMap, List.length_append,
      List.length_cons]
    exact hargs.cons _
  | trans _ _ ih ih' =>
    exact ⟨ih.1.trans ih'.1, ih.2.1.trans ih'.2.1, ih.2.2.1.trans ih'.2.2.1,
      ih.2.2.2.trans ih'.2.2.2⟩

theorem Clause.Reordered.perm {c d : Clause} (h : c.Reordered d) :
    c.symbolOccurrences.Perm d.symbolOccurrences := by
  refine UpToOrder.flatMap h fun l m hlm => ?_
  obtain ⟨hsymbol, harity, hargs, -⟩ := hlm.2.symbols
  rw [Literal.symbolOccurrences, Literal.symbolOccurrences, Literal.predicate, Literal.predicate,
    Literal.arity, Literal.arity, hsymbol, harity]
  exact hargs.cons _

/-! ### Consistent clauses -/

/-- No name is that of symbols with two arities, or of a predicate and a function. -/
def Unambiguous (cs : List Clause) : Prop :=
  ∀ p q o o', symbolAt? cs p = some o → symbolAt? cs q = some o' → o.symbol = o'.symbol →
    o.arity = o'.arity ∧ o.kind = o'.kind

theorem compatible_iff_unambiguous {cs : List Clause} :
    Compatible (symbolsIn cs) ↔ Unambiguous cs := by
  have hmem : ∀ o, o ∈ symbolsIn cs ↔ ∃ p, symbolAt? cs p = some o :=
    fun o => (enumerates_symbolsIn cs).mem_iff
  constructor
  · intro h p q o o' hp hq hsymbol
    obtain rfl := h o ((hmem o).2 ⟨p, hp⟩) o' ((hmem o').2 ⟨q, hq⟩) hsymbol
    exact ⟨rfl, rfl⟩
  · intro h o ho o' ho' hsymbol
    obtain ⟨p, hp⟩ := (hmem o).1 ho
    obtain ⟨q, hq⟩ := (hmem o').1 ho'
    obtain ⟨harity, hkind⟩ := h p q o o' hp hq hsymbol
    cases o
    cases o'
    simp_all

/-- **A signature is found exactly for unambiguous clauses**, and lists their symbols in order of
first occurrence, if no atom is a variable.  The order of clauses, literals and arguments does not
matter for being found.  A variable that is an atom counts as a predicate with the empty name. -/
theorem signature_exactly_if_unambiguous (cs : List Clause) :
    (HaveCompoundAtoms cs →
      ((∃ S, Signature.ofClauses cs = .ok S) ↔ Unambiguous cs) ∧
      ∀ S, Signature.ofClauses cs = .ok S →
        ∀ kind, ListsSymbols (symbolAt? cs) kind (S.symbols kind)) ∧
    (∀ cs', UpToOrder Clause.Reordered cs cs' →
      ((∃ S, Signature.ofClauses cs = .ok S) ↔ ∃ S, Signature.ofClauses cs' = .ok S)) ∧
    HaveCompoundAtoms (cs.map (·.withPredicates)) ∧
    Signature.ofClauses (cs.map (·.withPredicates)) = Signature.ofClauses cs := by
  refine ⟨fun hcompound => ⟨?_, fun S hS kind => ?_⟩, fun cs' hreordered => ?_,
    haveCompoundAtoms_withPredicates cs, ?_⟩
  · rw [Signature.exists_ofClauses_iff, ← hcompound.symbolsIn_eq, compatible_iff_unambiguous]
  · rw [Signature.lists_ofClauses hS kind, ← hcompound.symbolsIn_eq]
    exact (enumerates_symbolsIn cs).listsSymbols kind
  · have hperm := hreordered.flatMap fun c d hcd => hcd.perm
    rw [Signature.exists_ofClauses_iff, Signature.exists_ofClauses_iff]
    simp only [Compatible, hperm.mem_iff]
  · simp only [Signature.ofClauses, List.flatMap_map, Clause.symbolOccurrences_withPredicates]

/-- The clause `p(f(name), X) | ~q`. -/
def deepSymbol (name : String) : Clause :=
  .of [.pos (.app "p" [.app "f" [.app name []], .var "X"]), .neg (.app "q" [])]

/-- The signature of `p(f(a), X) | ~q`, which is also found for `~q | p(X, f(a))`; there is none of
`p(f(q), X) | ~q`. -/
theorem signature_exactly_if_unambiguous_deepSymbol :
    let swapped : Clause :=
      .of [.neg (.app "q" []), .pos (.app "p" [.var "X", .app "f" [.app "a" []]])]
    HaveCompoundAtoms [deepSymbol "a"] ∧ HaveCompoundAtoms [deepSymbol "q"] ∧
    Signature.ofClauses [deepSymbol "a"] = .ok ⟨[("f", 1), ("a", 0)], [("p", 2), ("q", 0)]⟩ ∧
    ListsSymbols (symbolAt? [deepSymbol "a"]) .function [("f", 1), ("a", 0)] ∧
    UpToOrder Clause.Reordered [deepSymbol "a"] [swapped] ∧
    (∃ S, Signature.ofClauses [swapped] = .ok S) ∧
    symbolAt? [deepSymbol "q"] [0, 0, 0, 0] = some ⟨.function, "q", 0⟩ ∧
    symbolAt? [deepSymbol "q"] [0, 1] = some ⟨.predicate, "q", 0⟩ ∧
    ¬∃ S, Signature.ofClauses [deepSymbol "q"] = .ok S := by
  intro swapped
  have hcompound : ∀ name, HaveCompoundAtoms [deepSymbol name] := by
    intro name c hc l hl
    obtain rfl := List.mem_singleton.1 hc
    rcases List.mem_pair.1 hl with rfl | rfl <;> exact ⟨_, _, rfl⟩
  have hS : Signature.ofClauses [deepSymbol "a"] =
      .ok ⟨[("f", 1), ("a", 0)], [("p", 2), ("q", 0)]⟩ := by
    decide
  have hclause : (deepSymbol "a").Reordered swapped :=
    ⟨[.pos (.app "p" [.var "X", .app "f" [.app "a" []]]), .neg (.app "q" [])],
      .cons ⟨rfl, .args "p" (.swap _ _ _)⟩ (.cons ⟨rfl, .refl _⟩ .nil), .swap _ _ _⟩
  have hreordered : UpToOrder Clause.Reordered [deepSymbol "a"] [swapped] :=
    ⟨[swapped], .cons hclause .nil, .refl _⟩
  obtain ⟨hexact, horder, -⟩ := signature_exactly_if_unambiguous [deepSymbol "a"]
  obtain ⟨hiff, -⟩ := (signature_exactly_if_unambiguous [deepSymbol "q"]).1 (hcompound "q")
  refine ⟨hcompound "a", hcompound "q", hS, (hexact (hcompound "a")).2 _ hS .function, hreordered,
    (horder [swapped] hreordered).1 ⟨_, hS⟩, rfl, rfl, ?_⟩
  rw [hiff]
  intro h
  exact absurd (h [0, 0, 0, 0] [0, 1] _ _ rfl rfl rfl).2 (by decide)

/-- **A variable that is an atom is entered as a predicate.**  No signature is found for `X |
p('')`, though no name is used in two ways there, and the one of `X` lists a predicate, though no
symbol occurs. -/
theorem variable_atom_entered :
    (¬∀ cs, Unambiguous cs → ∃ S, Signature.ofClauses cs = .ok S) ∧
    ¬∀ cs S, Signature.ofClauses cs = .ok S →
      ∀ kind, ListsSymbols (symbolAt? cs) kind (S.symbols kind) := by
  constructor
  · intro h
    obtain ⟨S, hS⟩ := h [.of [.pos (.var "X"), .pos (.app "p" [.app "" []])]]
      (compatible_iff_unambiguous.1 (by decide))
    cases hS
  · intro h
    have hlists := h [.of [.pos (.var "X")]] ⟨[], [("", 0)]⟩ (by decide) .predicate
    obtain ⟨p, hp⟩ := (hlists.mem_iff "" 0).1 List.mem_cons_self
    have hsymbol := (enumerates_symbolsIn _).mem_iff.2 ⟨p, hp⟩
    exact absurd hsymbol List.not_mem_nil

end Refutation
