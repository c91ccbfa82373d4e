import Refutation.Proofs.Equivariance
import Refutation.Store.Indexed
import Refutation.Store.Ranked
import Refutation.Store.Redundancy
import Mathlib.Data.List.Forall2

/-!
# Stores of variants

Two stores of one kind are similar if they hold variants of the same clauses in the same places.
Similar stores give similar answers: no store looks at the names of variables when it files, ranks
or finds a clause.

* `VariantStore`, `VariantQueue` : a kind of store with its similarity, which all operations keep.
* Instances for plain stores, indexed stores and ranked stores.
* `isSubsumedBy_eq_of_similar`, `similar_removeSubsumed` : subsumption against similar stores.
-/

namespace Refutation

/-- Variants of one clause, with the same position. -/
def Entry.SamePlace (p q : Entry × Nat) : Prop := p.1.Variant q.1 ∧ p.2 = q.2

/-- A kind of store whose operations do not depend on the names of variables. -/
class VariantStore (σ : Type) [ClauseStore σ] where
  /-- The two stores hold variants of the same clauses in the same places. -/
  Similar : σ → σ → Prop
  /-- Members are variants. -/
  toList {s t : σ} : Similar s t →
    List.Forall₂ Entry.Variant (ClauseStore.toList s) (ClauseStore.toList t)
  /-- Variants are added in the same place. -/
  insert {s t : σ} {e e' : Entry} : Similar s t → e.Variant e' →
    Similar (ClauseStore.insert s e) (ClauseStore.insert t e')
  /-- Variants are taken out under one number. -/
  extract? {s t : σ} (n : Nat) : Similar s t →
    Option.Rel (fun p q => p.1.Variant q.1 ∧ Similar p.2 q.2) (ClauseStore.extract? s n)
      (ClauseStore.extract? t n)
  /-- A literal has variants as partners, in the same places. -/
  partners {s t : σ} (l : Literal) (ρ : String → String) : Similar s t →
    List.Forall₂ Entry.SamePlace (ClauseStore.partners s l) (ClauseStore.partners t (l.rename ρ))
  /-- Variants may be subsumed by variants. -/
  subsuming {s t : σ} {c c' : Clause} : Similar s t → c.Variant c' →
    List.Forall₂ Entry.Variant (ClauseStore.subsuming s c) (ClauseStore.subsuming t c')
  /-- Variants may subsume variants. -/
  subsumed {s t : σ} {c c' : Clause} : Similar s t → c.Variant c' →
    List.Forall₂ Entry.Variant (ClauseStore.subsumed s c) (ClauseStore.subsumed t c')

/-- A kind of queue whose choice does not depend on the names of variables. -/
class VariantQueue (σ : Type) [ClauseQueue σ] extends VariantStore σ where
  /-- Variants are taken out next. -/
  next? {s t : σ} : Similar s t →
    Option.Rel (fun p q => p.1.Variant q.1 ∧ Similar p.2 q.2) (ClauseQueue.next? s)
      (ClauseQueue.next? t)

/-! ### Lists of related elements -/

section Lists

variable {α β : Type} {R : α → β → Prop} {as : List α} {bs : List β} {p : α → Bool} {q : β → Bool}

theorem any_eq_of_forall₂ (h : List.Forall₂ R as bs) (hpq : ∀ a b, R a b → p a = q b) :
    as.any p = bs.any q := by
  induction h with
  | nil => rfl
  | cons hab _ ih => rw [List.any_cons, List.any_cons, hpq _ _ hab, ih]

theorem isEmpty_eq_of_forall₂ (h : List.Forall₂ R as bs) : as.isEmpty = bs.isEmpty := by
  cases h <;> rfl

theorem rel_find?_of_forall₂ (h : List.Forall₂ R as bs) (hpq : ∀ a b, R a b → p a = q b) :
    Option.Rel R (as.find? p) (bs.find? q) := by
  induction h with
  | nil => exact .none
  | @cons a b _ _ hab _ ih =>
    rw [List.find?_cons, List.find?_cons, hpq a b hab]
    split
    · exact .some hab
    · exact ih

theorem forall₂_filter (h : List.Forall₂ R as bs) (hpq : ∀ a b, R a b → p a = q b) :
    List.Forall₂ R (as.filter p) (bs.filter q) :=
  List.rel_filter (fun a b hab => iff_of_eq (congrArg (· = true) (hpq a b hab))) h

theorem forall₂_concat {a : α} {b : β} (h : List.Forall₂ R as bs) (hab : R a b) :
    List.Forall₂ R (as ++ [a]) (bs ++ [b]) :=
  List.rel_append h (.cons hab .nil)

theorem rel_map_of_rel {γ δ : Type} {Q : γ → δ → Prop} {o : Option α} {o' : Option β} {f : α → γ}
    {g : β → δ} (h : Option.Rel R o o') (hfg : ∀ a b, R a b → Q (f a) (g b)) :
    Option.Rel Q (o.map f) (o'.map g) := by
  cases h with
  | none => exact .none
  | some hab => exact .some (hfg _ _ hab)

end Lists

theorem forall₂_partnersIn {es es' : List Entry} (h : List.Forall₂ Entry.Variant es es')
    (l : Literal) (ρ : String → String) :
    List.Forall₂ Entry.SamePlace (partnersIn es l) (partnersIn es' (l.rename ρ)) := by
  refine List.rel_flatMap h fun e e' he => ?_
  obtain ⟨ρ', -, hclause⟩ := he.clause
  have hpartner : (fun p : Literal × Nat => p.1.isPartner (l.rename ρ)) ∘
      (fun p : Literal × Nat => (p.1.rename ρ', p.2)) = fun p => p.1.isPartner l := by
    funext p
    simp [Literal.isPartner]
  rw [hclause, Clause.zipIdx_literals_rename, List.filter_map, hpartner, List.map_map,
    List.forall₂_map_left_iff, List.forall₂_map_right_iff, List.forall₂_same]
  exact fun p _ => ⟨he, rfl⟩

/-! ### Plain stores -/

theorem rel_extractFrom? (n : Nat) {es es' : List Entry} (h : List.Forall₂ Entry.Variant es es') :
    Option.Rel (fun p q => p.1.Variant q.1 ∧ List.Forall₂ Entry.Variant p.2 q.2) (extractFrom? n es)
      (extractFrom? n es') := by
  induction h with
  | nil => exact .none
  | @cons e e' es es' he hes ih =>
    rw [extractFrom?, extractFrom?, he.number]
    split
    · exact .some ⟨he, hes⟩
    · exact rel_map_of_rel ih fun p q h => ⟨h.1, .cons he h.2⟩

/-- The members are variants, one by one. -/
def PlainStore.Similar (s t : PlainStore) : Prop := List.Forall₂ Entry.Variant s.members t.members

namespace PlainStore.Similar

variable {s t : PlainStore}

theorem extract? (h : s.Similar t) (n : Nat) :
    Option.Rel (fun p q => p.1.Variant q.1 ∧ Similar p.2 q.2) (s.extract? n) (t.extract? n) :=
  rel_map_of_rel (rel_extractFrom? n h) fun _ _ h => h

theorem extractFirst? (h : s.Similar t) :
    Option.Rel (fun p q => p.1.Variant q.1 ∧ Similar p.2 q.2) s.extractFirst? t.extractFirst? := by
  obtain ⟨es⟩ := s
  obtain ⟨es'⟩ := t
  cases h with
  | nil => exact .none
  | cons he hes => exact .some ⟨he, hes⟩

end PlainStore.Similar

instance : VariantQueue PlainStore where
  Similar := PlainStore.Similar
  toList h := h
  insert h he := forall₂_concat h he
  extract? n h := h.extract? n
  partners l ρ h := forall₂_partnersIn h l ρ
  subsuming h _ := h
  subsumed h _ := h
  next? h := h.extractFirst?

/-! ### Maps of related values -/

namespace OrderedMap

variable {κ β γ : Type} [Ord κ] {R : β → γ → Prop} {m : OrderedMap κ β} {m' : OrderedMap κ γ}

/-- The maps store related values under the same keys. -/
def Rel (R : β → γ → Prop) (m : OrderedMap κ β) (m' : OrderedMap κ γ) : Prop :=
  List.Forall₂ (fun p q => p.1 = q.1 ∧ R p.2 q.2) m.entries m'.entries

theorem rel_find? {l : List (κ × β)} {l' : List (κ × γ)}
    (h : List.Forall₂ (fun p q => p.1 = q.1 ∧ R p.2 q.2) l l') (k : κ) :
    Option.Rel R (find? k l) (find? k l') := by
  induction h with
  | nil => exact .none
  | @cons p q _ _ hpq _ ih =>
    rw [find?, find?, hpq.1]
    split
    · exact .some hpq.2
    · exact ih

theorem Rel.get? (h : m.Rel R m') (k : κ) : Option.Rel R (m.get? k) (m'.get? k) := rel_find? h k

theorem forall₂_alterList {l : List (κ × β)} {l' : List (κ × γ)}
    (h : List.Forall₂ (fun p q => p.1 = q.1 ∧ R p.2 q.2) l l') (k : κ) {f : Option β → Option β}
    {g : Option γ → Option γ} (hfg : ∀ o o', Option.Rel R o o' → Option.Rel R (f o) (g o')) :
    List.Forall₂ (fun p q => p.1 = q.1 ∧ R p.2 q.2) (alterList k f l) (alterList k g l') := by
  have hput : ∀ o o', Option.Rel R o o' → List.Forall₂ (fun p q => p.1 = q.1 ∧ R p.2 q.2)
      ((f o).toList.map (k, ·)) ((g o').toList.map (k, ·)) := by
    intro o o' ho
    have hput := hfg o o' ho
    generalize f o = b at hput
    generalize g o' = b' at hput
    cases hput with
    | none => exact .nil
    | some hb => exact .cons ⟨rfl, hb⟩ .nil
  induction h with
  | nil => exact hput _ _ .none
  | @cons p q rest rest' hpq hrest ih =>
    simp only [alterList, hpq.1]
    split
    · exact List.rel_append (hput _ _ .none) (.cons ⟨rfl, hpq.2⟩ hrest)
    · exact List.rel_append (hput _ _ (.some hpq.2)) hrest
    · exact .cons ⟨rfl, hpq.2⟩ ih

theorem Rel.alter [Std.TransOrd κ] [Std.LawfulEqOrd κ] (h : m.Rel R m') (k : κ)
    {f : Option β → Option β} {g : Option γ → Option γ}
    (hfg : ∀ o o', Option.Rel R o o' → Option.Rel R (f o) (g o')) :
    (m.alter k f).Rel R (m'.alter k g) :=
  forall₂_alterList h k hfg

end OrderedMap

theorem forall₂_getD_nil {α β : Type} {R : α → β → Prop} {o : Option (List α)}
    {o' : Option (List β)} (h : Option.Rel (List.Forall₂ R) o o') :
    List.Forall₂ R (o.getD []) (o'.getD []) := by
  cases h with
  | none => exact .nil
  | some h => exact h

/-! ### Indexes -/

/-- Literals of variants are filed in the same places. -/
def ResolutionIndex.Similar (x y : ResolutionIndex) : Prop :=
  x.slots.Rel (List.Forall₂ Entry.SamePlace) y.slots

namespace ResolutionIndex.Similar

variable {x y : ResolutionIndex} {e e' : Entry}

theorem isAt_eq (n i : Nat) (p q : Entry × Nat) (h : Entry.SamePlace p q) :
    isAt n i p = isAt n i q := by
  rw [isAt, isAt, h.1.number, h.2]

theorem file (h : x.Similar y) (he : e.Variant e') (l : Literal) (ρ : String → String) (i : Nat) :
    (x.file e l i).Similar (y.file e' (l.rename ρ) i) := by
  rw [ResolutionIndex.file, ResolutionIndex.file, Literal.signedPredicate_rename, he.number]
  refine h.alter _ fun o o' ho => .some ?_
  have hfiled := forall₂_getD_nil ho
  rw [any_eq_of_forall₂ hfiled (isAt_eq e'.number i)]
  split
  · exact hfiled
  · exact forall₂_concat hfiled ⟨he, rfl⟩

theorem unfile (h : x.Similar y) (he : e.Variant e') (l : Literal) (ρ : String → String) (i : Nat) :
    (x.unfile e l i).Similar (y.unfile e' (l.rename ρ) i) := by
  rw [ResolutionIndex.unfile, ResolutionIndex.unfile, Literal.signedPredicate_rename, he.number]
  refine h.alter _ fun o o' ho => ?_
  have hleft := forall₂_filter (forall₂_getD_nil ho) fun p q hpq =>
    congrArg (!·) (isAt_eq e'.number i p q hpq)
  generalize (o.getD []).filter (fun p => !isAt e'.number i p) = left at hleft
  generalize (o'.getD []).filter (fun p => !isAt e'.number i p) = left' at hleft
  cases hleft with
  | nil => exact .none
  | cons hp hps => exact .some (.cons hp hps)

theorem foldl (h : x.Similar y) (he : e.Variant e')
    {f : Entry → ResolutionIndex → Literal → Nat → ResolutionIndex}
    (hf : ∀ {x y}, x.Similar y → ∀ l ρ i, (f e x l i).Similar (f e' y (Literal.rename ρ l) i)) :
    (e.clause.literals.zipIdx.foldl (fun x p => f e x p.1 p.2) x).Similar
      (e'.clause.literals.zipIdx.foldl (fun y p => f e' y p.1 p.2) y) := by
  obtain ⟨ρ, -, hclause⟩ := he.clause
  rw [hclause, Clause.zipIdx_literals_rename, List.foldl_map]
  generalize e.clause.literals.zipIdx = ps
  induction ps generalizing x y with
  | nil => exact h
  | cons p ps ih => exact ih (hf h p.1 ρ p.2)

theorem insert (h : x.Similar y) (he : e.Variant e') : (x.insert e).Similar (y.insert e') :=
  h.foldl he (f := fun e x l i => x.file e l i) fun h l ρ i => h.file he l ρ i

theorem erase (h : x.Similar y) (he : e.Variant e') : (x.erase e).Similar (y.erase e') :=
  h.foldl he (f := fun e x l i => x.unfile e l i) fun h l ρ i => h.unfile he l ρ i

theorem partners (h : x.Similar y) (l : Literal) (ρ : String → String) :
    List.Forall₂ Entry.SamePlace (x.partners l) (y.partners (l.rename ρ)) := by
  rw [ResolutionIndex.partners, ResolutionIndex.partners, Literal.predicate_rename]
  exact forall₂_getD_nil (h.get? _)

end ResolutionIndex.Similar

/-- Variants are filed in the same places. -/
def SubsumptionIndex.Similar (x y : SubsumptionIndex) : Prop :=
  x.slots.Rel (List.Forall₂ Entry.Variant) y.slots

theorem Clause.Variant.abstraction_eq {c c' : Clause} (h : c.Variant c') :
    c.abstraction = c'.abstraction := by
  obtain ⟨ρ, -, rfl⟩ := h
  exact (c.abstraction_rename ρ).symm

namespace SubsumptionIndex.Similar

variable {x y : SubsumptionIndex} {e e' : Entry} {c c' : Clause}

theorem insert (h : x.Similar y) (he : e.Variant e') : (x.insert e).Similar (y.insert e') := by
  rw [SubsumptionIndex.insert, SubsumptionIndex.insert, he.clause.abstraction_eq, he.number]
  refine h.alter _ fun o o' ho => .some ?_
  have hfiled := forall₂_getD_nil ho
  rw [any_eq_of_forall₂ hfiled fun d d' hd => by rw [hd.number]]
  split
  · exact hfiled
  · exact forall₂_concat hfiled he

theorem erase (h : x.Similar y) (he : e.Variant e') : (x.erase e).Similar (y.erase e') := by
  rw [SubsumptionIndex.erase, SubsumptionIndex.erase, he.clause.abstraction_eq, he.number]
  refine h.alter _ fun o o' ho => ?_
  have hleft := forall₂_filter (p := fun d : Entry => decide (d.number ≠ e'.number))
    (q := fun d : Entry => decide (d.number ≠ e'.number)) (forall₂_getD_nil ho) fun d d' hd => by
      rw [hd.number]
  generalize (o.getD []).filter (fun d => decide (d.number ≠ e'.number)) = left at hleft
  generalize (o'.getD []).filter (fun d => decide (d.number ≠ e'.number)) = left' at hleft
  cases hleft with
  | nil => exact .none
  | cons hd hds => exact .some (.cons hd hds)

theorem collect (h : x.Similar y) (accept : Abstraction → Bool) :
    List.Forall₂ Entry.Variant (x.collect accept) (y.collect accept) :=
  List.rel_flatMap (forall₂_filter h fun p q hpq => by rw [hpq.1]) fun _ _ hpq => hpq.2

theorem subsuming (h : x.Similar y) (hc : c.Variant c') :
    List.Forall₂ Entry.Variant (x.subsuming c) (y.subsuming c') := by
  rw [SubsumptionIndex.subsuming, SubsumptionIndex.subsuming, hc.abstraction_eq]
  exact h.collect _

theorem subsumed (h : x.Similar y) (hc : c.Variant c') :
    List.Forall₂ Entry.Variant (x.subsumed c) (y.subsumed c') := by
  rw [SubsumptionIndex.subsumed, SubsumptionIndex.subsumed, hc.abstraction_eq]
  exact h.collect _

end SubsumptionIndex.Similar

/-! ### Indexed stores -/

/-- The members and both indexes are similar. -/
structure IndexedStore.Similar (s t : IndexedStore) : Prop where
  plain : s.plain.Similar t.plain
  resolution : s.resolution.Similar t.resolution
  subsumption : s.subsumption.Similar t.subsumption

instance : VariantStore IndexedStore where
  Similar := IndexedStore.Similar
  toList h := h.plain
  insert h he := ⟨forall₂_concat h.plain he, h.resolution.insert he, h.subsumption.insert he⟩
  extract? n h := rel_map_of_rel (h.plain.extract? n) fun _ _ hpq =>
    ⟨hpq.1, hpq.2, h.resolution.erase hpq.1, h.subsumption.erase hpq.1⟩
  partners l ρ h := h.resolution.partners l ρ
  subsuming h hc := h.subsumption.subsuming hc
  subsumed h hc := h.subsumption.subsumed hc

/-! ### Ranked stores -/

/-- The tickets of variants are the same. -/
structure Ticket.Similar (t u : Ticket) : Prop where
  entry : t.entry.Variant u.entry
  arrival : t.arrival = u.arrival
  scores : t.scores = u.scores

/-- Variants wait in the same places. -/
structure RankedStore.Similar (s t : RankedStore) : Prop where
  schedule : s.schedule = t.schedule
  tickets : List.Forall₂ Ticket.Similar s.tickets t.tickets
  queues : s.queues = t.queues
  register : s.register = t.register
  arrivals : s.arrivals = t.arrivals

theorem Schedule.evaluate_eq_of_variant (s : Schedule) {c c' : Clause} (h : c.Variant c') :
    s.evaluate c = s.evaluate c' := by
  obtain ⟨ρ, -, rfl⟩ := h
  have hscore : ∀ e : Evaluation, e.score (c.rename ρ) = e.score c := by
    intro e
    cases e <;> simp [Evaluation.score]
  simp [evaluate, hscore]

namespace RankedStore.Similar

variable {s t : RankedStore} {e e' : Entry}

theorem toList (h : s.Similar t) : List.Forall₂ Entry.Variant s.toList t.toList :=
  List.rel_map (fun _ _ h => h.entry) h.tickets

theorem insert (h : s.Similar t) (he : e.Variant e') : (s.insert e).Similar (t.insert e') := by
  rw [RankedStore.insert, RankedStore.insert, h.schedule, h.queues, h.register,
    h.arrivals, he.number, Schedule.evaluate_eq_of_variant _ he.clause]
  split
  · exact h
  · exact ⟨rfl, forall₂_concat h.tickets ⟨he, rfl, rfl⟩, rfl, rfl, rfl⟩

theorem remove (h : s.Similar t) {u u' : Ticket} (hu : u.Similar u') :
    (s.remove u).Similar (t.remove u') := by
  rw [RankedStore.remove, RankedStore.remove, h.queues, h.register, hu.arrival, hu.scores,
    hu.entry.number]
  exact ⟨h.schedule, forall₂_filter h.tickets fun v v' hv => by rw [hv.arrival], rfl,
    rfl, h.arrivals⟩

theorem extractAt? (h : s.Similar t) (a : Nat) :
    Option.Rel (fun p q => p.1.Variant q.1 ∧ Similar p.2 q.2)
      (s.extractAt? a) (t.extractAt? a) := by
  have hticket : Option.Rel Ticket.Similar (s.ticket? a) (t.ticket? a) :=
    rel_find?_of_forall₂ h.tickets fun u u' hu => by rw [hu.arrival]
  exact rel_map_of_rel hticket fun _ _ hu => ⟨hu.entry, h.remove hu⟩

theorem extract? (h : s.Similar t) (n : Nat) :
    Option.Rel (fun p q => p.1.Variant q.1 ∧ Similar p.2 q.2) (s.extract? n) (t.extract? n) := by
  rw [RankedStore.extract?, RankedStore.extract?, h.register]
  cases t.register.get? n with
  | none => exact .none
  | some a => exact h.extractAt? a

theorem extractBestBy? (h : s.Similar t) (i : Nat) :
    Option.Rel (fun p q => p.1.Variant q.1 ∧ Similar p.2 q.2) (s.extractBestBy? i)
      (t.extractBestBy? i) := by
  rw [RankedStore.extractBestBy?, RankedStore.extractBestBy?, h.queues]
  cases t.queues[i]? with
  | none => exact .none
  | some q =>
    cases hfirst : q.first? with
    | none => simp [hfirst]
    | some rank =>
      simp only [Option.bind_eq_bind, Option.bind_some, hfirst]
      exact h.extractAt? _

theorem extractBest? (h : s.Similar t) :
    Option.Rel (fun p q => p.1.Variant q.1 ∧ Similar p.2 q.2) s.extractBest? t.extractBest? := by
  rw [RankedStore.extractBest?, RankedStore.extractBest?, isEmpty_eq_of_forall₂ h.tickets,
    h.schedule]
  split
  · exact .none
  · have hturn : Similar { s with schedule := t.schedule.next.2 }
        { t with schedule := t.schedule.next.2 } :=
      ⟨rfl, h.tickets, h.queues, h.register, h.arrivals⟩
    exact hturn.extractBestBy? _

end RankedStore.Similar

instance : VariantQueue RankedStore where
  Similar := RankedStore.Similar
  toList h := h.toList
  insert h he := h.insert he
  extract? n h := h.extract? n
  partners l ρ h := forall₂_partnersIn h.toList l ρ
  subsuming h _ := h.toList
  subsumed h _ := h.toList
  next? h := h.extractBest?

theorem PlainStore.similar_empty : VariantStore.Similar PlainStore.empty PlainStore.empty :=
  List.Forall₂.nil

theorem IndexedStore.similar_empty : VariantStore.Similar IndexedStore.empty IndexedStore.empty :=
  IndexedStore.Similar.mk .nil .nil .nil

theorem RankedStore.similar_empty (schedule : Schedule) :
    VariantStore.Similar (RankedStore.empty schedule) (RankedStore.empty schedule) :=
  RankedStore.Similar.mk rfl .nil rfl rfl rfl

/-! ### Subsumption -/

section Subsumption

variable {σ : Type} [ClauseStore σ] [VariantStore σ] {s t : σ}

open VariantStore

theorem isSubsumedBy_eq_of_similar (h : Similar s t) {c c' : Clause} (hc : c.Variant c') :
    isSubsumedBy c s = isSubsumedBy c' t :=
  any_eq_of_forall₂ (subsuming h hc) fun _ _ hd => hd.clause.subsumes_eq hc

theorem similar_removeSubsumedAmong {e e' : Entry} (he : e.Variant e') {ds ds' : List Entry}
    (hds : List.Forall₂ Entry.Variant ds ds') (h : Similar s t) :
    List.Forall₂ Entry.Variant (removeSubsumedAmong e ds s).1 (removeSubsumedAmong e' ds' t).1 ∧
      Similar (removeSubsumedAmong e ds s).2 (removeSubsumedAmong e' ds' t).2 := by
  induction hds generalizing s t with
  | nil => exact ⟨.nil, h⟩
  | @cons d d' ds ds' hd _ ih =>
    have hcondition : (decide (d.number ≠ e.number) && e.clause.subsumes d.clause) =
        (decide (d'.number ≠ e'.number) && e'.clause.subsumes d'.clause) := by
      rw [hd.number, he.number, he.clause.subsumes_eq hd.clause]
    have hextract := extract? d'.number h
    rw [removeSubsumedAmong, removeSubsumedAmong, hcondition, hd.number]
    split
    · generalize ClauseStore.extract? s d'.number = o at hextract
      generalize ClauseStore.extract? t d'.number = o' at hextract
      cases hextract with
      | none => exact ih h
      | some hpq =>
        obtain ⟨hremoved, hleft⟩ := ih hpq.2
        exact ⟨.cons hpq.1 hremoved, hleft⟩
    · exact ih h

/-- **Variants are removed from similar stores.** -/
theorem similar_removeSubsumed {e e' : Entry} (he : e.Variant e') (h : Similar s t) :
    List.Forall₂ Entry.Variant (removeSubsumed e s).1 (removeSubsumed e' t).1 ∧
      Similar (removeSubsumed e s).2 (removeSubsumed e' t).2 :=
  similar_removeSubsumedAmong he (subsumed h he.clause) h

end Subsumption

end Refutation
