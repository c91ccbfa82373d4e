import Refutation.Proofs.Search.Completeness
import Refutation.Proofs.Search.Termination

/-!
# A ground search that does not end

Backward subsumption comes before forward subsumption.  So a given clause with the literals of a
processed one is not dropped: it removes the old clause, takes its place and is resolved with all
others again.  From the clauses of `circle` this goes on for ever.

All clauses of that search are implications: from `p` or `q`, or from outside (from `¬ r`), to `p`
or `q`.  Resolution joins two of them.  Whatever is given, an implication from outside is inferred
again.

* `Search.preserves_implications` : there are no other clauses.
* `Search.Implication.subsumes_iff` : they subsume only their equals.
* `Search.Circling.advance` : every step leaves an implication to process.
* `Search.circle_never_ends` : **the search does not end**, whichever clauses are given.
* `Search.ground_search_terminates_iff` : so all ground searches end exactly without backward
  subsumption.
-/

namespace Refutation

namespace Search

/-- Two implications that go round in a circle, and a disjunction that leads into it. -/
def circle : List Clause :=
  [⟨"entry", .axiomatic, [.pos (.app "p" []), .pos (.app "r" [])], none⟩,
    ⟨"forth", .axiomatic, [.neg (.app "p" []), .pos (.app "q" [])], none⟩,
    ⟨"back", .axiomatic, [.neg (.app "q" []), .pos (.app "p" [])], none⟩]

/-! ### Implications -/

/-- The places on the circle. -/
inductive Place where
  | p
  | q
deriving DecidableEq

namespace Place

/-- The atom of a place. -/
def atom : Place → Term
  | p => .app "p" []
  | q => .app "q" []

/-- The other place. -/
def other : Place → Place
  | p => q
  | q => p

end Place

/-- An implication to a place, from a place or from outside. -/
structure Implication where
  /-- Where it comes from. -/
  source : Option Place
  /-- Where it leads. -/
  target : Place
deriving DecidableEq

namespace Implication

variable {d d' : Implication} {as : List SignedAtom}

/-- The literal that the target gives. -/
def targetLiteral (d : Implication) : SignedAtom := ⟨false, d.target.atom⟩

/-- The literal that the source gives. -/
def sourceLiteral (d : Implication) : SignedAtom :=
  match d.source with
  | none => ⟨false, .app "r" []⟩
  | some x => ⟨true, x.atom⟩

/-- These are the literals of the implication. -/
def Fits (d : Implication) (as : List SignedAtom) : Prop :=
  as.Perm [d.targetLiteral, d.sourceLiteral]

theorem targetLiteral_ne_sourceLiteral (d : Implication) : d.targetLiteral ≠ d.sourceLiteral := by
  rcases d with ⟨_ | ⟨⟨⟩⟩, ⟨⟩⟩ <;> decide

theorem atom_sourceLiteral_ne (h : d.sourceLiteral.negative ≠ d'.sourceLiteral.negative) :
    d.sourceLiteral.atom ≠ d'.sourceLiteral.atom := by
  revert h
  rcases d with ⟨_ | ⟨⟨⟩⟩, ⟨⟩⟩ <;> rcases d' with ⟨_ | ⟨⟨⟩⟩, ⟨⟩⟩ <;> decide

theorem Fits.nodup (h : d.Fits as) : as.Nodup := by
  rw [h.nodup_iff]
  simp [d.targetLiteral_ne_sourceLiteral]

theorem Fits.isGround (h : d.Fits as) : ∀ a ∈ as, a.atom.isGround = true := by
  have hall : ∀ d : Implication, ∀ a ∈ [d.targetLiteral, d.sourceLiteral],
      a.atom.isGround = true := by
    rintro ⟨_ | ⟨⟨⟩⟩, ⟨⟩⟩ <;> decide
  exact fun a ha => hall d a (h.subset ha)

theorem Fits.eq (h : d.Fits as) (h' : d'.Fits as) : d = d' := by
  have hall : ∀ d d' : Implication, [d.targetLiteral, d.sourceLiteral].Perm
      [d'.targetLiteral, d'.sourceLiteral] → d = d' := by
    rintro ⟨_ | ⟨⟨⟩⟩, ⟨⟩⟩ ⟨_ | ⟨⟨⟩⟩, ⟨⟩⟩ <;> decide
  exact hall d d' (h.symm.trans h')

/-- **An implication subsumes only its equals.** -/
theorem subsumes_iff {c c' : Clause} (hc : d.Fits c.signedAtoms) (hc' : d'.Fits c'.signedAtoms) :
    c.subsumes c' = true ↔ d = d' := by
  rw [Clause.subsumes_iff_of_isGround (Clause.isGround_iff.2 hc.isGround)]
  constructor
  · intro hsub
    have hlength : c'.signedAtoms.length ≤ c.signedAtoms.length := by
      rw [hc.length_eq, hc'.length_eq]
      exact Nat.le_refl 2
    exact hc.eq ((hsub.perm_of_length_le hlength).trans hc')
  · rintro rfl
    exact (hc.trans hc'.symm).subperm

theorem Fits.eraseIdx (h : d.Fits as) {i : Nat} {a : SignedAtom} (ha : as[i]? = some a) :
    (a = d.targetLiteral ∧ as.eraseIdx i = [d.sourceLiteral]) ∨
      (a = d.sourceLiteral ∧ as.eraseIdx i = [d.targetLiteral]) := by
  have hperm := (perm_cons_eraseIdx ha).symm.trans h
  obtain ⟨hmem, hrest⟩ := List.cons_perm_iff_perm_erase.1 hperm
  have hne := d.targetLiteral_ne_sourceLiteral
  rcases List.mem_pair.1 hmem with rfl | rfl
  · rw [List.erase_cons_head, List.perm_singleton] at hrest
    exact .inl ⟨rfl, hrest⟩
  · rw [List.erase_cons_tail (by simpa using hne), List.erase_cons_head,
      List.perm_singleton] at hrest
    exact .inr ⟨rfl, hrest⟩

/-- The implication does not lead from a place to itself. -/
def IsProper (d : Implication) : Prop := d.source ≠ some d.target

theorem isProper_outside (x : Place) : IsProper ⟨none, x⟩ := nofun

theorem isProper_other (x : Place) : IsProper ⟨some x, x.other⟩ := by
  cases x <;> simp [IsProper, Place.other]

theorem isTautology_eq_false {c : Clause} (hc : d.Fits c.signedAtoms) (hd : d.IsProper) :
    c.isTautology = false := by
  have hpair : ∀ d : Implication, d.source ≠ some d.target →
      ∀ a ∈ [d.targetLiteral, d.sourceLiteral],
      a.atom.args = [] ∧ ∀ b ∈ [d.targetLiteral, d.sourceLiteral], a.atom = b.atom →
        a.negative = b.negative := by
    rintro ⟨_ | ⟨⟨⟩⟩, ⟨⟩⟩ <;> decide
  have hmem : ∀ l ∈ c.literals, l.toSignedAtom ∈ [d.targetLiteral, d.sourceLiteral] := fun l hl =>
    hc.subset (Clause.mem_signedAtoms.2 ⟨l, hl, rfl⟩)
  have hopposites : Clause.hasOpposites c.literals = false := by
    refine Bool.eq_false_iff.2 fun h => ?_
    obtain ⟨l, hl, m, hm, hsign, hatom⟩ := Clause.hasOpposites_iff.1 h
    exact hsign ((hpair d hd _ (hmem l hl)).2 _ (hmem m hm) hatom)
  have htrivial : c.literals.any (·.isTrivial) = false := by
    refine List.any_eq_false.2 fun l hl => ?_
    simp [Literal.isTrivial, (hpair d hd _ (hmem l hl)).1]
  rw [Clause.isTautology, hopposites, htrivial, Bool.or_self]

end Implication

theorem Policy.signedAtoms_tidy_perm (policy : Policy) {c : Clause} (hc : c.signedAtoms.Nodup) :
    (policy.tidy c).signedAtoms.Perm c.signedAtoms := by
  unfold Policy.tidy
  split_ifs
  · refine (List.perm_ext_iff_of_nodup c.nodup_signedAtoms_dedup hc).2 fun a => ?_
    exact Clause.mem_signedAtoms_dedup
  · exact .refl _

/-- **Inferences from implications give implications.** -/
theorem preserves_implications (policy : Policy) :
    policy.Preserves fun as => ∃ d : Implication, d.Fits as := by
  intro k r hr hpremises
  suffices h : ∃ d : Implication, d.Fits r.signedAtoms by
    obtain ⟨d, hd⟩ := h
    exact ⟨d, (policy.signedAtoms_tidy_perm hd.nodup).trans hd⟩
  cases k with
  | resolve c i e j fresh =>
    obtain ⟨d, hd⟩ := hpremises c (by simp [Call.premises])
    obtain ⟨d', hd'⟩ := hpremises e (by simp [Call.premises])
    obtain ⟨a, b, ha, hb, hsign, hatom, hatoms⟩ := Entry.signedAtoms_resolve_of_isGround
      (Clause.isGround_iff.2 hd.isGround) (Clause.isGround_iff.2 hd'.isGround) hr
    rw [hatoms]
    rcases hd.eraseIdx ha with ⟨rfl, hrest⟩ | ⟨rfl, hrest⟩ <;>
      rcases hd'.eraseIdx hb with ⟨rfl, hrest'⟩ | ⟨rfl, hrest'⟩ <;> rw [hrest, hrest']
    · exact absurd rfl hsign
    · exact ⟨⟨d.source, d'.target⟩, List.Perm.swap _ _ _⟩
    · exact ⟨⟨d'.source, d.target⟩, List.Perm.refl _⟩
    · exact absurd hatom (Implication.atom_sourceLiteral_ne hsign)
  | factor c i j =>
    obtain ⟨d, hd⟩ := hpremises c (by simp [Call.premises])
    obtain ⟨a, hi, hj, hij, -⟩ := Entry.signedAtoms_factor_of_isGround
      (Clause.isGround_iff.2 hd.isGround) hr
    have hlt := (List.getElem?_eq_some_iff.1 hi).1
    exact absurd ((List.getElem?_inj hlt hd.nodup).1 (hi.trans hj.symm)) hij

/-! ### Resolution with the given clause -/

variable {policy : Policy} {v w : Snapshot} {given m : Entry} {d d' : Implication} {x y : Place}

/-- The given clause is resolved with a processed one upon opposite literals that inferences may
use. -/
theorem exists_mem_givenCalls (hm : m ∈ v.kept policy given) {i j : Nat} {l l' : Literal}
    (hl : (v.select policy given).1.clause.literals[i]? = some l) (hli : l.eligible = true)
    (hl' : m.clause.literals[j]? = some l') (hlj : l'.eligible = true)
    (hsign : l.negative ≠ l'.negative) (hatom : l.atom = l'.atom)
    (hgiven : (v.select policy given).1.clause.isGround = true)
    (hmground : m.clause.isGround = true) :
    ∃ k ∈ v.givenCalls policy given, ∃ r, k.result? = some r ∧
      r.signedAtoms = (v.select policy given).1.clause.signedAtoms.eraseIdx i ++
        m.clause.signedAtoms.eraseIdx j := by
  have hpartner : l'.isPartner l = true :=
    Literal.isPartner_iff.2 ⟨hsign.symm, by rw [Literal.predicate, Literal.predicate, hatom]⟩
  have hpairing : ⟨i, m, j⟩ ∈ pairings (v.select policy given).1
      (PlainStore.mk (v.kept policy given)) :=
    mem_pairings.2 ⟨l, l', hl, hli, hm, hpartner, hl', hlj⟩
  obtain ⟨fresh, hcall⟩ := exists_mem_resolveCalls hpairing v.fresh
  obtain ⟨r, hr, hatoms⟩ :=
    Entry.exists_resolvent_of_isGround hgiven hmground hl hl' hsign hatom fresh
  exact ⟨_, List.mem_append_left _ hcall, r, hr, hatoms⟩

/-- Where a literal of an implication stands, and what is left without it. -/
theorem Implication.Fits.exists_getElem? {c : Clause} (hc : d.Fits c.signedAtoms) {l : Literal}
    (hl : l ∈ c.literals) :
    ∃ i, c.literals[i]? = some l ∧
      ((l.toSignedAtom = d.targetLiteral ∧ c.signedAtoms.eraseIdx i = [d.sourceLiteral]) ∨
        (l.toSignedAtom = d.sourceLiteral ∧ c.signedAtoms.eraseIdx i = [d.targetLiteral])) := by
  obtain ⟨i, hi⟩ := List.mem_iff_getElem?.1 hl
  refine ⟨i, hi, hc.eraseIdx ?_⟩
  rw [Clause.getElem?_signedAtoms, hi, Option.map_some]

theorem Implication.Fits.exists_target {c : Clause} (hc : Fits ⟨none, x⟩ c.signedAtoms)
    (husable : c.IsUsable) :
    ∃ i l, c.literals[i]? = some l ∧ l.eligible = true ∧ l.toSignedAtom = ⟨false, x.atom⟩ ∧
      c.signedAtoms.eraseIdx i = [⟨false, .app "r" []⟩] := by
  have hpositive : ∀ l ∈ c.literals, l.negative = false := by
    intro l hl
    rcases List.mem_pair.1 (hc.subset (Clause.mem_signedAtoms.2 ⟨l, hl, rfl⟩)) with h | h <;>
      exact congrArg SignedAtom.negative h
  obtain ⟨l, hl, hatom⟩ := Clause.mem_signedAtoms.1 (hc.symm.subset List.mem_cons_self)
  obtain ⟨i, hi, ⟨htarget, hrest⟩ | ⟨hsource, -⟩⟩ := hc.exists_getElem? hl
  · exact ⟨i, l, hi, husable.positive hpositive l hl, htarget, hrest⟩
  · exact absurd (hatom.symm.trans hsource) (targetLiteral_ne_sourceLiteral _)

theorem Implication.Fits.exists_source {c : Clause} (hc : Fits ⟨some x, y⟩ c.signedAtoms)
    (husable : c.IsUsable) :
    ∃ i l, c.literals[i]? = some l ∧ l.eligible = true ∧ l.toSignedAtom = ⟨true, x.atom⟩ ∧
      c.signedAtoms.eraseIdx i = [⟨false, y.atom⟩] := by
  have hexists : ∃ l ∈ c.literals, l.negative = true := by
    obtain ⟨l, hl, hatom⟩ := Clause.mem_signedAtoms.1
      (hc.symm.subset (List.mem_cons_of_mem _ List.mem_cons_self))
    exact ⟨l, hl, congrArg SignedAtom.negative hatom⟩
  obtain ⟨l, hl, hneg, hli⟩ := husable.negative hexists
  obtain ⟨i, hi, ⟨htarget, -⟩ | ⟨hsource, hrest⟩⟩ := hc.exists_getElem? hl
  · exact absurd (hneg.symm.trans (congrArg SignedAtom.negative htarget)) (by simp [targetLiteral])
  · exact ⟨i, l, hi, hli, hsource, hrest⟩

/-- One of the clauses is the implication. -/
def Shows (es : List Entry) (d : Implication) : Prop := ∃ e ∈ es, d.Fits e.clause.signedAtoms

theorem Shows.mono {es es' : List Entry} (h : Shows es d) (hsub : ∀ e ∈ es, e ∈ es') :
    Shows es' d :=
  h.imp fun e he => ⟨hsub e he.1, he.2⟩

theorem Shows.append {es es' : List Entry} : Shows (es ++ es') d ↔ Shows es d ∨ Shows es' d := by
  simp only [Shows, List.mem_append, or_and_right, exists_or]

/-- A conclusion that is an implication from outside is among the clauses that are taken in. -/
theorem Shows.of_takenIn {new : List Entry} {r : Clause}
    (hr : Implication.Fits ⟨none, x⟩ r.signedAtoms) (htaken : Snapshot.TakenIn policy new r) :
    Shows new ⟨none, x⟩ := by
  have htidy := (policy.signedAtoms_tidy_perm hr.nodup).trans hr
  rcases htaken with ⟨-, htautology⟩ | ⟨e, he, hliterals⟩
  · rw [Implication.isTautology_eq_false htidy (Implication.isProper_outside x)] at htautology
    exact absurd htautology (by simp)
  · refine ⟨e, he, ?_⟩
    rw [Clause.signedAtoms, hliterals]
    exact htidy

/-- **An implication from outside and one from its target are joined**, if one of them is given and
the other is kept. -/
theorem shows_joined {new : List Entry}
    (htaken : ∀ k ∈ v.givenCalls policy given, ∀ r, k.result? = some r →
      Snapshot.TakenIn policy new r)
    (hgiven : d.Fits (v.select policy given).1.clause.signedAtoms)
    (husable : (v.select policy given).1.clause.IsUsable) (hm : m ∈ v.kept policy given)
    (hmfits : d'.Fits m.clause.signedAtoms) (hmusable : m.clause.IsUsable)
    (hjoin : d = ⟨none, x⟩ ∧ d' = ⟨some x, y⟩ ∨ d = ⟨some x, y⟩ ∧ d' = ⟨none, x⟩) :
    Shows new ⟨none, y⟩ := by
  have hground := Clause.isGround_iff.2 hgiven.isGround
  have hmground := Clause.isGround_iff.2 hmfits.isGround
  rcases hjoin with ⟨rfl, rfl⟩ | ⟨rfl, rfl⟩
  · obtain ⟨i, l, hl, hli, hatom, hrest⟩ := hgiven.exists_target husable
    obtain ⟨j, l', hl', hlj, hatom', hrest'⟩ := hmfits.exists_source hmusable
    obtain ⟨k, hk, r, hr, hatoms⟩ :=
      exists_mem_givenCalls hm hl hli hl' hlj (by simp [hatom, hatom'])
      (by simp [hatom, hatom']) hground hmground
    rw [hrest, hrest'] at hatoms
    exact .of_takenIn (hatoms ▸ List.Perm.swap _ _ _) (htaken k hk r hr)
  · obtain ⟨i, l, hl, hli, hatom, hrest⟩ := hgiven.exists_source husable
    obtain ⟨j, l', hl', hlj, hatom', hrest'⟩ := hmfits.exists_target hmusable
    obtain ⟨k, hk, r, hr, hatoms⟩ :=
      exists_mem_givenCalls hm hl hli hl' hlj (by simp [hatom, hatom'])
      (by simp [hatom, hatom']) hground hmground
    rw [hrest, hrest'] at hatoms
    exact .of_takenIn (hatoms ▸ List.Perm.refl _) (htaken k hk r hr)

/-! ### Going round -/

/-- What holds at any time of a search from `circle`. -/
structure Circling (v : Snapshot) : Prop where
  /-- All clauses are implications. -/
  implications : v.All fun as => ∃ d : Implication, d.Fits as
  /-- Inferences may use enough literals. -/
  eligible : v.Eligible
  /-- An implication from outside is there. -/
  entry : Shows (v.processed ++ v.unprocessed) ⟨none, .p⟩
  /-- The implications between the two places are there. -/
  round : ∀ x : Place, Shows (v.processed ++ v.unprocessed) ⟨some x, x.other⟩
  /-- Processed implications have been joined. -/
  joined : ∀ x y, Shows v.processed ⟨none, x⟩ → Shows v.processed ⟨some x, y⟩ →
    Shows (v.processed ++ v.unprocessed) ⟨none, y⟩
  /-- Some implication waits. -/
  waiting : ∃ d : Implication, d.IsProper ∧ Shows v.unprocessed d

namespace Circling

theorem exists_fits (hv : Circling v) {e : Entry} (he : e ∈ v.processed ++ v.unprocessed) :
    ∃ d : Implication, d.Fits e.clause.signedAtoms := hv.implications.members e he

/-- The given clause leaves the processed implications that differ from it. -/
theorem mem_kept_iff (hbackward : policy.backwardSubsumption = true)
    (hgiven : d.Fits given.clause.signedAtoms) (hm : m ∈ v.processed)
    (hmfits : d'.Fits m.clause.signedAtoms) : m ∈ v.kept policy given ↔ d ≠ d' := by
  rw [Snapshot.kept, if_pos hbackward, List.mem_filter, Bool.not_eq_true', ← Bool.not_eq_true,
    Implication.subsumes_iff hgiven hmfits]
  exact and_iff_right hm

theorem discard (hv : Circling v) (hcons : v.Consistent) (hgiven : given ∈ v.unprocessed)
    (htautology : given.clause.isTautology = true) (hprocessed : w.processed = v.processed)
    (hunprocessed : w.unprocessed = without given.number v.unprocessed)
    (himplications : w.All fun as => ∃ d : Implication, d.Fits as) (heligible : w.Eligible) :
    Circling w := by
  have hwaits : ∀ d : Implication, d.IsProper → Shows v.unprocessed d → Shows w.unprocessed d := by
    rintro d hd ⟨e, he, hfits⟩
    rcases hcons.eq_or_mem_without hgiven he with rfl | he
    · rw [Implication.isTautology_eq_false hfits hd] at htautology
      exact absurd htautology (by simp)
    · exact ⟨e, hunprocessed ▸ he, hfits⟩
  have hshows : ∀ d : Implication, d.IsProper → Shows (v.processed ++ v.unprocessed) d →
      Shows (w.processed ++ w.unprocessed) d := by
    intro d hd h
    rw [Shows.append] at h ⊢
    rw [hprocessed]
    exact h.imp_right (hwaits d hd)
  obtain ⟨d, hd, hwaiting⟩ := hv.waiting
  exact {
    implications := himplications
    eligible := heligible
    entry := hshows _ (Implication.isProper_outside _) hv.entry
    round := fun x => hshows _ (Implication.isProper_other x) (hv.round x)
    joined := fun x y hx hy => hshows _ (Implication.isProper_outside y)
      (hv.joined x y (hprocessed ▸ hx) (hprocessed ▸ hy))
    waiting := ⟨d, hd, hwaits d hd hwaiting⟩ }

end Circling

/-- The given clause, which is the implication `d`, has become a processed one, and the conclusions
with it are `new`. -/
structure Activated (policy : Policy) (v w : Snapshot) (given : Entry) (d : Implication)
    (new : List Entry) : Prop where
  /-- It was waiting. -/
  mem : given ∈ v.unprocessed
  /-- It is the implication. -/
  fits : d.Fits given.clause.signedAtoms
  /-- It takes the place of its equals. -/
  processed : w.processed = v.kept policy given ++ [(v.select policy given).1]
  /-- The conclusions wait. -/
  unprocessed : w.unprocessed = without given.number v.unprocessed ++ new
  /-- They have been taken in. -/
  taken : ∀ k ∈ v.givenCalls policy given, ∀ r, k.result? = some r → Snapshot.TakenIn policy new r

namespace Activated

variable {new : List Entry}

theorem fits_selected (hw : Activated policy v w given d new) :
    d.Fits (v.select policy given).1.clause.signedAtoms :=
  (v.signedAtoms_select policy given).symm ▸ hw.fits

theorem eq_or_shows_kept (hw : Activated policy v w given d new) (h : Shows w.processed d') :
    d' = d ∨ Shows (v.kept policy given) d' := by
  rw [hw.processed, Shows.append] at h
  rcases h with h | ⟨e, he, hfits⟩
  · exact .inr h
  · obtain rfl := List.mem_singleton.1 he
    exact .inl (hfits.eq hw.fits_selected)

theorem shows (hw : Activated policy v w given d new) (hcons : v.Consistent)
    (hbackward : policy.backwardSubsumption = true) (h : Shows (v.processed ++ v.unprocessed) d') :
    Shows (w.processed ++ w.unprocessed) d' := by
  obtain ⟨e, he, hfits⟩ := h
  rw [hw.processed, hw.unprocessed]
  by_cases hne : d = d'
  · subst hne
    exact ⟨_, List.mem_append_left _ (List.mem_append_right _ (List.mem_singleton_self _)),
      hw.fits_selected⟩
  refine ⟨e, ?_, hfits⟩
  rcases List.mem_append.1 he with he | he
  · have hkept := (Circling.mem_kept_iff hbackward hw.fits he hfits).2 hne
    exact List.mem_append_left _ (List.mem_append_left _ hkept)
  · rcases hcons.eq_or_mem_without hw.mem he with rfl | he
    · exact absurd (hw.fits.eq hfits) hne
    · exact List.mem_append_right _ (List.mem_append_left _ he)

/-- The given implication has been joined with those that were kept. -/
theorem shows_joined (hw : Activated policy v w given d new) (hv : Circling v)
    (h : Shows (v.kept policy given) d')
    (hjoin : d = ⟨none, x⟩ ∧ d' = ⟨some x, y⟩ ∨ d = ⟨some x, y⟩ ∧ d' = ⟨none, x⟩) :
    Shows w.unprocessed ⟨none, y⟩ := by
  obtain ⟨m, hm, hmfits⟩ := h
  have hempty : given.clause.isEmpty = false := by
    refine Bool.eq_false_iff.2 fun hempty => ?_
    have hfits := hw.fits
    rw [Clause.signedAtoms_of_isEmpty hempty] at hfits
    simp [Implication.Fits] at hfits
  have husable : (v.select policy given).1.clause.IsUsable := (hv.eligible.select hw.mem hempty).2
  have hmusable := (hv.eligible.processed m (Snapshot.mem_of_mem_kept hm)).2
  rw [hw.unprocessed, Shows.append]
  exact .inr (Search.shows_joined hw.taken hw.fits_selected husable hm hmfits hmusable hjoin)

theorem joined (hw : Activated policy v w given d new) (hv : Circling v) (hcons : v.Consistent)
    (hbackward : policy.backwardSubsumption = true) (hx : Shows w.processed ⟨none, x⟩)
    (hy : Shows w.processed ⟨some x, y⟩) : Shows (w.processed ++ w.unprocessed) ⟨none, y⟩ := by
  rcases hw.eq_or_shows_kept hx with hx | hx <;> rcases hw.eq_or_shows_kept hy with hy | hy
  · exact absurd (hx.trans hy.symm) (by simp)
  · exact Shows.append.2 (.inr (hw.shows_joined hv hy (.inl ⟨hx.symm, rfl⟩)))
  · exact Shows.append.2 (.inr (hw.shows_joined hv hx (.inr ⟨hy.symm, rfl⟩)))
  · exact hw.shows hcons hbackward (hv.joined x y (hx.mono fun _ => Snapshot.mem_of_mem_kept)
      (hy.mono fun _ => Snapshot.mem_of_mem_kept))

/-- **Some implication waits**: if all were processed, then the given one has been joined with
another. -/
theorem waiting (hw : Activated policy v w given d new) (hv : Circling v) (hcons : v.Consistent)
    (hbackward : policy.backwardSubsumption = true) :
    ∃ d : Implication, d.IsProper ∧ Shows w.unprocessed d := by
  by_contra hnone
  have hdone : ∀ d', d'.IsProper → Shows (w.processed ++ w.unprocessed) d' → Shows w.processed d' :=
    fun d' hproper h => (Shows.append.1 h).resolve_right fun h => hnone ⟨d', hproper, h⟩
  have hround : ∀ x : Place, Shows w.processed ⟨some x, x.other⟩ := fun x =>
    hdone _ (Implication.isProper_other x) (hw.shows hcons hbackward (hv.round x))
  have hp : Shows w.processed ⟨none, .p⟩ :=
    hdone _ (Implication.isProper_outside .p) (hw.shows hcons hbackward hv.entry)
  have hq : Shows w.processed ⟨none, .q⟩ :=
    hdone _ (Implication.isProper_outside .q) (hw.joined hv hcons hbackward hp (hround .p))
  have hnew : ∃ y, Shows w.unprocessed ⟨none, y⟩ := by
    rcases d with ⟨_ | x, y⟩
    · rcases hw.eq_or_shows_kept (hround y) with h | h
      · exact absurd h (by simp)
      · exact ⟨_, hw.shows_joined hv h (.inl ⟨rfl, rfl⟩)⟩
    · have hx : Shows w.processed ⟨none, x⟩ := by
        cases x with
        | p => exact hp
        | q => exact hq
      rcases hw.eq_or_shows_kept hx with h | h
      · exact absurd h (by simp)
      · exact ⟨_, hw.shows_joined hv h (.inr ⟨rfl, rfl⟩)⟩
  obtain ⟨y, hy⟩ := hnew
  exact hnone ⟨_, Implication.isProper_outside y, hy⟩

end Activated

namespace Circling

/-- **Every step goes on.** -/
theorem advance (hv : Circling v) (hcons : v.Consistent)
    (hbackward : policy.backwardSubsumption = true) (h : v.Advances policy w)
    (himplications : w.All fun as => ∃ d : Implication, d.Fits as) (heligible : w.Eligible) :
    w.status = .running ∧ Circling w := by
  have hnil : ¬ ∃ d : Implication, d.Fits [] := fun ⟨d, hd⟩ => by simp [Implication.Fits] at hd
  cases h with
  | saturate hnone =>
    obtain ⟨d, -, e, he, -⟩ := hv.waiting
    exact absurd (hnone ▸ he) List.not_mem_nil
  | finish hgiven hempty =>
    have hfits := hv.exists_fits (List.mem_append_right _ hgiven)
    rw [Clause.signedAtoms_of_isEmpty hempty] at hfits
    exact absurd hfits hnil
  | discardTautology hgiven _ htautology hstatus hprocessed hunprocessed =>
    exact ⟨hstatus, hv.discard hcons hgiven htautology hprocessed hunprocessed
      himplications heligible⟩
  | discardSubsumed hgiven hm hsubsumes =>
    -- what subsumes the given clause is equal to it, and was removed
    have hm' := Snapshot.mem_of_mem_kept hm
    obtain ⟨d, hd⟩ := hv.exists_fits (List.mem_append_right _ hgiven)
    obtain ⟨d', hd'⟩ := hv.exists_fits (List.mem_append_left _ hm')
    have heq := (Implication.subsumes_iff hd' hd).1 hsubsumes
    exact absurd heq.symm ((mem_kept_iff hbackward hd hm' hd').1 hm)
  | activate hgiven _ _ hprocessed hconclusions =>
    rcases hconclusions with hproof | ⟨hstatus, new, hunprocessed, htaken⟩
    · exact absurd (himplications.empty hproof) hnil
    · obtain ⟨d, hd⟩ := hv.exists_fits (List.mem_append_right _ hgiven)
      have hw : Activated policy v w _ d new := ⟨hgiven, hd, hprocessed, hunprocessed, htaken⟩
      refine ⟨hstatus, himplications, heligible, hw.shows hcons hbackward hv.entry, fun x => ?_,
        fun x y => ?_, hw.waiting hv hcons hbackward⟩
      · exact hw.shows hcons hbackward (hv.round x)
      · exact hw.joined hv hcons hbackward

theorem start : Circling (.start circle) where
  implications := by
    refine .start (List.forall_mem_cons.2
      ⟨?_, List.forall_mem_cons.2 ⟨?_, List.forall_mem_singleton.2 ?_⟩⟩)
    · exact ⟨⟨none, .p⟩, List.Perm.refl _⟩
    · exact ⟨⟨some .p, .q⟩, List.Perm.swap _ _ _⟩
    · exact ⟨⟨some .q, .p⟩, List.Perm.swap _ _ _⟩
  eligible := .start (by decide)
  entry := ⟨_, List.mem_cons_self, List.Perm.refl _⟩
  round
    | .p => ⟨_, List.mem_cons_of_mem _ List.mem_cons_self, List.Perm.swap _ _ _⟩
    | .q =>
      ⟨_, List.mem_cons_of_mem _ (List.mem_cons_of_mem _ List.mem_cons_self), List.Perm.swap _ _ _⟩
  joined := fun x y ⟨_, he, _⟩ => absurd he List.not_mem_nil
  waiting := ⟨⟨none, .p⟩, Implication.isProper_outside .p, _, List.mem_cons_self, List.Perm.refl _⟩

/-- **Every step of a search goes on.** -/
theorem step {s : FullState} {h : History} (hs : s.Consistent h) (hrunning : s.status = .running)
    (hv : Circling (s.snapshot [] h)) (hunbounded : policy.IsUnbounded)
    (hbackward : policy.backwardSubsumption = true) (elapsed : Duration) :
    (s.step policy elapsed).Consistent (h.after policy elapsed s) ∧
      (s.step policy elapsed).status = .running ∧
      Circling ((s.step policy elapsed).snapshot [] (h.after policy elapsed s)) := by
  have hrun : Run policy s h (s.step policy elapsed) (h.after policy elapsed s) :=
    Run.start.step elapsed
  obtain ⟨hmoves, hconsistent⟩ := hrun.moves hs
  have hcompound : ∀ e ∈ ClauseStore.toList s.processed ++ ClauseStore.toList s.unprocessed,
      e.clause.HasCompoundAtoms := by
    intro e he
    obtain ⟨d, hd⟩ := hv.exists_fits he
    exact Clause.hasCompoundAtoms_of_isGround (Clause.isGround_iff.2 hd.isGround)
  have hadvances := State.advances_step hs hunbounded hrunning hcompound elapsed
  refine ⟨hconsistent, hv.advance hs.snapshot hbackward hadvances ?_ ?_⟩
  · exact hv.implications.moves (preserves_implications policy) hs.snapshot hmoves
  · exact hmoves.invariant hs.snapshot hv.eligible fun _ hv hmove => hv.move hmove

/-- **A search that goes round does so for ever.** -/
theorem running_steps {s : FullState} {h : History} (hs : s.Consistent h)
    (hrunning : s.status = .running) (hv : Circling (s.snapshot [] h))
    (hunbounded : policy.IsUnbounded) (hbackward : policy.backwardSubsumption = true) (n : Nat) :
    (s.steps policy n).status = .running := by
  induction n generalizing s h with
  | zero => exact hrunning
  | succ n ih =>
    obtain ⟨hs', hrunning', hv'⟩ := step hs hrunning hv hunbounded hbackward .zero
    exact ih hs' hrunning' hv'

end Circling

/-- **A search from `circle` does not end**, if a given clause removes what it subsumes. -/
theorem circle_never_ends (params : Params) (hbackward : params.backwardSubsumption = true)
    (hmax : params.maxIterations = none) (htimeout : params.timeout = none) :
    ∃ s₀, startFull params circle = .ok s₀ ∧ ∀ n, (s₀.steps params.policy n).status = .running := by
  let s₀ : FullState := .start .empty (.empty params.heuristic.schedule) circle
  have hs₀ : startFull params circle = .ok s₀ := rfl
  obtain ⟨hsnapshot, hconsistent⟩ := startFull_spec hs₀
  refine ⟨s₀, hs₀, Circling.running_steps hconsistent rfl ?_ ⟨hmax, htimeout⟩ hbackward⟩
  rw [hsnapshot]
  exact .start

/-- With forward subsumption, but also with backward subsumption, a search from ground clauses need
not end. -/
theorem ground_search_may_not_end : ∃ (params : Params) (S : List Clause) (s₀ : FullState),
    params.forwardSubsumption = true ∧ params.maxIterations = none ∧ params.timeout = none ∧
      (∀ c ∈ S, c.isGround = true) ∧ startFull params S = .ok s₀ ∧
      ¬ ∃ n, (s₀.steps params.policy n).status = .proofFound ∨
        (s₀.steps params.policy n).status = .saturated := by
  obtain ⟨s₀, hs₀, hrunning⟩ :=
    circle_never_ends ({} : Params).withRedundancyElimination rfl rfl rfl
  refine ⟨_, circle, s₀, rfl, rfl, rfl, by decide, hs₀, ?_⟩
  rintro ⟨n, hn⟩
  rw [hrunning n] at hn
  exact absurd hn (by decide)

/-- **With forward subsumption all searches from ground clauses end, exactly if there is no backward
subsumption.** -/
theorem ground_search_terminates_iff (params : Params) (hforward : params.forwardSubsumption = true)
    (hmax : params.maxIterations = none) (htimeout : params.timeout = none) :
    (∀ (S : List Clause) (s₀ : FullState), (∀ c ∈ S, c.isGround = true) →
      startFull params S = .ok s₀ → ∃ n, (s₀.steps params.policy n).status = .proofFound ∨
        (s₀.steps params.policy n).status = .saturated) ↔ params.backwardSubsumption = false := by
  constructor
  · intro hends
    refine Bool.eq_false_iff.2 fun hbackward => ?_
    obtain ⟨s₀, hs₀, hrunning⟩ := circle_never_ends params hbackward hmax htimeout
    obtain ⟨n, hn⟩ := hends circle s₀ (by decide) hs₀
    rw [hrunning n] at hn
    exact absurd hn (by decide)
  · intro hbackward S s₀ hS hs₀
    exact ground_search_ends params hforward hbackward hmax htimeout hS hs₀

/-- The search from `circle` itself ends, if nothing is removed from the processed clauses. -/
theorem ground_search_terminates_iff_circle :
    let params : Params := { deleteTautologies := true, forwardSubsumption := true }
    (∀ c ∈ circle, c.isGround = true) ∧ ∃ s₀, startFull params circle = .ok s₀ ∧
      ∃ n, (s₀.steps params.policy n).status = .proofFound ∨
        (s₀.steps params.policy n).status = .saturated := by
  intro params
  have hground : ∀ c ∈ circle, c.isGround = true := by decide
  let s₀ : FullState := .start .empty (.empty params.heuristic.schedule) circle
  have hs₀ : startFull params circle = .ok s₀ := rfl
  exact ⟨hground, s₀, hs₀,
    (ground_search_terminates_iff params rfl rfl rfl).2 rfl circle s₀ hground hs₀⟩

end Search

end Refutation
