import Refutation.Proofs.Store.Lawful
import Refutation.Store.Ranked

/-!
# Ranked stores are lawful

Each queue of a ranked store ranks exactly the waiting clauses, so the queue whose turn it is has a
first rank whenever a clause waits, and that rank leads to a clause.

* `RankedStore.Valid` : the queues and the register agree with the tickets.
* `RankedStore.Valid.insert`, `RankedStore.Valid.remove` : the operations keep this.
* `RankedStore.Valid.exists_extractBestBy?` : a clause that waits is not overlooked, and of those
  that wait the one with the best rank is taken.
-/

namespace Refutation

/-- The place in the round is one of its positions. -/
def Rotation.InBounds (r : Rotation) : Prop := r.current < r.ratings.length

theorem Rotation.InBounds.next {r : Rotation} (h : r.InBounds) :
    r.next.2.InBounds ∧ r.next.1 = r.current ∧ r.next.2.ratings = r.ratings := by
  simp only [Rotation.next]
  split_ifs
  · exact ⟨Nat.mod_lt _ (Nat.zero_lt_of_lt h), rfl, rfl⟩
  · exact ⟨h, rfl, rfl⟩

theorem Rank.compare_eq_lt_iff {a b : Rank} :
    compare a b = .lt ↔ a.score < b.score ∨ a.score = b.score ∧ a.arrival < b.arrival := by
  change (compare a.score b.score).then (compare a.arrival b.arrival) = .lt ↔ _
  rw [Ordering.then_eq_lt, Nat.compare_eq_lt, Nat.compare_eq_eq, Nat.compare_eq_lt]

/-- The score of a waiting clause under evaluation `i`. -/
def Ticket.score (t : Ticket) (i : Nat) : Nat := t.scores.getD i 0

namespace RankedStore

/-- The queues and the register agree with the tickets, and there is one queue for each turn. -/
structure Valid (s : RankedStore) : Prop where
  /-- Different clauses have different numbers. -/
  nodup : (s.toList.map (·.number)).Nodup
  /-- The clauses are listed in the order of their arrival. -/
  sorted : s.tickets.Pairwise fun t u => t.arrival < u.arrival
  /-- All of them have arrived. -/
  early : ∀ t ∈ s.tickets, t.arrival < s.arrivals
  /-- A clause has a score for each queue. -/
  scores : ∀ t ∈ s.tickets, t.scores.length = s.queues.length
  /-- Each queue ranks the waiting clauses by their scores. -/
  queued : ∀ (i : Nat) (q : RankQueue), s.queues[i]? = some q → ∀ r : Rank, (q.get? r).isSome ↔
    ∃ t ∈ s.tickets, t.arrival = r.arrival ∧ t.scores[i]? = some r.score
  /-- The register lists the waiting clauses by their numbers. -/
  registered : ∀ n a, s.register.get? n = some a ↔
    ∃ t ∈ s.tickets, t.entry.number = n ∧ t.arrival = a
  /-- There is one evaluation for each queue. -/
  evaluations : s.schedule.evaluations.length = s.queues.length
  /-- There is one rating for each queue. -/
  ratings : s.schedule.rotation.ratings.length = s.queues.length
  /-- It is the turn of one of the queues. -/
  turn : s.schedule.rotation.InBounds

variable {s s' : RankedStore} {e : Entry} {t u : Ticket}

theorem valid_empty {schedule : Schedule} (hturn : schedule.rotation.InBounds)
    (hratings : schedule.rotation.ratings.length = schedule.evaluations.length) :
    (empty schedule).Valid where
  nodup := List.nodup_nil
  sorted := .nil
  early := by simp [empty]
  scores := by simp [empty]
  queued := by
    intro i q hq r
    simp only [empty, List.getElem?_map, Option.map_eq_some_iff] at hq
    obtain ⟨-, -, rfl⟩ := hq
    simp [empty]
  registered := by simp [empty]
  evaluations := by simp [empty]
  ratings := by simp [empty, hratings]
  turn := hturn

theorem valid_empty_heuristic (h : Heuristic) : (empty h.schedule).Valid := by
  have hturn : h.schedule.rotation.InBounds := by
    cases h <;> simp [Heuristic.schedule, Rotation.InBounds, Rotation.start, Heuristic.rated]
  exact valid_empty hturn (by simp [Heuristic.schedule, Rotation.start])

/-! ### Tickets -/

theorem Valid.eq_of_arrival_eq (hs : s.Valid) (ht : t ∈ s.tickets) (hu : u ∈ s.tickets)
    (h : t.arrival = u.arrival) : t = u := by
  have hnodup : (s.tickets.map (·.arrival)).Nodup :=
    List.pairwise_map.2 (hs.sorted.imp fun hlt => Nat.ne_of_lt hlt)
  exact List.inj_on_of_nodup_map hnodup ht hu h

theorem Valid.eq_of_number_eq (hs : s.Valid) (ht : t ∈ s.tickets) (hu : u ∈ s.tickets)
    (h : t.entry.number = u.entry.number) : t = u := by
  have hnodup : (s.tickets.map fun t => t.entry.number).Nodup := by
    simpa [toList, Function.comp_def] using hs.nodup
  exact List.inj_on_of_nodup_map hnodup ht hu h

theorem Valid.ticket?_eq_some_iff (hs : s.Valid) {a : Nat} :
    s.ticket? a = some t ↔ t ∈ s.tickets ∧ t.arrival = a := by
  constructor
  · intro h
    exact ⟨List.mem_of_find?_eq_some h, by simpa using List.find?_some h⟩
  · rintro ⟨ht, rfl⟩
    cases hfind : s.ticket? t.arrival with
    | none => exact absurd (List.find?_eq_none.1 hfind t ht) (by simp)
    | some u =>
      have hu : u.arrival = t.arrival := by simpa using List.find?_some hfind
      rw [hs.eq_of_arrival_eq (List.mem_of_find?_eq_some hfind) ht hu]

theorem Valid.extractAt?_arrival (hs : s.Valid) (ht : t ∈ s.tickets) :
    s.extractAt? t.arrival = some (t.entry, s.remove t) := by
  rw [extractAt?, hs.ticket?_eq_some_iff.2 ⟨ht, rfl⟩, Option.map_some]

theorem Valid.extract?_number (hs : s.Valid) (ht : t ∈ s.tickets) :
    s.extract? t.entry.number = some (t.entry, s.remove t) := by
  have hregister := (hs.registered _ _).2 ⟨t, ht, rfl, rfl⟩
  simp only [extract?, hregister, Option.bind_eq_bind, Option.bind_some]
  exact hs.extractAt?_arrival ht

theorem Valid.contains_register (hs : s.Valid) {n : Nat} :
    s.register.contains n = true ↔ ∃ t ∈ s.tickets, t.entry.number = n := by
  simp only [OrderedMap.contains, Option.isSome_iff_exists, hs.registered]
  constructor
  · rintro ⟨a, t, ht, hn, -⟩
    exact ⟨t, ht, hn⟩
  · rintro ⟨t, ht, hn⟩
    exact ⟨t.arrival, t, ht, hn, rfl⟩

/-! ### Adding a clause -/

theorem Valid.insert (hs : s.Valid) (he : ∀ d ∈ s.toList, d.number ≠ e.number) :
    (s.insert e).Valid ∧ (s.insert e).toList = s.toList ++ [e] := by
  have hother : ∀ t ∈ s.tickets, t.entry.number ≠ e.number :=
    fun t ht => he t.entry (List.mem_map_of_mem ht)
  have hnew : s.register.contains e.number = false := by
    rw [← Bool.not_eq_true, hs.contains_register]
    rintro ⟨t, ht, hnumber⟩
    exact hother t ht hnumber
  have hlist : (s.insert e).toList = s.toList ++ [e] := by
    simp [RankedStore.insert, hnew, toList, Schedule.evaluate]
  refine ⟨?_, hlist⟩
  have hlength := hs.evaluations
  refine ⟨hlist ▸ nodup_map_number_append hs.nodup he, ?_, ?_, ?_, ?_, ?_, ?_, ?_, ?_⟩
  all_goals simp only [RankedStore.insert, hnew, Bool.false_eq_true, if_false, Schedule.evaluate]
  · rw [List.pairwise_append]
    exact ⟨hs.sorted, List.pairwise_singleton _ _, by simpa using hs.early⟩
  · intro t ht
    rcases List.mem_append.1 ht with ht | ht
    · exact Nat.lt_succ_of_lt (hs.early t ht)
    · obtain rfl := List.mem_singleton.1 ht
      exact Nat.lt_succ_self _
  · intro t ht
    rcases List.mem_append.1 ht with ht | ht
    · simp [hs.scores t ht, hlength]
    · obtain rfl := List.mem_singleton.1 ht
      simp [hlength]
  · intro i q hq r
    obtain ⟨q, score, hqueue, hscore, rfl⟩ := List.getElem?_zipWith_eq_some.1 hq
    simp only [List.mem_append, List.mem_singleton, or_and_right, exists_or, exists_eq_left,
      ← hs.queued i q hqueue r, hscore, Option.some.injEq]
    rw [OrderedMap.insert, OrderedMap.get?_alter]
    by_cases hr : r = ⟨score, s.arrivals⟩
    · simp [hr]
    · have hne : ¬ (s.arrivals = r.arrival ∧ score = r.score) := by
        rintro ⟨harrival, hscore⟩
        exact hr (by cases r; simp_all)
      simp [hr, hne]
  · intro n a
    simp only [List.mem_append, List.mem_singleton, or_and_right, exists_or, exists_eq_left,
      ← hs.registered n a]
    by_cases hn : n = e.number
    · have hnone : s.register.get? n ≠ some a := fun h => by
        obtain ⟨t, ht, hnumber, -⟩ := (hs.registered n a).1 h
        exact hother t ht (hnumber.trans hn)
      rw [hn] at hnone ⊢
      simp [hnone]
    · rw [OrderedMap.get?_insert_of_ne _ _ hn]
      simp [Ne.symm hn]
  · simp [hlength]
  · simp [hs.ratings, hlength]
  · exact hs.turn

/-! ### Taking out a clause -/

theorem Valid.mem_remove (hs : s.Valid) (ht : t ∈ s.tickets) :
    u ∈ (s.remove t).tickets ↔ u ∈ s.tickets ∧ u ≠ t := by
  simp only [remove, List.mem_filter, decide_eq_true_eq]
  refine and_congr_right fun hu => not_congr ⟨fun h => ?_, fun h => h ▸ rfl⟩
  exact hs.eq_of_arrival_eq hu ht h

theorem Valid.toList_remove (hs : s.Valid) (ht : t ∈ s.tickets) :
    (s.remove t).toList = without t.entry.number s.toList := by
  simp only [remove, toList, without, List.filter_map]
  congr 1
  refine List.filter_congr fun u hu => ?_
  rw [Function.comp_apply, decide_eq_decide]
  refine not_congr ⟨fun h => ?_, fun h => ?_⟩
  · rw [hs.eq_of_arrival_eq hu ht h]
  · rw [hs.eq_of_number_eq hu ht h]

theorem Valid.remove (hs : s.Valid) (ht : t ∈ s.tickets) : (s.remove t).Valid := by
  have hsub : ∀ u ∈ (s.remove t).tickets, u ∈ s.tickets := fun u hu => ((hs.mem_remove ht).1 hu).1
  have hqueues : (s.remove t).queues.length = s.queues.length := by
    simp [RankedStore.remove, hs.scores t ht]
  refine ⟨?_, hs.sorted.sublist List.filter_sublist, fun u hu => hs.early u (hsub u hu),
    ?_, ?_, ?_, ?_, ?_, hs.turn⟩
  · rw [hs.toList_remove ht]
    exact nodup_map_number_without _ hs.nodup
  · intro u hu
    rw [hqueues]
    exact hs.scores u (hsub u hu)
  · intro i q hq r
    obtain ⟨q, score, hqueue, hscore, rfl⟩ := List.getElem?_zipWith_eq_some.1 hq
    rw [OrderedMap.erase, OrderedMap.get?_alter]
    by_cases hr : r = ⟨score, t.arrival⟩
    · subst hr
      simp only [Std.ReflCmp.compare_self, if_true, Option.isSome_none,
        Bool.false_eq_true, false_iff]
      rintro ⟨u, hu, harrival, -⟩
      obtain ⟨hu, hne⟩ := (hs.mem_remove ht).1 hu
      exact hne (hs.eq_of_arrival_eq hu ht harrival)
    · simp only [Std.LawfulEqOrd.compare_eq_iff_eq, hr, if_false, hs.queued i q hqueue r]
      refine exists_congr fun u => ?_
      rw [hs.mem_remove ht, and_assoc]
      refine and_congr_right fun _ => ⟨fun h => ⟨?_, h⟩, And.right⟩
      -- a ticket with this rank is another one, as its rank is another one
      rintro rfl
      rw [hscore, Option.some.injEq] at h
      exact hr (by cases r; simp_all)
  · intro n a
    simp only [RankedStore.remove, OrderedMap.erase, OrderedMap.get?_alter]
    by_cases hn : n = t.entry.number
    · subst hn
      simp only [Std.ReflCmp.compare_self, if_true, reduceCtorEq, false_iff]
      rintro ⟨u, hu, hnumber, -⟩
      obtain ⟨hu, hne⟩ := (hs.mem_remove ht).1 hu
      exact hne (hs.eq_of_number_eq hu ht hnumber)
    · simp only [Std.LawfulEqOrd.compare_eq_iff_eq, hn, if_false, hs.registered n a]
      refine exists_congr fun u => ?_
      rw [show u ∈ s.tickets.filter _ ↔ _ from hs.mem_remove ht, and_assoc]
      refine and_congr_right fun _ => ⟨fun h => ⟨?_, h⟩, And.right⟩
      rintro rfl
      exact hn h.1.symm
  · rw [hqueues]
    exact hs.evaluations
  · rw [hqueues]
    exact hs.ratings

theorem Valid.extractAt? (hs : s.Valid) {a : Nat} (h : s.extractAt? a = some (e, s')) :
    ∃ t ∈ s.tickets, t.arrival = a ∧ e = t.entry ∧ s' = s.remove t := by
  obtain ⟨t, ht, heq⟩ := Option.map_eq_some_iff.1 h
  obtain ⟨hmem, harrival⟩ := hs.ticket?_eq_some_iff.1 ht
  exact ⟨t, hmem, harrival, by simpa [eq_comm] using heq⟩

theorem Valid.extract? (hs : s.Valid) {n : Nat} (h : s.extract? n = some (e, s')) :
    ∃ t ∈ s.tickets, t.entry.number = n ∧ e = t.entry ∧ s' = s.remove t := by
  simp only [RankedStore.extract?, Option.bind_eq_bind, Option.bind_eq_some_iff] at h
  obtain ⟨a, ha, h⟩ := h
  obtain ⟨t, ht, hnumber, rfl⟩ := (hs.registered n a).1 ha
  obtain ⟨u, hu, harrival, heq⟩ := hs.extractAt? h
  rw [hs.eq_of_arrival_eq hu ht harrival] at heq
  exact ⟨t, ht, hnumber, heq⟩

theorem Valid.next (hs : s.Valid) : { s with schedule := s.schedule.next.2 }.Valid := by
  obtain ⟨hturn, -, hratings⟩ := hs.turn.next
  exact ⟨hs.nodup, hs.sorted, hs.early, hs.scores, hs.queued, hs.registered, hs.evaluations,
    (congrArg List.length hratings).trans hs.ratings, hturn⟩

theorem Valid.next_lt (hs : s.Valid) : s.schedule.next.1 < s.queues.length := by
  obtain ⟨-, hcurrent, -⟩ := hs.turn.next
  have : s.schedule.rotation.current < s.queues.length := hs.ratings ▸ hs.turn
  exact hcurrent ▸ this

/-- The queue of an evaluation finds the best clause, the oldest of equals, if one waits. -/
theorem Valid.exists_extractBestBy? (hs : s.Valid) {i : Nat} (hi : i < s.queues.length)
    (hwaiting : s.tickets ≠ []) :
    ∃ t ∈ s.tickets, s.extractBestBy? i = some (t.entry, s.remove t) ∧ ∀ u ∈ s.tickets,
      t.score i < u.score i ∨ t.score i = u.score i ∧ t.arrival ≤ u.arrival := by
  have hqueue := List.getElem?_eq_getElem hi
  have hranked := hs.queued _ _ hqueue
  have hscore : ∀ u ∈ s.tickets, u.scores[i]? = some (u.score i) := by
    intro u hu
    have hlt : i < u.scores.length := hs.scores u hu ▸ hi
    rw [Ticket.score, List.getD_eq_getElem?_getD, List.getElem?_eq_getElem hlt, Option.getD_some]
  have hrank : ∀ u ∈ s.tickets, ((s.queues[i]).get? ⟨u.score i, u.arrival⟩).isSome :=
    fun u hu => (hranked _).2 ⟨u, hu, rfl, hscore u hu⟩
  -- the queue is not empty, as some ticket has a rank in it
  obtain ⟨⟨rank, x⟩, hfirst⟩ : ∃ p, s.queues[i].first? = some p := by
    obtain ⟨u, hu⟩ := List.exists_mem_of_ne_nil _ hwaiting
    obtain ⟨x, hx⟩ := Option.isSome_iff_exists.1 (hrank u hu)
    exact ⟨_, List.head?_eq_some_head (List.ne_nil_of_mem ((OrderedMap.mem_entries_iff _).2 hx))⟩
  -- its first rank is that of a ticket
  obtain ⟨t, ht, harrival, htscore⟩ := (hranked rank).1 (Option.isSome_iff_exists.2
    ⟨x, (OrderedMap.mem_entries_iff _).1 (List.mem_of_mem_head? hfirst)⟩)
  obtain rfl : rank = ⟨t.score i, t.arrival⟩ := by
    rw [hscore t ht, Option.some.injEq] at htscore
    cases rank
    simp_all
  refine ⟨t, ht, ?_, fun u hu => ?_⟩
  · simp only [RankedStore.extractBestBy?, hqueue, hfirst, Option.bind_eq_bind, Option.bind_some]
    exact hs.extractAt?_arrival ht
  · obtain ⟨y, hy⟩ := Option.isSome_iff_exists.1 (hrank u hu)
    rcases OrderedMap.eq_or_lt_of_first? hfirst hy with heq | hlt
    · injection heq with hscore harrival
      exact .inr ⟨hscore.symm, Nat.le_of_eq harrival.symm⟩
    · exact (Rank.compare_eq_lt_iff.1 hlt).imp_right fun h => ⟨h.1, Nat.le_of_lt h.2⟩

theorem extractBest?_of_ne_nil (h : s.tickets ≠ []) :
    s.extractBest? = { s with schedule := s.schedule.next.2 }.extractBestBy? s.schedule.next.1 := by
  have hwaiting : s.tickets.isEmpty = false := by simpa using h
  simp only [RankedStore.extractBest?, hwaiting, Bool.false_eq_true, if_false]

theorem Valid.exists_extractBest? (hs : s.Valid) (hwaiting : s.tickets ≠ []) :
    ∃ t ∈ s.tickets, s.extractBest? =
      some (t.entry, { s with schedule := s.schedule.next.2 }.remove t) := by
  obtain ⟨t, ht, hbest, -⟩ := hs.next.exists_extractBestBy? hs.next_lt hwaiting
  exact ⟨t, ht, (extractBest?_of_ne_nil hwaiting).trans hbest⟩

theorem Valid.extractBest? (hs : s.Valid) (h : s.extractBest? = some (e, s')) :
    s'.Valid ∧ e ∈ s.toList ∧ s'.toList = without e.number s.toList := by
  have hwaiting : s.tickets ≠ [] := fun hnil => by simp [RankedStore.extractBest?, hnil] at h
  obtain ⟨t, ht, hbest⟩ := hs.exists_extractBest? hwaiting
  rw [h, Option.some.injEq, Prod.mk.injEq] at hbest
  obtain ⟨rfl, rfl⟩ := hbest
  exact ⟨hs.next.remove ht, List.mem_map_of_mem ht, hs.next.toList_remove ht⟩

instance : LawfulQueue RankedStore where
  Valid := Valid
  nodup hs := hs.nodup
  insert_spec hs he := hs.insert he
  extract_spec hs h := by
    obtain ⟨t, ht, rfl, rfl, rfl⟩ := hs.extract? h
    exact ⟨hs.remove ht, List.mem_map_of_mem ht, rfl, hs.toList_remove ht⟩
  partners_eq _ _ := rfl
  mem_of_mem_subsuming _ h := h
  mem_of_mem_subsumed _ h := h
  next_none {s} hs h := by
    by_contra hne
    have hwaiting : s.tickets ≠ [] := fun hnil => hne (congrArg (List.map Ticket.entry) hnil)
    obtain ⟨t, -, hbest⟩ := hs.exists_extractBest? hwaiting
    exact Option.some_ne_none _ (hbest.symm.trans h)
  next_some hs h := hs.extractBest? h

end RankedStore

end Refutation
