import Refutation.Text.Blank

/-!
# Readers with ordered choice

A reader takes something from the beginning of a text or fails.  Alternatives are tried in order and
the first that succeeds is final; an optional part that fails is passed over, and a list with
separators goes back to before the last separator if nothing that can be read follows it.  None of
this is ever undone by what comes later, so a reader may succeed where a grammar with the same rules
would go on otherwise.

* `TextReader.alt`, `TextReader.opt`, `TextReader.separatedList1` : choices that are final once
  made.
* `TextReader.fix` : the reader that a recursive rule defines.
* `TextReader.Guarded.fix_eq` : **it satisfies its rule**, if the rule reads something before it
  recurs.
-/

namespace Refutation

/-- What a reader takes from the beginning of a text, and the text that is left; `none` if it
fails. -/
abbrev TextReader (α : Type) := List Char → Option (α × List Char)

namespace TextReader

variable {α β σ : Type}

/-! ### Characters -/

/-- A character with the given property. -/
def satisfy (ok : Char → Bool) : TextReader Char
  | [] => none
  | c :: cs => if ok c then some (c, cs) else none

def char (c : Char) : TextReader Char := satisfy (· == c)

/-- The given word, whatever follows it. -/
def tag (word : String) : TextReader Unit := fun cs => (Text.after? word.toList cs).map ((), ·)

/-- All characters with the given property, as far as they go. -/
def takeWhile (ok : Char → Bool) : TextReader (List Char) := fun cs =>
  some (cs.takeWhile ok, cs.dropWhile ok)

/-- One or more characters with the given property, as far as they go. -/
def takeWhile1 (ok : Char → Bool) : TextReader (List Char)
  | [] => none
  | c :: cs => if ok c then some (c :: cs.takeWhile ok, cs.dropWhile ok) else none

/-- All characters before the first occurrence of the given word. -/
def takeUntil (word : String) : TextReader (List Char)
  | [] => if word.isEmpty then some ([], []) else none
  | c :: cs =>
    if word.toList.isPrefixOf (c :: cs) then some ([], c :: cs)
    else (takeUntil word cs).map fun r => (c :: r.1, r.2)

/-! ### Combinations -/

def map (f : α → β) (p : TextReader α) : TextReader β := fun cs => (p cs).map fun r => (f r.1, r.2)

/-- Read and give a fixed value. -/
def value (b : β) (p : TextReader α) : TextReader β := p.map fun _ => b

/-- Read and fail if the value cannot be converted. -/
def mapRes (f : α → Option β) (p : TextReader α) : TextReader β := fun cs =>
  (p cs).bind fun r => (f r.1).map (·, r.2)

/-- Read and fail if the value is not as wanted. -/
def verify (ok : α → Bool) (p : TextReader α) : TextReader α :=
  fun cs => (p cs).filter fun r => ok r.1

/-- Read and give the text that was read. -/
def recognize (p : TextReader α) : TextReader (List Char) := fun cs =>
  (p cs).map fun r => (cs.take (cs.length - r.2.length), r.2)

/-- One reader after the other. -/
def pair (p : TextReader α) (q : TextReader β) : TextReader (α × β) := fun cs =>
  (p cs).bind fun r => (q r.2).map fun s => ((r.1, s.1), s.2)

def preceded (p : TextReader α) (q : TextReader β) : TextReader β := (pair p q).map (·.2)

def terminated (p : TextReader α) (q : TextReader β) : TextReader α := (pair p q).map (·.1)

def delimited (o : TextReader α) (p : TextReader β) (c : TextReader σ) : TextReader β :=
  preceded o (terminated p c)

/-- The first reader, or the second if the first fails. -/
def alt (p q : TextReader α) : TextReader α := fun cs => (p cs).or (q cs)

/-- The reader if it succeeds, and nothing otherwise. -/
def opt (p : TextReader α) : TextReader (Option α) := fun cs =>
  match p cs with
  | some r => some (some r.1, r.2)
  | none => some (none, cs)

/-! ### Repetitions -/

/-- As often as the reader succeeds.  It must take something each time. -/
def many0 (p : TextReader α) (cs : List Char) : Option (List α × List Char) :=
  match p cs with
  | none => some ([], cs)
  | some (a, rest) =>
    if rest.length < cs.length then (many0 p rest).map fun r => (a :: r.1, r.2) else none
termination_by cs.length

/-- What follows the first member of a list: separators that are each followed by a member.  A
separator that no member follows is left in the text.  Separator and member must take something each
time. -/
def separatedMore (sep : TextReader σ) (p : TextReader α) (cs : List Char) :
    Option (List α × List Char) :=
  match sep cs with
  | none => some ([], cs)
  | some (_, after) =>
    if after.length < cs.length then
      match p after with
      | none => some ([], cs)
      | some (a, rest) =>
        if rest.length < cs.length then
          (separatedMore sep p rest).map fun r => (a :: r.1, r.2)
        else none
    else none
termination_by cs.length

/-- One or more members with separators between them. -/
def separatedList1 (sep : TextReader σ) (p : TextReader α) : TextReader (List α) := fun cs =>
  (p cs).bind fun r => (separatedMore sep p r.2).map fun s => (r.1 :: s.1, s.2)

/-- Members with separators between them, or none. -/
def separatedList0 (sep : TextReader σ) (p : TextReader α) : TextReader (List α) := fun cs =>
  match p cs with
  | none => some ([], cs)
  | some r => (separatedMore sep p r.2).map fun s => (r.1 :: s.1, s.2)

/-- Pieces of ordinary text and, after a control character, pieces that stand for something else, up
to where neither is found.  Something must be read, unless the text is at its end. -/
def escapedTransform (normal : TextReader (List Char)) (control : Char)
    (transform : TextReader (List Char)) : TextReader (List Char) :=
  go true
where
  /-- Read further pieces; the flag tells whether none has been read yet. -/
  go (first : Bool) (cs : List Char) : Option (List Char × List Char) :=
    match cs with
    | [] => some ([], [])
    | c :: cs =>
      match normal (c :: cs) with
      | some (piece, rest) =>
        if rest.length < cs.length + 1 then
          (go false rest).map fun r => (piece ++ r.1, r.2)
        else none
      | none =>
        if c = control then
          match transform cs with
          | some (piece, rest) =>
            if rest.length < cs.length + 1 then
              (go false rest).map fun r => (piece ++ r.1, r.2)
            else none
          | none => none
        else if first then none
        else some ([], c :: cs)
  termination_by cs.length

/-! ### Recursion -/

/-- The reader that a recursive rule defines.  The rule can use it on shorter texts. -/
def fix (rule : TextReader α → TextReader α) (cs : List Char) : Option (α × List Char) :=
  rule (fun cs' => if _h : cs'.length < cs.length then fix rule cs' else none) cs
termination_by cs.length

/-- The reader takes at least one character when it succeeds. -/
def Shrinks (p : TextReader α) : Prop :=
  ∀ cs a rest, p cs = some (a, rest) → rest.length < cs.length

/-- The rule reads something, and does so before it recurs. -/
structure Guarded (rule : TextReader α → TextReader α) : Prop where
  shrinks : ∀ p, Shrinks p → Shrinks (rule p)
  congr : ∀ p q cs, Shrinks p → (∀ cs', cs'.length < cs.length → p cs' = q cs') →
    rule p cs = rule q cs

namespace Guarded

variable {rule : TextReader α → TextReader α}

theorem shrinks_fix (h : Guarded rule) : Shrinks (fix rule) := by
  intro cs
  induction hlen : cs.length using Nat.strongRecOn generalizing cs with
  | ind n ih =>
    intro a rest hfix
    rw [fix] at hfix
    rw [← hlen]
    refine h.shrinks _ (fun cs' a rest h' => ?_) cs a rest hfix
    split at h'
    · next hlt => exact ih _ (hlen ▸ hlt) cs' rfl a rest h'
    · cases h'

/-- **The reader that a rule defines satisfies the rule.** -/
theorem fix_eq (h : Guarded rule) : fix rule = rule (fix rule) := by
  funext cs
  rw [fix]
  refine h.congr _ _ cs (fun cs' a rest h' => ?_) fun cs' hlt => dif_pos hlt
  split at h'
  · exact h.shrinks_fix cs' a rest h'
  · cases h'

end Guarded

/-! ### When a reader succeeds -/

section Success

variable {p : TextReader α} {q : TextReader β} {sep : TextReader σ} {cs rest : List Char}
    {a : α} {b : β}

theorem satisfy_eq_some_iff {ok : Char → Bool} {c : Char} :
    satisfy ok cs = some (c, rest) ↔ cs = c :: rest ∧ ok c = true := by
  cases cs with
  | nil => simp [satisfy]
  | cons d cs =>
    simp only [satisfy, Option.ite_none_right_eq_some, Option.some.injEq, Prod.mk.injEq,
      List.cons.injEq]
    constructor
    · rintro ⟨hd, rfl, rfl⟩
      exact ⟨⟨rfl, rfl⟩, hd⟩
    · rintro ⟨⟨rfl, rfl⟩, hd⟩
      exact ⟨hd, rfl, rfl⟩

theorem char_eq_some_iff {c d : Char} : char c cs = some (d, rest) ↔ d = c ∧ cs = c :: rest := by
  rw [char, satisfy_eq_some_iff, beq_iff_eq]
  constructor
  · rintro ⟨rfl, rfl⟩
    exact ⟨rfl, rfl⟩
  · rintro ⟨rfl, rfl⟩
    exact ⟨rfl, rfl⟩

theorem tag_eq_some_iff {word : String} {u : Unit} :
    tag word cs = some (u, rest) ↔ cs = word.toList ++ rest := by
  rw [tag, Option.map_eq_some_iff]
  simp [Text.after?_eq_some_iff]

theorem map_eq_some_iff {f : α → β} :
    map f p cs = some (b, rest) ↔ ∃ a, p cs = some (a, rest) ∧ f a = b := by
  simp [map, Option.map_eq_some_iff]

theorem value_eq_some_iff {c : β} :
    value c p cs = some (b, rest) ↔ b = c ∧ ∃ a, p cs = some (a, rest) := by
  rw [value, map_eq_some_iff]
  constructor
  · rintro ⟨a, ha, rfl⟩
    exact ⟨rfl, a, ha⟩
  · rintro ⟨rfl, a, ha⟩
    exact ⟨a, ha, rfl⟩

theorem mapRes_eq_some_iff {f : α → Option β} :
    mapRes f p cs = some (b, rest) ↔ ∃ a, p cs = some (a, rest) ∧ f a = some b := by
  rw [mapRes]
  cases p cs with
  | none => simp
  | some r =>
    rw [Option.bind_some, Option.map_eq_some_iff]
    constructor
    · rintro ⟨b, hb, heq⟩
      obtain ⟨rfl, rfl⟩ := Prod.mk.inj heq
      exact ⟨r.1, rfl, hb⟩
    · rintro ⟨a, heq, hb⟩
      obtain rfl := Option.some.inj heq
      exact ⟨b, hb, rfl⟩

theorem verify_eq_some_iff {ok : α → Bool} :
    verify ok p cs = some (a, rest) ↔ p cs = some (a, rest) ∧ ok a = true := by
  simp [verify, Option.filter_eq_some_iff]

theorem pair_eq_some_iff {ab : α × β} : pair p q cs = some (ab, rest) ↔
    ∃ mid, p cs = some (ab.1, mid) ∧ q mid = some (ab.2, rest) := by
  rw [pair]
  cases p cs with
  | none => simp
  | some r => simp [Prod.ext_iff, and_assoc, and_comm]

theorem preceded_eq_some_iff :
    preceded p q cs = some (b, rest) ↔ ∃ a mid, p cs = some (a, mid) ∧ q mid = some (b, rest) := by
  simp [preceded, map_eq_some_iff, pair_eq_some_iff]

theorem terminated_eq_some_iff :
    terminated p q cs = some (a, rest) ↔
      ∃ b mid, p cs = some (a, mid) ∧ q mid = some (b, rest) := by
  simp only [terminated, map_eq_some_iff, pair_eq_some_iff, Prod.exists]
  constructor
  · rintro ⟨a, b, ⟨mid, ha, hb⟩, rfl⟩
    exact ⟨b, mid, ha, hb⟩
  · rintro ⟨b, mid, ha, hb⟩
    exact ⟨a, b, ⟨mid, ha, hb⟩, rfl⟩

theorem delimited_eq_some_iff {o : TextReader σ} {c : TextReader β} :
    delimited o p c cs = some (a, rest) ↔ ∃ x mid y mid', o cs = some (x, mid) ∧
      p mid = some (a, mid') ∧ c mid' = some (y, rest) := by
  simp only [delimited, preceded_eq_some_iff, terminated_eq_some_iff]
  constructor
  · rintro ⟨x, mid, ho, y, mid', hp, hc⟩
    exact ⟨x, mid, y, mid', ho, hp, hc⟩
  · rintro ⟨x, mid, y, mid', ho, hp, hc⟩
    exact ⟨x, mid, ho, y, mid', hp, hc⟩

theorem alt_eq_some_iff {q : TextReader α} :
    alt p q cs = some (a, rest) ↔ p cs = some (a, rest) ∨ p cs = none ∧ q cs = some (a, rest) :=
  Option.or_eq_some_iff

theorem opt_eq_some_iff {o : Option α} : opt p cs = some (o, rest) ↔
    (∃ a, p cs = some (a, rest) ∧ o = some a) ∨ p cs = none ∧ o = none ∧ rest = cs := by
  rw [opt]
  cases p cs with
  | none => simp [eq_comm]
  | some r =>
    simp only [Option.some.injEq, Prod.ext_iff, reduceCtorEq, false_and, or_false]
    constructor
    · rintro ⟨rfl, rfl⟩
      exact ⟨r.1, ⟨rfl, rfl⟩, rfl⟩
    · rintro ⟨a, ⟨rfl, rfl⟩, rfl⟩
      exact ⟨rfl, rfl⟩

theorem isSome_opt (p : TextReader α) (cs : List Char) : (opt p cs).isSome = true := by
  rw [opt]
  cases p cs <;> rfl

/-- A list is a first member, alone or followed by a separator and a list. -/
theorem separatedList1_eq_some {as : List α} (h : separatedList1 sep p cs = some (as, rest)) :
    ∃ a mid, p cs = some (a, mid) ∧ (as = [a] ∧ rest = mid ∨
      ∃ x after as', sep mid = some (x, after) ∧ after.length < mid.length ∧
        separatedList1 sep p after = some (as', rest) ∧ as = a :: as') := by
  rw [separatedList1, Option.bind_eq_some_iff] at h
  obtain ⟨⟨a, mid⟩, ha, h⟩ := h
  obtain ⟨⟨as, rest⟩, hmore, heq⟩ := Option.map_eq_some_iff.1 h
  obtain ⟨rfl, rfl⟩ := Prod.mk.inj heq
  refine ⟨a, mid, ha, ?_⟩
  rw [separatedMore] at hmore
  split at hmore
  · obtain ⟨rfl, rfl⟩ := Prod.mk.inj (Option.some.inj hmore)
    exact .inl ⟨rfl, rfl⟩
  · next x after hsep =>
    split at hmore
    · next hlt =>
      split at hmore
      · obtain ⟨rfl, rfl⟩ := Prod.mk.inj (Option.some.inj hmore)
        exact .inl ⟨rfl, rfl⟩
      · next a' mid' ha' =>
        split at hmore
        · obtain ⟨⟨as, rest⟩, hmore, heq⟩ := Option.map_eq_some_iff.1 hmore
          obtain ⟨rfl, rfl⟩ := Prod.mk.inj heq
          refine .inr ⟨x, after, a' :: as, hsep, hlt, ?_, rfl⟩
          rw [separatedList1, ha', Option.bind_some, hmore]
        · cases hmore
    · cases hmore

theorem separatedList1_single (ha : p cs = some (a, rest)) (hsep : sep rest = none) :
    separatedList1 sep p cs = some ([a], rest) := by
  rw [separatedList1, ha, Option.bind_some, separatedMore, hsep]
  rfl

theorem separatedList1_cons (hp : Shrinks p) {x : σ} {mid after : List Char} {as : List α}
    (ha : p cs = some (a, mid)) (hsep : sep mid = some (x, after)) (hlt : after.length < mid.length)
    (has : separatedList1 sep p after = some (as, rest)) :
    separatedList1 sep p cs = some (a :: as, rest) := by
  rw [separatedList1, Option.bind_eq_some_iff] at has
  obtain ⟨⟨a', mid'⟩, ha', hmore⟩ := has
  have hlt' : mid'.length < mid.length := Nat.lt_trans (hp _ _ _ ha') hlt
  rw [separatedList1, ha, Option.bind_some, separatedMore, hsep]
  simp only [if_pos hlt, ha', if_pos hlt', hmore]
  rfl

theorem separatedList0_eq_some_iff {as : List α} : separatedList0 sep p cs = some (as, rest) ↔
    p cs = none ∧ as = [] ∧ rest = cs ∨ separatedList1 sep p cs = some (as, rest) := by
  rw [separatedList0, separatedList1]
  cases p cs with
  | none => simp [eq_comm]
  | some r => simp

end Success

/-! ### Readers that take something -/

/-- The reader gives nothing back to the text. -/
def Keeps (p : TextReader α) : Prop := ∀ cs a rest, p cs = some (a, rest) → rest.length ≤ cs.length

section Progress

variable {p p' : TextReader α} {q : TextReader β}

theorem Shrinks.keeps (hp : Shrinks p) : Keeps p := fun cs a rest h => Nat.le_of_lt (hp cs a rest h)

theorem Shrinks.map (hp : Shrinks p) (f : α → β) : Shrinks (map f p) := by
  intro cs b rest h
  obtain ⟨a, ha, -⟩ := map_eq_some_iff.1 h
  exact hp cs a rest ha

theorem Shrinks.value (hp : Shrinks p) (b : β) : Shrinks (value b p) := hp.map fun _ => b

theorem Shrinks.verify (hp : Shrinks p) (ok : α → Bool) : Shrinks (verify ok p) :=
  fun cs a rest h => hp cs a rest (verify_eq_some_iff.1 h).1

theorem Shrinks.alt (hp : Shrinks p) (hp' : Shrinks p') : Shrinks (alt p p') := by
  intro cs a rest h
  rcases alt_eq_some_iff.1 h with h | ⟨-, h⟩
  · exact hp cs a rest h
  · exact hp' cs a rest h

theorem Shrinks.pair (hp : Shrinks p) (hq : Keeps q) : Shrinks (pair p q) := by
  intro cs ab rest h
  obtain ⟨mid, ha, hb⟩ := pair_eq_some_iff.1 h
  exact Nat.lt_of_le_of_lt (hq _ _ _ hb) (hp _ _ _ ha)

theorem Keeps.pair (hp : Keeps p) (hq : Shrinks q) : Shrinks (pair p q) := by
  intro cs ab rest h
  obtain ⟨mid, ha, hb⟩ := pair_eq_some_iff.1 h
  exact Nat.lt_of_lt_of_le (hq _ _ _ hb) (hp _ _ _ ha)

theorem Shrinks.opt (hp : Shrinks p) : Keeps (opt p) := by
  intro cs o rest h
  rcases opt_eq_some_iff.1 h with ⟨a, ha, -⟩ | ⟨-, -, rfl⟩
  · exact hp.keeps _ _ _ ha
  · exact Nat.le_refl _

theorem Shrinks.delimited {o : TextReader σ} {c : TextReader β} (ho : Shrinks o) (hp : Keeps p)
    (hc : Shrinks c) : Shrinks (delimited o p c) := by
  intro cs a rest h
  obtain ⟨x, mid, y, mid', hopen, hmid, hclose⟩ := delimited_eq_some_iff.1 h
  have hmid' := hp _ _ _ hmid
  exact Nat.lt_trans (hc _ _ _ hclose) (Nat.lt_of_le_of_lt hmid' (ho _ _ _ hopen))

theorem Shrinks.separatedList1 (hp : Shrinks p) (sep : TextReader σ) :
    Shrinks (separatedList1 sep p) := by
  intro cs as rest h
  induction hlen : cs.length using Nat.strongRecOn generalizing cs as with
  | ind n ih =>
    obtain ⟨a, mid, ha, ⟨-, rfl⟩ | ⟨x, after, as', -, hlt, has, -⟩⟩ := separatedList1_eq_some h
    · exact hlen ▸ hp _ _ _ ha
    · have hmid := hp _ _ _ ha
      have hrest := ih after.length (by omega) after as' has rfl
      omega

theorem Shrinks.separatedList0 (hp : Shrinks p) (sep : TextReader σ) :
    Keeps (separatedList0 sep p) := by
  intro cs as rest h
  rcases separatedList0_eq_some_iff.1 h with ⟨-, -, rfl⟩ | h
  · exact Nat.le_refl _
  · exact (hp.separatedList1 sep).keeps _ _ _ h

end Progress

/-! ### What a reader depends on -/

section Congruence

variable {p q : TextReader α} {cs : List Char}

theorem pair_congr {r : TextReader β} (h : ∀ b mid, r cs = some (b, mid) → p mid = q mid) :
    pair r p cs = pair r q cs := by
  unfold pair
  cases hr : r cs with
  | none => rfl
  | some s => rw [Option.bind_some, Option.bind_some, h s.1 s.2 hr]

theorem pair_congr_left {r : TextReader β} (h : p cs = q cs) : pair p r cs = pair q r cs := by
  rw [pair, pair, h]

theorem delimited_congr {o : TextReader β} {c : TextReader σ}
    (h : ∀ b mid, o cs = some (b, mid) → p mid = q mid) :
    delimited o p c cs = delimited o q c cs := by
  refine congrArg (Option.map _) (pair_congr fun b mid ho => ?_)
  simp only [terminated, map, pair, h b mid ho]

theorem separatedMore_congr {sep : TextReader σ}
    (h : ∀ cs', cs'.length < cs.length → p cs' = q cs') :
    separatedMore sep p cs = separatedMore sep q cs := by
  induction hlen : cs.length using Nat.strongRecOn generalizing cs with
  | ind n ih =>
    rw [separatedMore, separatedMore]
    cases sep cs with
    | none => rfl
    | some r =>
      obtain ⟨x, after⟩ := r
      by_cases hlt : after.length < cs.length
      · simp only [if_pos hlt, ← h after hlt]
        cases p after with
        | none => rfl
        | some r =>
          obtain ⟨a, rest⟩ := r
          by_cases hrest : rest.length < cs.length
          · simp only [if_pos hrest]
            rw [ih _ (hlen ▸ hrest) (fun cs' hcs' => h cs' (Nat.lt_trans hcs' hrest)) rfl]
          · simp only [if_neg hrest]
      · simp only [if_neg hlt]

theorem separatedList1_congr {sep : TextReader σ} (hp : Shrinks p)
    (h : ∀ cs', cs'.length ≤ cs.length → p cs' = q cs') :
    separatedList1 sep p cs = separatedList1 sep q cs := by
  unfold separatedList1
  rw [← h cs (Nat.le_refl _)]
  cases ha : p cs with
  | none => rfl
  | some r =>
    have hmore : separatedMore sep p r.2 = separatedMore sep q r.2 := by
      have hlt := hp _ _ _ ha
      exact separatedMore_congr fun cs' hcs' => h cs' (by omega)
    rw [Option.bind_some, Option.bind_some, hmore]

theorem separatedList0_congr {sep : TextReader σ} (hp : Shrinks p)
    (h : ∀ cs', cs'.length ≤ cs.length → p cs' = q cs') :
    separatedList0 sep p cs = separatedList0 sep q cs := by
  have hlist : separatedList1 sep p cs = separatedList1 sep q cs := separatedList1_congr hp h
  unfold separatedList1 at hlist
  unfold separatedList0
  rw [← h cs (Nat.le_refl _)] at hlist ⊢
  cases ha : p cs with
  | none => rfl
  | some r =>
    rw [ha] at hlist
    exact hlist

end Congruence

end TextReader

end Refutation
