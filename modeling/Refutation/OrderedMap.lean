/-!
# Finite maps in the order of their keys

A map from ordered keys to values, kept as the list of its entries in increasing order of keys.  The
list is determined by the map, so two maps are equal when they hold the same values
(`OrderedMap.ext_get?`).  Every change goes through `OrderedMap.alter`, which
`OrderedMap.get?_alter` describes.
-/

namespace Refutation

/-- A finite map: its entries, listed by increasing key. -/
structure OrderedMap (κ β : Type) [Ord κ] where
  /-- The entries. -/
  entries : List (κ × β)
  /-- The keys increase. -/
  increasing : entries.Pairwise fun p q => compare p.1 q.1 = .lt
deriving DecidableEq

namespace OrderedMap

variable {κ β γ : Type} [Ord κ]

/-- The map without entries. -/
def empty : OrderedMap κ β := ⟨[], .nil⟩

instance : Inhabited (OrderedMap κ β) := ⟨empty⟩

/-- The value in a list of entries with increasing keys. -/
def find? (k : κ) : List (κ × β) → Option β
  | [] => none
  | (k', b) :: rest => if compare k k' = .eq then some b else find? k rest

/-- The value stored under a key. -/
def get? (m : OrderedMap κ β) (k : κ) : Option β := find? k m.entries

/-- The map has a value for the key. -/
def contains (m : OrderedMap κ β) (k : κ) : Bool := (m.get? k).isSome

/-- The number of entries. -/
def size (m : OrderedMap κ β) : Nat := m.entries.length

def isEmpty (m : OrderedMap κ β) : Bool := m.entries.isEmpty

/-- The keys in increasing order. -/
def keys (m : OrderedMap κ β) : List κ := m.entries.map (·.1)

/-- The values in the order of their keys. -/
def values (m : OrderedMap κ β) : List β := m.entries.map (·.2)

/-- The entry with the least key. -/
def first? (m : OrderedMap κ β) : Option (κ × β) := m.entries.head?

/-- Change the value of a key in a list of entries with increasing keys. -/
def alterList (k : κ) (f : Option β → Option β) : List (κ × β) → List (κ × β)
  | [] => (f none).toList.map (k, ·)
  | (k', b) :: rest =>
    match compare k k' with
    | .lt => (f none).toList.map (k, ·) ++ (k', b) :: rest
    | .eq => (f (some b)).toList.map (k, ·) ++ rest
    | .gt => (k', b) :: alterList k f rest

theorem mem_alterList {k : κ} {f : Option β → Option β} {l : List (κ × β)} {p : κ × β}
    (h : p ∈ alterList k f l) : p.1 = k ∨ p ∈ l := by
  induction l with
  | nil =>
    simp only [alterList, List.mem_map] at h
    obtain ⟨_, _, rfl⟩ := h
    exact .inl rfl
  | cons q rest ih =>
    simp only [alterList] at h
    split at h
    · rcases List.mem_append.1 h with h | h
      · obtain ⟨_, _, rfl⟩ := List.mem_map.1 h
        exact .inl rfl
      · exact .inr h
    · rcases List.mem_append.1 h with h | h
      · obtain ⟨_, _, rfl⟩ := List.mem_map.1 h
        exact .inl rfl
      · exact .inr (List.mem_cons_of_mem _ h)
    · rcases List.mem_cons.1 h with rfl | h
      · exact .inr List.mem_cons_self
      · exact (ih h).imp_right (List.mem_cons_of_mem _)

/-- The map with `f` applied to every value. -/
def map (m : OrderedMap κ β) (f : β → γ) : OrderedMap κ γ where
  entries := m.entries.map fun p => (p.1, f p.2)
  increasing := List.pairwise_map.2 m.increasing

@[simp] theorem get?_empty (k : κ) : (empty : OrderedMap κ β).get? k = none := rfl

@[simp] theorem get?_map (m : OrderedMap κ β) (f : β → γ) (k : κ) :
    (m.map f).get? k = (m.get? k).map f := by
  show find? k (m.entries.map fun p => (p.1, f p.2)) = (find? k m.entries).map f
  induction m.entries with
  | nil => rfl
  | cons q rest ih =>
    simp only [List.map_cons, find?]
    split
    · rfl
    · exact ih

theorem find?_eq_none_of_lt {k : κ} {l : List (κ × β)} (h : ∀ p ∈ l, compare k p.1 = .lt) :
    find? k l = none := by
  induction l with
  | nil => rfl
  | cons q rest ih =>
    have hq := h q List.mem_cons_self
    simp only [find?, hq]
    exact ih fun p hp => h p (List.mem_cons_of_mem _ hp)

theorem mem_of_find? [Std.LawfulEqOrd κ] {k : κ} {b : β} {l : List (κ × β)}
    (h : find? k l = some b) : (k, b) ∈ l := by
  induction l with
  | nil => simp [find?] at h
  | cons q rest ih =>
    simp only [find?] at h
    split at h
    · next heq =>
      have hk : k = q.1 := Std.LawfulEqCmp.eq_of_compare heq
      obtain rfl : q.2 = b := by simpa using h
      exact hk ▸ List.mem_cons_self
    · exact List.mem_cons_of_mem _ (ih h)

theorem nodup_keys [Std.ReflOrd κ] (m : OrderedMap κ β) : m.keys.Nodup :=
  List.pairwise_map.2 (m.increasing.imp fun hlt heq => by simp [heq] at hlt)

variable [Std.TransOrd κ] [Std.LawfulEqOrd κ]

theorem pairwise_alterList {k : κ} {f : Option β → Option β} {l : List (κ × β)}
    (h : l.Pairwise fun p q => compare p.1 q.1 = .lt) :
    (alterList k f l).Pairwise fun p q => compare p.1 q.1 = .lt := by
  induction l with
  | nil => cases hf : f none <;> simp [alterList, hf]
  | cons q rest ih =>
    obtain ⟨hq, hrest⟩ := List.pairwise_cons.1 h
    simp only [alterList]
    split
    · next hlt =>
      have hall : ∀ p ∈ q :: rest, compare k p.1 = .lt := by
        intro p hp
        rcases List.mem_cons.1 hp with rfl | hp
        · exact hlt
        · exact Std.TransCmp.lt_trans hlt (hq p hp)
      cases hf : f none with
      | none => simpa using h
      | some b =>
        simp only [Option.toList_some, List.map_cons, List.map_nil, List.singleton_append]
        exact List.pairwise_cons.2 ⟨hall, h⟩
    · next heq =>
      have hk : k = q.1 := Std.LawfulEqCmp.eq_of_compare heq
      cases hf : f (some q.2) with
      | none => simpa using hrest
      | some b =>
        simp only [Option.toList_some, List.map_cons, List.map_nil, List.singleton_append]
        exact List.pairwise_cons.2 ⟨fun p hp => hk ▸ hq p hp, hrest⟩
    · next hgt =>
      refine List.pairwise_cons.2 ⟨fun p hp => ?_, ih hrest⟩
      rcases mem_alterList hp with hpk | hp
      · rw [hpk]; exact Std.OrientedCmp.gt_iff_lt.1 hgt
      · exact hq p hp

/-- The map with the value of `k` changed by `f`, where `none` stands for no value. -/
def alter (m : OrderedMap κ β) (k : κ) (f : Option β → Option β) : OrderedMap κ β :=
  ⟨alterList k f m.entries, pairwise_alterList m.increasing⟩

/-- The map with `b` stored under `k`, in place of any earlier value. -/
def insert (m : OrderedMap κ β) (k : κ) (b : β) : OrderedMap κ β := m.alter k fun _ => some b

/-- The map without the key `k`. -/
def erase (m : OrderedMap κ β) (k : κ) : OrderedMap κ β := m.alter k fun _ => none

/-- The map of the given entries; of two entries with one key the later counts. -/
def ofList (entries : List (κ × β)) : OrderedMap κ β :=
  entries.foldl (fun m p => m.insert p.1 p.2) empty

/-- The map with all entries of `m`, and those of `m'` under keys that `m` lacks. -/
def union (m m' : OrderedMap κ β) : OrderedMap κ β :=
  m.entries.foldl (fun acc p => acc.insert p.1 p.2) m'

/-! ### Look-up -/

theorem find?_alterList {k k' : κ} {f : Option β → Option β} {l : List (κ × β)}
    (h : l.Pairwise fun p q => compare p.1 q.1 = .lt) :
    find? k' (alterList k f l) = if compare k' k = .eq then f (find? k l) else find? k' l := by
  induction l with
  | nil => cases hf : f none <;> simp [alterList, find?, hf]
  | cons q rest ih =>
    obtain ⟨hq, hrest⟩ := List.pairwise_cons.1 h
    simp only [alterList]
    split
    · next hlt =>
      have hnone : find? k (q :: rest) = none := by
        refine find?_eq_none_of_lt fun p hp => ?_
        rcases List.mem_cons.1 hp with rfl | hp
        · exact hlt
        · exact Std.TransCmp.lt_trans hlt (hq p hp)
      rw [hnone]
      cases hf : f none with
      | none =>
        simp only [Option.toList_none, List.map_nil, List.nil_append]
        split
        · next heq => rw [Std.LawfulEqCmp.eq_of_compare heq, hnone]
        · rfl
      | some b => simp [find?]
    · next heq =>
      have hk : k = q.1 := Std.LawfulEqCmp.eq_of_compare heq
      have hnone : find? k rest = none := by
        refine find?_eq_none_of_lt fun p hp => ?_
        rw [hk]; exact hq p hp
      have hfind : find? k (q :: rest) = some q.2 := by simp [find?, heq]
      rw [hfind]
      by_cases hk' : compare k' k = .eq
      · have : k' = k := Std.LawfulEqCmp.eq_of_compare hk'
        subst this
        cases hf : f (some q.2) <;> simp [find?, hnone]
      · have hne : compare k' q.1 ≠ .eq := by rw [← hk]; exact hk'
        cases hf : f (some q.2) <;> simp [find?, hk', hne]
    · next hgt =>
      by_cases hk' : compare k' k = .eq
      · have : k' = k := Std.LawfulEqCmp.eq_of_compare hk'
        subst this
        simp [find?, hgt, ih hrest]
      · simp [find?, ih hrest, hk']

theorem get?_alter (m : OrderedMap κ β) (k k' : κ) (f : Option β → Option β) :
    (m.alter k f).get? k' = if compare k' k = .eq then f (m.get? k) else m.get? k' :=
  find?_alterList m.increasing

@[simp] theorem get?_insert_self (m : OrderedMap κ β) (k : κ) (b : β) :
    (m.insert k b).get? k = some b := by
  simp [insert, get?_alter]

theorem get?_insert_of_ne (m : OrderedMap κ β) {k k' : κ} (b : β) (h : k' ≠ k) :
    (m.insert k b).get? k' = m.get? k' := by
  simp [insert, get?_alter, h]

theorem get?_foldl_insert {l : List (κ × β)} (h : l.Pairwise fun p q => compare p.1 q.1 = .lt)
    (m : OrderedMap κ β) (k : κ) :
    (l.foldl (fun acc p => acc.insert p.1 p.2) m).get? k = (find? k l).or (m.get? k) := by
  induction l generalizing m with
  | nil => rfl
  | cons q rest ih =>
    obtain ⟨hq, hrest⟩ := List.pairwise_cons.1 h
    rw [List.foldl_cons, ih hrest]
    by_cases hk : compare k q.1 = .eq
    · obtain rfl : k = q.1 := Std.LawfulEqCmp.eq_of_compare hk
      rw [find?_eq_none_of_lt hq]
      simp [find?]
    · have hne : k ≠ q.1 := fun h => hk (by simp [h])
      simp [find?, hk, get?_insert_of_ne _ _ hne]

@[simp] theorem get?_union (m m' : OrderedMap κ β) (k : κ) :
    (m.union m').get? k = (m.get? k).or (m'.get? k) :=
  get?_foldl_insert m.increasing m' k

theorem find?_of_mem {k : κ} {b : β} {l : List (κ × β)}
    (h : l.Pairwise fun p q => compare p.1 q.1 = .lt) (hm : (k, b) ∈ l) : find? k l = some b := by
  induction l with
  | nil => simp at hm
  | cons q rest ih =>
    obtain ⟨hq, hrest⟩ := List.pairwise_cons.1 h
    rcases List.mem_cons.1 hm with rfl | hm
    · simp [find?]
    · have hgt : compare k q.1 = .gt := Std.OrientedCmp.gt_iff_lt.2 (hq (k, b) hm)
      simp only [find?, hgt]
      exact ih hrest hm

/-- The entries of a map are the pairs of a key and the value stored under it. -/
theorem mem_entries_iff (m : OrderedMap κ β) {k : κ} {b : β} :
    (k, b) ∈ m.entries ↔ m.get? k = some b :=
  ⟨find?_of_mem m.increasing, mem_of_find?⟩

theorem mem_keys_iff (m : OrderedMap κ β) {k : κ} : k ∈ m.keys ↔ (m.get? k).isSome = true := by
  simp [keys, mem_entries_iff, Option.isSome_iff_exists]

theorem eq_or_lt_of_first? {m : OrderedMap κ β} {k k' : κ} {b b' : β}
    (hfirst : m.first? = some (k, b)) (h : m.get? k' = some b') : k' = k ∨ compare k k' = .lt := by
  obtain ⟨rest, hentries⟩ := List.head?_eq_some_iff.1 hfirst
  have hmem := m.mem_entries_iff.2 h
  have hincreasing := m.increasing
  rw [hentries] at hmem hincreasing
  rcases List.mem_cons.1 hmem with heq | hmem
  · exact .inl (congrArg Prod.fst heq)
  · exact .inr ((List.pairwise_cons.1 hincreasing).1 _ hmem)

theorem eq_of_mem_iff {l l' : List (κ × β)} (h : l.Pairwise fun p q => compare p.1 q.1 = .lt)
    (h' : l'.Pairwise fun p q => compare p.1 q.1 = .lt) (hm : ∀ p, p ∈ l ↔ p ∈ l') : l = l' := by
  induction l generalizing l' with
  | nil =>
    cases l' with
    | nil => rfl
    | cons q _ => exact absurd ((hm q).2 List.mem_cons_self) (by simp)
  | cons p rest ih =>
    cases l' with
    | nil => exact absurd ((hm p).1 List.mem_cons_self) (by simp)
    | cons q rest' =>
      obtain ⟨hp, hrest⟩ := List.pairwise_cons.1 h
      obtain ⟨hq, hrest'⟩ := List.pairwise_cons.1 h'
      have hpq : p = q := by
        rcases List.mem_cons.1 ((hm p).1 List.mem_cons_self) with hpq | hpq
        · exact hpq
        · rcases List.mem_cons.1 ((hm q).2 List.mem_cons_self) with hqp | hqp
          · exact hqp.symm
          · have h1 := hq p hpq
            have h2 := hp q hqp
            rw [Std.OrientedCmp.gt_iff_lt.2 h1] at h2
            cases h2
      subst hpq
      have hirr : ∀ {r : List (κ × β)}, (∀ x ∈ r, compare p.1 x.1 = .lt) → p ∉ r := by
        intro r hr hpr
        have := hr p hpr
        simp at this
      congr 1
      refine ih hrest hrest' fun x => ⟨fun hx => ?_, fun hx => ?_⟩
      · rcases List.mem_cons.1 ((hm x).1 (List.mem_cons_of_mem _ hx)) with rfl | hx'
        · exact absurd hx (hirr hp)
        · exact hx'
      · rcases List.mem_cons.1 ((hm x).2 (List.mem_cons_of_mem _ hx)) with rfl | hx'
        · exact absurd hx (hirr hq)
        · exact hx'

theorem ext_get? {m m' : OrderedMap κ β} (h : ∀ k, m.get? k = m'.get? k) : m = m' := by
  obtain ⟨l, hl⟩ := m
  obtain ⟨l', hl'⟩ := m'
  have : l = l' := by
    refine eq_of_mem_iff hl hl' fun p => ?_
    have h1 := mem_entries_iff ⟨l, hl⟩ (k := p.1) (b := p.2)
    have h2 := mem_entries_iff ⟨l', hl'⟩ (k := p.1) (b := p.2)
    exact h1.trans ((by rw [h p.1] : _ ↔ _).trans h2.symm)
  subst this
  rfl

end OrderedMap

end Refutation
