import Refutation.Substitution

/-!
# Trails of bindings

A trail is a substitution that grows by one binding at a time and can be taken back to an earlier
state.  It keeps a table of the bindings and, apart from it, the names of the bound variables,
newest first.  A mark is the number of names at some moment; `Trail.undoTo` takes off the names
added since, one after the other, and removes each from the table.
-/

namespace Refutation

/-- A table of bindings and the order in which they were made. -/
structure Trail where
  /-- The term bound to each variable. -/
  table : OrderedMap String Term
  /-- The bound variables, newest first. -/
  names : List String
deriving DecidableEq, Inhabited

namespace Trail

/-- A moment in the life of a trail: the number of names it had. -/
structure Mark where
  /-- The number of names. -/
  depth : Nat
deriving DecidableEq, Repr, Inhabited

/-- The trail without bindings. -/
def empty : Trail := ⟨.empty, []⟩

variable (τ : Trail)

/-- The term bound to a variable. -/
def get? (x : String) : Option Term := τ.table.get? x

def isBound (x : String) : Bool := (τ.get? x).isSome

/-- The number of names. -/
def size : Nat := τ.names.length

def isEmpty : Bool := τ.names.isEmpty

/-- The bound variables, oldest first. -/
def domain : List String := τ.names.reverse

/-- The trail with a further binding.  The variable is expected to be unbound. -/
def bind (x : String) (u : Term) : Trail := ⟨τ.table.insert x u, x :: τ.names⟩

/-- The present moment. -/
def mark : Mark := ⟨τ.size⟩

/-- While there are more than `depth` names, take off the newest and remove it from the table. -/
def unwind (depth : Nat) (table : OrderedMap String Term) : List String → Trail
  | [] => ⟨table, []⟩
  | x :: names =>
    if depth < names.length + 1 then unwind depth (table.erase x) names else ⟨table, x :: names⟩

/-- Remove every binding made after the mark. -/
def undoTo (m : Mark) : Trail := unwind m.depth τ.table τ.names

/-- Remove the newest binding; `none` if there is none. -/
def undoLast? : Option Trail :=
  match τ.names with
  | [] => none
  | x :: names => some ⟨τ.table.erase x, names⟩

/-- What the trail puts in place of a variable. -/
def assign (x : String) : Term := (τ.get? x).getD (.var x)

/-- The term with all bound variables replaced, in one pass. -/
def apply (t : Term) : Term := t.subst τ.assign

/-- The bindings in the order in which they were made, in braces. -/
def render : String :=
  let bindings := τ.domain.map fun x =>
    (τ.get? x).elim "" fun u => Substitution.renderBinding (x, u)
  "\x7b" ++ String.intercalate ", " bindings ++ "\x7d"

variable {τ} {m : Mark} {x : String} {u : Term}

theorem get?_bind (x : String) (u : Term) (y : String) :
    (τ.bind x u).get? y = if y = x then some u else τ.get? y := by
  by_cases h : y = x
  · simp [get?, bind, h]
  · simp [get?, bind, h, OrderedMap.get?_insert_of_ne]

theorem domain_bind : (τ.bind x u).domain = τ.domain ++ [x] := by simp [domain, bind]

theorem length_domain (τ : Trail) : τ.domain.length = τ.size := List.length_reverse

/-- Unbinding a variable by name takes back what binding it did, if it was unbound before. -/
theorem erase_table_bind (hx : τ.get? x = none) : (τ.bind x u).table.erase x = τ.table := by
  refine OrderedMap.ext_get? fun y => ?_
  by_cases hy : y = x
  · simp [OrderedMap.erase, OrderedMap.get?_alter, hy, show τ.table.get? x = none from hx]
  · simp [OrderedMap.erase, OrderedMap.get?_alter, hy, bind, OrderedMap.get?_insert_of_ne]

theorem undoLast?_bind (hx : τ.get? x = none) : (τ.bind x u).undoLast? = some τ :=
  congrArg (fun table => some (Trail.mk table τ.names)) (erase_table_bind hx)

theorem undoTo_of_size_le (h : τ.size ≤ m.depth) : τ.undoTo m = τ := by
  obtain ⟨table, names⟩ := τ
  cases names with
  | nil => rfl
  | cons x names => exact if_neg (Nat.not_lt.2 h)

theorem size_undoTo_le (τ : Trail) (m : Mark) : (τ.undoTo m).size ≤ m.depth := by
  obtain ⟨table, names⟩ := τ
  change (unwind m.depth table names).size ≤ m.depth
  induction names generalizing table with
  | nil => exact Nat.zero_le _
  | cons x names ih =>
    rw [unwind]
    split
    · exact ih _
    · next h => exact Nat.le_of_not_lt h

@[simp] theorem undoTo_mark : τ.undoTo τ.mark = τ := undoTo_of_size_le (Nat.le_refl _)

/-- A binding made after the mark is removed, and undoing goes on below it. -/
theorem undoTo_bind (hx : τ.get? x = none) (h : m.depth ≤ τ.size) :
    (τ.bind x u).undoTo m = τ.undoTo m := by
  have hstep : (τ.bind x u).undoTo m = unwind m.depth ((τ.bind x u).table.erase x) τ.names :=
    if_pos (Nat.lt_succ_of_le h)
  rw [hstep, erase_table_bind hx, undoTo]

end Trail

end Refutation
