import Refutation.Token.Basic

/-!
# Terms

First-order terms over named symbols, with equality, the order used for sorting, the variables that
occur in them, their weight, and the action of a replacement of variables by terms.

All replacement of variables goes through one function, `Term.subst`; the laws `Term.subst_var` and
`Term.subst_subst` say that it is an action.
-/

namespace Refutation

/-- Induction along the removal of repeated elements: a property passes to a list from what is left
of it without the copies of its first element. -/
theorem eraseDups_induct {α : Type} [BEq α] {P : List α → Prop} (nil : P [])
    (cons : ∀ a as, P (as.filter fun b => !b == a) → P (a :: as)) (as : List α) : P as := by
  induction hn : as.length using Nat.strongRecOn generalizing as with
  | ind n ih =>
    cases as with
    | nil => exact nil
    | cons a as =>
      have hle := List.length_filter_le (fun b => !b == a) as
      rw [List.length_cons] at hn
      exact cons a as (ih _ (by omega) _ rfl)

theorem pairwise_zipIdx {α : Type} (as : List α) : as.zipIdx.Pairwise fun p q => p.2 < q.2 := by
  refine List.pairwise_map.1 ?_
  rw [List.zipIdx_map_snd]
  exact List.pairwise_lt_range'

/-- A first-order term: a variable, or a symbol applied to arguments.  A symbol without arguments is
a constant. -/
inductive Term where
  | var (name : String)
  | app (symbol : String) (args : List Term)
deriving Repr, Inhabited

namespace Term

/-! ### Equality and order -/

mutual

/-- Equality of terms is decidable. -/
def decEq : (s t : Term) → Decidable (s = t)
  | .var x, .var y => if h : x = y then isTrue (by rw [h]) else isFalse (by simpa using h)
  | .var _, .app _ _ => isFalse (by simp)
  | .app _ _, .var _ => isFalse (by simp)
  | .app f ss, .app g ts =>
    if h : f = g then
      match decEqList ss ts with
      | isTrue h' => isTrue (by rw [h, h'])
      | isFalse h' => isFalse (by simp [h'])
    else isFalse (by simp [h])

/-- Equality of argument lists is decidable. -/
def decEqList : (ss ts : List Term) → Decidable (ss = ts)
  | [], [] => isTrue rfl
  | [], _ :: _ => isFalse (by simp)
  | _ :: _, [] => isFalse (by simp)
  | s :: ss, t :: ts =>
    match decEq s t, decEqList ss ts with
    | isTrue h, isTrue h' => isTrue (by rw [h, h'])
    | isFalse h, _ => isFalse (by simp [h])
    | _, isFalse h => isFalse (by simp [h])

end

instance : DecidableEq Term := decEq

mutual

/-- Variables come before applications; variables are ordered by name, applications by symbol and
then by their arguments from left to right. -/
def cmp : Term → Term → Ordering
  | .var x, .var y => compare x y
  | .var _, .app _ _ => .lt
  | .app _ _, .var _ => .gt
  | .app f ss, .app g ts => (compare f g).then (cmpList ss ts)

/-- The order of argument lists, position by position; a proper beginning comes first. -/
def cmpList : List Term → List Term → Ordering
  | [], [] => .eq
  | [], _ :: _ => .lt
  | _ :: _, [] => .gt
  | s :: ss, t :: ts => (cmp s t).then (cmpList ss ts)

end

instance : Ord Term := ⟨cmp⟩

/-- The terms in increasing order, each once. -/
def sorted (ts : List Term) : List Term :=
  (ts.mergeSort fun s t => (cmp s t).isLE).eraseDups

/-! ### Shape -/

/-- A symbol without arguments. -/
def const (symbol : String) : Term := .app symbol []

def isVar : Term → Bool
  | .var _ => true
  | .app _ _ => false

def isConstant : Term → Bool
  | .app _ [] => true
  | _ => false

/-- The outermost symbol of an application. -/
def symbol? : Term → Option String
  | .var _ => none
  | .app f _ => some f

/-- The arguments of an application; a variable has none. -/
def args : Term → List Term
  | .var _ => []
  | .app _ ts => ts

/-- The number of arguments. -/
def arity (t : Term) : Nat := t.args.length

/-! ### Variables -/

mutual

/-- The variables of a term from left to right, one entry for each occurrence. -/
def occurrences : Term → List String
  | .var x => [x]
  | .app _ ts => occurrencesList ts

/-- The variables of a list of terms, one entry for each occurrence. -/
def occurrencesList : List Term → List String
  | [] => []
  | t :: ts => occurrences t ++ occurrencesList ts

end

mutual

/-- The variable `x` occurs in the term. -/
def occurs (x : String) : Term → Bool
  | .var y => y == x
  | .app _ ts => occursList x ts

/-- The variable `x` occurs in one of the terms. -/
def occursList (x : String) : List Term → Bool
  | [] => false
  | t :: ts => occurs x t || occursList x ts

end

/-- The variables of a term in order of first occurrence. -/
def vars (t : Term) : List String := t.occurrences.eraseDups

/-- No variable occurs in the term. -/
def isGround (t : Term) : Bool := t.occurrences.isEmpty

/-! ### Size and weight -/

mutual

/-- The number of occurrences of symbols and variables. -/
def size : Term → Nat
  | .var _ => 1
  | .app _ ts => 1 + sizeList ts

/-- The size of a list of terms. -/
def sizeList : List Term → Nat
  | [] => 0
  | t :: ts => size t + sizeList ts

end

mutual

/-- The weight of a term: `f` for each symbol, `v` for each variable, counted by occurrence. -/
def weight (f v : Nat) : Term → Nat
  | .var _ => v
  | .app _ ts => f + weightList f v ts

/-- The weight of a list of terms. -/
def weightList (f v : Nat) : List Term → Nat
  | [] => 0
  | t :: ts => weight f v t + weightList f v ts

end

/-! ### Replacing variables -/

mutual

/-- The term with every variable `x` replaced by `θ x`, all at once. -/
def subst (θ : String → Term) : Term → Term
  | .var x => θ x
  | .app f ts => .app f (substList θ ts)

/-- The action of `θ` on a list of terms. -/
def substList (θ : String → Term) : List Term → List Term
  | [] => []
  | t :: ts => subst θ t :: substList θ ts

end

/-- The assignment that replaces `x` by `u` and keeps every other variable. -/
def single (x : String) (u : Term) (y : String) : Term := if y = x then u else .var y

/-- The term with every occurrence of `x` replaced by `u`. -/
def replace (t : Term) (x : String) (u : Term) : Term := t.subst (single x u)

@[simp] theorem substList_eq_map (θ : String → Term) (ts : List Term) :
    substList θ ts = ts.map (subst θ) := by
  induction ts with
  | nil => rfl
  | cons t ts ih => simp [substList, ih]

@[simp] theorem occurrencesList_eq_flatMap (ts : List Term) :
    occurrencesList ts = ts.flatMap occurrences := by
  induction ts with
  | nil => rfl
  | cons t ts ih => simp [occurrencesList, ih]

@[simp] theorem sizeList_eq_foldr (ts : List Term) :
    sizeList ts = ts.foldr (fun t n => t.size + n) 0 := by
  induction ts with
  | nil => rfl
  | cons t ts ih => simp [sizeList, ih]

@[simp] theorem weightList_eq_foldr (f v : Nat) (ts : List Term) :
    weightList f v ts = ts.foldr (fun t n => t.weight f v + n) 0 := by
  induction ts with
  | nil => rfl
  | cons t ts ih => simp [weightList, ih]

@[simp] theorem occursList_eq_any (x : String) (ts : List Term) :
    occursList x ts = ts.any (occurs x) := by
  induction ts with
  | nil => rfl
  | cons t ts ih => simp [occursList, ih]

/-- Induction on terms: a property of variables that passes from the arguments to the application
holds of every term. -/
@[elab_as_elim, induction_eliminator]
theorem induct {P : Term → Prop} (var : ∀ x, P (.var x))
    (app : ∀ f ts, (∀ t ∈ ts, P t) → P (.app f ts)) (t : Term) : P t :=
  @Term.rec P (fun ts => ∀ t ∈ ts, P t) var (fun f ts ih => app f ts ih) (fun _ h => nomatch h)
    (fun t ts ht hts u hu => by
      rcases List.mem_cons.1 hu with rfl | hu
      · exact ht
      · exact hts u hu) t

theorem size_pos (t : Term) : 0 < t.size := by
  cases t <;> rw [size] <;> omega

theorem occurs_eq_true_iff {x : String} {t : Term} : t.occurs x = true ↔ x ∈ t.occurrences := by
  induction t with
  | var y => simpa [occurs, occurrences] using eq_comm
  | app f ts ih =>
    simp only [occurs, occurrences, occursList_eq_any, occurrencesList_eq_flatMap, List.any_eq_true,
      List.mem_flatMap]
    exact exists_congr fun t => and_congr_right fun ht => ih t ht

@[simp] theorem subst_var (t : Term) : t.subst .var = t := by
  induction t with
  | var x => rfl
  | app f ts ih =>
    simp only [subst, substList_eq_map, Term.app.injEq, true_and]
    exact (List.map_congr_left ih).trans (List.map_id ts)

@[simp] theorem subst_subst (θ η : String → Term) (t : Term) :
    (t.subst θ).subst η = t.subst fun x => (θ x).subst η := by
  induction t with
  | var x => rfl
  | app f ts ih =>
    simp only [subst, substList_eq_map, List.map_map, Term.app.injEq, true_and]
    exact List.map_congr_left ih

/-- Assignments that agree on the variables of a term act on it alike. -/
theorem subst_congr {θ η : String → Term} {t : Term} (h : ∀ x ∈ t.occurrences, θ x = η x) :
    t.subst θ = t.subst η := by
  induction t with
  | var x => exact h x (by simp [occurrences])
  | app f ts ih =>
    simp only [subst, substList_eq_map, Term.app.injEq, true_and, List.map_inj_left]
    exact fun t ht => ih t ht fun x hx => h x (by simp [occurrences]; exact ⟨t, ht, hx⟩)

/-! ### Printing -/

mutual

/-- The tokens of a term: a variable is written as it is, an application as its symbol and, if there
are any, its arguments in parentheses. -/
def tokens : Term → List Token
  | .var x => [.upper x]
  | .app f ts =>
    match tokenGroups ts with
    | [] => [.ofName f]
    | groups => .ofName f :: .openParen :: Token.separated .comma groups ++ [.closeParen]

/-- The tokens of each of a list of terms. -/
def tokenGroups : List Term → List (List Token)
  | [] => []
  | t :: ts => tokens t :: tokenGroups ts

end

/-- The text of a term. -/
def render (t : Term) : String := Token.spellAll t.tokens

@[simp] theorem tokenGroups_eq_map (ts : List Term) : tokenGroups ts = ts.map tokens := by
  induction ts with
  | nil => rfl
  | cons t ts ih => simp [tokenGroups, ih]

end Term

end Refutation
