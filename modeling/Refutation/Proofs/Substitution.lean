import Refutation.Substitution

/-!
# Composition of substitutions

Composing two substitutions applies the second to every term bound by the first, and keeps its
bindings for the variables that the first leaves alone.  Nothing is assumed of the bindings: a
variable may be bound to itself or to a term in which it occurs, since all variables are replaced at
once and what is put in place of them is not looked at again.

* `Substitution.compose_assoc` : composition is associative, binding by binding.
* `Substitution.bind_eq_compose` : **binding an unbound variable is composing with the single
  binding.**
* `composition_acts` : composition of substitutions is composition of their actions.
-/

namespace Refutation

namespace Substitution

variable {σ τ : Substitution}

/-- Substitutions that bind the same variables to the same terms are equal. -/
theorem ext_get? (h : ∀ x, σ.get? x = τ.get? x) : σ = τ := by
  obtain ⟨bindings⟩ := σ
  obtain ⟨bindings'⟩ := τ
  exact congrArg Substitution.mk (OrderedMap.ext_get? h)

theorem compose_assoc (σ τ υ : Substitution) :
    (σ.compose τ).compose υ = σ.compose (τ.compose υ) := by
  refine ext_get? fun x => ?_
  simp only [get?_compose]
  cases σ.get? x with
  | none => rfl
  | some t =>
    -- the first binding decides: it is instantiated twice on one side, once on the other
    exact congrArg some (apply_compose t).symm

theorem get?_singleton (x : String) (u : Term) (y : String) :
    (ofList [(x, u)]).get? y = if y = x then some u else none := by
  have hinsert : (ofList [(x, u)]).get? y = (OrderedMap.empty.insert x u).get? y := rfl
  by_cases hyx : y = x
  · rw [hinsert, hyx, OrderedMap.get?_insert_self, if_pos rfl]
  · rw [hinsert, OrderedMap.get?_insert_of_ne _ _ hyx, OrderedMap.get?_empty, if_neg hyx]

theorem apply_singleton (x : String) (u t : Term) : (ofList [(x, u)]).apply t = t.replace x u := by
  refine Term.subst_congr fun y _ => ?_
  rw [assign, get?_singleton, Term.single]
  split <;> rfl

/-- **Binding an unbound variable is composing with the single binding.** -/
theorem bind_eq_compose {x : String} (hx : σ.get? x = none) (u : Term) :
    σ.bind x u = σ.compose (ofList [(x, u)]) := by
  refine ext_get? fun y => ?_
  rw [get?_bind, get?_compose, get?_singleton, funext (apply_singleton x u)]
  by_cases hyx : y = x
  · rw [if_pos hyx, if_pos hyx, hyx, hx]
    rfl
  · rw [if_neg hyx, if_neg hyx, Option.or_none]

end Substitution

/-- **Composition of substitutions is composition of their actions.**  It is associative, and
binding a variable that is not bound yet acts as the substitution followed by the replacement of the
variable: it is the composition with this one binding. -/
theorem composition_acts (a b c : Substitution) :
    (∀ t, (a.compose b).apply t = b.apply (a.apply t)) ∧
    (a.compose b).compose c = a.compose (b.compose c) ∧
    ∀ v u, a.isBound v = false →
      (∀ t, (a.bind v u).apply t = (a.apply t).replace v u) ∧
      a.bind v u = a.compose (.ofList [(v, u)]) := by
  refine ⟨Substitution.apply_compose, Substitution.compose_assoc a b c, fun v u hv => ?_⟩
  have hv := Substitution.isBound_eq_false_iff.1 hv
  exact ⟨Substitution.apply_bind hv u, Substitution.bind_eq_compose hv u⟩

/-- `X` is bound to `f(X)` and `Y` to itself. -/
def cyclicSubstitution : Substitution := .ofList [("X", .app "f" [.var "X"]), ("Y", .var "Y")]

/-- `X` is bound to `Y`, `Y` to `X` and `Z` to `f(Z)`. -/
def swappingSubstitution : Substitution :=
  .ofList [("X", .var "Y"), ("Y", .var "X"), ("Z", .app "f" [.var "Z"])]

theorem composition_acts_cyclicSubstitution :
    (cyclicSubstitution.compose swappingSubstitution).apply
        (.app "g" [.var "X", .var "Y", .var "Z"]) =
      .app "g" [.app "f" [.var "Y"], .var "X", .app "f" [.var "Z"]] ∧
    cyclicSubstitution.isBound "Z" = false ∧
    (cyclicSubstitution.bind "Z" (.app "g" [.var "Z", .var "X"])).apply
        (.app "g" [.var "X", .var "Z"]) =
      .app "g" [.app "f" [.var "X"], .app "g" [.var "Z", .var "X"]] := by
  have hbound : cyclicSubstitution.isBound "Z" = false := by decide
  obtain ⟨happly, -, hbind⟩ := composition_acts cyclicSubstitution swappingSubstitution .empty
  exact ⟨(happly _).trans (by decide), hbound, ((hbind "Z" _ hbound).1 _).trans (by decide)⟩

end Refutation
