/-!
# Readings of token lists

A reading of a list of tokens is a value together with the tokens after it and the proof that
something was read.  The proof is what makes recursive readers end.
-/

namespace Refutation

/-- A value read from the beginning of a list of tokens, and the tokens that follow. -/
structure Parsed {τ : Type} (α : Type) (ts : List τ) where
  /-- The value. -/
  value : α
  /-- The tokens after it. -/
  rest : List τ
  /-- At least one token was read. -/
  shorter : rest.length < ts.length

namespace Parsed

variable {τ α β : Type} {ts : List τ}

/-- Change the value. -/
def map (f : α → β) (p : Parsed α ts) : Parsed β ts := ⟨f p.value, p.rest, p.shorter⟩

/-- The reading of one token. -/
def first (a : α) (t : τ) (rest : List τ) : Parsed α (t :: rest) := ⟨a, rest, by simp⟩

/-- A reading of what follows another one, seen as a reading of the whole. -/
def after (p : Parsed α ts) (q : Parsed β p.rest) : Parsed β ts :=
  ⟨q.value, q.rest, Nat.lt_trans q.shorter p.shorter⟩

/-- Read the token `t` after the value. -/
def token? [DecidableEq τ] (t : τ) (p : Parsed α ts) : Option (Parsed α ts) :=
  match h : p.rest with
  | [] => none
  | u :: rest =>
    if u = t then
      some ⟨p.value, rest, by have := p.shorter; rw [h] at this; exact Nat.lt_of_succ_lt this⟩
    else none

end Parsed

/-- Read the single token `t`. -/
def readToken {τ : Type} [DecidableEq τ] (t : τ) : (ts : List τ) → Option (Parsed Unit ts)
  | [] => none
  | u :: rest => if u = t then some (.first () u rest) else none

end Refutation
