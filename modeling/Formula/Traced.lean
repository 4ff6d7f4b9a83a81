import Formula.Expr.Basic

/-!
# Traced results

A `Traced` result comes with the nodes that were built on the way to it, in order. They are kept
also when the result is an error.
-/

namespace Formula

/-- A result of putting expressions together, and the nodes built for it. -/
structure Traced (α : Type) where
  built : List Expr
  outcome : Except ParseError α

namespace Traced

variable {α β γ : Type}

/-- A result for which nothing was built. -/
def ok (a : α) : Traced α :=
  ⟨[], .ok a⟩

/-- An error before which nothing was built. -/
def error (e : ParseError) : Traced α :=
  ⟨[], .error e⟩

/-- The result `a`, for which one node was built. -/
def build (node : Expr) (a : α) : Traced α :=
  ⟨[node], .ok a⟩

/-- Goes on with a result; what is built then comes last. -/
def bind (x : Traced α) (f : α → Traced β) : Traced β :=
  match x.outcome with
  | .ok a =>
    let y := f a
    ⟨x.built ++ y.built, y.outcome⟩
  | .error e => ⟨x.built, .error e⟩

instance : Monad Traced where
  pure := ok
  bind := bind

theorem ok_bind (a : α) (f : α → Traced β) : (ok a).bind f = f a := rfl

theorem bind_ok (x : Traced α) : x.bind ok = x := by
  obtain ⟨built, outcome⟩ := x
  cases outcome <;> simp [bind, ok]

theorem bind_assoc (x : Traced α) (f : α → Traced β) (g : β → Traced γ) :
    (x.bind f).bind g = x.bind fun a => (f a).bind g := by
  obtain ⟨built, outcome⟩ := x
  cases outcome with
  | error e => rfl
  | ok a =>
    simp only [bind]
    cases (f a).outcome <;> simp

theorem bind_outcome (x : Traced α) (f : α → Traced β) :
    (x.bind f).outcome = x.outcome.bind fun a => (f a).outcome := by
  unfold bind
  cases x.outcome <;> rfl

theorem bind_eq_ok {x : Traced α} {f : α → Traced β} {b : β} (h : (x.bind f).outcome = .ok b) :
    ∃ a, x.outcome = .ok a ∧ (f a).outcome = .ok b := by
  rw [bind_outcome] at h
  cases hx : x.outcome with
  | error e => rw [hx] at h; cases h
  | ok a => rw [hx] at h; exact ⟨a, rfl, h⟩

end Traced

end Formula
