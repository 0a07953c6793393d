import Mathlib.Data.Nat.Basic

/-!
# Loops that run until they break

One round of a loop may raise, go on with a new state or leave the loop with a result. A run is given
a number of rounds; that it does not need more is proved with a measure of the state.
-/

universe u v w

namespace WhileLoop

variable {σ : Type u} {β : Type v} {ε : Type w}

/-- How a computation with loops ends other than by returning: it raises, or a loop is not done after
the rounds it was given. -/
inductive Stop (ε : Type w) where
  | raised (e : ε)
  | unfinished
deriving DecidableEq

/-- A statement of the language, which can only raise. -/
def statement {α : Type v} : Except ε α → Except (Stop ε) α :=
  Except.mapError .raised

variable {α : Type v}

@[simp] theorem statement_ok (a : α) :
    statement (.ok a : Except ε α) = .ok a := rfl

@[simp] theorem statement_error (e : ε) :
    statement (.error e : Except ε α) = .error (.raised e) := rfl

theorem statement_bind (x : Except ε α) (f : α → Except ε β) :
    statement (x >>= f) = statement x >>= fun a ↦ statement (f a) := by
  cases x <;> rfl

/-- The error `unfinished` stands for a loop that has used up its rounds. -/
def run (unfinished : ε) (round : σ → Except ε (σ ⊕ β)) : ℕ → σ → Except ε β
  | 0, _ => .error unfinished
  | rounds + 1, s =>
    match round s with
    | .error e => .error e
    | .ok (.inl s') => run unfinished round rounds s'
    | .ok (.inr b) => .ok b

/-- What every round keeps holds where the loop ends, and it ends before the measure is used up. -/
theorem run_of_measure {unfinished : ε} {round : σ → Except ε (σ ⊕ β)} {I : σ → Prop}
    {Q : Except ε β → Prop} (measure : σ → ℕ)
    (hraise : ∀ s e, I s → round s = .error e → Q (.error e))
    (hnext : ∀ s s', I s → round s = .ok (.inl s') → I s' ∧ measure s' < measure s)
    (hleave : ∀ s b, I s → round s = .ok (.inr b) → Q (.ok b)) {rounds : ℕ} {s : σ} (hs : I s)
    (hrounds : measure s < rounds) : Q (run unfinished round rounds s) := by
  induction rounds generalizing s with
  | zero => exact absurd hrounds (Nat.not_lt_zero _)
  | succ rounds ih =>
    rw [run]
    cases hround : round s with
    | error e => exact hraise s e hs hround
    | ok next =>
      cases next with
      | inl s' =>
        obtain ⟨hs', hless⟩ := hnext s s' hs hround
        exact ih hs' (by omega)
      | inr b => exact hleave s b hs hround

end WhileLoop
