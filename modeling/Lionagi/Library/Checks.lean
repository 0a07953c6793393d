import Mathlib.Init

/-!
# Sequences of checks

Code that raises at the first condition that does not hold returns normally exactly when they all hold.
-/

namespace Checks

variable {ε α β : Type}

/-- Raise unless the condition holds. -/
def ensure (condition : Prop) [Decidable condition] (e : ε) : Except ε Unit :=
  if condition then .ok () else .error e

@[simp]
theorem ensure_eq_ok_iff {condition : Prop} [Decidable condition] {e : ε} :
    ensure condition e = .ok () ↔ condition := by
  unfold ensure
  split
  · next h => exact iff_of_true rfl h
  · next h => exact iff_of_false (fun heq ↦ by cases heq) h

theorem bind_eq_ok_iff {x : Except ε α} {f : α → Except ε β} {b : β} :
    (x >>= f) = .ok b ↔ ∃ a, x = .ok a ∧ f a = .ok b := by
  cases x with
  | error e => exact ⟨fun h ↦ (by cases h), fun ⟨a, h, _⟩ ↦ (by cases h)⟩
  | ok a => exact ⟨fun h ↦ ⟨a, rfl, h⟩, fun ⟨a', h, hf⟩ ↦ (by cases h; exact hf)⟩

theorem map_eq_ok_iff {x : Except ε α} {f : α → β} {b : β} : x.map f = .ok b ↔ ∃ a, x = .ok a ∧ f a = b := by
  cases x with
  | error e => exact ⟨fun h ↦ (by cases h), fun ⟨a, h, _⟩ ↦ (by cases h)⟩
  | ok a => exact ⟨fun h ↦ ⟨a, rfl, Except.ok.inj h⟩, fun ⟨a', h, hf⟩ ↦ (by cases h; exact congrArg _ hf)⟩

theorem then_eq_ok_iff {x : Except ε Unit} {y : Except ε β} {b : β} :
    (do x; y) = Except.ok b ↔ x = .ok () ∧ y = .ok b := by
  rw [bind_eq_ok_iff]
  exact ⟨fun ⟨_, hx, hy⟩ ↦ ⟨hx, hy⟩, fun ⟨hx, hy⟩ ↦ ⟨(), hx, hy⟩⟩

/-- The check is made of every element in turn. -/
def forEach (check : α → Except ε Unit) : List α → Except ε Unit
  | [] => .ok ()
  | a :: as => do
    check a
    forEach check as

@[simp]
theorem forEach_eq_ok_iff {check : α → Except ε Unit} {as : List α} :
    forEach check as = .ok () ↔ ∀ a ∈ as, check a = .ok () := by
  induction as with
  | nil => exact iff_of_true rfl fun a ha ↦ absurd ha List.not_mem_nil
  | cons a as ih => rw [forEach, then_eq_ok_iff, ih, List.forall_mem_cons]

end Checks
