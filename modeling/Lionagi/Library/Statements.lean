import Mathlib.Data.List.Basic

/-!
# Statements that may raise

A procedure changes a state statement by statement. Where a statement raises, the state reached so far
stays, which a function that gives a state or an error forgets. The two are compared statement by
statement, and what every statement leaves alone is left alone also by a procedure that stops halfway.
-/

namespace Statements

variable {ε σ α β : Type}

/-- A question to the state. -/
def ask (f : σ → Except ε α) : EStateM ε σ α := fun s ↦
  match f s with
  | .ok a => .ok a s
  | .error e => .error e s

/-- A statement that raises before it changes anything. -/
def change (f : σ → Except ε σ) : EStateM ε σ PUnit := fun s ↦
  match f s with
  | .ok s' => .ok ⟨⟩ s'
  | .error e => .error e s

/-- An exception is raised again as another one. -/
def rethrow (f : ε → ε) (m : EStateM ε σ α) : EStateM ε σ α := fun s ↦
  match m s with
  | .ok a s' => .ok a s'
  | .error e s' => .error (f e) s'

/-- The state in which a procedure ends, whether it returns or raises. -/
def final : EStateM.Result ε σ α → σ
  | .ok _ s => s
  | .error _ s => s

variable {m : EStateM ε σ α} {k : α → EStateM ε σ β} {s s' : σ}

theorem bind_of_ok {a : α} (h : m s = .ok a s') : (m >>= k) s = k a s' := by
  change EStateM.bind m k s = k a s'
  rw [EStateM.bind, h]

theorem bind_of_error {e : ε} (h : m s = .error e s') : (m >>= k) s = .error e s' := by
  change EStateM.bind m k s = .error e s'
  rw [EStateM.bind, h]

theorem bind_congr_run {n : EStateM ε σ α} (h : m s = n s') : (m >>= k) s = (n >>= k) s' := by
  change EStateM.bind m k s = EStateM.bind n k s'
  rw [EStateM.bind, EStateM.bind, h]

theorem ask_of_ok {f : σ → Except ε α} {a : α} (h : f s = .ok a) : ask f s = .ok a s := by
  rw [ask, h]

theorem ask_of_error {f : σ → Except ε α} {e : ε} (h : f s = .error e) : ask f s = .error e s := by
  rw [ask, h]

theorem rethrow_of_error {f : ε → ε} {e : ε} (h : m s = .error e s') :
    rethrow f m s = .error (f e) s' := by
  rw [rethrow, h]

theorem change_of_ok {f : σ → Except ε σ} (h : f s = .ok s') : change f s = .ok ⟨⟩ s' := by
  rw [change, h]

/-! ## Procedures and functions -/

theorem bind_eq_ok_iff {x : Except ε α} {k : α → Except ε β} {b : β} :
    x >>= k = .ok b ↔ ∃ a, x = .ok a ∧ k a = .ok b := by
  cases x with
  | error e => exact iff_of_false (fun h ↦ (by cases h)) fun ⟨a, h, _⟩ ↦ (by cases h)
  | ok a =>
    constructor
    · intro h
      exact ⟨a, rfl, h⟩
    · rintro ⟨a', ha, h⟩
      cases ha
      exact h

/-- Whether the rest returns does not depend on what the beginning returns. -/
theorem exists_bind_iff {x : Except ε α} {k : α → Except ε β} {rest : Prop}
    (h : ∀ a, x = .ok a → ((∃ b, k a = .ok b) ↔ rest)) :
    (∃ b, x >>= k = .ok b) ↔ (∃ a, x = .ok a) ∧ rest := by
  constructor
  · rintro ⟨b, hb⟩
    obtain ⟨a, ha, hb⟩ := bind_eq_ok_iff.1 hb
    exact ⟨⟨a, ha⟩, (h a ha).1 ⟨b, hb⟩⟩
  · rintro ⟨⟨a, ha⟩, hrest⟩
    obtain ⟨b, hb⟩ := (h a ha).2 hrest
    exact ⟨b, bind_eq_ok_iff.2 ⟨a, ha, hb⟩⟩

theorem run_bind_eq_ok_iff {b : β} :
    (m >>= k) s = .ok b s' ↔ ∃ a s₁, m s = .ok a s₁ ∧ k a s₁ = .ok b s' := by
  cases hs : m s with
  | error e s₁ =>
    rw [bind_of_error hs]
    exact iff_of_false (fun h ↦ (by cases h)) fun ⟨a, s₁, h, _⟩ ↦ (by cases h)
  | ok a s₁ =>
    rw [bind_of_ok hs]
    constructor
    · intro h
      exact ⟨a, s₁, rfl, h⟩
    · rintro ⟨a', s₂, ha, h⟩
      cases ha
      exact h

variable {q : σ → Except ε α}

theorem ask_eq_ok_iff {a : α} : ask q s = .ok a s' ↔ q s = .ok a ∧ s' = s := by
  unfold ask
  cases q s <;> simp [eq_comm]

/-- The procedure returns exactly where the function gives a state, and then in that state. -/
def Agrees (m : EStateM ε σ PUnit) (f : σ → Except ε σ) : Prop :=
  ∀ s s', m s = .ok ⟨⟩ s' ↔ f s = .ok s'

theorem agrees_change (f : σ → Except ε σ) : Agrees (change f) f := by
  intro s s'
  unfold change
  cases f s <;> simp

theorem agrees_pure : Agrees (pure ⟨⟩ : EStateM ε σ PUnit) Except.ok := by
  intro s s'
  change EStateM.Result.ok _ s = _ ↔ _
  simp

section Rules

variable {m n : EStateM ε σ PUnit} {f g : σ → Except ε σ}

theorem Agrees.congr (h : Agrees m f) (hfg : ∀ s s', f s = .ok s' ↔ g s = .ok s') : Agrees m g :=
  fun s s' ↦ (h s s').trans (hfg s s')

theorem Agrees.rethrow (h : Agrees m f) (raise : ε → ε) : Agrees (Statements.rethrow raise m) f := by
  intro s s'
  rw [← h s s']
  unfold Statements.rethrow
  cases m s <;> simp

theorem Agrees.bind (hm : Agrees m f) (hn : Agrees n g) :
    Agrees (m >>= fun _ ↦ n) fun s ↦ f s >>= g := by
  intro s s'
  rw [run_bind_eq_ok_iff, bind_eq_ok_iff]
  constructor
  · rintro ⟨a, s₁, hs₁, hs'⟩
    exact ⟨s₁, (hm s s₁).1 hs₁, (hn s₁ s').1 hs'⟩
  · rintro ⟨s₁, hs₁, hs'⟩
    exact ⟨⟨⟩, s₁, (hm s s₁).2 hs₁, (hn s₁ s').2 hs'⟩

theorem Agrees.ask_bind {k : α → EStateM ε σ PUnit} {f : α → σ → Except ε σ}
    (h : ∀ a, Agrees (k a) (f a)) : Agrees (ask q >>= k) fun s ↦ q s >>= fun a ↦ f a s := by
  intro s s'
  rw [run_bind_eq_ok_iff, bind_eq_ok_iff]
  constructor
  · rintro ⟨a, s₁, hs₁, hs'⟩
    obtain ⟨ha, rfl⟩ := ask_eq_ok_iff.1 hs₁
    exact ⟨a, ha, (h a s₁ s').1 hs'⟩
  · rintro ⟨a, ha, hs'⟩
    exact ⟨a, s, ask_of_ok ha, (h a s s').2 hs'⟩

end Rules

/-! ## What stays -/

/-- The procedure leaves a part of the state alone, also where it raises. -/
def Keeps (part : σ → β) (m : EStateM ε σ α) : Prop := ∀ s, part (final (m s)) = part s

variable {part : σ → β} {α' : Type} {f : σ → Except ε σ}

theorem keeps_pure (a : α) : Keeps part (pure a : EStateM ε σ α) := fun _ ↦ rfl

theorem keeps_ask (q : σ → Except ε α) : Keeps part (ask q) := by
  intro s
  unfold ask
  cases q s <;> rfl

theorem keeps_change (h : ∀ s s', f s = .ok s' → part s' = part s) : Keeps part (change f) := by
  intro s
  unfold change
  cases hs : f s with
  | ok s' => exact h s s' hs
  | error e => rfl

theorem Keeps.bind {k : α → EStateM ε σ α'} (hm : Keeps part m) (hk : ∀ a, Keeps part (k a)) :
    Keeps part (m >>= k) := by
  intro s
  have hfirst := hm s
  cases hs : m s with
  | ok a s₁ =>
    rw [bind_of_ok hs, hk a s₁]
    rwa [hs] at hfirst
  | error e s₁ =>
    rw [bind_of_error hs]
    rwa [hs] at hfirst

end Statements
