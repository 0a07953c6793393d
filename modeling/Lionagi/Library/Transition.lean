import Mathlib.Logic.Relation

/-!
# Runs of a state machine

A deterministic machine runs a list of operations, and a property is followed through all the states
of the run. A nondeterministic machine is a labelled step relation; what every step preserves holds
in every reachable state, and a concrete trace of an executable step shows a state reachable.
-/

universe u v

namespace Transition

variable {σ : Type u} {ι : Type v}

/-! ## Deterministic machines -/

section Deterministic

variable (exec : σ → ι → σ)

/-- The property holds initially and after every operation. -/
def Throughout (I : σ → Prop) : σ → List ι → Prop
  | s, [] => I s
  | s, op :: ops => I s ∧ Throughout I (exec s op) ops

/-- Every operation meets the condition in the state in which it is called. -/
def Along (C : σ → ι → Prop) : σ → List ι → Prop
  | _, [] => True
  | s, op :: ops => C s op ∧ Along C (exec s op) ops

instance decidableAlong (C : σ → ι → Prop) [∀ s op, Decidable (C s op)] :
    ∀ (s : σ) (ops : List ι), Decidable (Along exec C s ops)
  | _, [] => isTrue trivial
  | s, op :: ops =>
    have : Decidable (Along exec C (exec s op) ops) := decidableAlong C (exec s op) ops
    inferInstanceAs (Decidable (C s op ∧ Along exec C (exec s op) ops))

variable {exec}
variable {I : σ → Prop} {s : σ} {ops : List ι}

theorem Throughout.start (h : Throughout exec I s ops) : I s := by
  cases ops with
  | nil => exact h
  | cons op ops => exact h.1

variable {C D : σ → ι → Prop}

/-- When operations under a condition keep an invariant that implies the property, and the others
break the property, a run has the property throughout exactly when the condition holds along it. -/
theorem throughout_iff_along {P : σ → Prop} (himp : ∀ s, I s → P s) (hstep : ∀ s op, I s → C s op → I (exec s op))
    (hbreak : ∀ s op, I s → ¬ C s op → ¬ P (exec s op)) (hinit : I s) :
    Throughout exec P s ops ↔ Along exec C s ops := by
  induction ops generalizing s with
  | nil => exact ⟨fun _ ↦ trivial, fun _ ↦ himp s hinit⟩
  | cons op ops ih =>
    constructor
    · rintro ⟨-, hrest⟩
      have hop : C s op := Classical.not_not.1 fun hop ↦ hbreak s op hinit hop hrest.start
      exact ⟨hop, (ih (hstep s op hinit hop)).1 hrest⟩
    · rintro ⟨hop, hrest⟩
      exact ⟨himp s hinit, (ih (hstep s op hinit hop)).2 hrest⟩

/-- What holds of every operation in every state holds along every run. -/
theorem Along.of_forall (h : ∀ s op, C s op) (s : σ) (ops : List ι) : Along exec C s ops := by
  induction ops generalizing s with
  | nil => trivial
  | cons op ops ih => exact ⟨h s op, ih (exec s op)⟩

/-- Two conditions that agree in the states of an invariant, which the operations that meet them keep,
hold along the same runs. -/
theorem along_iff_along (hiff : ∀ s op, I s → (C s op ↔ D s op)) (hstep : ∀ s op, I s → D s op → I (exec s op))
    (hinit : I s) : Along exec C s ops ↔ Along exec D s ops := by
  induction ops generalizing s with
  | nil => rfl
  | cons op ops ih =>
    rw [Along, Along, hiff s op hinit]
    apply and_congr_right
    intro hop
    exact ih (hstep s op hinit hop)

/-- In the states of an invariant, which operations that meet the condition `D` keep, it implies `C`. -/
theorem Along.of_invariant (himp : ∀ s op, I s → D s op → C s op) (hstep : ∀ s op, I s → D s op → I (exec s op))
    (hinit : I s) (h : Along exec D s ops) : Along exec C s ops := by
  induction ops generalizing s with
  | nil => trivial
  | cons op ops ih => exact ⟨himp s op hinit h.1, ih (hstep s op hinit h.1) h.2⟩

theorem along_and : Along exec (fun s op ↦ C s op ∧ D s op) s ops ↔ Along exec C s ops ∧ Along exec D s ops := by
  induction ops generalizing s with
  | nil => exact (and_self_iff).symm
  | cons op ops ih =>
    rw [Along, Along, Along, ih]
    exact and_and_and_comm

/-- A property of the states is one of the first state and of what each operation makes. -/
theorem throughout_iff_and_along : Throughout exec I s ops ↔ I s ∧ Along exec (fun s op ↦ I (exec s op)) s ops := by
  induction ops generalizing s with
  | nil => exact (iff_of_eq (and_true (I s))).symm
  | cons op ops ih =>
    rw [Throughout, Along, ih]

theorem Throughout.mono {J : σ → Prop} (hIJ : ∀ s, I s → J s) (h : Throughout exec I s ops) :
    Throughout exec J s ops := by
  induction ops generalizing s with
  | nil => exact hIJ s h
  | cons op ops ih => exact ⟨hIJ s h.1, ih h.2⟩

/-- What every operation preserves holds throughout any run. -/
theorem Throughout.of_invariant (hstep : ∀ s op, I s → I (exec s op)) (hinit : I s) : Throughout exec I s ops := by
  induction ops generalizing s with
  | nil => exact hinit
  | cons op ops ih => exact ⟨hinit, ih (hstep s op hinit)⟩

/-- What every operation preserves under a condition holds throughout a run along which it holds. -/
theorem Throughout.of_along (hstep : ∀ s op, I s → C s op → I (exec s op)) (hinit : I s) (h : Along exec C s ops) :
    Throughout exec I s ops := by
  induction ops generalizing s with
  | nil => exact hinit
  | cons op ops ih => exact ⟨hinit, ih (hstep s op hinit h.1) h.2⟩

theorem Throughout.final (h : Throughout exec I s ops) : I (ops.foldl exec s) := by
  induction ops generalizing s with
  | nil => exact h
  | cons op ops ih => exact ih h.2

/-- What every operation preserves holds after any run. -/
theorem invariant_foldl (hstep : ∀ s op, I s → I (exec s op)) (hinit : I s) (ops : List ι) : I (ops.foldl exec s) := by
  induction ops generalizing s with
  | nil => exact hinit
  | cons op ops ih => exact ih (hstep s op hinit)

end Deterministic

/-! ## Nondeterministic machines -/

section Labelled

variable (step : σ → ι → σ → Prop) (start : σ)

/-- The states reached from `start` by finitely many labelled steps. -/
inductive Reachable : σ → Prop
  | start : Reachable start
  | step {s t : σ} {l : ι} : Reachable s → step s l t → Reachable t

variable {step start}
variable {s : σ}

theorem Reachable.invariant {I : σ → Prop} (hinit : I start) (hstep : ∀ s l t, I s → step s l t → I t)
    (h : Reachable step start s) : I s := by
  induction h with
  | start => exact hinit
  | step _ hl ih => exact hstep _ _ _ ih hl

theorem Reachable.trans {t : σ} (hs : Reachable step start s) (ht : Reachable step s t) : Reachable step start t := by
  induction ht with
  | start => exact hs
  | step _ hl ih => exact ih.step hl

/-- A machine with more steps reaches more. -/
theorem Reachable.mono {step' : σ → ι → σ → Prop} (hstep : ∀ s l t, step s l t → step' s l t)
    (h : Reachable step start s) : Reachable step' start s := by
  induction h with
  | start => exact .start
  | step _ hl ih => exact ih.step (hstep _ _ _ hl)

/-- Replay a trace with an executable step; `none` when a step is not enabled. -/
def replay (next : σ → ι → Option σ) : σ → List ι → Option σ
  | s, [] => some s
  | s, l :: ls =>
    match next s l with
    | none => none
    | some t => replay next t ls

theorem reachable_of_replay {next : σ → ι → Option σ} {t : σ} {ls : List ι}
    (hnext : ∀ s l t, l ∈ ls → next s l = some t → step s l t) (hs : Reachable step start s)
    (hreplay : replay next s ls = some t) : Reachable step start t := by
  induction ls generalizing s with
  | nil =>
    rw [replay, Option.some.injEq] at hreplay
    exact hreplay ▸ hs
  | cons l ls ih =>
    rw [replay] at hreplay
    split at hreplay
    · cases hreplay
    · next s' hs' =>
      refine ih (fun s l' t hl' ↦ hnext s l' t (List.mem_cons_of_mem _ hl')) ?_ hreplay
      exact hs.step (hnext s l s' List.mem_cons_self hs')

end Labelled

end Transition
