import Lionagi.LionCore.Isolation

/-!
# Steps on both paths

A step of a run takes the pure or the mutating path. A step that fails leaves the state alone on both,
and a step that succeeds has one of the effects of the pure path, or one of the two by which the
mutating path differs from it.
-/

namespace Lionagi.LionCore

open SortedTable

inductive Path where
  | pure
  | mutating
  deriving DecidableEq, Repr

/-- The state after a step that succeeds. -/
def Path.execute (path : Path) (step : Step) (s : State) : Except StepError State :=
  match path with
  | .pure => step.execute s
  | .mutating =>
    match step.executeMut s with
    | (.ok (), s') => .ok s'
    | (.error e, _) => .error e

/-- The mutating release also records the status of the address. -/
def State.freeMutated (s : State) (addr : MemAddr) : State :=
  { s with
    ghost := { resources := MetaState.setStatus s.ghost.resources addr .freed
               freedSet := MetaState.insertFreedAddr s.ghost.freedSet addr } }

/-- An effect of a step on one of the paths. -/
inductive PathEffect (s : State) (step : Step) : State → Prop
  | shared {s' : State} (heffect : Effect s step s') : PathEffect s step s'
  | freed {addr : MemAddr} {owner : PluginId} (hfrees : step.Frees s addr)
      (howner : s.ghost.getStatus addr = some (.allocated owner)) : PathEffect s step (s.freeMutated addr)
  | revoked {c : CapId} (hrevokes : step.Revokes s c) (rs : RevocationState) :
      PathEffect s step { s with kernel := { s.kernel with revocation := rs } }

section Mutating

variable {s s' : State} {step : Step}

theorem Freeable.applyFreeMut_cases {addr : MemAddr} (h : Freeable s addr) :
    (∃ owner, s.ghost.getStatus addr = some (.allocated owner) ∧
      s.applyFreeMut addr = (.ok (), s.freeMutated addr)) ∨ ∃ e, s.applyFreeMut addr = (.error e, s) := by
  unfold State.applyFreeMut MetaState.freeMut
  simp only [h.1, h.2, Bool.false_eq_true, if_false]
  cases hstatus : s.ghost.getStatus addr with
  | none => exact .inr ⟨_, rfl⟩
  | some status =>
    cases status with
    | allocated owner => exact .inl ⟨owner, rfl, rfl⟩
    | unallocated => exact .inr ⟨_, rfl⟩
    | freed => exact .inr ⟨_, rfl⟩

theorem applyCapRevokeMut_cases (c : CapId) :
    (∃ rs, s.applyCapRevokeMut c = (.ok (), { s with kernel := { s.kernel with revocation := rs } })) ∨
      ∃ e, s.applyCapRevokeMut c = (.error e, s) := by
  unfold State.applyCapRevokeMut RevocationState.revokeTransitiveFastMut
  cases s.kernel.revocation.findIndex c with
  | none => exact .inr ⟨_, rfl⟩
  | some idx => exact .inl ⟨_, rfl⟩

/-- What the mutating path of a step leaves behind: the state after an effect, or the state before. -/
inductive Mutates (s : State) (step : Step) : Except StepError Unit × State → Prop
  | done {s' : State} (heffect : PathEffect s step s') : Mutates s step (.ok (), s')
  | failed (e : StepError) : Mutates s step (.error e, s)

theorem AgreesWith.mutates {result : Except StepError State} {mutated : Except StepError Unit × State}
    (h : AgreesWith s result mutated) (heffect : ∀ s', result = .ok s' → Effect s step s') :
    Mutates s step mutated := by
  cases result with
  | error e =>
    obtain ⟨e', rfl⟩ := h
    exact .failed e'
  | ok s' =>
    unfold AgreesWith at h
    rw [h]
    exact .done (.shared (heffect s' rfl))

theorem mutates_memFree {addr : MemAddr} (hfrees : Freeable s addr → step.Frees s addr) :
    Mutates s step (executeMemFreeMut s addr) := by
  unfold executeMemFreeMut
  cases hcheck : HostFunction.checkFree s addr with
  | error e => exact .failed e
  | ok u =>
    have hfree := checkFree_eq_ok_iff.1 hcheck
    obtain ⟨owner, howner, hmut⟩ | ⟨e, hmut⟩ := hfree.applyFreeMut_cases
    · rw [hmut]
      exact .done (.freed (hfrees hfree) howner)
    · rw [hmut]
      exact .failed _

theorem mutates_hostMemFree {hc : HostCall}
    (hfrees : ∀ addr, hc.args.head? = some addr → Freeable s addr → step.Frees s addr) :
    Mutates s step (HostFunction.executeMemFreeMut s hc) := by
  unfold HostFunction.executeMemFreeMut
  cases hargs : hc.args.head? with
  | none => exact .failed _
  | some addr =>
    dsimp only
    cases hcheck : HostFunction.checkFree s addr with
    | error e => exact .failed e
    | ok u =>
      have hfree := checkFree_eq_ok_iff.1 hcheck
      obtain ⟨owner, howner, hmut⟩ | ⟨e, hmut⟩ := hfree.applyFreeMut_cases
      · rw [hmut]
        exact .done (.freed (hfrees addr hargs hfree) howner)
      · rw [hmut]
        exact .failed _

theorem mutates_capRevoke {c : CapId}
    (hrevokes : s.kernel.revocation.contains c = true → step.Revokes s c) :
    Mutates s step (executeCapRevokeMut s c) := by
  unfold executeCapRevokeMut
  cases hcheck : HostFunction.checkRevoke s c with
  | error e => exact .failed e
  | ok u =>
    obtain ⟨rs, hmut⟩ | ⟨e, hmut⟩ := applyCapRevokeMut_cases (s := s) c
    · rw [hmut]
      exact .done (.revoked (hrevokes (checkRevoke_eq_ok_iff.1 hcheck)) rs)
    · rw [hmut]
      exact .failed _

theorem mutates_executeMut (s : State) (step : Step) : Mutates s step (step.executeMut s) := by
  cases step with
  | pluginInternal pid pi =>
    exact (agreesWith_pluginInternal s pid pi).mutates fun _ ↦ effect_pluginInternal
  | kernelInternal op => exact (agreesWith_kernelOp s op).mutates fun _ ↦ effect_kernelOp
  | memFree caller addr => exact mutates_memFree fun hfree ↦ ⟨rfl, hfree⟩
  | capRevoke caller c => exact mutates_capRevoke fun hcontains ↦ ⟨rfl, hcontains⟩
  | hostCall hc auth result =>
    simp only [Step.executeMut, executeHostCallMut]
    cases hcheck : checkHostCall s hc auth with
    | error e => exact .failed e
    | ok u =>
      change Mutates s _ (hc.function.executeMut s hc result)
      by_cases hfree : hc.function = .memFree
      · rw [hfree]
        exact mutates_hostMemFree fun addr hargs hfreeable ↦ ⟨hcheck, hfree, hargs, hfreeable⟩
      · by_cases hrevoke : hc.function = .capRevoke
        · rw [hrevoke]
          simp only [HostFunction.executeMut, HostFunction.executeCapRevokeMut]
          cases hargs : hc.args.head? with
          | none => exact .failed _
          | some c => exact mutates_capRevoke fun hcontains ↦ ⟨hcheck, hrevoke, hargs, hcontains⟩
        · exact (agreesWith_function hc.function s hc result hfree hrevoke).mutates
            fun _ ↦ effect_hostCall hcheck

/-- A step that fails leaves the state alone. -/
theorem executeMut_of_error {e : StepError} (h : (step.executeMut s).1 = .error e) :
    (step.executeMut s).2 = s := by
  cases hmut : step.executeMut s with
  | mk result s' =>
    rw [hmut] at h
    have hmutates := mutates_executeMut s step
    rw [hmut] at hmutates
    cases hmutates with
    | done => cases h
    | failed => rfl

/-- What a step that succeeds may do. -/
theorem pathEffect_execute {path : Path} (h : path.execute step s = .ok s') : PathEffect s step s' := by
  cases path with
  | pure => exact .shared (effect_execute h)
  | mutating =>
    have hmutates := mutates_executeMut s step
    unfold Path.execute at h
    cases hmut : step.executeMut s with
    | mk result s'' =>
      rw [hmut] at h hmutates
      cases hmutates with
      | done heffect =>
        cases h
        exact heffect
      | failed => cases h

end Mutating

end Lionagi.LionCore
