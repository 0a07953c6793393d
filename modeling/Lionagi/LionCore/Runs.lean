import Lionagi.LionCore.MemoryHistory

/-!
# Runs of steps

What an observer at a security level can learn from a whole run, and what a revocation rules out for the
rest of a run.
-/

namespace Lionagi.LionCore

open Transition

/-! ## Noninterference -/

/-- Steps that an observer at the level cannot see: subjects above it act and do not declassify. -/
def Hidden (l : SecurityLevel) : State → State → Prop :=
  Relation.ReflTransGen fun s s' ↦ ∃ step : Step, ¬ step.level s ≤ l ∧ step.isDeclassify = false ∧
    step.execute s = .ok s'

/-- A run of steps that succeed, with those of them that the observer sees. -/
inductive ObservedRun (l : SecurityLevel) : State → List Step → State → Prop
  | last {s t : State} (hhidden : Hidden l s t) : ObservedRun l s [] t
  | seen {s u v t : State} {step : Step} {rest : List Step} (hhidden : Hidden l s u) (hlevel : step.level u ≤ l)
      (hstep : step.execute u = .ok v) (hrest : ObservedRun l v rest t) : ObservedRun l s (step :: rest) t

section Observer

variable {l : SecurityLevel} {s t u : State}

theorem LowLeft.trans (h : LowLeft l s t) (h' : LowLeft l t u) : LowLeft l s u where
  plugins := fun pid ps hps hlow ↦ h'.plugins pid ps (h.plugins pid ps hps hlow) hlow
  resources := fun rid ri hri hlow ↦ h'.resources rid ri (h.resources rid ri hri hlow) hlow

theorem Hidden.low (h : Hidden l s t) (hs : s.Ordered) : t.Ordered ∧ LowLeft l s t ∧ LowLeft l t s := by
  induction h with
  | refl => exact ⟨hs, .refl l s, .refl l s⟩
  | tail _ hstep ih =>
    obtain ⟨step, hlevel, hdeclassify, hexecute⟩ := hstep
    obtain ⟨hu, hleft, hright⟩ := ih
    have heffect := effect_execute hexecute
    obtain ⟨hleft', hright'⟩ := LowLeft.invisible hlevel hdeclassify heffect
    exact ⟨heffect.ordered hu, hleft.trans hleft', hright'.trans hright⟩

/-- Two runs from low-equivalent states in which the same steps are seen end in low-equivalent states,
whatever else happens in either of them. -/
theorem noninterference_run (l : SecurityLevel) (seen : List Step) (s₁ s₂ t₁ t₂ : State) (hs₁ : s₁.Ordered)
    (hs₂ : s₂.Ordered) (hlow : lowEquivalent l s₁ s₂ = true) (h₁ : ObservedRun l s₁ seen t₁)
    (h₂ : ObservedRun l s₂ seen t₂) : lowEquivalent l t₁ t₂ = true := by
  rw [lowEquivalent_iff hs₁ hs₂] at hlow
  induction h₁ generalizing s₂ with
  | last hhidden₁ =>
    cases h₂ with
    | last hhidden₂ =>
      obtain ⟨ht₁, hleft₁, hright₁⟩ := hhidden₁.low hs₁
      obtain ⟨ht₂, hleft₂, hright₂⟩ := hhidden₂.low hs₂
      rw [lowEquivalent_iff ht₁ ht₂]
      exact ⟨(hright₁.trans hlow.1).trans hleft₂, (hright₂.trans hlow.2).trans hleft₁⟩
  | seen hhidden₁ hlevel₁ hstep₁ _ ih =>
    cases h₂ with
    | seen hhidden₂ hlevel₂ hstep₂ hrest₂ =>
      obtain ⟨hu₁, hleft₁, hright₁⟩ := hhidden₁.low hs₁
      obtain ⟨hu₂, hleft₂, hright₂⟩ := hhidden₂.low hs₂
      have heffect₁ := effect_execute hstep₁
      have heffect₂ := effect_execute hstep₂
      refine ih _ (heffect₁.ordered hu₁) (heffect₂.ordered hu₂) ⟨?_, ?_⟩ hrest₂
      · exact ((hright₁.trans hlow.1).trans hleft₂).execute (fun _ ↦ hlevel₁) heffect₁ heffect₂
      · exact ((hright₂.trans hlow.2).trans hleft₁).execute (fun _ ↦ hlevel₂) heffect₂ heffect₁

/-- The secret plugin releases an address in one of the runs, the public one releases another in both. -/
theorem noninterference_run_memFree : ∃ t₁ t₂, ObservedRun .publicLevel (observed 0) [.memFree 1 3] t₁ ∧
    ObservedRun .publicLevel (observed 5) [.memFree 1 3] t₂ ∧ lowEquivalent .publicLevel t₁ t₂ = true := by
  obtain ⟨t₁, h₁⟩ : ∃ t₁, ObservedRun .publicLevel (observed 0) [.memFree 1 3] t₁ :=
    ⟨_, .seen (.single ⟨.memFree 2 9, by decide, rfl, rfl⟩) (by decide) rfl (.last .refl)⟩
  obtain ⟨t₂, h₂⟩ : ∃ t₂, ObservedRun .publicLevel (observed 5) [.memFree 1 3] t₂ :=
    ⟨_, .seen .refl (by decide) rfl (.last .refl)⟩
  exact ⟨t₁, t₂, h₁, h₂,
    noninterference_run _ _ _ _ _ _ (observed_ordered 0) (observed_ordered 5) (by decide) h₁ h₂⟩

end Observer

/-! ## Revocation -/

section Revocation

variable {s s' : State} {step : Step}

/-- No step makes a capability valid. -/
theorem Effect.isValid_of (h : Effect s step s') {c : CapId} (hvalid : s'.kernel.revocation.isValid c = true) :
    s.kernel.revocation.isValid c = true := by
  obtain ⟨P, hcaps⟩ := h.caps
  rw [RevocationState.isValid_iff] at hvalid ⊢
  obtain ⟨cap', hcap', hcapValid⟩ := hvalid
  obtain ⟨cap, hcap, rfl⟩ := Option.map_eq_some_iff.1 ((hcaps c).symm.trans hcap')
  refine ⟨cap, hcap, ?_⟩
  split at hcapValid
  · cases hcapValid
  · exact hcapValid

/-- In every run after `c` was revoked, no host call succeeds whose authority is `c` or has `c` among its
ancestors. -/
theorem revoked_refused (s : State) (c : CapId) (steps : List Step) :
    Along State.run (fun t step ↦ ∀ hc auth result t', step = .hostCall hc auth result →
      s.kernel.revocation.inRevokeSet auth.cap.id c = true → step.execute t ≠ .ok t') (s.applyCapRevoke c)
      steps := by
  let Dead (t : State) : Prop := ∀ k, s.kernel.revocation.inRevokeSet k c = true →
    t.kernel.revocation.isValid k = false
  apply Along.of_invariant (I := Dead) (D := fun _ _ ↦ True) _ _ _ (Along.of_forall (fun _ _ ↦ trivial) _ steps)
  · rintro t _ hdead - hc auth result t' rfl hrevoked hstep
    simp only [Step.execute, executeHostCall, check_bind_eq_ok_iff] at hstep
    have hvalid := (checkHostCall_eq_ok hstep.1).2.valid
    rw [hdead _ hrevoked] at hvalid
    cases hvalid
  · intro t step hdead _ k hk
    unfold State.run
    cases hstep : step.execute t with
    | error e => exact hdead k hk
    | ok t' =>
      rw [Bool.eq_false_iff]
      intro hvalid
      exact absurd ((effect_execute hstep).isValid_of hvalid) (by simp [hdead k hk])
  · intro k hk
    rw [State.applyCapRevoke, RevocationState.revokeTransitive_eq, RevocationState.isValid_revokeWhere, hk]
    exact Bool.and_false _

end Revocation

end Lionagi.LionCore
