import Lionagi.Agent.Gate

/-!
# What the controls have checked

In the last pass each control allows the arguments that it is shown, which are those that the user's hooks leave,
as the controls before it have rewritten them. What is shown to it and rewritten no more is what the tool gets.
-/

namespace Lionagi.Agent

variable {V : Type*}

/-- The action and the arguments that the next control is shown. -/
def answered (shown : V × Args V) : Option (Args V) → V × Args V
  | some mutated => ((mutated.get? "action").getD shown.1, mutated)
  | none => shown

def Hook.Allows (hook : Hook V) (toolName : String) (shown : V × Args V) : Prop :=
  ∃ answer, hook.run toolName shown.1 shown.2 = .ok answer

def Hook.Rewrites (hook : Hook V) (toolName : String) (shown : V × Args V) : Prop :=
  ∃ mutated, hook.run toolName shown.1 shown.2 = .ok (some mutated)

/-- All controls allow what they are shown, from the first state to the second one. -/
inductive Passes (toolName : String) : List (Hook V) → V × Args V → V × Args V → Prop
  | nil (shown : V × Args V) : Passes toolName [] shown shown
  | cons {hook : Hook V} {hooks : List (Hook V)} {shown final : V × Args V} {answer : Option (Args V)} :
      hook.run toolName shown.1 shown.2 = .ok answer → Passes toolName hooks (answered shown answer) final →
        Passes toolName (hook :: hooks) shown final

/-- The arguments have no action of their own but the one shown with them. -/
def OwnAction (shown : V × Args V) : Prop := ∀ action, shown.2.get? "action" = some action → shown.1 = action

section Pass

variable {toolName : String} {hook : Hook V} {before after hooks : List (Hook V)} {start shown final : V × Args V}

theorem OwnAction.answered (h : OwnAction shown) (answer : Option (Args V)) : OwnAction (answered shown answer) := by
  cases answer with
  | none => exact h
  | some mutated =>
    intro action haction
    have hown : mutated.get? "action" = some action := haction
    change (mutated.get? "action").getD shown.1 = action
    rw [hown]
    rfl

theorem Passes.ownAction (h : Passes toolName hooks start final) (hown : OwnAction start) : OwnAction final := by
  induction h with
  | nil shown => exact hown
  | cons _ _ ih => exact ih (hown.answered _)

theorem passes_append : Passes toolName (before ++ after) start final ↔
    ∃ shown, Passes toolName before start shown ∧ Passes toolName after shown final := by
  induction before generalizing start with
  | nil =>
    constructor
    · exact fun h ↦ ⟨start, .nil start, h⟩
    · rintro ⟨shown, hbefore, hafter⟩
      cases hbefore
      exact hafter
  | cons hook before ih =>
    constructor
    · intro h
      cases h with
      | cons hrun hrest =>
        obtain ⟨shown, hbefore, hafter⟩ := ih.1 hrest
        exact ⟨shown, .cons hrun hbefore, hafter⟩
    · rintro ⟨shown, hbefore, hafter⟩
      cases hbefore with
      | cons hrun hrest => exact .cons hrun (ih.2 ⟨shown, hrest, hafter⟩)

/-- Controls that do not rewrite what they are shown leave it. -/
theorem Passes.eq_of_not_rewrites (h : Passes toolName hooks start final)
    (hkeep : ∀ hook ∈ hooks, ¬ hook.Rewrites toolName start) : final = start := by
  induction h with
  | nil shown => rfl
  | @cons hook hooks shown final answer hrun _ ih =>
    have hnone : answer = none := by
      cases answer with
      | none => rfl
      | some mutated => exact absurd ⟨mutated, hrun⟩ (hkeep hook List.mem_cons_self)
    subst hnone
    exact ih fun other hmem ↦ hkeep other (List.mem_cons_of_mem _ hmem)

/-! ## The code's pass -/

variable {answer : Option (Args V)}

/-- The verdict of a control that allows has its answer. -/
theorem adaptLegacyHook_allowed (control : String) (h : hook.run toolName shown.1 shown.2 = .ok answer) :
    (adaptLegacyHook control hook toolName shown.1 shown.2).allowed = true ∧
      (adaptLegacyHook control hook toolName shown.1 shown.2).mutatedArgs = answer := by
  unfold adaptLegacyHook
  rw [h]
  cases answer with
  | none => exact ⟨rfl, rfl⟩
  | some mutated => exact ⟨rfl, rfl⟩

/-- One that refuses or fails denies, under its own name. -/
theorem adaptLegacyHook_denied (control : String) (h : ¬ hook.Allows toolName shown) :
    (adaptLegacyHook control hook toolName shown.1 shown.2).allowed = false ∧
      (adaptLegacyHook control hook toolName shown.1 shown.2).control = control := by
  unfold adaptLegacyHook
  cases hrun : hook.run toolName shown.1 shown.2 with
  | ok answer => exact absurd ⟨answer, hrun⟩ h
  | error e => cases e with
    | controlUnavailable message => exact ⟨rfl, rfl⟩
    | permission message => exact ⟨rfl, rfl⟩
    | other type message => exact ⟨rfl, rfl⟩

theorem runGatePass_cons (h : hook.run toolName shown.1 shown.2 = .ok answer) :
    runGatePass toolName (evaluators (hook :: hooks)) shown.1 shown.2 =
      runGatePass toolName (evaluators hooks) (answered shown answer).1 (answered shown answer).2 := by
  obtain ⟨hallowed, hmutated⟩ := adaptLegacyHook_allowed (hook.name.getD "security_control") h
  rw [evaluators, List.map_cons, runGatePass, if_pos hallowed, hmutated]
  cases answer with
  | none => rfl
  | some mutated => rfl

theorem runGatePass_denied (hooks : List (Hook V)) (h : ¬ hook.Allows toolName shown) :
    ∃ denial, runGatePass toolName (evaluators (hook :: hooks)) shown.1 shown.2 = (shown.2, some denial) ∧
      denial.control = hook.name.getD "security_control" := by
  obtain ⟨hdenied, hcontrol⟩ := adaptLegacyHook_denied (hook.name.getD "security_control") h
  refine ⟨_, ?_, hcontrol⟩
  rw [evaluators, List.map_cons, runGatePass, if_neg (by rw [hdenied]; exact Bool.false_ne_true)]

/-- The pass goes on from what the controls so far have made of the arguments. -/
theorem Passes.runGatePass_append (h : Passes toolName before start shown) (after : List (Hook V)) :
    runGatePass toolName (evaluators (before ++ after)) start.1 start.2 =
      runGatePass toolName (evaluators after) shown.1 shown.2 := by
  induction h with
  | nil shown => rfl
  | cons hrun _ ih =>
    rw [List.cons_append, runGatePass_cons hrun]
    exact ih

/-- A pass without a denial is one in which every control allows. -/
theorem passes_of_runGatePass (start : V × Args V) {args : Args V}
    (h : runGatePass toolName (evaluators hooks) start.1 start.2 = (args, none)) :
    ∃ action, Passes toolName hooks start (action, args) := by
  induction hooks generalizing start with
  | nil =>
    rw [evaluators, List.map_nil, runGatePass, Prod.mk.injEq] at h
    exact ⟨start.1, h.1 ▸ .nil start⟩
  | cons hook hooks ih =>
    by_cases hallows : hook.Allows toolName start
    · obtain ⟨answer, hrun⟩ := hallows
      rw [runGatePass_cons hrun] at h
      obtain ⟨action, hrest⟩ := ih _ h
      exact ⟨action, .cons hrun hrest⟩
    · obtain ⟨denial, hdenied, -⟩ := runGatePass_denied hooks hallows
      rw [hdenied] at h
      cases h

/-- A control that does not allow what it is shown ends the pass. -/
theorem Passes.denied (h : Passes toolName before start shown) (hdenies : ¬ hook.Allows toolName shown)
    (after : List (Hook V)) : ∃ args denial, runGatePass toolName (evaluators (before ++ hook :: after)) start.1 start.2 =
        (args, some denial) ∧ denial.control = hook.name.getD "security_control" := by
  obtain ⟨denial, hdenied, hcontrol⟩ := runGatePass_denied after hdenies
  rw [h.runGatePass_append (hook :: after)]
  exact ⟨shown.2, denial, hdenied, hcontrol⟩

end Pass

/-! ## The preprocessor -/

section Chain

variable (blank : V) (toolName : String) (securityHooks userHooks : List (Hook V)) (args : Args V)

/-- What the first control is shown in the first pass. -/
def firstShown : V × Args V := ((args.get? "action").getD blank, args)

/-- What the first control is shown in the pass over the arguments that the user's hooks have left. -/
def SecondShown (shown : V × Args V) : Prop :=
  ∃ first handled, Passes toolName securityHooks (firstShown blank args) first ∧
    runHandlers blank toolName userHooks first.2 = .ok handled ∧
      shown = ((handled.get? "action").getD (firstShown blank args).1, handled)

/-- What the last pass starts from. -/
def LastPass (start : V × Args V) : Prop :=
  if userHooks = [] then start = firstShown blank args
  else SecondShown blank toolName securityHooks userHooks args start

/-- In one of the passes a control is shown an action and arguments. -/
def IsShown (hook : Hook V) (shown : V × Args V) : Prop :=
  ∃ before after, securityHooks = before ++ hook :: after ∧
    (Passes toolName before (firstShown blank args) shown ∨ userHooks ≠ [] ∧
      ∃ start, SecondShown blank toolName securityHooks userHooks args start ∧ Passes toolName before start shown)

variable {blank toolName securityHooks userHooks args}

theorem ownAction_firstShown : OwnAction (firstShown blank args) := by
  intro action haction
  have hown : args.get? "action" = some action := haction
  change (args.get? "action").getD blank = action
  rw [hown]
  rfl

variable {start : V × Args V}

theorem SecondShown.ownAction (h : SecondShown blank toolName securityHooks userHooks args start) :
    OwnAction start := by
  obtain ⟨first, handled, -, -, rfl⟩ := h
  intro action haction
  have hown : handled.get? "action" = some action := haction
  change (handled.get? "action").getD (firstShown blank args).1 = action
  rw [hown]
  rfl

theorem LastPass.ownAction (h : LastPass blank toolName securityHooks userHooks args start) : OwnAction start := by
  unfold LastPass at h
  split at h
  · rw [h]
    exact ownAction_firstShown
  · exact h.ownAction

/-- What the preprocessor returns has gone through the controls in the last pass. -/
theorem passes_of_chained {returned : Args V}
    (h : chained blank toolName securityHooks userHooks args = .ok returned) (hsecurity : securityHooks ≠ []) :
    ∃ start action, LastPass blank toolName securityHooks userHooks args start ∧
      Passes toolName securityHooks start (action, returned) := by
  unfold chained at h
  extract_lets action at h
  split at h
  · cases h
  next first hfirst =>
  obtain ⟨firstAction, hpasses⟩ := passes_of_runGatePass (firstShown blank args) hfirst
  split at h
  · cases h
  next handled hhandled =>
  by_cases huser : userHooks = []
  · rw [if_neg fun hand ↦ hand.1 huser] at h
    rw [huser, runHandlers] at hhandled
    refine ⟨firstShown blank args, firstAction, by rw [LastPass, if_pos huser], ?_⟩
    rw [← Except.ok.inj h, ← Except.ok.inj hhandled]
    exact hpasses
  · rw [if_pos ⟨huser, hsecurity⟩] at h
    split at h
    · cases h
    · next last hlast =>
      obtain ⟨lastAction, hlastPasses⟩ := passes_of_runGatePass
        ((handled.get? "action").getD (firstShown blank args).1, handled) hlast
      refine ⟨_, lastAction, ?_, Except.ok.inj h ▸ hlastPasses⟩
      rw [LastPass, if_neg huser]
      exact ⟨(firstAction, first), handled, hpasses, hhandled, rfl⟩

/-- A control that does not allow what it is shown ends the preprocessor. -/
theorem chained_denied {hook : Hook V} {shown : V × Args V}
    (hshown : IsShown blank toolName securityHooks userHooks args hook shown) (hdenies : ¬ hook.Allows toolName shown) :
    ∃ denial, chained blank toolName securityHooks userHooks args = .error (.gateDenied denial) ∧
      denial.control = hook.name.getD "security_control" := by
  obtain ⟨before, after, hhooks, hpass⟩ := hshown
  have hsecurity : securityHooks ≠ [] := by
    rw [hhooks]
    exact List.append_ne_nil_of_right_ne_nil _ (List.cons_ne_nil _ _)
  unfold chained
  rcases hpass with hpass | ⟨huser, start, ⟨first, handled, hpasses, hhandled, rfl⟩, hpass⟩
  · obtain ⟨left, denial, hdenied, hcontrol⟩ := hpass.denied hdenies after
    rw [← hhooks] at hdenied
    exact ⟨denial, by rw [firstShown] at hdenied; simp only [hdenied], hcontrol⟩
  · obtain ⟨left, denial, hdenied, hcontrol⟩ := hpass.denied hdenies after
    rw [← hhooks] at hdenied
    have hfirst : runGatePass toolName (evaluators securityHooks) (firstShown blank args).1 args = (first.2, none) := by
      have hall := hpasses.runGatePass_append []
      rw [List.append_nil] at hall
      exact hall
    refine ⟨denial, ?_, hcontrol⟩
    simp only [firstShown] at hfirst hdenied
    simp only [hfirst, hhandled, hdenied, if_pos (And.intro huser hsecurity)]

/-- In the last pass each control has allowed what it was shown. That is what the tool gets, with its own action
when it has one, unless the control itself or one after it rewrites it. A control that does not allow what it is
shown, in either pass, keeps the tool from being called. -/
theorem preprocessor_checks (blank : V) (toolName : String) (securityHooks userHooks : List (Hook V)) (args : Args V) :
    (∀ returned, chained blank toolName securityHooks userHooks args = .ok returned →
      ∀ before hook after, securityHooks = before ++ hook :: after →
        ∃ start shown, LastPass blank toolName securityHooks userHooks args start ∧
          Passes toolName before start shown ∧ hook.Allows toolName shown ∧ OwnAction shown ∧
            ((∀ other ∈ hook :: after, ¬ other.Rewrites toolName shown) → shown.2 = returned)) ∧
      ∀ hook shown, IsShown blank toolName securityHooks userHooks args hook shown → ¬ hook.Allows toolName shown →
        ∃ denial, denial.control = hook.name.getD "security_control" ∧ ∀ revalidate,
          invoke (chainPreHooks blank toolName securityHooks userHooks) revalidate args =
            .error (.preprocess (.gateDenied denial)) := by
  constructor
  · intro returned hreturned before hook after hhooks
    have hsecurity : securityHooks ≠ [] := by
      rw [hhooks]
      exact List.append_ne_nil_of_right_ne_nil _ (List.cons_ne_nil _ _)
    obtain ⟨start, action, hstart, hpasses⟩ := passes_of_chained hreturned hsecurity
    rw [hhooks, passes_append] at hpasses
    obtain ⟨shown, hbefore, hrest⟩ := hpasses
    refine ⟨start, shown, hstart, hbefore, ?_, hbefore.ownAction hstart.ownAction, fun hkeep ↦ ?_⟩
    · cases hrest with
      | cons hrun _ => exact ⟨_, hrun⟩
    · exact (congrArg Prod.snd (hrest.eq_of_not_rewrites hkeep)).symm
  · intro hook shown hshown hdenies
    obtain ⟨denial, hdenied, hcontrol⟩ := chained_denied hshown hdenies
    refine ⟨denial, hcontrol, fun revalidate ↦ ?_⟩
    have hsecurity : ¬ (securityHooks = [] ∧ userHooks = []) := by
      rintro ⟨rfl, -⟩
      obtain ⟨before, after, hhooks, -⟩ := hshown
      exact absurd hhooks.symm (List.append_ne_nil_of_right_ne_nil _ (List.cons_ne_nil _ _))
    rw [chainPreHooks, if_neg hsecurity, invoke]
    simp only [hdenied]

end Chain

/-! ## A control that rewrites -/

/-- A control refuses one command. -/
def refusesCommand (command : String) : Hook String where
  name := some "guard"
  run _ _ args := if args.get? "command" = some command then .error (.permission command) else .ok none

/-- A control sets the command. -/
def setsCommand (command : String) : Hook String where
  name := some "escalation"
  run _ _ args := .ok (some (args.set "command" command))

def echoArgs : Args String := OrderedDict.empty.set "command" "echo"

/-- Without a rewriting control, the first control allows what the tool gets. -/
theorem preprocessor_checks_guard :
    ∃ shown, (refusesCommand "rm").Allows "bash" shown ∧ shown.2 = echoArgs := by
  have hreturned : chained "" "bash" [refusesCommand "rm"] [] echoArgs = .ok echoArgs := rfl
  obtain ⟨-, shown, -, -, hallows, -, hsame⟩ :=
    (preprocessor_checks "" "bash" [refusesCommand "rm"] [] echoArgs).1 echoArgs hreturned [] _ [] rfl
  refine ⟨shown, hallows, hsame ?_⟩
  rintro other hmem ⟨mutated, hmutated⟩
  rw [List.mem_singleton.1 hmem] at hmutated
  simp only [refusesCommand] at hmutated
  split at hmutated
  · cases hmutated
  · cases hmutated

/-- What a later control rewrites is not shown to an earlier one again, which would have refused it. -/
theorem not_allows_returned : ∃ returned,
    chained "" "bash" [refusesCommand "rm", setsCommand "rm"] [] echoArgs = .ok returned ∧
      ¬ (refusesCommand "rm").Allows "bash" ((returned.get? "action").getD "", returned) := by
  refine ⟨echoArgs.set "command" "rm", rfl, ?_⟩
  rintro ⟨answer, hanswer⟩
  cases hanswer

end Lionagi.Agent
