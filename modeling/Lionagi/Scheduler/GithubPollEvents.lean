import Mathlib.Algebra.Order.Ring.Rat
import Lionagi.Library.Transition
import Lionagi.Scheduler.GithubPoll

/-!
# Events that a poll passes

A poll passes an event when its occurrence is committed, or when it was refused often enough, as long as a
fire that only lost its claim is not counted as a refusal.
-/

namespace Lionagi.Scheduler

universe u

namespace GithubTick

variable {C : Type u} (tick : GithubTick C)

/-- The event that the poll is at. -/
def head : Option C := tick.items.head?.map (·.cursor)

/-- The items that are left, without the one that was just fired. -/
def todo : List (PollItem C) := if tick.stage = .fired then tick.items.tail else tick.items

end GithubTick

namespace GithubPoll

variable {C : Type u} [LinearOrder C] (system : GithubPoll C)

/-- The event has an occurrence, or its fires were refused often enough. -/
def Handled (cursor : C) : Prop :=
  cursor ∈ system.occurrences ∨ maxPredispatchRefusals ≤ system.refusals.count cursor

instance (cursor : C) : Decidable (system.Handled cursor) := inferInstanceAs (Decidable (_ ∨ _))

/-- The stored cursor is past no dispatchable event of the last batch that is not handled, and what is
counted against an event are refusals of its fires. -/
structure NeverSkips : Prop where
  passed : ∀ item ∈ system.batch, item.dispatchable = true → ∀ stored ∈ system.row.githubCursor,
    item.cursor ≤ stored → system.Handled item.cursor
  counted : ∀ cursor ∈ system.row.refusalEvent, system.row.refusalCount ≤ system.refusals.count cursor

/-- A fire with a valid action holds its claims. -/
def ClaimsHold : PollOp C → Prop
  | .fire true _ => ∀ tick ∈ system.poll, tick.stage = .firing → system.Claimed tick
  | _ => True

instance (op : PollOp C) : Decidable (system.ClaimsHold op) := by
  unfold ClaimsHold
  split <;> infer_instance

/-- What is known of a poll. -/
structure Sound (tick : GithubTick C) : Prop where
  batch : ∃ passed, system.batch = passed ++ tick.items ∧
    ∀ item ∈ passed, item.dispatchable = true → system.Handled item.cursor
  sorted : tick.items.Pairwise fun item later ↦ item.cursor < later.cursor
  ahead : ∀ item ∈ tick.items, ∀ cursor ∈ tick.cursor, cursor < item.cursor
  stored : ∀ item ∈ tick.todo, ∀ stored ∈ system.row.githubCursor, stored < item.cursor
  schedule : tick.schedule.refusalEvent = system.row.refusalEvent ∧
    tick.schedule.refusalCount = system.row.refusalCount
  fired : tick.stage = .fired → ∀ cursor ∈ tick.head, cursor ∈ system.occurrences
  unfired : tick.stage = .unfired → ∀ cursor ∈ tick.head,
    nextRefusalCount tick.schedule cursor ≤ system.refusals.count cursor
  passing : tick.stage = .passing → ∀ cursor ∈ tick.head,
    maxPredispatchRefusals ≤ system.refusals.count cursor

structure Accounted : Prop where
  skips : system.NeverSkips
  sound : ∀ tick ∈ system.poll, system.Sound tick

variable {system} {system' : GithubPoll C} {tick : GithubTick C} {item : PollItem C}
  {items : List (PollItem C)}
variable {cursor : C}

theorem mem_guardCursorForward {stored : Option C} {cursor' : C} (h : cursor' ∈ guardCursorForward stored cursor) :
    cursor' ∈ stored ∨ cursor' = cursor := by
  unfold guardCursorForward at h
  split at h
  · exact .inr (Option.some.inj h).symm
  · split at h
    · exact .inr (Option.some.inj h).symm
    · exact .inl h

theorem Handled.mono (h : system.Handled cursor)
    (hoccurrences : ∀ cursor ∈ system.occurrences, cursor ∈ system'.occurrences)
    (hrefusals : system.refusals.count cursor ≤ system'.refusals.count cursor) : system'.Handled cursor := by
  rcases h with h | h
  · exact .inl (hoccurrences cursor h)
  · exact .inr (h.trans hrefusals)

/-! ## Steps of the loop -/

theorem accounted_begin {batch : List (PollItem C)} (h : system.Accounted) :
    (system.begin batch).Accounted := by
  unfold begin
  split
  · next hbegin =>
    obtain ⟨-, hsorted, hpast⟩ := hbegin
    constructor
    case skips =>
      constructor
      case passed =>
        intro item hitem _ stored hstored hle
        exact absurd (hpast item hitem stored hstored) (not_lt_of_ge hle)
      case counted => exact h.skips.counted
    case sound =>
      rintro tick ⟨⟩
      constructor
      case batch => exact ⟨[], rfl, fun item hitem ↦ absurd hitem List.not_mem_nil⟩
      case sorted => exact hsorted
      case ahead => exact hpast
      case stored => exact hpast
      case schedule => exact ⟨rfl, rfl⟩
      case fired => exact fun hstage ↦ by cases hstage
      case unfired => exact fun hstage ↦ by cases hstage
      case passing => exact fun hstage ↦ by cases hstage
  · exact h

variable {schedule : PollRow C} {tick' : GithubTick C}

/-- The poll goes on past an item that is not dispatchable or is handled. -/
theorem Sound.advance (h : system.Sound tick) (hitems : tick.items = item :: items)
    (hhandled : item.dispatchable = true → system.Handled item.cursor) {row : PollRow C}
    (hcursor : row.githubCursor = system.row.githubCursor)
    (hschedule : schedule.refusalEvent = row.refusalEvent ∧ schedule.refusalCount = row.refusalCount)
    (htick : tick' = { tick with schedule := schedule, items := items, cursor := some item.cursor, stage := .next }) :
    ({ system with row := row, poll := some tick' } : GithubPoll C).Sound tick' := by
  subst htick
  have hsorted := h.sorted
  rw [hitems, List.pairwise_cons] at hsorted
  constructor
  case batch =>
    obtain ⟨passed, hbatch, hpassed⟩ := h.batch
    refine ⟨passed ++ [item], ?_, fun other hother hdispatchable ↦ ?_⟩
    · rw [List.append_assoc]
      exact hbatch.trans (congrArg (passed ++ ·) hitems)
    · rcases List.mem_append.1 hother with hold | hnew
      · exact hpassed other hold hdispatchable
      · cases List.mem_singleton.1 hnew
        exact hhandled hdispatchable
  case sorted => exact hsorted.2
  case ahead =>
    rintro later hlater cursor ⟨⟩
    exact hsorted.1 later hlater
  case stored =>
    intro later hlater stored hstored
    refine h.stored later ?_ stored (hcursor ▸ hstored)
    have hlater' : later ∈ items := hlater
    unfold GithubTick.todo
    split
    · rw [hitems]
      exact hlater'
    · rw [hitems]
      exact List.mem_cons_of_mem item hlater'
  case schedule => exact hschedule
  case fired => exact fun hstage ↦ by cases hstage
  case unfired => exact fun hstage ↦ by cases hstage
  case passing => exact fun hstage ↦ by cases hstage

/-- The poll stays at its item, and more may be known of it. -/
theorem Sound.stay (h : system.Sound tick) (hbatch : system'.batch = system.batch)
    (hoccurrences : system'.occurrences = system.occurrences)
    (hrefusals : ∀ cursor, system.refusals.count cursor ≤ system'.refusals.count cursor)
    (hrow : system'.row.githubCursor = system.row.githubCursor) (hitems : tick'.items = tick.items)
    (hcursor : tick'.cursor = tick.cursor) (hstage : tick.stage ≠ .fired) (hstage' : tick'.stage ≠ .fired)
    (hschedule : tick'.schedule.refusalEvent = system'.row.refusalEvent ∧
      tick'.schedule.refusalCount = system'.row.refusalCount)
    (hunfired : tick'.stage = .unfired → ∀ cursor ∈ tick'.head,
      nextRefusalCount tick'.schedule cursor ≤ system'.refusals.count cursor)
    (hpassing : tick'.stage = .passing → ∀ cursor ∈ tick'.head, maxPredispatchRefusals ≤ system'.refusals.count cursor)
    : system'.Sound tick' := by
  constructor
  case batch =>
    obtain ⟨passed, hsplit, hpassed⟩ := h.batch
    refine ⟨passed, ?_, fun item hitem hdispatchable ↦ ?_⟩
    · rw [hbatch, hitems, hsplit]
    · refine (hpassed item hitem hdispatchable).mono ?_ (hrefusals item.cursor)
      rw [hoccurrences]
      exact fun _ ↦ id
  case sorted =>
    rw [hitems]
    exact h.sorted
  case ahead =>
    rw [hitems, hcursor]
    exact h.ahead
  case stored =>
    have hstored := h.stored
    rw [GithubTick.todo, if_neg hstage] at hstored
    rw [GithubTick.todo, if_neg hstage', hitems, hrow]
    exact hstored
  case schedule => exact hschedule
  case fired => exact fun hfired ↦ absurd hfired hstage'
  case unfired => exact hunfired
  case passing => exact hpassing

theorem accounted_filter (h : system.Accounted) (htick : system.poll = some tick) :
    (system.filter tick).Accounted := by
  unfold filter
  split
  · next item items hstage hitems =>
    split
    · exact h
    · next hfiltered =>
      have hsound := h.sound tick htick
      constructor
      case skips => exact ⟨h.skips.passed, h.skips.counted⟩
      case sound =>
        rintro tick' ⟨⟩
        have hrow : system.row.githubCursor = system.row.githubCursor := rfl
        exact hsound.advance hitems (fun htrue ↦ absurd htrue hfiltered) hrow hsound.schedule (by rw [hstage])
  · exact h

theorem accounted_reserve (h : system.Accounted) (htick : system.poll = some tick) (granted : Bool) :
    (system.reserve granted tick).Accounted := by
  unfold reserve
  split
  · next item items hstage hitems =>
    split
    · have hsound := h.sound tick htick
      have hbefore : tick.stage ≠ .fired := by
        rw [hstage]
        decide
      constructor
      case skips => exact ⟨h.skips.passed, h.skips.counted⟩
      case sound =>
        rintro tick' ⟨⟩
        cases granted with
        | true =>
          refine hsound.stay rfl rfl (fun _ ↦ le_refl _) rfl rfl rfl hbefore (fun hfired ↦ by cases hfired) hsound.schedule ?_ ?_
          · exact fun hunfired ↦ by cases hunfired
          · exact fun hpassing ↦ by cases hpassing
        | false =>
          refine hsound.stay rfl rfl (fun _ ↦ le_refl _) rfl rfl rfl hbefore (fun hfired ↦ by cases hfired) hsound.schedule ?_ ?_
          · exact fun hunfired ↦ by cases hunfired
          · exact fun hpassing ↦ by cases hpassing
    · exact h
  · exact h

theorem nextRefusalCount_le {refusals : List C}
    (h : ∀ event ∈ schedule.refusalEvent, schedule.refusalCount ≤ refusals.count event) :
    nextRefusalCount schedule cursor ≤ (refusals ++ [cursor]).count cursor := by
  rw [List.count_append, List.count_singleton_self]
  unfold nextRefusalCount
  split
  · next hevent => exact Nat.succ_le_succ (h cursor hevent)
  · exact Nat.succ_le_succ (Nat.zero_le _)

/-- A refused fire, of which the row may have been written. -/
theorem Accounted.refuse (h : system.Accounted) (htick : system.poll = some tick)
    (hstage : tick.stage = .firing) (hitems : tick.items = item :: items) (nextFireAt : Option ℚ) :
    ({ system with
      row := { system.row with nextFireAt := nextFireAt }
      refusals := system.refusals ++ [item.cursor]
      poll := some { tick with stage := .unfired } } : GithubPoll C).Accounted := by
  have hsound := h.sound tick htick
  have hcount : ∀ cursor, system.refusals.count cursor ≤ (system.refusals ++ [item.cursor]).count cursor := by
    intro cursor
    rw [List.count_append]
    exact Nat.le_add_right _ _
  have hbefore : tick.stage ≠ .fired := by
    rw [hstage]
    decide
  constructor
  case skips =>
    constructor
    case passed =>
      intro other hother hdispatchable stored hstored hle
      exact (h.skips.passed other hother hdispatchable stored hstored hle).mono (fun _ ↦ id) (hcount _)
    case counted => exact fun cursor hcursor ↦ (h.skips.counted cursor hcursor).trans (hcount cursor)
  case sound =>
    rintro tick' ⟨⟩
    refine hsound.stay rfl rfl hcount rfl rfl rfl hbefore (fun hfired ↦ by cases hfired) hsound.schedule ?_ ?_
    · intro _ cursor hcursor
      have hhead : cursor = item.cursor := by
        rw [GithubTick.head, hitems] at hcursor
        exact (Option.some.inj hcursor).symm
      subst hhead
      apply nextRefusalCount_le
      rw [hsound.schedule.1, hsound.schedule.2]
      exact h.skips.counted
    · exact fun hpassing ↦ by cases hpassing

/-- The occurrence of an event is committed, with the cursor. -/
theorem Accounted.dispatch (h : system.Accounted) (htick : system.poll = some tick)
    (hstage : tick.stage = .firing) (hitems : tick.items = item :: items) (nextFireAt : Option ℚ) :
    ({ system with
      row := { system.row with
        githubCursor := guardCursorForward system.row.githubCursor item.cursor
        nextFireAt := nextFireAt }
      occurrences := system.occurrences ++ [item.cursor]
      poll := some { tick with
        unclaimedPollCycle := false
        claimedCursor := some item.cursor
        stage := .fired } } : GithubPoll C).Accounted := by
  have hsound := h.sound tick htick
  have hsorted := hsound.sorted
  rw [hitems, List.pairwise_cons] at hsorted
  obtain ⟨passed, hbatch, hpassed⟩ := hsound.batch
  have hstored := hsound.stored
  have hbefore : tick.stage ≠ .fired := by
    rw [hstage]
    decide
  rw [GithubTick.todo, if_neg hbefore, hitems] at hstored
  have hkept : ∀ cursor ∈ system.occurrences, cursor ∈ system.occurrences ++ [item.cursor] :=
    fun _ ↦ List.mem_append_left _
  constructor
  case skips =>
    constructor
    case passed =>
      intro other hother hdispatchable stored hmem hle
      rcases mem_guardCursorForward hmem with hold | rfl
      · exact (h.skips.passed other hother hdispatchable stored hold hle).mono hkept (le_refl _)
      · change other ∈ system.batch at hother
        rw [hbatch, hitems] at hother
        rcases List.mem_append.1 hother with hpast | hrest
        · exact (hpassed other hpast hdispatchable).mono hkept (le_refl _)
        · rcases List.mem_cons.1 hrest with rfl | hlater
          · exact .inl (List.mem_append_right _ (List.mem_singleton_self _))
          · exact absurd (hsorted.1 other hlater) (not_lt_of_ge hle)
    case counted => exact h.skips.counted
  case sound =>
    rintro tick' ⟨⟩
    constructor
    case batch =>
      refine ⟨passed, hbatch, fun other hother hdispatchable ↦ ?_⟩
      exact (hpassed other hother hdispatchable).mono hkept (le_refl _)
    case sorted => exact hsound.sorted
    case ahead => exact hsound.ahead
    case stored =>
      intro later hlater stored hmem
      have hlater' : later ∈ items := by
        rw [GithubTick.todo, if_pos rfl, hitems] at hlater
        exact hlater
      rcases mem_guardCursorForward hmem with hold | rfl
      · exact hstored later (List.mem_cons_of_mem item hlater') stored hold
      · exact hsorted.1 later hlater'
    case schedule => exact hsound.schedule
    case fired =>
      intro _ cursor hcursor
      rw [GithubTick.head, hitems] at hcursor
      cases hcursor
      exact List.mem_append_right _ (List.mem_singleton_self _)
    case unfired => exact fun hunfired ↦ by cases hunfired
    case passing => exact fun hpassing ↦ by cases hpassing

theorem accounted_fire (h : system.Accounted) (htick : system.poll = some tick) {valid : Bool}
    {nextAt : Option ℚ} (hclaims : system.ClaimsHold (.fire valid nextAt)) :
    (system.fire valid nextAt tick).Accounted := by
  unfold fire
  split
  · next item items hstage hitems =>
    cases valid with
    | true =>
      have hclaimed : system.Claimed tick := hclaims tick htick hstage
      simp only [if_pos hclaimed, if_true]
      exact h.dispatch htick hstage hitems _
    | false =>
      simp only [Bool.false_eq_true, if_false]
      split
      · exact h.refuse htick hstage hitems _
      · exact h.refuse htick hstage hitems system.row.nextFireAt
  · exact h

theorem accounted_record (h : system.Accounted) (htick : system.poll = some tick) :
    (system.recordPredispatchRefusal tick).Accounted := by
  unfold recordPredispatchRefusal
  split
  · next item items hstage hitems =>
    have hsound := h.sound tick htick
    have hhead : item.cursor ∈ tick.head := by
      rw [GithubTick.head, hitems]
      rfl
    have hcount := hsound.unfired hstage item.cursor hhead
    have hbefore : tick.stage ≠ .fired := by
      rw [hstage]
      decide
    constructor
    case skips =>
      constructor
      case passed => exact h.skips.passed
      case counted =>
        rintro cursor ⟨⟩
        exact hcount
    case sound =>
      rintro tick' ⟨⟩
      refine hsound.stay rfl rfl (fun _ ↦ le_refl _) rfl rfl rfl hbefore ?_ ⟨rfl, rfl⟩ ?_ ?_
      · change (if _ then PollStage.trailing else PollStage.passing) ≠ PollStage.fired
        split <;> decide
      · intro hunfired
        change (if _ then PollStage.trailing else PollStage.passing) = PollStage.unfired at hunfired
        split at hunfired <;> cases hunfired
      · intro hpassing cursor hcursor
        have heq : cursor = item.cursor := by
          change cursor ∈ tick.head at hcursor
          rw [GithubTick.head, hitems] at hcursor
          exact (Option.some.inj hcursor).symm
        subst heq
        change (if _ then PollStage.trailing else PollStage.passing) = PollStage.passing at hpassing
        split at hpassing
        · cases hpassing
        · next hmax => exact (le_of_not_gt hmax).trans hcount
  · exact h

/-- The event that was fired or refused often enough is handled. -/
theorem Sound.handled (h : system.Sound tick) (hstage : tick.stage = .fired ∨ tick.stage = .passing)
    (hitems : tick.items = item :: items) : system.Handled item.cursor := by
  have hhead : item.cursor ∈ tick.head := by
    rw [GithubTick.head, hitems]
    rfl
  rcases hstage with hfired | hpassing
  · exact .inl (h.fired hfired item.cursor hhead)
  · exact .inr (h.passing hpassing item.cursor hhead)

theorem accounted_clear (h : system.Accounted) (htick : system.poll = some tick) :
    (system.clearPredispatchRefusals tick).Accounted := by
  have hsound := h.sound tick htick
  have hclear : ∀ {item items}, tick.items = item :: items → tick.stage = .fired ∨ tick.stage = .passing →
      ({ system with
        row := if tick.schedule.refusalCount ≠ 0 ∨ tick.schedule.refusalEvent ≠ none then
          { system.row with refusalEvent := none, refusalCount := 0 } else system.row
        poll := some { tick with
          schedule := { tick.schedule with refusalEvent := none, refusalCount := 0 }
          items := items
          cursor := some item.cursor
          stage := .next } } : GithubPoll C).Accounted := by
    intro item items hitems hstage
    have hhandled := hsound.handled hstage hitems
    by_cases hcounted : tick.schedule.refusalCount ≠ 0 ∨ tick.schedule.refusalEvent ≠ none
    · simp only [if_pos hcounted]
      constructor
      case skips =>
        constructor
        case passed => exact h.skips.passed
        case counted => exact fun cursor hcursor ↦ absurd hcursor (Option.not_mem_none cursor)
      case sound =>
        rintro tick' ⟨⟩
        let row := { system.row with refusalEvent := none, refusalCount := 0 }
        have hrow : row.githubCursor = system.row.githubCursor := rfl
        let schedule := { tick.schedule with refusalEvent := none, refusalCount := 0 }
        have hschedule : schedule.refusalEvent = row.refusalEvent ∧ schedule.refusalCount = row.refusalCount :=
          ⟨rfl, rfl⟩
        exact hsound.advance hitems (fun _ ↦ hhandled) hrow hschedule rfl
    · simp only [if_neg hcounted]
      rw [not_or, not_not, not_not] at hcounted
      constructor
      case skips => exact ⟨h.skips.passed, h.skips.counted⟩
      case sound =>
        rintro tick' ⟨⟩
        have hrow : system.row.githubCursor = system.row.githubCursor := rfl
        refine hsound.advance hitems (fun _ ↦ hhandled) hrow ?_ rfl
        exact ⟨hcounted.2.symm.trans hsound.schedule.1, hcounted.1.symm.trans hsound.schedule.2⟩
  unfold clearPredispatchRefusals
  split
  · next item items hstage hitems => exact hclear hitems (.inl hstage)
  · next item items hstage hitems => exact hclear hitems (.inr hstage)
  · exact h

theorem accounted_trail (h : system.Accounted) (htick : system.poll = some tick) :
    (system.trail tick).Accounted := by
  have hended : ({ system with poll := none } : GithubPoll C).Accounted := by
    refine ⟨⟨h.skips.passed, h.skips.counted⟩, fun _ hnone ↦ absurd hnone (Option.not_mem_none _)⟩
  unfold trail
  split
  · split
    · next cursor hcursor =>
      split
      · exact hended
      · have hsound := h.sound tick htick
        obtain ⟨passed, hbatch, hpassed⟩ := hsound.batch
        constructor
        case skips =>
          constructor
          case passed =>
            intro item hitem hdispatchable stored hmem hle
            rcases mem_guardCursorForward hmem with hold | rfl
            · exact h.skips.passed item hitem hdispatchable stored hold hle
            · change item ∈ system.batch at hitem
              rw [hbatch] at hitem
              rcases List.mem_append.1 hitem with hpast | hrest
              · exact hpassed item hpast hdispatchable
              · exact absurd (hsound.ahead item hrest stored hcursor) (not_lt_of_ge hle)
          case counted => exact h.skips.counted
        case sound => exact fun _ hnone ↦ absurd hnone (Option.not_mem_none _)
    · exact hended
  · exact h

/-! ## Runs -/

theorem accounted_onTick (h : system.Accounted) {step : GithubTick C → GithubPoll C}
    (hstep : ∀ tick, system.poll = some tick → (step tick).Accounted) : (system.onTick step).Accounted := by
  unfold onTick
  split
  · next tick htick => exact hstep tick htick
  · exact h

theorem Accounted.exec (h : system.Accounted) {op : PollOp C} (hop : system.ClaimsHold op) :
    (system.exec op).Accounted := by
  cases op with
  | begin batch => exact accounted_begin h
  | filter => exact accounted_onTick h fun _ htick ↦ accounted_filter h htick
  | reserve granted => exact accounted_onTick h fun _ htick ↦ accounted_reserve h htick granted
  | fire valid nextAt => exact accounted_onTick h fun _ htick ↦ accounted_fire h htick hop
  | record => exact accounted_onTick h fun _ htick ↦ accounted_record h htick
  | clear => exact accounted_onTick h fun _ htick ↦ accounted_clear h htick
  | trail => exact accounted_onTick h fun _ htick ↦ accounted_trail h htick
  | crash =>
    exact ⟨⟨h.skips.passed, h.skips.counted⟩, fun _ hnone ↦ absurd hnone (Option.not_mem_none _)⟩
  | touch nextAt =>
    refine ⟨⟨h.skips.passed, h.skips.counted⟩, fun tick htick ↦ ?_⟩
    have hsound := h.sound tick htick
    exact ⟨hsound.batch, hsound.sorted, hsound.ahead, hsound.stored, hsound.schedule, hsound.fired,
      hsound.unfired, hsound.passing⟩

/-- A schedule that was never polled. -/
def start (githubCursor : Option C) (nextFireAt : Option ℚ) : GithubPoll C :=
  { row := { githubCursor := githubCursor, nextFireAt := nextFireAt } }

theorem accounted_start (githubCursor : Option C) (nextFireAt : Option ℚ) :
    (start githubCursor nextFireAt).Accounted := by
  refine ⟨⟨fun _ h ↦ absurd h List.not_mem_nil, fun _ h ↦ absurd h (Option.not_mem_none _)⟩, ?_⟩
  exact fun _ h ↦ absurd h (Option.not_mem_none _)

/-- No event is skipped in a run in which every fire with a valid action holds its claims. -/
theorem neverSkips_throughout (githubCursor : Option C) (nextFireAt : Option ℚ) (ops : List (PollOp C))
    (h : Transition.Along exec ClaimsHold (start githubCursor nextFireAt) ops) :
    Transition.Throughout exec NeverSkips (start githubCursor nextFireAt) ops := by
  apply Transition.Throughout.mono (I := Accounted)
  · exact fun _ haccounted ↦ haccounted.skips
  · exact Transition.Throughout.of_along (fun _ _ haccounted hop ↦ haccounted.exec hop)
      (accounted_start githubCursor nextFireAt) h

/-- The first of two events is refused three times, and the second is fired after it with a claim of the
cursor. -/
theorem neverSkips_refused : Transition.Throughout exec NeverSkips (start (some 0) (some 60))
    [.begin [⟨1, true⟩, ⟨2, false⟩], .reserve true, .fire false none, .record, .trail,
      .begin [⟨1, true⟩, ⟨2, false⟩, ⟨3, true⟩], .reserve true, .fire false none, .record, .trail,
      .begin [⟨1, true⟩, ⟨2, false⟩, ⟨3, true⟩], .reserve true, .fire false none, .record, .clear, .filter,
      .reserve true, .fire true (some 120), .clear, .trail] :=
  neverSkips_throughout _ _ _ (by decide +kernel)

/-- The last refusal of the first event moves the due instant, so that the second loses its claim, which is
counted against it. -/
theorem not_neverSkips_throughout : ¬ Transition.Throughout exec NeverSkips (start (some 0) (some 60))
    [.begin [⟨1, true⟩, ⟨2, true⟩], .reserve true, .fire false (some 120), .record, .trail,
      .begin [⟨1, true⟩, ⟨2, true⟩], .reserve true, .fire false (some 180), .record, .trail,
      .begin [⟨1, true⟩, ⟨2, true⟩], .reserve true, .fire false (some 240), .record, .clear, .reserve true,
      .fire true (some 240), .record, .trail,
      .begin [⟨2, true⟩], .reserve true, .fire false (some 300), .record, .trail,
      .begin [⟨2, true⟩], .reserve true, .fire false (some 360), .record, .clear, .trail] := by
  intro h
  exact absurd (h.final.passed ⟨2, true⟩ (by decide +kernel) rfl 2 (by decide +kernel) le_rfl)
    (by decide +kernel)

end GithubPoll

end Lionagi.Scheduler
