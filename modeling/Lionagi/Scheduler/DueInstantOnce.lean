import Mathlib.Data.Rat.Floor
import Lionagi.Library.Transition
import Lionagi.Scheduler.DueInstantStep

/-!
# One occurrence for each due instant

The cursor only moves forward, past every instant for which an occurrence was committed or a recovery has
reserved. So no two occurrences stand for one instant, as long as no update without a claim overwrites a
cursor that has been written since it was read.
-/

namespace Lionagi.Scheduler

/-- The visit has reserved the missed instant and may still commit an occurrence for it. -/
def Visit.recovers (instant : ℚ) : Visit → Bool
  | .launched (.recovery due) _ | .firing (.recovery due) _ _ => due = instant
  | _ => false

/-- What a fire claims that is launched or started by a time. -/
def FireKind.Claims (trigger : Trigger) (now : ℚ) (claim : Option (Option ℚ)) : FireKind → Prop
  | .scheduled due => due ≤ now ∧ claim = some (some due)
  | .recovery due => due ≤ now ∧ ∃ reservedAt ≤ now, claim = some (trigger.computeNextFire reservedAt)
  | kind => kind = .replacement

variable {now : ℚ} {claim : Option (Option ℚ)} {kind : FireKind}

theorem FireKind.Claims.mono {trigger : Trigger} {later : ℚ} (h : kind.Claims trigger now claim) (hlater : now ≤ later)
    :
    kind.Claims trigger later claim := by
  cases kind with
  | scheduled due => exact ⟨h.1.trans hlater, h.2⟩
  | recovery due =>
    obtain ⟨hdue, reservedAt, hreserved, hclaim⟩ := h
    exact ⟨hdue.trans hlater, reservedAt, hreserved.trans hlater, hclaim⟩
  | _ => exact h

namespace Trigger

variable {trigger : Trigger} {now later instant : ℚ}

theorem Valid.lt_computeNextFire (h : trigger.Valid) (hnext : trigger.computeNextFire now = some instant) :
    now < instant := by
  cases trigger with
  | cron getNext =>
    cases hnext
    exact h.1 now
  | interval seconds =>
    cases hnext
    exact lt_add_of_pos_right now h
  | pointInTime => cases hnext

theorem Valid.computeNextFire_le (h : trigger.Valid) (hlater : now ≤ later) {instant' : ℚ}
    (hnext : trigger.computeNextFire now = some instant)
    (hnext' : trigger.computeNextFire later = some instant') : instant ≤ instant' := by
  cases trigger with
  | cron getNext =>
    cases hnext
    cases hnext'
    exact h.2 now later hlater
  | interval seconds =>
    cases hnext
    cases hnext'
    exact add_le_add_left hlater seconds
  | pointInTime => cases hnext

theorem isSome_computeNextFire (h : trigger ≠ .pointInTime) (now : ℚ) :
    (trigger.computeNextFire now).isSome = true := by
  cases trigger with
  | pointInTime => exact absurd rfl h
  | _ => rfl

end Trigger

namespace SharedSchedule

variable (trigger : Trigger) (threshold : Bool) (shared : SharedSchedule)

/-- The run has only ticks, passes at startup and replacements of orphans, and no update without a claim
overwrites a cursor that has been written since it was read. -/
def Fresh : CursorOp → Prop
  | .trigger kind => kind = .replacement
  | op => ∀ i ∈ op.advances, ∀ visit ∈ shared.visits[i]?, ∀ writes ∈ visit.writesRead,
      writes = shared.writes

/-- A commit that loses its claim writes nothing. -/
def LostWritesNothing : Prop :=
  ∀ i kind claim now, shared.visits[i]? = some (.firing kind (some claim) now) → kind ≠ .replacement →
    shared.row.nextFireAt ≠ claim → (shared.exec trigger threshold (.commit i)).row = shared.row ∧
      (shared.exec trigger threshold (.commit i)).occurrences = shared.occurrences

/-- Every due instant has at most one occurrence, be it fired by a tick or recovered. A fire that loses its
claim writes nothing, and one of a tick that does not moves the cursor off its instant. -/
structure FiredOnce : Prop where
  once : ∀ instant, shared.occurrences.countP (·.kind.due = some instant) ≤ 1
  lost : shared.LostWritesNothing trigger threshold
  advanced : ∀ i due claim now, shared.visits[i]? = some (.firing (.scheduled due) claim now) →
    claim = some (some due) ∧ (shared.row.nextFireAt = some due →
      (shared.exec trigger threshold (.commit i)).row.nextFireAt ≠ some due ∧
        (trigger = .pointInTime → (shared.exec trigger threshold (.commit i)).row.nextFireAt = none))

/-- Every value of the cursor is claimed by at most one occurrence. A fire that loses its claim writes
nothing, and one that does not moves the cursor off the value, or empties it for one point in time. -/
structure ClaimedOnce : Prop where
  once : ∀ instant, shared.occurrences.countP (·.claim = some (some instant)) ≤ 1
  lost : shared.LostWritesNothing trigger threshold
  advanced : ∀ i kind claim now, shared.visits[i]? = some (.firing kind (some claim) now) →
    kind ≠ .replacement → shared.row.nextFireAt = claim →
      (shared.exec trigger threshold (.commit i)).row.nextFireAt ≠ claim ∨
        trigger = .pointInTime ∧ (shared.exec trigger threshold (.commit i)).row.nextFireAt = none

/-! ## Instants that are settled -/

/-- The number of occurrences for an instant that are committed or reserved. -/
def settled (instant : ℚ) : ℕ :=
  shared.occurrences.countP (·.kind.due = some instant) + shared.visits.countP (·.recovers instant)

/-- What is known of a visit. -/
def Sound : Visit → Prop
  | .timed now => now ≤ shared.clock
  | .listed _ read writes =>
    writes ≤ shared.writes ∧ (writes = shared.writes → read = shared.row.nextFireAt)
  | .visiting pass now read writes => now ≤ shared.clock ∧ writes ≤ shared.writes ∧
      (writes = shared.writes → read = shared.row.nextFireAt ∧
        (pass = .restart → ∀ instant, 0 < shared.settled instant → instant ≤ now))
  | .launched kind claim => kind.Claims trigger shared.clock claim
  | .firing kind claim now => now ≤ shared.clock ∧ kind.Claims trigger now claim
  | .ended => True

/-- The cursor is past every instant that is settled. -/
structure Owned : Prop where
  once : ∀ instant, shared.settled instant ≤ 1
  past : ∀ instant, 0 < shared.settled instant → instant ≤ shared.clock
  below : ∀ instant, 0 < shared.settled instant → ∀ cursor ∈ shared.row.nextFireAt, instant < cursor
  filled : trigger ≠ .pointInTime → ∀ instant, 0 < shared.settled instant →
    shared.row.nextFireAt.isSome = true
  sound : ∀ visit ∈ shared.visits, shared.Sound trigger visit

variable {trigger threshold shared} {shared' : SharedSchedule} {i : ℕ} {visit visit' : Visit}

theorem mem_setVisit {other : Visit} (h : other ∈ (shared.setVisit i visit).visits) :
    other = visit ∨ other ∈ shared.visits := by
  rcases List.mem_or_eq_of_mem_set h with h | h
  · exact .inr h
  · exact .inl h

theorem Sound.mono (h : shared.Sound trigger visit) (hclock : shared.clock ≤ shared'.clock)
    (hwrites : shared'.writes = shared.writes)
    (hcursor : shared'.row.nextFireAt = shared.row.nextFireAt)
    (hsettled : ∀ instant, shared'.settled instant ≤ shared.settled instant) :
    shared'.Sound trigger visit := by
  cases visit with
  | timed now => exact h.trans hclock
  | listed pass read writes => exact ⟨hwrites ▸ h.1, fun heq ↦ hcursor ▸ h.2 (hwrites ▸ heq)⟩
  | visiting pass now read writes =>
    obtain ⟨hnow, hle, hread⟩ := h
    refine ⟨hnow.trans hclock, hwrites ▸ hle, fun heq ↦ ?_⟩
    obtain ⟨hcur, hrestart⟩ := hread (hwrites ▸ heq)
    exact ⟨hcursor ▸ hcur, fun hpass instant hpos ↦
      hrestart hpass instant (hpos.trans_le (hsettled instant))⟩
  | launched kind claim => exact FireKind.Claims.mono h hclock
  | firing kind claim now => exact ⟨h.1.trans hclock, h.2⟩
  | ended => trivial

/-- After a write of the cursor no visit takes it for the one that it has read. -/
theorem Sound.of_write (h : shared.Sound trigger visit) (hclock : shared'.clock = shared.clock)
    (hwrites : shared'.writes = shared.writes + 1) : shared'.Sound trigger visit := by
  cases visit with
  | timed now => exact h.trans (le_of_eq hclock.symm)
  | listed pass read writes =>
    have hlt : writes < shared'.writes := hwrites ▸ Nat.lt_succ_of_le h.1
    exact ⟨Nat.le_of_lt hlt, fun heq ↦ absurd heq (Nat.ne_of_lt hlt)⟩
  | visiting pass now read writes =>
    have hlt : writes < shared'.writes := hwrites ▸ Nat.lt_succ_of_le h.2.1
    exact ⟨h.1.trans (le_of_eq hclock.symm), Nat.le_of_lt hlt, fun heq ↦ absurd heq (Nat.ne_of_lt hlt)⟩
  | launched kind claim => exact FireKind.Claims.mono h (le_of_eq hclock.symm)
  | firing kind claim now => exact ⟨h.1.trans (le_of_eq hclock.symm), h.2⟩
  | ended => trivial

/-- A step that leaves the cursor and settles nothing. -/
theorem Owned.quiet (h : shared.Owned trigger) (hclock : shared.clock ≤ shared'.clock)
    (hwrites : shared'.writes = shared.writes)
    (hcursor : shared'.row.nextFireAt = shared.row.nextFireAt)
    (hsettled : ∀ instant, shared'.settled instant ≤ shared.settled instant)
    (hvisits : ∀ visit ∈ shared'.visits, visit ∈ shared.visits ∨ shared'.Sound trigger visit) :
    shared'.Owned trigger where
  once instant := (hsettled instant).trans (h.once instant)
  past instant hpos := (h.past instant (hpos.trans_le (hsettled instant))).trans hclock
  below instant hpos cursor hmem :=
    h.below instant (hpos.trans_le (hsettled instant)) cursor (hcursor ▸ hmem)
  filled htrigger instant hpos :=
    hcursor ▸ h.filled htrigger instant (hpos.trans_le (hsettled instant))
  sound visit hvisit := by
    rcases hvisits visit hvisit with hold | hnew
    · exact (h.sound visit hold).mono hclock hwrites hcursor hsettled
    · exact hnew

/-- A write of the cursor that settles at most the instant `taken`, and moves the cursor past all. -/
theorem Owned.write (h : shared.Owned trigger) (taken : Option ℚ) (hclock : shared'.clock = shared.clock)
    (hwrites : shared'.writes = shared.writes + 1)
    (htaken : ∀ instant ∈ taken, instant ≤ shared.clock ∧ shared.settled instant = 0)
    (hsettled : ∀ instant, shared'.settled instant ≤
      shared.settled instant + if taken = some instant then 1 else 0)
    (hbelow : ∀ instant, 0 < shared.settled instant ∨ taken = some instant →
      ∀ cursor ∈ shared'.row.nextFireAt, instant < cursor)
    (hfilled : trigger ≠ .pointInTime → shared'.row.nextFireAt.isSome = true)
    (hvisits : ∀ visit ∈ shared'.visits, visit ∈ shared.visits ∨ shared'.Sound trigger visit) :
    shared'.Owned trigger := by
  have hpositive : ∀ instant, 0 < shared'.settled instant →
      0 < shared.settled instant ∨ taken = some instant := by
    intro instant hpos
    by_cases htake : taken = some instant
    · exact .inr htake
    · have hle := hsettled instant
      rw [if_neg htake] at hle
      exact .inl (hpos.trans_le hle)
  constructor
  case once =>
    intro instant
    have hle := hsettled instant
    by_cases htake : taken = some instant
    · rw [if_pos htake, (htaken instant htake).2] at hle
      exact hle
    · rw [if_neg htake] at hle
      exact hle.trans (h.once instant)
  case past =>
    intro instant hpos
    rw [hclock]
    rcases hpositive instant hpos with hold | htake
    · exact h.past instant hold
    · exact (htaken instant htake).1
  case below => exact fun instant hpos ↦ hbelow instant (hpositive instant hpos)
  case filled => exact fun htrigger _ _ ↦ hfilled htrigger
  case sound =>
    intro visit hvisit
    rcases hvisits visit hvisit with hold | hnew
    · exact (h.sound visit hold).of_write hclock hwrites
    · exact hnew

/-! ## Steps -/

theorem settled_setVisit_le (hvisit : shared.visits[i]? = some visit)
    (hrecovers : ∀ instant, visit'.recovers instant = true → visit.recovers instant = true)
    (instant : ℚ) : (shared.setVisit i visit').settled instant ≤ shared.settled instant :=
  Nat.add_le_add_left (Processes.countP_set_le (p := (·.recovers instant)) hvisit (hrecovers instant)) _

theorem not_recovers_of_due_none (hkind : kind.due = none) (claim : Option (Option ℚ)) (instant : ℚ) :
    (Visit.launched kind claim).recovers instant = false := by
  cases kind with
  | scheduled due => cases hkind
  | recovery due => cases hkind
  | _ => rfl

theorem Owned.arrive (h : shared.Owned trigger) {op : CursorOp} (hop : shared.Fresh op)
    (harrives : shared.Arrives op visit) : (shared.addVisit visit).Owned trigger := by
  have hnot : ∀ instant, visit.recovers instant = false := by
    intro instant
    cases harrives with
    | tick => rfl
    | pass => rfl
    | trigger hkind => exact not_recovers_of_due_none hkind none instant
  have hsettled : ∀ instant, (shared.addVisit visit).settled instant = shared.settled instant := by
    intro instant
    exact congrArg _ (Processes.countP_concat_of_false (l := shared.visits) (hnot instant))
  refine h.quiet (le_refl _) rfl rfl (fun instant ↦ le_of_eq (hsettled instant)) ?_
  intro other hother
  rcases List.mem_append.1 hother with hold | hnew
  · exact .inl hold
  · right
    cases List.mem_singleton.1 hnew
    cases harrives with
    | tick => exact le_refl shared.clock
    | pass => exact ⟨le_refl _, fun _ ↦ rfl⟩
    | @trigger kind hkind =>
      cases hop
      exact rfl

theorem Moves.recovers (h : shared.Moves visit visit') (instant : ℚ)
    (hrecovers : visit'.recovers instant = true) : visit.recovers instant = true := by
  cases h with
  | @enter kind => cases kind <;> exact hrecovers
  | read => cases hrecovers
  | time => cases hrecovers
  | launch => cases hrecovers
  | leave => cases hrecovers

theorem Moves.sound (h : shared.Moves visit visit') (howned : shared.Owned trigger)
    (hsound : shared.Sound trigger visit) : shared.Sound trigger visit' := by
  cases h with
  | read => exact ⟨hsound, le_refl _, fun _ ↦ ⟨rfl, fun hpass ↦ absurd hpass (by decide)⟩⟩
  | time =>
    refine ⟨le_refl _, hsound.1, fun heq ↦ ⟨hsound.2 heq, fun _ instant hpos ↦ ?_⟩⟩
    exact howned.past instant hpos
  | launch hdue => exact ⟨hdue.trans hsound.1, rfl⟩
  | enter => exact ⟨le_refl _, hsound⟩
  | leave => trivial

theorem Owned.move (h : shared.Owned trigger) (hvisit : shared.visits[i]? = some visit)
    (hmoves : shared.Moves visit visit') : (shared.setVisit i visit').Owned trigger := by
  have hsettled := settled_setVisit_le hvisit hmoves.recovers
  refine h.quiet (le_refl _) rfl rfl hsettled ?_
  intro other hother
  rcases mem_setVisit hother with rfl | hold
  · have hsound := hmoves.sound h (h.sound visit (List.mem_of_getElem? hvisit))
    exact .inr (hsound.mono (le_refl _) rfl rfl hsettled)
  · exact .inl hold

variable {row : ScheduleRow}

/-- An update without a claim of a cursor that has not been written since it was read. -/
theorem Owned.advance (htrigger : trigger.Valid) (h : shared.Owned trigger) {pass : CursorPass} {read : Option ℚ}
    (hvisit : shared.visits[i]? = some (.visiting pass now read shared.writes))
    (hadvances : Advances trigger now pass read) (hrow : row.nextFireAt = trigger.computeNextFire now) :
    ((shared.write row).setVisit i .ended).Owned trigger := by
  obtain ⟨hnow, -, hread⟩ := h.sound _ (List.mem_of_getElem? hvisit)
  obtain ⟨hcursor, hrestart⟩ := hread rfl
  refine h.write none rfl rfl (fun _ hnone ↦ absurd hnone (Option.not_mem_none _)) ?_ ?_ ?_ ?_
  · have hended : ∀ instant, Visit.ended.recovers instant = true →
        (Visit.visiting pass now read shared.writes).recovers instant = true := fun _ hfalse ↦ hfalse
    exact settled_setVisit_le hvisit hended
  · intro instant hpos cursor hmem
    have hnext := htrigger.lt_computeNextFire (hrow.symm.trans hmem)
    rcases hpos with hpos | hnone
    · cases hadvances with
      | fill hnot =>
        have hfilled := h.filled hnot instant hpos
        rw [← hcursor] at hfilled
        cases hfilled
      | @pass _ due _ hdue => exact ((h.below instant hpos due hcursor.symm).trans_le hdue).trans hnext
      | recompute => exact (hrestart rfl instant hpos).trans_lt hnext
    · cases hnone
  · intro hnot
    exact hrow ▸ Trigger.isSome_computeNextFire hnot now
  · intro other hother
    rcases mem_setVisit hother with rfl | hold
    · exact .inr trivial
    · exact .inl hold

/-- The recovery of a missed fire settles the instant that the cursor was on. -/
theorem Owned.reserve (htrigger : trigger.Valid) (h : shared.Owned trigger) {due : ℚ} {writes : ℕ}
    (hvisit : shared.visits[i]? = some (.visiting .missed now (some due) writes)) (hdue : due ≤ now)
    (hcursor : shared.row.nextFireAt = some due) (hrow : row.nextFireAt = trigger.computeNextFire now) :
    ((shared.write row).setVisit i
      (.launched (.recovery due) (some (trigger.computeNextFire now)))).Owned trigger := by
  obtain ⟨hnow, -, -⟩ := h.sound _ (List.mem_of_getElem? hvisit)
  refine h.write (some due) rfl rfl ?_ ?_ ?_ ?_ ?_
  · rintro instant ⟨⟩
    refine ⟨hdue.trans hnow, Nat.eq_zero_of_not_pos fun hpos ↦ ?_⟩
    exact lt_irrefl due (h.below due hpos due hcursor)
  · intro instant
    have hset := Processes.countP_set_add (p := (·.recovers instant))
      (a := .launched (.recovery due) (some (trigger.computeNextFire now))) hvisit
    change shared.occurrences.countP _ + (shared.visits.set i _).countP _ ≤
      shared.occurrences.countP _ + shared.visits.countP _ + _
    have hrecovers : (Visit.launched (.recovery due) (some (trigger.computeNextFire now))).recovers instant =
        decide (due = instant) := rfl
    have hvisiting : (Visit.visiting .missed now (some due) writes).recovers instant = false := rfl
    rw [hrecovers, hvisiting] at hset
    by_cases heq : due = instant
    · rw [if_pos (congrArg some heq)]
      rw [decide_eq_true heq] at hset
      simp only [Bool.toNat_false, Bool.toNat_true] at hset
      omega
    · rw [if_neg fun hsome ↦ heq (Option.some.inj hsome)]
      rw [decide_eq_false heq] at hset
      simp only [Bool.toNat_false] at hset
      omega
  · intro instant hpos cursor hmem
    have hnext := htrigger.lt_computeNextFire (hrow.symm.trans hmem)
    rcases hpos with hpos | htaken
    · exact ((h.below instant hpos due hcursor).trans_le hdue).trans hnext
    · cases htaken
      exact hdue.trans_lt hnext
  · intro hnot
    exact hrow ▸ Trigger.isSome_computeNextFire hnot now
  · intro other hother
    rcases mem_setVisit hother with rfl | hold
    · exact .inr ⟨hdue.trans hnow, now, hnow, rfl⟩
    · exact .inl hold

/-- The committed fire of a tick settles its instant, and that of a recovery keeps it settled. -/
theorem Owned.commit (htrigger : trigger.Valid) (h : shared.Owned trigger)
    (hvisit : shared.visits[i]? = some (.firing kind claim now)) (hkind : kind ≠ .replacement)
    (hclaim : ∀ value ∈ claim, shared.row.nextFireAt = value) (hrow : row.nextFireAt = trigger.computeNextFire now) :
    (((shared.write row).addRun ⟨kind, claim, now⟩).setVisit i .ended).Owned trigger := by
  obtain ⟨hnow, hclaims⟩ := h.sound _ (List.mem_of_getElem? hvisit)
  have hcount : ∀ instant, shared.settled instant +
      (decide (kind.due = some instant)).toNat =
      (((shared.write row).addRun ⟨kind, claim, now⟩).setVisit i .ended).settled instant +
        ((Visit.firing kind claim now).recovers instant).toNat := by
    intro instant
    have hset := Processes.countP_set_add (p := (·.recovers instant)) (a := Visit.ended) hvisit
    have hended : Visit.ended.recovers instant = false := rfl
    have hconcat : (shared.occurrences ++ [(⟨kind, claim, now⟩ : DueRun)]).countP
        (fun run ↦ run.kind.due = some instant) =
          shared.occurrences.countP (fun run ↦ run.kind.due = some instant) +
            (decide (kind.due = some instant)).toNat := by
      rw [List.countP_append, List.countP_singleton]
      cases decide (kind.due = some instant) <;> rfl
    change shared.occurrences.countP _ + shared.visits.countP _ + _ =
      (shared.occurrences ++ [(⟨kind, claim, now⟩ : DueRun)]).countP _ + (shared.visits.set i _).countP _ + _
    rw [hended, Bool.toNat_false] at hset
    omega
  have hvisits : ∀ visit ∈ (((shared.write row).addRun ⟨kind, claim, now⟩).setVisit i .ended).visits,
      visit ∈ shared.visits ∨ Sound trigger
        (((shared.write row).addRun ⟨kind, claim, now⟩).setVisit i .ended) visit := by
    intro other hother
    rcases mem_setVisit hother with rfl | hold
    · exact .inr trivial
    · exact .inl hold
  have hfilled : trigger ≠ .pointInTime → row.nextFireAt.isSome = true :=
    fun hnot ↦ hrow ▸ Trigger.isSome_computeNextFire hnot now
  cases kind with
  | scheduled due =>
    obtain ⟨hdue, rfl⟩ := hclaims
    have hcursor : shared.row.nextFireAt = some due := hclaim _ rfl
    refine h.write (some due) rfl rfl ?_ ?_ ?_ hfilled hvisits
    · rintro instant ⟨⟩
      refine ⟨hdue.trans hnow, Nat.eq_zero_of_not_pos fun hpos ↦ ?_⟩
      exact lt_irrefl due (h.below due hpos due hcursor)
    · intro instant
      have hinstant := hcount instant
      have hrecovers : (Visit.firing (.scheduled due) (some (some due)) now).recovers instant = false := rfl
      rw [hrecovers, Bool.toNat_false] at hinstant
      by_cases heq : some due = some instant
      · rw [if_pos heq]
        rw [decide_eq_true (p := (FireKind.scheduled due).due = some instant) heq] at hinstant
        exact le_of_eq hinstant.symm
      · rw [if_neg heq]
        rw [decide_eq_false (p := (FireKind.scheduled due).due = some instant) heq] at hinstant
        exact le_of_eq hinstant.symm
    · intro instant hpos cursor hmem
      have hnext := htrigger.lt_computeNextFire (hrow.symm.trans hmem)
      rcases hpos with hpos | htaken
      · exact ((h.below instant hpos due hcursor).trans_le hdue).trans hnext
      · cases htaken
        exact hdue.trans_lt hnext
  | recovery due =>
    obtain ⟨-, reservedAt, hreserved, rfl⟩ := hclaims
    have hcursor : shared.row.nextFireAt = trigger.computeNextFire reservedAt := hclaim _ rfl
    refine h.write none rfl rfl (fun _ hnone ↦ absurd hnone (Option.not_mem_none _)) ?_ ?_ hfilled hvisits
    · intro instant
      have hinstant := hcount instant
      have hrecovers : (Visit.firing (.recovery due) (some (trigger.computeNextFire reservedAt)) now).recovers
          instant = decide (due = instant) := rfl
      have hdue : decide ((FireKind.recovery due).due = some instant) = decide (due = instant) := by
        simp [FireKind.due]
      rw [hrecovers, hdue] at hinstant
      exact le_of_eq (Nat.add_right_cancel hinstant).symm
    · intro instant hpos cursor hmem
      rcases hpos with hpos | hnone
      · have hnext : trigger.computeNextFire now = some cursor := hrow.symm.trans hmem
        cases hbefore : trigger.computeNextFire reservedAt with
        | none =>
          have hnot : trigger ≠ .pointInTime := by
            rintro rfl
            cases hnext
          have hsome := Trigger.isSome_computeNextFire hnot reservedAt
          rw [hbefore] at hsome
          cases hsome
        | some instant' =>
          have hle := htrigger.computeNextFire_le hreserved hbefore hnext
          exact (h.below instant hpos instant' (hcursor.trans hbefore)).trans_le hle
      · cases hnone
  | _ => exact absurd hclaims hkind

theorem Owned.replace (h : shared.Owned trigger) (hvisit : shared.visits[i]? = some (.firing .replacement claim now)) :
    ((shared.addRun ⟨.replacement, claim, now⟩).setVisit i .ended).Owned trigger := by
  have hended : ∀ instant, Visit.ended.recovers instant = true →
      (Visit.firing .replacement claim now).recovers instant = true := fun _ hfalse ↦ hfalse
  have hsettled : ∀ instant, ((shared.addRun ⟨.replacement, claim, now⟩).setVisit i .ended).settled instant ≤
      shared.settled instant := by
    intro instant
    have hrun : (shared.addRun ⟨.replacement, claim, now⟩).settled instant = shared.settled instant :=
      congrArg (· + shared.visits.countP (·.recovers instant))
        (Processes.countP_concat_of_false (l := shared.occurrences)
          (p := fun run ↦ decide (run.kind.due = some instant)) rfl)
    have hreplaced : (shared.addRun ⟨.replacement, claim, now⟩).visits[i]? =
        some (.firing .replacement claim now) := hvisit
    exact (settled_setVisit_le hreplaced hended instant).trans (le_of_eq hrun)
  refine h.quiet (le_refl _) rfl rfl hsettled ?_
  intro other hother
  rcases mem_setVisit hother with rfl | hold
  · exact .inr trivial
  · exact .inl hold

/-- An operation that overwrites no cursor unseen keeps the cursor past every instant that is settled. -/
theorem Owned.exec (htrigger : trigger.Valid) (h : shared.Owned trigger) {op : CursorOp}
    (hop : shared.Fresh op) : (shared.exec trigger threshold op).Owned trigger := by
  have hstep := exec_cursorStep trigger threshold shared op
  generalize shared.exec trigger threshold op = shared' at hstep ⊢
  cases hstep with
  | idle => exact h
  | tick hseconds =>
    exact h.quiet (le_add_of_nonneg_right hseconds) rfl rfl (fun _ ↦ le_refl _) fun _ hvisit ↦ .inl hvisit
  | arrive harrives => exact h.arrive hop harrives
  | move hvisit hmoves => exact h.move hvisit hmoves
  | @mark _ i row hrow =>
    refine h.quiet (le_refl _) rfl hrow ?_ ?_
    · intro instant
      refine Nat.add_le_add_left ?_ _
      cases hvisit : shared.visits[i]? with
      | none => exact le_of_eq (congrArg _ (List.set_eq_of_length_le (List.getElem?_eq_none_iff.1 hvisit)))
      | some visit => exact Processes.countP_set_le hvisit fun hfalse ↦ absurd hfalse Bool.false_ne_true
    · intro other hother
      rcases List.mem_or_eq_of_mem_set hother with hold | rfl
      · exact .inl hold
      · exact .inr trivial
  | @advance _ i pass now read writes row hadvanced hvisit hadvances hrow =>
    have hwrites : writes = shared.writes := by
      cases op with
      | trigger kind => cases hadvanced
      | _ => exact hop i hadvanced _ hvisit writes rfl
    exact h.advance htrigger (hwrites ▸ hvisit) hadvances hrow
  | reserve hvisit hdue hcursor hrow => exact h.reserve htrigger hvisit hdue hcursor hrow
  | commit hvisit hkind hclaim hrow => exact h.commit htrigger hvisit hkind hclaim hrow
  | replace hvisit => exact h.replace hvisit

/-! ## One occurrence -/

theorem lostWritesNothing : shared.LostWritesNothing trigger threshold := by
  intro i kind claim now hvisit hkind hlost
  have hclaim : ¬ ∀ value ∈ some claim, shared.row.nextFireAt = value := fun hall ↦ hlost (hall claim rfl)
  rw [exec_commit_of_lost hvisit hkind hclaim]
  exact ⟨rfl, rfl⟩

theorem Owned.firedOnce (htrigger : trigger.Valid) (h : shared.Owned trigger) :
    shared.FiredOnce trigger threshold where
  once instant := (Nat.le_add_right _ _).trans (h.once instant)
  lost := lostWritesNothing
  advanced := by
    intro i due claim now hvisit
    obtain ⟨-, hdue, hclaim⟩ := h.sound _ (List.mem_of_getElem? hvisit)
    refine ⟨hclaim, fun hcursor ↦ ?_⟩
    have hclaimed : ∀ value ∈ claim, shared.row.nextFireAt = value := by
      intro value hvalue
      cases hclaim.symm.trans hvalue
      exact hcursor
    have hkind : FireKind.scheduled due ≠ .replacement := by
      intro heq
      cases heq
    rw [row_commit_of_claimed hvisit hkind hclaimed]
    constructor
    · intro hnext
      exact absurd (htrigger.lt_computeNextFire hnext) (not_lt_of_ge hdue)
    · rintro rfl
      rfl

theorem owned_start (clock : ℚ) (row : ScheduleRow) : (start clock row).Owned trigger where
  once _ := Nat.zero_le 1
  past _ h := absurd h (Nat.lt_irrefl 0)
  below _ h := absurd h (Nat.lt_irrefl 0)
  filled _ _ h := absurd h (Nat.lt_irrefl 0)
  sound _ h := absurd h List.not_mem_nil

instance (op : CursorOp) : Decidable (shared.Fresh op) := by
  cases op <;> unfold Fresh <;> infer_instance

/-- Every due instant has one occurrence in every state of a run in which no cursor is overwritten that has
been written since it was read. -/
theorem firedOnce_throughout (trigger : Trigger) (threshold : Bool) (clock : ℚ) (row : ScheduleRow)
    (ops : List CursorOp) (htrigger : trigger.Valid)
    (h : Transition.Along (exec trigger threshold) Fresh (start clock row) ops) :
    Transition.Throughout (exec trigger threshold) (FiredOnce trigger threshold) (start clock row) ops := by
  apply Transition.Throughout.mono (I := Owned trigger)
  · exact fun _ howned ↦ howned.firedOnce htrigger
  · exact Transition.Throughout.of_along (fun _ _ howned hop ↦ howned.exec htrigger hop)
      (owned_start clock row) h

/-- Every ten seconds. -/
def tens : Trigger := .cron fun start ↦ (⌊start / 10⌋ + 1) * 10

theorem valid_tens : tens.Valid := by
  constructor
  · intro start
    have hlt := Int.lt_floor_add_one (start / 10)
    rw [div_lt_iff₀ (by decide)] at hlt
    exact hlt
  · intro start later hlater
    have hfloor : ⌊start / 10⌋ ≤ ⌊later / 10⌋ := Int.floor_le_floor (div_le_div_of_nonneg_right hlater (by decide))
    have hcast : (⌊start / 10⌋ : ℚ) ≤ ⌊later / 10⌋ := Int.cast_le.2 hfloor
    exact mul_le_mul_of_nonneg_right (add_le_add_left hcast 1) (by decide)

theorem firedOnce_tens : Transition.Throughout (exec tens false) (FiredOnce tens false)
    (start 25 ⟨some 20, none, none, none⟩) [.beginTick, .readRow 0, .beginTick, .readRow 1, .launch 0,
      .launch 1, .enter 0, .enter 1, .commit 1, .commit 0, .beginPass .missed, .tick 10, .readTime 2,
      .skip 2] :=
  firedOnce_throughout tens false 25 _ _ valid_tens (by decide +kernel)

/-- The recovery of the instant missed at twenty claims thirty, which it has written, and leaves it on the
cursor. It is claimed again when it is due. And a tick that has read thirty skips it after forty was fired,
so that forty is due once more. -/
theorem not_claimedOnce_throughout :
    ¬ Transition.Throughout (exec tens false) (ClaimedOnce tens false) (start 25 ⟨some 20, none, none, none⟩)
      [.beginPass .missed, .readTime 0, .reserve 0, .enter 0, .commit 0, .tick 5, .beginTick, .readRow 1,
        .launch 1, .enter 1, .commit 1] ∧
    ¬ Transition.Throughout (exec tens false) (FiredOnce tens false) (start 30 ⟨some 30, none, none, none⟩)
      [.beginTick, .readRow 0, .beginTick, .readRow 1, .launch 1, .enter 1, .commit 1, .tick 10,
        .beginTick, .readRow 2, .launch 2, .enter 2, .commit 2, .skip 0, .beginTick, .readRow 3, .launch 3,
        .enter 3, .commit 3] := by
  constructor
  · intro h
    exact absurd (h.final.once 30) (by decide +kernel)
  · intro h
    exact absurd (h.final.once 40) (by decide +kernel)

end SharedSchedule

end Lionagi.Scheduler
