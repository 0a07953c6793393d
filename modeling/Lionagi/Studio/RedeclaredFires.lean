import Mathlib.Algebra.Order.Ring.Rat
import Lionagi.Library.Transition
import Lionagi.Scheduler.DueInstantStep
import Lionagi.Studio.Redeclared

/-!
# Fires of a trigger that was declared again

The due instant of a schedule, and of every occurrence, is of the trigger that the schedule has, as long as a
declaration that changes the trigger meets no instant of the trigger before, and no visit that has read another
trigger writes.
-/

namespace Lionagi.Studio

variable {J : Type}

/-- The due instant that a visit goes by. -/
def visitDue : Scheduler.Visit → Option ℚ
  | .listed _ read _ => read
  | .visiting _ _ read _ => read
  | .launched kind _ => kind.due
  | .firing kind _ _ => kind.due
  | _ => none

section Engine

variable (getNext : String → String → ℚ → ℚ) (pollSeconds : ℚ) (threshold : Bool)

/-- The instants that a trigger yields, whenever they are computed. -/
def Yields (trigger : ResolvedTrigger J) (instant : ℚ) : Prop :=
  match trigger with
  | .cron expression timezone => ∃ start, getNext expression timezone start = instant
  | .pointInTime _ epoch => instant = epoch
  | _ => False

/-- An instant that was computed of `origin` is of the trigger. -/
def Own (origin trigger : ResolvedTrigger J) (instant : ℚ) : Prop :=
  origin = trigger ∨ Yields getNext trigger instant

namespace DeclaredSchedule

variable (declared : DeclaredSchedule J)

/-- The due instant is none or of the trigger, and occurrences of due instants were of the trigger that the
schedule had. -/
structure ForgetsOld : Prop where
  cursor : ∀ instant ∈ declared.shared.row.nextFireAt, Own getNext declared.origin declared.trigger instant
  fires : ∀ fire ∈ declared.fires, Own getNext fire.origin fire.trigger fire.due

/-- The visit is where the step writes the due instant, and holds its claim. -/
inductive Writes : Scheduler.CursorOp → Prop
  | advance {op : Scheduler.CursorOp} {i : ℕ} {pass : Scheduler.CursorPass} {now : ℚ} {read : Option ℚ}
      {writes : ℕ} : op.advances = some i →
      declared.shared.visits[i]? = some (.visiting pass now read writes) → Writes op
  | reserve {i : ℕ} {now due : ℚ} {writes : ℕ} :
      declared.shared.visits[i]? = some (.visiting .missed now (some due) writes) →
      declared.shared.row.nextFireAt = some due → Writes (.reserve i)
  | commit {i : ℕ} {kind : Scheduler.FireKind} {claim : Option (Option ℚ)} {now : ℚ} :
      declared.shared.visits[i]? = some (.firing kind claim now) → kind ≠ .replacement →
      (∀ value ∈ claim, declared.shared.row.nextFireAt = value) → Writes (.commit i)

/-- A declaration keeps the trigger, writes the due instant, or meets no instant that its trigger does not
yield, and a visit that writes has read the trigger that the schedule has. -/
def Fresh : DeclaredOp J → Prop
  | .apply trigger => trigger = declared.trigger ∨ trigger.rearmed declared.shared.clock ≠ none ∨
      ∀ instant ∈ declared.shared.row.nextFireAt, Yields getNext trigger instant
  | .engine op => declared.Writes op → (declared.actor op).trigger = declared.trigger
  | _ => True

/-- What is known of the visits. -/
structure Sound : Prop where
  forgets : declared.ForgetsOld getNext
  length : declared.snapshots.length = declared.shared.visits.length
  read : ∀ (i : ℕ) (visit : Scheduler.Visit) (snapshot : Snapshot J),
    declared.shared.visits[i]? = some visit → declared.snapshots[i]? = some snapshot →
      ∀ due ∈ visitDue visit, Own getNext snapshot.origin snapshot.trigger due

/-! ## Steps of visits -/

/-- A visit after a step goes by the instant that it went by, or by the one in the row, where it had not read
the row. -/
def DueFrom (shared : Scheduler.SharedSchedule) (i : ℕ) (visit : Scheduler.Visit) : Prop :=
  (∃ old, shared.visits[i]? = some old ∧ ∀ due ∈ visitDue visit, due ∈ visitDue old) ∨
    (∀ old, shared.visits[i]? = some old → ∃ now, old = .timed now) ∧
      ∀ due ∈ visitDue visit, due ∈ shared.row.nextFireAt

/-- A step leaves the due instant, or is a write, and only a commit adds the occurrence of a due instant. -/
inductive Effect (op : Scheduler.CursorOp) (shared : Scheduler.SharedSchedule) : Prop
  | quiet {runs : List Scheduler.DueRun} : shared.writes = declared.shared.writes →
      shared.row.nextFireAt = declared.shared.row.nextFireAt →
      shared.occurrences = declared.shared.occurrences ++ runs → (∀ run ∈ runs, run.kind.due = none) →
      Effect op shared
  | write {runs : List Scheduler.DueRun} : declared.Writes op →
      shared.writes = declared.shared.writes + 1 →
      shared.occurrences = declared.shared.occurrences ++ runs →
      (∀ run ∈ runs, ∀ due ∈ run.kind.due, ∃ i visit, op = .commit i ∧
        declared.shared.visits[i]? = some visit ∧ due ∈ visitDue visit) → Effect op shared

variable {declared} {trigger : Scheduler.Trigger} {op : Scheduler.CursorOp} {shared : Scheduler.SharedSchedule}

theorem effect_of_cursorStep (h : Scheduler.SharedSchedule.CursorStep trigger declared.shared op shared) :
    declared.Effect op shared := by
  have hnone : declared.shared.occurrences = declared.shared.occurrences ++ [] := (List.append_nil _).symm
  have hempty : ∀ run ∈ ([] : List Scheduler.DueRun), run.kind.due = none :=
    fun run hrun ↦ absurd hrun List.not_mem_nil
  have hnil : ∀ run ∈ ([] : List Scheduler.DueRun), ∀ due ∈ run.kind.due, ∃ i visit, op = .commit i ∧
      declared.shared.visits[i]? = some visit ∧ due ∈ visitDue visit :=
    fun run hrun ↦ absurd hrun List.not_mem_nil
  cases h with
  | idle => exact .quiet rfl rfl hnone hempty
  | tick => exact .quiet rfl rfl hnone hempty
  | arrive => exact .quiet rfl rfl hnone hempty
  | move => exact .quiet rfl rfl hnone hempty
  | mark hrow => exact .quiet rfl hrow hnone hempty
  | advance hop hvisit => exact .write (.advance hop hvisit) rfl hnone hnil
  | reserve hvisit _ hcursor => exact .write (.reserve hvisit hcursor) rfl hnone hnil
  | commit hvisit hkind hclaim =>
    refine .write (.commit hvisit hkind hclaim) rfl rfl ?_
    intro run hrun due hdue
    cases List.mem_singleton.1 hrun
    exact ⟨_, _, rfl, hvisit, hdue⟩
  | replace hvisit =>
    refine .quiet rfl rfl rfl ?_
    intro run hrun
    cases List.mem_singleton.1 hrun
    rfl

variable {i : ℕ} {visit : Scheduler.Visit}

/-- A visit that is set goes by what it went by, or by the row. -/
theorem dueFrom_set {j : ℕ} {old visit' : Scheduler.Visit} (hold : declared.shared.visits[i]? = some old)
    (h : (∀ due ∈ visitDue visit', due ∈ visitDue old) ∨
      (∃ now, old = .timed now) ∧ ∀ due ∈ visitDue visit', due ∈ declared.shared.row.nextFireAt)
    (hvisit : (declared.shared.visits.set i visit')[j]? = some visit) : DueFrom declared.shared j visit := by
  rcases Processes.getElem?_set_cases hvisit with ⟨rfl, rfl⟩ | ⟨-, hkept⟩
  · rcases h with hsame | ⟨⟨now, rfl⟩, hrow⟩
    · exact .inl ⟨old, hold, hsame⟩
    · refine .inr ⟨?_, hrow⟩
      intro found hfound
      cases hold.symm.trans hfound
      exact ⟨now, rfl⟩
  · exact .inl ⟨visit, hkept, fun _ ↦ id⟩

theorem dueFrom_of_cursorStep (h : Scheduler.SharedSchedule.CursorStep trigger declared.shared op shared) {j : ℕ}
    (hvisit : shared.visits[j]? = some visit) : DueFrom declared.shared j visit := by
  have hended : ∀ old : Scheduler.Visit, ∀ due ∈ visitDue .ended, due ∈ visitDue old :=
    fun _ due hdue ↦ absurd hdue (Option.not_mem_none due)
  cases h with
  | idle => exact .inl ⟨visit, hvisit, fun _ ↦ id⟩
  | tick => exact .inl ⟨visit, hvisit, fun _ ↦ id⟩
  | arrive harrives =>
    rcases Processes.getElem?_concat_cases hvisit with ⟨rfl, rfl⟩ | hold
    · refine .inr ⟨?_, ?_⟩
      · intro old hold
        rw [List.getElem?_length] at hold
        cases hold
      · cases harrives with
        | tick => exact fun due hdue ↦ absurd hdue (Option.not_mem_none due)
        | pass => exact fun _ ↦ id
        | trigger hkind =>
          intro due hdue
          change due ∈ Scheduler.FireKind.due _ at hdue
          rw [hkind] at hdue
          exact absurd hdue (Option.not_mem_none due)
    · exact .inl ⟨visit, hold, fun _ ↦ id⟩
  | move hold hmoves =>
    refine dueFrom_set hold ?_ hvisit
    cases hmoves with
    | read => exact .inr ⟨⟨_, rfl⟩, fun _ ↦ id⟩
    | time => exact .inl fun _ ↦ id
    | launch => exact .inl fun _ ↦ id
    | enter => exact .inl fun _ ↦ id
    | leave => exact .inl (hended _)
  | @mark _ i row hrow =>
    have hset : (declared.shared.visits.set i .ended)[j]? = some visit := hvisit
    rcases Processes.getElem?_set_cases hset with ⟨rfl, rfl⟩ | ⟨-, hkept⟩
    · have hlt := (List.getElem?_eq_some_iff.1 hset).1
      rw [List.length_set] at hlt
      exact .inl ⟨_, List.getElem?_eq_getElem hlt, hended _⟩
    · exact .inl ⟨visit, hkept, fun _ ↦ id⟩
  | advance _ hold => exact dueFrom_set hold (.inl (hended _)) hvisit
  | @reserve i now due writes row hold =>
    have hdue : ∀ instant ∈ visitDue (.launched (.recovery due) (some (trigger.computeNextFire now))),
        instant ∈ visitDue (.visiting .missed now (some due) writes) := fun _ ↦ id
    exact dueFrom_set hold (.inl hdue) hvisit
  | commit hold => exact dueFrom_set hold (.inl (hended _)) hvisit
  | replace hold => exact dueFrom_set hold (.inl (hended _)) hvisit

/-! ## Reads -/

variable {getNext pollSeconds threshold}
variable {snapshot : Snapshot J}

theorem getElem?_readNow (h : declared.readNow[i]? = some snapshot) :
    ∃ visit, declared.shared.visits[i]? = some visit ∧
      ((∃ now, visit = .timed now) ∧ snapshot = declared.current ∨
        (∀ now, visit ≠ .timed now) ∧ declared.snapshots[i]? = some snapshot) := by
  unfold readNow at h
  rw [List.getElem?_zipWith] at h
  cases hvisit : declared.shared.visits[i]? with
  | none =>
    rw [hvisit] at h
    cases h
  | some visit =>
    cases hread : declared.snapshots[i]? with
    | none =>
      rw [hvisit, hread] at h
      cases h
    | some read =>
      rw [hvisit, hread] at h
      refine ⟨visit, rfl, ?_⟩
      cases visit with
      | timed now =>
        cases h
        exact .inl ⟨⟨now, rfl⟩, rfl⟩
      | _ =>
        cases h
        exact .inr ⟨fun now heq ↦ (by cases heq), rfl⟩

/-- What the visits have read after a step. -/
theorem Sound.own_of_dueFrom (h : declared.Sound getNext) {added : ℕ} (hdue : DueFrom declared.shared i visit)
    (hsnapshot : (declared.readNow ++ List.replicate added declared.current)[i]? = some snapshot) :
    ∀ due ∈ visitDue visit, Own getNext snapshot.origin snapshot.trigger due := by
  have hlength : declared.readNow.length = declared.shared.visits.length := by
    unfold readNow
    rw [List.length_zipWith, h.length, Nat.min_self]
  intro due hmem
  by_cases hlt : i < declared.shared.visits.length
  · rw [List.getElem?_append_left (hlength ▸ hlt)] at hsnapshot
    obtain ⟨old, hold, ⟨⟨now, rfl⟩, rfl⟩ | ⟨hread, hkept⟩⟩ := getElem?_readNow hsnapshot
    · rcases hdue with ⟨old', hold', hsame⟩ | ⟨-, hrow⟩
      · cases hold.symm.trans hold'
        exact absurd (hsame due hmem) (Option.not_mem_none due)
      · exact h.forgets.cursor due (hrow due hmem)
    · rcases hdue with ⟨old', hold', hsame⟩ | ⟨htimed, -⟩
      · cases hold.symm.trans hold'
        exact h.read i old snapshot hold hkept due (hsame due hmem)
      · obtain ⟨now, heq⟩ := htimed old hold
        exact absurd heq (hread now)
  · rw [List.getElem?_append_right (hlength ▸ Nat.le_of_not_lt hlt), List.getElem?_replicate] at hsnapshot
    split at hsnapshot
    · cases hsnapshot
      rcases hdue with ⟨old, hold, -⟩ | ⟨-, hrow⟩
      · exact absurd (List.getElem?_eq_some_iff.1 hold).1 hlt
      · exact h.forgets.cursor due (hrow due hmem)
    · cases hsnapshot

/-! ## Steps -/

/-- A step adds no more than one visit and takes none away. -/
theorem length_le_of_cursorStep (h : Scheduler.SharedSchedule.CursorStep trigger declared.shared op shared) :
    declared.shared.visits.length ≤ shared.visits.length := by
  cases h with
  | arrive =>
    rw [Scheduler.SharedSchedule.addVisit, List.length_append]
    exact Nat.le_add_right _ _
  | idle => exact le_rfl
  | tick => exact le_rfl
  | _ => exact (List.length_set ..).ge

theorem Sound.engine (h : declared.Sound getNext) (hfresh : declared.Fresh getNext (.engine op)) :
    (declared.engine getNext pollSeconds threshold op).Sound getNext := by
  unfold DeclaredSchedule.engine
  simp only
  split
  · exact h
  · have hstep := Scheduler.SharedSchedule.exec_cursorStep
      (engineTrigger getNext pollSeconds (declared.actor op).trigger) threshold declared.shared op
    generalize declared.shared.exec _ threshold op = shared at hstep ⊢
    have hlength := length_le_of_cursorStep hstep
    constructor
    case length =>
      have hread : declared.readNow.length = declared.shared.visits.length := by
        unfold readNow
        rw [List.length_zipWith, h.length, Nat.min_self]
      rw [List.length_append, List.length_replicate, hread]
      exact Nat.add_sub_of_le hlength
    case read =>
      intro i visit snapshot hvisit hsnapshot
      exact h.own_of_dueFrom (dueFrom_of_cursorStep hstep hvisit) hsnapshot
    case forgets =>
      cases effect_of_cursorStep hstep with
      | @quiet runs hwrites hrow hruns hnone =>
        constructor
        case cursor =>
          intro instant hinstant
          rw [if_pos hwrites]
          exact h.forgets.cursor instant (hrow ▸ hinstant)
        case fires =>
          intro fire hfire
          rw [hruns, List.drop_left] at hfire
          rcases List.mem_append.1 hfire with hold | hnew
          · exact h.forgets.fires fire hold
          · obtain ⟨run, hrun, hdue⟩ := List.mem_filterMap.1 hnew
            rw [hnone run hrun] at hdue
            cases hdue
      | @write runs hwrite hwrites hruns hdues =>
        have htrigger : (declared.actor op).trigger = declared.trigger := hfresh hwrite
        constructor
        case cursor =>
          intro instant _
          rw [if_neg (hwrites ▸ Nat.succ_ne_self _)]
          exact .inl htrigger
        case fires =>
          intro fire hfire
          rw [hruns, List.drop_left] at hfire
          rcases List.mem_append.1 hfire with hold | hnew
          · exact h.forgets.fires fire hold
          · obtain ⟨run, hrun, hdue⟩ := List.mem_filterMap.1 hnew
            obtain ⟨due, hmem, rfl⟩ := Option.map_eq_some_iff.1 hdue
            obtain ⟨i, visit, rfl, hvisit, hvdue⟩ := hdues run hrun due hmem
            have hlt := (List.getElem?_eq_some_iff.1 hvisit).1
            rw [← h.length] at hlt
            have hsnapshot : declared.snapshots[i]? = some declared.snapshots[i] :=
              List.getElem?_eq_getElem hlt
            have hactor : declared.actor (.commit i) = declared.snapshots[i] := by
              unfold actor visitOf
              rw [Option.bind_some, hsnapshot]
              rfl
            have hown := h.read i visit _ hvisit hsnapshot due hvdue
            rw [← hactor, htrigger] at hown
            exact hown

theorem Sound.poll (h : declared.Sound getNext) (i : ℕ) : (declared.poll i).Sound getNext := by
  unfold DeclaredSchedule.poll
  split
  · split
    · constructor
      case forgets => exact ⟨h.forgets.cursor, h.forgets.fires⟩
      case length => exact h.length.trans List.length_set.symm
      case read =>
        intro j visit snapshot hvisit hsnapshot
        rcases Processes.getElem?_set_cases hvisit with ⟨-, rfl⟩ | ⟨-, hkept⟩
        · exact fun due hdue ↦ absurd hdue (Option.not_mem_none due)
        · exact h.read j visit snapshot hkept hsnapshot
    · exact h
  · exact h

theorem Sound.chain (h : declared.Sound getNext) (i : ℕ) : (declared.chain i).Sound getNext := by
  unfold DeclaredSchedule.chain
  split
  · next parent hparent =>
    constructor
    case forgets => exact ⟨h.forgets.cursor, h.forgets.fires⟩
    case length =>
      change (declared.snapshots ++ [parent]).length = (declared.shared.visits ++ [_]).length
      rw [List.length_append, List.length_append, h.length]
      rfl
    case read =>
      intro j visit snapshot hvisit hsnapshot
      rcases Processes.getElem?_concat_cases hvisit with ⟨-, rfl⟩ | hold
      · exact fun due hdue ↦ absurd hdue (Option.not_mem_none due)
      · rcases Processes.getElem?_concat_cases hsnapshot with ⟨rfl, -⟩ | hread
        · have hlt := (List.getElem?_eq_some_iff.1 hold).1
          exact absurd (h.length ▸ hlt) (Nat.lt_irrefl _)
        · exact h.read j visit snapshot hold hread
  · exact h

theorem Sound.apply (h : declared.Sound getNext) {trigger : ResolvedTrigger J}
    (hfresh : declared.Fresh getNext (.apply trigger)) : (declared.apply trigger).Sound getNext := by
  unfold DeclaredSchedule.apply
  cases hrearmed : trigger.rearmed declared.shared.clock with
  | some epoch =>
    simp only
    rw [Scheduler.SharedSchedule.updateSchedule_none _ rfl]
    exact ⟨⟨fun _ _ ↦ .inl rfl, h.forgets.fires⟩, h.length, h.read⟩
  | none =>
    refine ⟨⟨?_, h.forgets.fires⟩, h.length, h.read⟩
    intro instant hinstant
    rcases hfresh with rfl | hahead | hyields
    · exact h.forgets.cursor instant hinstant
    · exact absurd hrearmed hahead
    · exact .inr (hyields instant hinstant)

theorem Sound.exec (h : declared.Sound getNext) {op : DeclaredOp J} (hfresh : declared.Fresh getNext op) :
    (declared.exec getNext pollSeconds threshold op).Sound getNext := by
  cases op with
  | engine op => exact h.engine hfresh
  | poll i => exact h.poll i
  | chain i => exact h.chain i
  | apply trigger => exact h.apply hfresh

theorem sound_start (clock : ℚ) (nextFireAt : Option ℚ) (trigger : ResolvedTrigger J) :
    (start clock nextFireAt trigger).Sound getNext := by
  constructor
  case forgets => exact ⟨fun _ _ ↦ .inl rfl, fun fire hfire ↦ absurd hfire List.not_mem_nil⟩
  case length => rfl
  case read =>
    intro i visit snapshot hvisit
    cases hvisit

variable (getNext pollSeconds threshold)

/-- The trigger before is forgotten in a run in which every declaration that changes the trigger meets no
instant of it, and no visit that has read another trigger writes. -/
theorem forgetsOld_throughout (clock : ℚ) (nextFireAt : Option ℚ) (trigger : ResolvedTrigger J)
    (ops : List (DeclaredOp J))
    (h : Transition.Along (exec getNext pollSeconds threshold) (Fresh getNext)
      (start clock nextFireAt trigger) ops) :
    Transition.Throughout (exec getNext pollSeconds threshold) (ForgetsOld getNext)
      (start clock nextFireAt trigger) ops := by
  apply Transition.Throughout.mono (I := Sound getNext)
  · exact fun _ hsound ↦ hsound.forgets
  · exact Transition.Throughout.of_along (fun _ _ hsound hop ↦ hsound.exec hop)
      (sound_start clock nextFireAt trigger) h

/-- A cron schedule becomes a point in time that is ahead while its fire is in flight, which loses its claim. -/
theorem forgetsOld_reserved : Transition.Throughout
    (exec (fun _ _ start ↦ start + 60) 300 false) (ForgetsOld (J := Unit) fun _ _ start ↦ start + 60)
    (start 0 (some 60) (.cron "* * * * *" "UTC"))
    [.engine (.tick 60), .engine .beginTick, .engine (.readRow 0), .engine (.launch 0), .engine (.enter 0),
      .apply (.pointInTime "1970-01-01T00:08:20Z" 500), .engine (.commit 0)] := by
  apply forgetsOld_throughout
  refine ⟨fun _ ↦ rfl, fun _ ↦ rfl, fun _ ↦ rfl, fun _ ↦ rfl, fun _ ↦ rfl, .inr (.inl ?_), fun hwrites ↦ ?_,
    trivial⟩
  · decide +kernel
  · cases hwrites with
    | advance hop => cases hop
    | commit hvisit _ hclaim =>
      have hfiring := hvisit.symm.trans
        (show _ = some (Scheduler.Visit.firing (.scheduled 60) (some (some 60)) 60) by decide +kernel)
      cases hfiring
      exact absurd (hclaim _ rfl) (by decide +kernel)

/-- A longer interval becomes a shorter one, and the schedule still fires at the instant of the longer one. -/
theorem not_forgetsOld_throughout : ¬ Transition.Throughout
    (exec (fun _ _ start ↦ start + 60) 300 false) (ForgetsOld (J := Unit) fun _ _ start ↦ start + 60)
    (start 0 (some 3600) (.every 3600 "1h"))
    [.apply (.every 60 "1m"), .engine (.tick 3600), .engine .beginTick, .engine (.readRow 0),
      .engine (.launch 0), .engine (.enter 0), .engine (.commit 0)] := by
  intro h
  rcases h.final.fires ⟨3600, .every 3600 "1h", .every 60 "1m"⟩ (by decide +kernel) with horigin | hyields
  · exact absurd horigin (by decide)
  · exact hyields

end DeclaredSchedule

end Engine

end Lionagi.Studio
