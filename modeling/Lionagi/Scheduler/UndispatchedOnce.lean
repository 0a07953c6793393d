import Lionagi.Library.Transition
import Lionagi.Scheduler.UndispatchedStep

/-!
# One process for each occurrence

Among an occurrence and the replacements for it at most one may still launch a process, and none where one
was launched, as long as no orphan is replaced that has launched a process, and no fire launches one after
its occurrence was settled.
-/

namespace Lionagi.Scheduler.Occurrences

variable (system : Occurrences)

def launches (root : ℕ) : ℕ := system.fires.countP fun fire ↦ fire.root = root && fire.launched

def live (root : ℕ) : ℕ := system.fires.countP fun fire ↦ fire.root = root && fire.isLive

def replacements (orphan : ℕ) : ℕ := system.fires.countP (·.replaces orphan)

/-- At most one process is launched for an occurrence and the chain of its replacements, and an orphan has
at most one replacement. -/
structure LaunchedOnce : Prop where
  launched : ∀ root, system.launches root ≤ 1
  replaced : ∀ orphan, system.replacements orphan ≤ 1

/-- A process is launched for an occurrence that is still running. An orphan that is replaced has launched
no process. -/
def Owned : LaunchOp → Prop
  | .spawn i => ∀ fire ∈ system.fires[i]?, fire.stage = .starting → fire.row.any OccurrenceRow.isRunning = true
  | .commit i _ _ => ∀ fire ∈ system.fires[i]?, fire.stage = .writing → ∀ o ∈ fire.supersedes,
      ∀ orphan ∈ system.fires[o]?, orphan.row.any OccurrenceRow.isUndispatched = true →
        orphan.launched = false
  | _ => True

instance (op : LaunchOp) : Decidable (system.Owned op) := by
  cases op <;> unfold Owned <;> infer_instance

/-- At most one fire of each occurrence may launch or has launched, and orphans are settled when they are
replaced. -/
structure Tracked : Prop where
  once : ∀ root, system.launches root + system.live root ≤ 1
  replaced : ∀ o fire, system.fires[o]? = some fire → system.replacements o ≤ fire.isSettled.toNat
  orphan : ∀ fire ∈ system.fires, ∀ o ∈ fire.supersedes, ∃ orphan, system.fires[o]? = some orphan ∧
    orphan.root = fire.root ∧ orphan.row.isSome = true
  bounded : ∀ fire ∈ system.fires, fire.root < system.fires.length
  sound : ∀ fire ∈ system.fires, fire.Sound

variable {system} {i o : ℕ} {fire fire' orphan : OccurrenceFire}

theorem Tracked.replacements_eq_zero (h : system.Tracked) (ho : system.fires.length ≤ o) :
    system.replacements o = 0 := by
  rw [replacements, List.countP_eq_zero]
  intro fire hfire hreplaces
  have hsupersedes := of_decide_eq_true (Bool.and_eq_true_iff.1 hreplaces).1
  obtain ⟨orphan, horphan, -⟩ := h.orphan fire hfire o hsupersedes
  rw [List.getElem?_eq_none ho] at horphan
  cases horphan

theorem Tracked.launchedOnce (h : system.Tracked) : system.LaunchedOnce where
  launched root := Nat.le_trans (Nat.le_add_right _ _) (h.once root)
  replaced o := by
    cases hfire : system.fires[o]? with
    | none =>
      rw [h.replacements_eq_zero (List.getElem?_eq_none_iff.1 hfire)]
      exact Nat.zero_le 1
    | some fire => exact Nat.le_trans (h.replaced o fire hfire) (Bool.toNat_le _)

/-! ## Steps -/

/-- A step of a fire that keeps what it stands for. -/
theorem Tracked.set (h : system.Tracked) (hfire : system.fires[i]? = some fire) (hroot : fire'.root = fire.root)
    (hsupersedes : fire'.supersedes = fire.supersedes)
    (hwritten : fire.row.isSome = true → fire'.row.isSome = true) (hsound : fire'.Sound)
    (honce : ∀ root, (system.setFire i fire').launches root + (system.setFire i fire').live root ≤ 1)
    (hreplaced : ∀ o other, (system.setFire i fire').fires[o]? = some other →
      (system.setFire i fire').replacements o ≤ other.isSettled.toNat) : (system.setFire i fire').Tracked := by
  have hmem : fire ∈ system.fires := List.mem_of_getElem? hfire
  constructor
  case once => exact honce
  case replaced => exact hreplaced
  case orphan =>
    intro other hother o ho
    have hbefore : ∃ orphan, system.fires[o]? = some orphan ∧ orphan.root = other.root ∧
        orphan.row.isSome = true := by
      rcases List.mem_or_eq_of_mem_set hother with hold | rfl
      · exact h.orphan other hold o ho
      · rw [hroot]
        exact h.orphan fire hmem o (hsupersedes ▸ ho)
    obtain ⟨orphan, horphan, hsame, hsome⟩ := hbefore
    by_cases heq : i = o
    · subst heq
      cases hfire.symm.trans horphan
      exact ⟨fire', Processes.getElem?_set_self_of_some hfire, hroot.trans hsame, hwritten hsome⟩
    · exact ⟨orphan, (List.getElem?_set_ne heq).trans horphan, hsame, hsome⟩
  case bounded =>
    intro other hother
    refine Nat.lt_of_lt_of_eq ?_ List.length_set.symm
    rcases List.mem_or_eq_of_mem_set hother with hold | rfl
    · exact h.bounded other hold
    · exact hroot ▸ h.bounded fire hmem
  case sound =>
    intro other hother
    rcases List.mem_or_eq_of_mem_set hother with hold | rfl
    · exact h.sound other hold
    · exact hsound

/-- A step of a fire that gets the row of no replacement, and keeps a settled row settled. -/
theorem Tracked.replaced_set (h : system.Tracked) (hfire : system.fires[i]? = some fire)
    (hreplaces : fire'.replaces o = true → fire.replaces o = true)
    (hsettled : fire.isSettled = true → fire'.isSettled = true) {other : OccurrenceFire}
    (hother : (system.setFire i fire').fires[o]? = some other) :
    (system.setFire i fire').replacements o ≤ other.isSettled.toNat := by
  refine Nat.le_trans (Processes.countP_set_le hfire hreplaces) ?_
  rcases Processes.getElem?_set_cases hother with ⟨rfl, rfl⟩ | ⟨-, hold⟩
  · refine Nat.le_trans (h.replaced o fire hfire) ?_
    cases hbefore : fire.isSettled with
    | false => exact Nat.zero_le _
    | true => exact Nat.le_of_eq (congrArg Bool.toNat (hsettled hbefore)).symm
  · exact h.replaced o other hold

theorem Tracked.quiet (h : system.Tracked) (hfire : system.fires[i]? = some fire)
    (hquiet : fire.Sound → Quiet fire fire') : (system.setFire i fire').Tracked := by
  have hsound : fire.Sound := h.sound fire (List.mem_of_getElem? hfire)
  have hquiet := hquiet hsound
  refine h.set hfire hquiet.root hquiet.supersedes hquiet.written (hquiet.sound hsound) ?_ ?_
  · intro root
    have hlaunches : (system.setFire i fire').launches root = system.launches root := by
      apply Processes.countP_set_of_eq hfire
      rw [hquiet.root, hquiet.launched]
    have hlives : (system.setFire i fire').live root ≤ system.live root := by
      apply Processes.countP_set_le hfire
      rw [hquiet.root, Bool.and_eq_true_iff, Bool.and_eq_true_iff]
      exact And.imp_right hquiet.live
    rw [hlaunches]
    exact Nat.le_trans (Nat.add_le_add_left hlives _) (h.once root)
  · intro o other hother
    refine h.replaced_set hfire (fun hnew ↦ ?_) hquiet.settled hother
    obtain ⟨horphan, hsome⟩ := Bool.and_eq_true_iff.1 hnew
    have horphan' := of_decide_eq_true horphan
    have hne : fire'.supersedes ≠ none := fun hnone ↦ by cases hnone.symm.trans horphan'
    refine Bool.and_eq_true_iff.2 ⟨?_, hquiet.replaces hne hsome⟩
    exact decide_eq_true (hquiet.supersedes ▸ horphan')

/-- A fire is added that has no row yet. -/
theorem Tracked.add (h : system.Tracked) (hrow : fire.row = none) (hlaunched : fire.launched = false)
    (hbounded : fire.root < system.fires.length + 1)
    (hlive : fire.isLive = true → system.launches fire.root + system.live fire.root = 0)
    (horphan : ∀ o ∈ fire.supersedes, ∃ orphan, system.fires[o]? = some orphan ∧ orphan.root = fire.root ∧
      orphan.row.isSome = true) : (system.addFire fire).Tracked := by
  constructor
  case once =>
    intro root
    change (system.fires ++ [fire]).countP _ + (system.fires ++ [fire]).countP _ ≤ 1
    rw [Processes.countP_concat_of_false (by rw [hlaunched, Bool.and_false]), List.countP_append,
      List.countP_singleton]
    have honce := h.once root
    unfold launches live at honce hlive
    split
    · next hnew =>
      obtain ⟨hroot, hfire⟩ := Bool.and_eq_true_iff.1 hnew
      have hzero := hlive hfire
      rw [of_decide_eq_true hroot] at hzero
      omega
    · exact honce
  case replaced =>
    intro o other hother
    have hsame : (system.addFire fire).replacements o = system.replacements o := by
      apply Processes.countP_concat_of_false
      rw [OccurrenceFire.replaces, hrow]
      exact Bool.and_false _
    rw [hsame]
    rcases Processes.getElem?_concat_cases hother with ⟨rfl, -⟩ | hold
    · rw [h.replacements_eq_zero (Nat.le_refl _)]
      exact Nat.zero_le _
    · exact h.replaced o other hold
  case orphan =>
    intro other hother o ho
    have hbefore : ∃ orphan, system.fires[o]? = some orphan ∧ orphan.root = other.root ∧
        orphan.row.isSome = true := by
      rcases List.mem_append.1 hother with hold | hnew
      · exact h.orphan other hold o ho
      · cases List.mem_singleton.1 hnew
        exact horphan o ho
    obtain ⟨orphan, hget, hsame, hsome⟩ := hbefore
    exact ⟨orphan, Processes.getElem?_concat_of_some hget, hsame, hsome⟩
  case bounded =>
    intro other hother
    change other.root < (system.fires ++ [fire]).length
    rw [List.length_append, List.length_singleton]
    rcases List.mem_append.1 hother with hold | hnew
    · exact Nat.lt_succ_of_lt (h.bounded other hold)
    · cases List.mem_singleton.1 hnew
      exact hbounded
  case sound =>
    intro other hother
    rcases List.mem_append.1 hother with hold | hnew
    · exact h.sound other hold
    · cases List.mem_singleton.1 hnew
      exact ⟨fun _ ↦ hlaunched, fun _ ↦ hrow⟩

theorem Tracked.start (h : system.Tracked) :
    (system.addFire { supersedes := none, root := system.fires.length }).Tracked := by
  refine h.add rfl rfl (Nat.lt_succ_self _) (fun _ ↦ ?_) fun o ho ↦ absurd ho (Option.not_mem_none o)
  have hnone : ∀ p : OccurrenceFire → Bool,
      (system.fires.countP fun fire ↦ fire.root = system.fires.length && p fire) = 0 := by
    intro p
    rw [List.countP_eq_zero]
    intro fire hfire hroot
    have heq := of_decide_eq_true (Bool.and_eq_true_iff.1 hroot).1
    exact absurd heq (Nat.ne_of_lt (h.bounded fire hfire))
  rw [launches, live, hnone, hnone]

theorem Tracked.recover (h : system.Tracked) (hfire : system.fires[i]? = some fire)
    (hsome : fire.row.isSome = true) :
    (system.addFire { supersedes := some i, root := fire.root }).Tracked := by
  refine h.add rfl rfl ?_ ?_ ?_
  · exact Nat.lt_succ_of_lt (h.bounded fire (List.mem_of_getElem? hfire))
  · exact fun hfalse ↦ absurd hfalse Bool.false_ne_true
  · rintro o ⟨⟩
    exact ⟨fire, hfire, rfl, hsome⟩

/-- The row of a replacement is inserted where no other fire of its occurrence may launch, and its orphan is
settled and has no replacement. -/
theorem Tracked.insert (h : system.Tracked) (hfire : system.fires[i]? = some fire)
    (horphan : system.fires[o]? = some orphan) (hsettled : orphan.isSettled = true)
    (hnone : system.replacements o = 0) (hzero : system.launches fire.root + system.live fire.root = 0)
    (hsupersedes : fire.supersedes = some o) (hroot : fire'.root = fire.root)
    (hsame : fire'.supersedes = fire.supersedes) (hlaunched : fire'.launched = fire.launched)
    (hrow : fire.row = none) (hsome : fire'.row.isSome = true) (hsound : fire'.Sound) :
    (system.setFire i fire').Tracked := by
  refine h.set hfire hroot hsame (fun _ ↦ hsome) hsound ?_ ?_
  · intro root
    have hlaunches : (system.setFire i fire').launches root = system.launches root := by
      apply Processes.countP_set_of_eq hfire
      rw [hroot, hlaunched]
    rw [hlaunches]
    by_cases heq : fire.root = root
    · subst heq
      have hlives : (system.setFire i fire').live fire.root ≤ system.live fire.root + 1 :=
        Processes.countP_set_le_succ hfire
      omega
    · have hlives : (system.setFire i fire').live root = system.live root := by
        apply Processes.countP_set_of_eq hfire
        rw [hroot, decide_eq_false heq, Bool.false_and, Bool.false_and]
      rw [hlives]
      exact h.once root
  · intro o' other hother
    by_cases heq : o' = o
    · subst heq
      have hone : (system.setFire i fire').replacements o' ≤ system.replacements o' + 1 :=
        Processes.countP_set_le_succ hfire
      have hother' : other = orphan := by
        rcases Processes.getElem?_set_cases hother with ⟨rfl, -⟩ | ⟨-, hold⟩
        · cases hfire.symm.trans horphan
          rw [OccurrenceFire.isSettled, hrow] at hsettled
          cases hsettled
        · exact Option.some.inj (hold.symm.trans horphan)
      rw [hother', hsettled]
      rw [hnone] at hone
      exact hone
    · refine h.replaced_set hfire ?_ ?_ hother
      · intro hnew
        have horphan' := of_decide_eq_true (Bool.and_eq_true_iff.1 hnew).1
        rw [hsame, hsupersedes] at horphan'
        exact absurd (Option.some.inj horphan').symm heq
      · rw [OccurrenceFire.isSettled, hrow]
        exact fun hfalse ↦ absurd hfalse Bool.false_ne_true

/-- An orphan that has launched no process is settled and replaced. -/
theorem Tracked.replace (h : system.Tracked) {row : OccurrenceRow} (hfire : system.fires[i]? = some fire)
    (hstage : fire.stage = .writing) (hsupersedes : fire.supersedes = some o)
    (horphan : system.fires[o]? = some orphan) (hrow : orphan.row = some row)
    (hundispatched : row.isUndispatched = true) (hunlaunched : orphan.launched = false)
    (hroot : fire'.root = fire.root) (hsame : fire'.supersedes = fire.supersedes)
    (hlaunched : fire'.launched = fire.launched) (hsome : fire'.row.isSome = true)
    (hsound : fire.Sound → fire'.Sound) :
    ((system.setFire o (orphan.tombstoned row)).setFire i fire').Tracked := by
  have hrunning : row.isRunning = true := (Bool.and_eq_true_iff.1 hundispatched).1
  have hfresh : fire.Sound := h.sound fire (List.mem_of_getElem? hfire)
  have hnone : fire.row = none := hfresh.row hstage
  have hne : o ≠ i := by
    rintro rfl
    cases hfire.symm.trans horphan
    cases hnone.symm.trans hrow
  have hroots : orphan.root = fire.root := by
    obtain ⟨orphan', hget, hroots, -⟩ := h.orphan fire (List.mem_of_getElem? hfire) o hsupersedes
    cases horphan.symm.trans hget
    exact hroots
  have hsettled : (system.setFire o (orphan.tombstoned row)).Tracked :=
    h.quiet horphan fun hsound' ↦ quiet_tombstoned hsound' hrow
  refine hsettled.insert ((List.getElem?_set_ne hne).trans hfire)
    (Processes.getElem?_set_self_of_some horphan) rfl ?_ ?_ hsupersedes hroot hsame hlaunched hnone hsome
    (hsound hfresh)
  · -- the orphan was running, so that nothing had replaced it
    have hbefore := h.replaced o orphan horphan
    have hnot : orphan.isSettled = false := by
      rw [OccurrenceFire.isSettled, hrow]
      change (!row.isRunning) = false
      rw [hrunning]
      rfl
    have hkept : (system.setFire o (orphan.tombstoned row)).replacements o = system.replacements o := by
      apply Processes.countP_set_of_eq horphan
      rw [OccurrenceFire.replaces, OccurrenceFire.replaces, hrow]
      rfl
    rw [hnot] at hbefore
    rw [hkept]
    exact Nat.le_zero.1 hbefore
  · -- the orphan could be launched before, and no other fire of its occurrence
    have hlive : orphan.isLive = true := by
      rw [OccurrenceFire.isLive, hunlaunched, hrow]
      change (true && (_ || row.isRunning)) = true
      rw [hrunning, Bool.or_true]
      rfl
    have hdead : (orphan.tombstoned row).isLive = false := by
      have hwriting : orphan.stage ≠ .writing := by
        intro hwriting
        cases ((h.sound orphan (List.mem_of_getElem? horphan)).row hwriting).symm.trans hrow
      change (!orphan.launched && (decide (orphan.stage = .writing) && _ || false)) = false
      rw [decide_eq_false hwriting, Bool.false_and, Bool.or_false, Bool.and_false]
    have hlaunches : (system.setFire o (orphan.tombstoned row)).launches fire.root = system.launches fire.root :=
      Processes.countP_set_of_eq horphan rfl
    have hlives : system.live fire.root = (system.setFire o (orphan.tombstoned row)).live fire.root + 1 := by
      apply Processes.countP_of_release horphan
      · rw [hroots, hlive, decide_eq_true rfl]
        rfl
      · rw [hdead, Bool.and_false]
    have honce := h.once fire.root
    omega

theorem Tracked.spawn (h : system.Tracked) (hfire : system.fires[i]? = some fire)
    (hstage : fire.stage = .starting) (hrunning : fire.row.any OccurrenceRow.isRunning = true) :
    (system.setFire i { fire with stage := .launched, launched := true }).Tracked := by
  have hmem : fire ∈ system.fires := List.mem_of_getElem? hfire
  have hunlaunched : fire.launched = false := (h.sound fire hmem).launched (.inr (.inr hstage))
  have hlive : fire.isLive = true := by
    rw [OccurrenceFire.isLive, hunlaunched, hrunning, Bool.or_true]
    rfl
  refine h.set hfire rfl rfl id ?_ ?_ ?_
  · constructor
    case launched =>
      intro hbefore
      rcases hbefore with hbefore | hbefore | hbefore <;> cases hbefore
    case row =>
      intro hwriting
      cases hwriting
  · intro root
    have hlaunches := Processes.countP_set_add (p := fun fire ↦ fire.root = root && fire.launched)
      (a := { fire with stage := .launched, launched := true }) hfire
    have hlives := Processes.countP_set_add (p := fun fire ↦ fire.root = root && fire.isLive)
      (a := { fire with stage := .launched, launched := true }) hfire
    have hdead : OccurrenceFire.isLive { fire with stage := .launched, launched := true } = false := rfl
    simp only [hunlaunched, hlive, hdead, Bool.and_true, Bool.and_false, Bool.toNat_false] at hlaunches hlives
    have honce := h.once root
    change (system.fires.set i _).countP _ + (system.fires.set i _).countP _ ≤ 1
    unfold launches live at honce
    omega
  · intro o other hother
    apply h.replaced_set hfire ?_ ?_ hother
    · exact fun hreplaces ↦ hreplaces
    · exact fun hsettled ↦ hsettled

theorem Tracked.exec (h : system.Tracked) {op : LaunchOp} (hop : system.Owned op) :
    (system.exec op).Tracked := by
  have hstep := exec_launchStep system op
  generalize system.exec op = system' at hstep ⊢
  cases hstep with
  | idle => exact h
  | fire => exact h.start
  | recover hfire hsome => exact h.recover hfire hsome
  | quiet hfire hquiet => exact h.quiet hfire hquiet
  | replace hfire hstage hsupersedes horphan hrow hundispatched hroot hsame hlaunched hsome hsound =>
    refine h.replace hfire hstage hsupersedes horphan hrow hundispatched ?_ hroot hsame hlaunched hsome hsound
    refine hop _ hfire hstage _ hsupersedes _ horphan ?_
    rw [hrow]
    exact hundispatched
  | spawn hfire hstage => exact h.spawn hfire hstage (hop _ hfire hstage)

theorem tracked_empty : Tracked {} where
  once _ := Nat.zero_le 1
  replaced o fire h := by
    rw [List.getElem?_nil] at h
    cases h
  orphan _ h := absurd h List.not_mem_nil
  bounded _ h := absurd h List.not_mem_nil
  sound _ h := absurd h List.not_mem_nil

/-- At most one process is launched for every occurrence in a run in which no orphan is replaced that has
launched one, and none is launched for an occurrence that is settled. -/
theorem launchedOnce_throughout (ops : List LaunchOp) (h : Transition.Along exec Owned {} ops) :
    Transition.Throughout exec LaunchedOnce {} ops := by
  apply Transition.Throughout.mono (I := Tracked)
  · exact fun _ htracked ↦ htracked.launchedOnce
  · exact Transition.Throughout.of_along (fun _ _ htracked hop ↦ htracked.exec hop) tracked_empty h

/-- An engine ends after its commit, and the orphan is replaced by the first of two engines that start. -/
theorem launchedOnce_recovered : Transition.Throughout exec LaunchedOnce {}
    [.fire, .commit 0 true true, .register 0, .leave 0, .recover 0, .recover 0, .commit 2 true true,
      .commit 1 true true, .register 2, .spawn 2, .confirm 2 true, .finish 2] :=
  launchedOnce_throughout _ (by decide +kernel)

/-- An engine that starts replaces and launches an occurrence that another engine is about to launch. -/
theorem not_launchedOnce_throughout : ¬ Transition.Throughout exec LaunchedOnce {}
    [.fire, .commit 0 true true, .register 0, .recover 0, .commit 1 true true, .register 1, .spawn 1,
      .spawn 0] := by
  intro h
  exact absurd (h.final.launched 0) (by decide +kernel)

end Lionagi.Scheduler.Occurrences
