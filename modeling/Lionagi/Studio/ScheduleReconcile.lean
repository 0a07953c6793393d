import Lionagi.Studio.ScheduleApply

/-!
# When an apply reconciles the schedules

An apply is as it should be where the document has every row of the set among its members, and where a row
that has the digest and the flag of its member has all its columns. A row that is left out is disabled again by
every later apply, and a column that the digest does not cover, such as the description, is not declared again.
-/

namespace Lionagi.Studio

variable {T G J D E : Type}

/-! ## Settled rows -/

section Settled

variable [DecidableEq D] {members : List (ResolvedMember T G J D)} {ownerKey : String} {now : ℚ}
  {member : ResolvedMember T G J D} {row : ScheduleRow T G J D E}

theorem settle_of_foreign (h : row.ownerKey ≠ some ownerKey) : settle members ownerKey now row = row := by
  unfold settle
  rw [if_neg h]

theorem settle_of_member (hnames : (members.map (·.qualifiedName)).Nodup) (hmember : member ∈ members)
    (hname : row.name = member.qualifiedName) (howner : row.ownerKey = some ownerKey) :
    settle members ownerKey now row =
      if Matches row member then row else (declareWrite now member).write row := by
  unfold settle
  rw [if_pos howner, find?_member hnames hmember hname.symm]

/-- A row keeps its id, its name and its owner. -/
theorem settle_keeps (members : List (ResolvedMember T G J D)) (ownerKey : String) (now : ℚ)
    (row : ScheduleRow T G J D E) :
    (settle members ownerKey now row).id = row.id ∧ (settle members ownerKey now row).name = row.name ∧
      (settle members ownerKey now row).ownerKey = row.ownerKey := by
  unfold settle
  split
  · split
    · split
      · exact ⟨rfl, rfl, rfl⟩
      · exact ⟨rfl, rfl, rfl⟩
    · exact ⟨rfl, rfl, rfl⟩
  · exact ⟨rfl, rfl, rfl⟩

theorem matches_settle (hnames : (members.map (·.qualifiedName)).Nodup) (hmember : member ∈ members)
    (hname : row.name = member.qualifiedName) (howner : row.ownerKey = some ownerKey) :
    Matches (settle members ownerKey now row) member := by
  rw [settle_of_member hnames hmember hname howner]
  split
  · next h => exact h
  · exact ⟨rfl, rfl⟩

end Settled

/-! ## Due instants -/

section DueInstants

variable {env : Environment T G J D} {doc : ScheduleSetDocument T G J}
  {members : List (ResolvedMember T G J D)} {member : ResolvedMember T G J D}

theorem exists_resolveMember (h : resolveScheduleSet env doc = .ok members) (hmember : member ∈ members) :
    ∃ schedule ∈ doc.schedules,
      resolveMember env schedule.1 schedule.2 doc.project doc.isGlobal = .ok member := by
  unfold resolveScheduleSet at h
  simp only at h
  split at h
  · cases h
    obtain ⟨result, hresult, hok⟩ := List.mem_filterMap.1 hmember
    obtain ⟨schedule, hschedule, rfl⟩ := List.mem_map.1 hresult
    refine ⟨schedule, hschedule, ?_⟩
    cases hresolve : resolveMember env schedule.1 schedule.2 doc.project doc.isGlobal with
    | error message =>
      rw [hresolve] at hok
      cases hok
    | ok resolved =>
      rw [hresolve] at hok
      cases hok
      rfl
  · cases h

/-- Only a point in time comes with a due instant. -/
theorem triggerType_of_nextFireAt {trigger : ResolvedTrigger J} {target : ResolvedTarget J}
    {authored : ScheduleMember T G J} {cwd : String} {project : Option String}
    (h : (toDbFields trigger target authored cwd project).nextFireAt ≠ none) :
    (toDbFields trigger target authored cwd project).triggerType = .pointInTime := by
  cases trigger with
  | pointInTime iso epoch => cases target <;> rfl
  | _ => cases target <;> exact absurd rfl h

/-- The due instant that a member writes over a row has not passed. -/
theorem lt_of_rearmed (h : resolveScheduleSet env doc = .ok members) (hmember : member ∈ members) {now epoch : ℚ}
    (hrearmed : member.dbFields.rearmed now = some epoch) : now < epoch := by
  obtain ⟨schedule, -, hresolve⟩ := exists_resolveMember h hmember
  have hfields := (resolveMember_eq_ok hresolve).2
  unfold DbFields.rearmed at hrearmed
  split at hrearmed
  · cases hrearmed
  · next hahead =>
    have htype : member.dbFields.triggerType = .pointInTime := by
      have hnone : member.dbFields.nextFireAt ≠ none := by
        rw [hrearmed]
        exact Option.some_ne_none epoch
      rw [hfields] at hnone ⊢
      exact triggerType_of_nextFireAt hnone
    rw [hrearmed, Option.getD_some] at hahead
    exact lt_of_not_ge fun hle ↦ hahead ⟨htype, hle⟩

end DueInstants

/-! ## Reconciled schedules -/

section Reconciled

variable [DecidableEq D] (env : Environment T G J D) (doc : ScheduleSetDocument T G J)

/-- The rows are those that the document declares: every member has its row, the other rows of the set are
disabled, the rows of others are as they were, no due instant was written that has passed, and applying the
document again leaves every row and finds every member unchanged. -/
structure Reconciled (now : ℚ) (members : List (ResolvedMember T G J D)) (before after : Schedules T G J D E) :
    Prop where
  declared : ∀ member ∈ members, ∃ row ∈ after.rows, row.name = member.qualifiedName ∧
    row.ownerKey = some doc.ownerKey ∧ row.resolvedDigest = some member.digest ∧
      row.definition = member.dbFields.toDefinition
  kept : ∀ row ∈ before.rows, ∃ row' ∈ after.rows, row'.id = row.id
  disabled : ∀ row ∈ after.rows, row.ownerKey = some doc.ownerKey →
    row.name ∉ members.map (·.qualifiedName) → row.definition.enabled = false
  confined : after.rows.filter (fun row ↦ row.ownerKey ≠ some doc.ownerKey) =
    before.rows.filter fun row ↦ row.ownerKey ≠ some doc.ownerKey
  notBack : ∀ row ∈ before.rows, ∀ row' ∈ after.rows, row'.id = row.id →
    row'.nextFireAt = row.nextFireAt ∨ ∃ epoch ∈ row'.nextFireAt, now < epoch
  again : ∀ (newId : String → String) (fresh : E) (adopt : Bool) (later : ℚ), ∃ plan,
    applyScheduleSet env newId fresh doc adopt later after = (.ok plan, after) ∧
      (∀ member ∈ members, ∃ id, .unchanged member id ∈ plan) ∧
        ∀ entry ∈ plan, ∃ member id, entry = .unchanged member id

/-- The apply raises and changes no row, or reconciles the schedules. -/
structure AppliesWell (newId : String → String) (fresh : E) (adopt : Bool) (now : ℚ)
    (table : Schedules T G J D E) : Prop where
  raises : ∀ e after, applyScheduleSet env newId fresh doc adopt now table = (.error e, after) → after = table
  reconciles : ∀ plan after, applyScheduleSet env newId fresh doc adopt now table = (.ok plan, after) →
    ∃ members, resolveScheduleSet env doc = .ok members ∧ Reconciled env doc now members table after

/-- The document leaves out no row of the set. -/
def Covers (table : Schedules T G J D E) (members : List (ResolvedMember T G J D)) : Prop :=
  ∀ row ∈ table.rows, row.ownerKey = some doc.ownerKey → row.name ∈ members.map (·.qualifiedName)

/-- A row with the digest and the enabled flag of its member has all its columns. -/
def UpToDate (table : Schedules T G J D E) (members : List (ResolvedMember T G J D)) : Prop :=
  ∀ member ∈ members, ∀ row ∈ table.rows, row.name = member.qualifiedName → Matches row member →
    row.definition = member.dbFields.toDefinition

variable {env doc} {table after : Schedules T G J D E} {members : List (ResolvedMember T G J D)} {now : ℚ}
  {newId : String → String} {fresh : E} {adopt : Bool}

theorem eq_of_applyScheduleSet_error {e : ApplyError}
    (h : applyScheduleSet env newId fresh doc adopt now table = (.error e, after)) : after = table := by
  unfold applyScheduleSet at h
  split at h
  · cases h
    rfl
  · simp only at h
    split at h
    · split at h
      · cases h
      · cases h
        rfl
    · cases h
      rfl

/-- The rows after an apply: the settled ones, and the new ones of the set. -/
theorem mem_rows_iff (hrows : after.rows = table.rows.map (settle members doc.ownerKey now) ++
    newRows table members doc.ownerKey newId now fresh) {row : ScheduleRow T G J D E} :
    row ∈ after.rows ↔ (∃ old ∈ table.rows, settle members doc.ownerKey now old = row) ∨
      ∃ member ∈ members, (∀ old ∈ table.rows, old.name ≠ member.qualifiedName) ∧
        createdRow doc.ownerKey (newId member.qualifiedName) now fresh member = row := by
  rw [hrows, List.mem_append, List.mem_map, mem_newRows]

theorem covers_of_reconciled (hresolve : resolveScheduleSet env doc = .ok members)
    (hrows : after.rows = table.rows.map (settle members doc.ownerKey now) ++
      newRows table members doc.ownerKey newId now fresh)
    (h : Reconciled env doc now members table after) : Covers doc table members := by
  intro row hrow howner
  by_contra homitted
  obtain ⟨-, hname', howner'⟩ := settle_keeps members doc.ownerKey now row
  have hafter : settle members doc.ownerKey now row ∈ after.rows :=
    (mem_rows_iff hrows).2 (.inl ⟨row, hrow, rfl⟩)
  obtain ⟨plan, happly, -, hunchanged⟩ := h.again newId fresh false now
  obtain ⟨-, rfl, -⟩ := (applyScheduleSet_eq_ok_iff hresolve).1 happly
  obtain ⟨member, id, hentry⟩ := hunchanged _ (mem_buildPlan.2 (.inr ⟨_, hafter, howner'.trans howner,
    hname'.symm ▸ homitted, rfl⟩))
  cases hentry

section Applied

variable (hresolve : resolveScheduleSet env doc = .ok members)
  (haccepts : Accepts table members doc.ownerKey newId)
  (hrows : after.rows = table.rows.map (settle members doc.ownerKey now) ++
    newRows table members doc.ownerKey newId now fresh)

include hresolve haccepts hrows

/-- After an apply every member has a row of the set that matches it. -/
theorem exists_matching {member : ResolvedMember T G J D} (hmember : member ∈ members) :
    ∃ row ∈ after.rows, row.name = member.qualifiedName ∧ row.ownerKey = some doc.ownerKey ∧
      Matches row member := by
  have hnames := nodup_qualifiedName hresolve
  rcases absent_or_named table member.qualifiedName with habsent | ⟨row, hrow, hname⟩
  · exact ⟨_, (mem_rows_iff hrows).2 (.inr ⟨member, hmember, habsent, rfl⟩), rfl, rfl, rfl, rfl⟩
  · have howner := haccepts.owned member hmember row hrow hname
    obtain ⟨-, hname', howner'⟩ := settle_keeps members doc.ownerKey now row
    refine ⟨_, (mem_rows_iff hrows).2 (.inl ⟨row, hrow, rfl⟩), hname'.trans hname, howner'.trans howner, ?_⟩
    exact matches_settle hnames hmember hname howner

/-- What a later apply of the document plans and writes, where it leaves out no row. -/
theorem again_of_covers (hcovers : Covers doc table members) (newId' : String → String) (fresh' : E)
    (adopt' : Bool) (later : ℚ) : ∃ plan,
      applyScheduleSet env newId' fresh' doc adopt' later after = (.ok plan, after) ∧
        (∀ member ∈ members, ∃ id, .unchanged member id ∈ plan) ∧
          ∀ entry ∈ plan, ∃ member id, entry = .unchanged member id := by
  have hnames := nodup_qualifiedName hresolve
  have hmatching : ∀ {member}, member ∈ members → ∃ row ∈ after.rows, row.name = member.qualifiedName ∧
      row.ownerKey = some doc.ownerKey ∧ Matches row member :=
    fun hmember ↦ exists_matching hresolve haccepts hrows hmember
  have howned : Owned after members doc.ownerKey := by
    intro member hmember row hrow hname
    obtain ⟨found, hfound, hfname, howner, -⟩ := hmatching hmember
    rw [Schedules.eq_of_name hrow hfound (hname.trans hfname.symm)]
    exact howner
  have hcovered : ∀ row ∈ after.rows, row.ownerKey = some doc.ownerKey →
      row.name ∈ members.map (·.qualifiedName) := by
    intro row hrow howner
    rcases (mem_rows_iff hrows).1 hrow with ⟨old, hold, rfl⟩ | ⟨member, hmember, -, rfl⟩
    · obtain ⟨-, hname', howner'⟩ := settle_keeps members doc.ownerKey now old
      rw [hname']
      exact hcovers old hold (howner'.symm.trans howner)
    · exact List.mem_map_of_mem hmember
  have hplan : ∀ member ∈ members, ∃ id,
      planMember after doc.ownerKey adopt' member = .unchanged member id := by
    intro member hmember
    obtain ⟨row, hrow, hname, howner, hmatches⟩ := hmatching hmember
    rw [planMember_of_owned hrow hname howner, if_pos hmatches]
    exact ⟨row.id, rfl⟩
  have habsent : absentMembers after members = [] := by
    apply List.eq_nil_iff_forall_not_mem.2
    intro member hmember
    obtain ⟨hmember, hnone⟩ := mem_absentMembers.1 hmember
    obtain ⟨row, hrow, hname, -⟩ := hmatching hmember
    exact hnone row hrow hname
  have hsettled : after.rows.map (settle members doc.ownerKey later) = after.rows := by
    refine (List.map_congr_left fun row hrow ↦ ?_).trans (List.map_id _)
    by_cases howner : row.ownerKey = some doc.ownerKey
    · obtain ⟨member, hmember, hname⟩ := List.mem_map.1 (hcovered row hrow howner)
      obtain ⟨found, hfound, hfname, -, hmatches⟩ := hmatching hmember
      obtain rfl := Schedules.eq_of_name hrow hfound (hname.symm.trans hfname.symm)
      rw [settle_of_member hnames hmember hfname howner, if_pos hmatches]
      rfl
    · exact settle_of_foreign howner
  refine ⟨_, (applyScheduleSet_eq_ok_iff hresolve).2 ⟨?_, rfl, ?_⟩, ?_, ?_⟩
  · refine ⟨howned, ?_, ?_⟩
    · rw [habsent]
      exact List.nodup_nil
    · rw [habsent]
      exact fun member hmember ↦ absurd hmember List.not_mem_nil
  · rw [hsettled, newRows, habsent]
    exact (List.append_nil _).symm
  · intro member hmember
    obtain ⟨id, hunchanged⟩ := hplan member hmember
    exact ⟨id, mem_buildPlan.2 (.inl ⟨member, hmember, hunchanged⟩)⟩
  · intro entry hentry
    rcases mem_buildPlan.1 hentry with ⟨member, hmember, rfl⟩ | ⟨row, hrow, howner, hname, -⟩
    · obtain ⟨id, hunchanged⟩ := hplan member hmember
      exact ⟨member, id, hunchanged⟩
    · exact absurd (hcovered row hrow howner) hname

theorem reconciled_of_covers (hcovers : Covers doc table members) (hupToDate : UpToDate table members) :
    Reconciled env doc now members table after := by
  have hnames := nodup_qualifiedName hresolve
  constructor
  case declared =>
    intro member hmember
    rcases absent_or_named table member.qualifiedName with habsent | ⟨row, hrow, hname⟩
    · exact ⟨_, (mem_rows_iff hrows).2 (.inr ⟨member, hmember, habsent, rfl⟩), rfl, rfl, rfl, rfl⟩
    · have howner := haccepts.owned member hmember row hrow hname
      refine ⟨_, (mem_rows_iff hrows).2 (.inl ⟨row, hrow, rfl⟩), ?_⟩
      rw [settle_of_member hnames hmember hname howner]
      split
      · next hmatches => exact ⟨hname, howner, hmatches.1, hupToDate member hmember row hrow hname hmatches⟩
      · exact ⟨hname, howner, rfl, rfl⟩
  case kept =>
    intro row hrow
    exact ⟨_, (mem_rows_iff hrows).2 (.inl ⟨row, hrow, rfl⟩), (settle_keeps members doc.ownerKey now row).1⟩
  case disabled =>
    intro row hrow howner homitted
    rcases (mem_rows_iff hrows).1 hrow with ⟨old, hold, rfl⟩ | ⟨member, hmember, -, rfl⟩
    · obtain ⟨-, hname', howner'⟩ := settle_keeps members doc.ownerKey now old
      rw [hname'] at homitted
      exact absurd (hcovers old hold (howner'.symm.trans howner)) homitted
    · exact absurd (List.mem_map_of_mem hmember) homitted
  case confined =>
    rw [hrows, List.filter_append, List.filter_map]
    have hnone : (newRows table members doc.ownerKey newId now fresh).filter
        (fun row ↦ row.ownerKey ≠ some doc.ownerKey) = [] := by
      rw [List.filter_eq_nil_iff]
      intro row hrow
      obtain ⟨member, -, -, rfl⟩ := mem_newRows.1 hrow
      exact fun h ↦ of_decide_eq_true h rfl
    have hforeign : table.rows.filter ((fun row ↦ decide (row.ownerKey ≠ some doc.ownerKey)) ∘
        settle members doc.ownerKey now) = table.rows.filter fun row ↦ row.ownerKey ≠ some doc.ownerKey := by
      apply List.filter_congr
      intro row _
      rw [Function.comp_apply, (settle_keeps members doc.ownerKey now row).2.2]
    rw [hnone, List.append_nil, hforeign]
    refine (List.map_congr_left fun row hrow ↦ ?_).trans (List.map_id _)
    exact settle_of_foreign (of_decide_eq_true (List.mem_filter.1 hrow).2)
  case notBack =>
    intro row hrow row' hrow' hid
    rcases (mem_rows_iff hrows).1 hrow' with ⟨old, hold, rfl⟩ | ⟨member, hmember, habsent, rfl⟩
    · obtain rfl := Schedules.eq_of_id hold hrow ((settle_keeps members doc.ownerKey now old).1.symm.trans hid)
      unfold settle
      split
      · split
        · next member hfind =>
          split
          · exact .inl rfl
          · have hmember := List.mem_of_find?_eq_some hfind
            change (member.dbFields.rearmed now).or old.nextFireAt = _ ∨ _
            cases hrearmed : member.dbFields.rearmed now with
            | none => exact .inl rfl
            | some epoch =>
              right
              refine ⟨epoch, ?_, lt_of_rearmed hresolve hmember hrearmed⟩
              change epoch ∈ (member.dbFields.rearmed now).or old.nextFireAt
              rw [hrearmed]
              exact rfl
        · exact .inl rfl
      · exact .inl rfl
    · exact absurd hid.symm (haccepts.freshIds member (mem_absentMembers.2 ⟨hmember, habsent⟩) row hrow)
  case again => exact again_of_covers hresolve haccepts hrows hcovers

theorem upToDate_of_reconciled (h : Reconciled env doc now members table after) :
    UpToDate table members := by
  intro member hmember row hrow hname hmatches
  have howner := haccepts.owned member hmember row hrow hname
  have hsettled : settle members doc.ownerKey now row = row := by
    rw [settle_of_member (nodup_qualifiedName hresolve) hmember hname howner, if_pos hmatches]
  have hafter : row ∈ after.rows := (mem_rows_iff hrows).2 (.inl ⟨row, hrow, hsettled⟩)
  obtain ⟨found, hfound, hfname, -, -, hdefinition⟩ := h.declared member hmember
  rw [Schedules.eq_of_name hafter hfound (hname.trans hfname.symm)]
  exact hdefinition

end Applied

/-- An apply is as it should be exactly where, if it is accepted, the document leaves out no row of the set and
the rows that match their members have all their columns. -/
theorem appliesWell_iff (env : Environment T G J D) (doc : ScheduleSetDocument T G J)
    (newId : String → String) (fresh : E) (adopt : Bool) (now : ℚ) (table : Schedules T G J D E) :
    AppliesWell env doc newId fresh adopt now table ↔ ∀ members, resolveScheduleSet env doc = .ok members →
      Accepts table members doc.ownerKey newId → Covers doc table members ∧ UpToDate table members := by
  constructor
  · intro h members hresolve haccepts
    obtain ⟨after, happly⟩ := exists_applied fresh adopt now hresolve haccepts
    obtain ⟨-, -, hrows⟩ := (applyScheduleSet_eq_ok_iff hresolve).1 happly
    obtain ⟨members', hresolve', hreconciled⟩ := h.reconciles _ after happly
    cases hresolve.symm.trans hresolve'
    exact ⟨covers_of_reconciled hresolve hrows hreconciled,
      upToDate_of_reconciled hresolve haccepts hrows hreconciled⟩
  · intro h
    constructor
    case raises => exact fun e after happly ↦ eq_of_applyScheduleSet_error happly
    case reconciles =>
      intro plan after happly
      cases hresolve : resolveScheduleSet env doc with
      | error errors =>
        unfold applyScheduleSet at happly
        rw [hresolve] at happly
        cases happly
      | ok members =>
        obtain ⟨haccepts, -, hrows⟩ := (applyScheduleSet_eq_ok_iff hresolve).1 happly
        obtain ⟨hcovers, hupToDate⟩ := h members hresolve haccepts
        exact ⟨members, rfl, reconciled_of_covers hresolve haccepts hrows hcovers hupToDate⟩

end Reconciled

/-! ## Columns that stay behind -/

/-- Members that are written as they resolve, with the resolved member as its own digest. -/
def plainEnvironment : Environment (ResolvedTrigger Unit) (ResolvedTarget Unit) Unit (Resolved Unit) where
  resolveTrigger trigger := .ok trigger
  resolveTarget target := .ok target
  resolveCwd cwd _ := .ok (cwd.getD "/srv")
  digestOf resolved := resolved

def nightly (description : String) :
    ScheduleSetDocument (ResolvedTrigger Unit) (ResolvedTarget Unit) Unit where
  project := "demo"
  name := "automation"
  schedules := [("nightly", {
    description := some description
    trigger := .every 3600 "1h"
    target := .command "refresh-index" [] })]
  nodup := List.nodup_singleton _

/-- A new description of a member is not declared. -/
theorem not_appliesWell : ¬ AppliesWell plainEnvironment (nightly "hourly, from the archive") id () false 10
    (applyScheduleSet plainEnvironment id () (nightly "hourly") false 0 ⟨[], .nil, .nil⟩).2 := by
  intro h
  obtain ⟨members, hresolve, hreconciled⟩ := h.reconciles _ _ rfl
  cases hresolve
  obtain ⟨row, hrow, -, -, -, hdefinition⟩ := hreconciled.declared _ List.mem_cons_self
  cases List.mem_singleton.1 hrow
  exact absurd (congrArg Definition.description hdefinition) (by decide)

end Lionagi.Studio
