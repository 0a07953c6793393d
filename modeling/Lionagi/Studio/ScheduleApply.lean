import Mathlib.Algebra.Order.Ring.Rat
import Lionagi.Library.Checks
import Lionagi.Studio.ScheduleTable

/-!
# What applying a schedule set leaves

An apply that is accepted settles every row by itself: a row of the set is declared again, or disabled when the
document leaves it out, and every other row stays. The digest and the enabled flag decide whether a row is
declared again, so the columns that they do not cover may stay behind.
-/

namespace Lionagi.Studio

variable {T G J D E : Type}

/-! ## Resolution -/

section Resolution

variable {env : Environment T G J D} {doc : ScheduleSetDocument T G J}
  {members : List (ResolvedMember T G J D)}

theorem qualify_injective (isGlobal : Bool) (project : String) :
    Function.Injective (qualify isGlobal project) :=
  fun _ _ h ↦ (String.append_right_inj _).1 h

/-- A resolved member has its qualified name and the fields of its resolved trigger and target. -/
theorem resolveMember_eq_ok {name : String} {member : ScheduleMember T G J} {project : String}
    {isGlobal : Bool} {resolved : ResolvedMember T G J D}
    (h : resolveMember env name member project isGlobal = .ok resolved) :
    resolved.qualifiedName = qualify isGlobal project name ∧
      resolved.dbFields = toDbFields resolved.resolved.trigger resolved.resolved.target member
        resolved.resolved.cwd resolved.resolved.project := by
  obtain ⟨trigger, -, h⟩ := Checks.bind_eq_ok_iff.1 h
  obtain ⟨target, -, h⟩ := Checks.bind_eq_ok_iff.1 h
  obtain ⟨cwd, -, h⟩ := Checks.bind_eq_ok_iff.1 h
  cases h
  exact ⟨rfl, rfl⟩

/-- The members of a document keep its names. -/
theorem map_qualifiedName (h : resolveScheduleSet env doc = .ok members) :
    members.map (·.qualifiedName) = doc.schedules.map fun schedule ↦
      qualify doc.isGlobal doc.project schedule.1 := by
  unfold resolveScheduleSet at h
  simp only [List.isEmpty_iff] at h
  split at h
  · next hnone =>
    cases h
    generalize doc.schedules = schedules at hnone ⊢
    induction schedules with
    | nil => rfl
    | cons schedule schedules ih =>
      rw [List.map_cons, List.filterMap_cons] at hnone
      cases hresolve : resolveMember env schedule.1 schedule.2 doc.project doc.isGlobal with
      | error message =>
        rw [hresolve] at hnone
        cases hnone
      | ok resolved =>
        rw [hresolve] at hnone
        rw [List.map_cons, List.map_cons, List.filterMap_cons, hresolve]
        exact congrArg₂ List.cons (resolveMember_eq_ok hresolve).1 (ih hnone)
  · cases h

theorem nodup_qualifiedName (h : resolveScheduleSet env doc = .ok members) :
    (members.map (·.qualifiedName)).Nodup := by
  rw [map_qualifiedName h]
  have hnames := doc.nodup.map (qualify_injective doc.isGlobal doc.project)
  rw [List.map_map] at hnames
  exact hnames

end Resolution

/-! ## Plans -/

section Plans

variable [DecidableEq D] {table : Schedules T G J D E} {ownerKey : String} {adopt : Bool}
  {member : ResolvedMember T G J D} {row : ScheduleRow T G J D E}

theorem planMember_of_absent (h : ∀ row ∈ table.rows, row.name ≠ member.qualifiedName) :
    planMember table ownerKey adopt member = .create member := by
  unfold planMember
  rw [Schedules.getScheduleByName_eq_none_iff.2 h]

theorem planMember_of_owned (hrow : row ∈ table.rows) (hname : row.name = member.qualifiedName)
    (howner : row.ownerKey = some ownerKey) : planMember table ownerKey adopt member =
      if Matches row member then .unchanged member row.id else .update member row.id := by
  unfold planMember
  rw [Schedules.getScheduleByName_eq_some_iff.2 ⟨hrow, hname⟩]
  simp only
  rw [if_neg (not_not_intro howner)]

theorem planMember_of_foreign (hrow : row ∈ table.rows) (hname : row.name = member.qualifiedName)
    (howner : row.ownerKey ≠ some ownerKey) :
    ∃ detail, planMember table ownerKey adopt member = .error member.qualifiedName detail := by
  unfold planMember
  rw [Schedules.getScheduleByName_eq_some_iff.2 ⟨hrow, hname⟩]
  simp only
  rw [if_pos howner]
  exact ⟨_, rfl⟩

end Plans

/-! ## Writes of a plan -/

section Writes

variable (table : Schedules T G J D E) (members : List (ResolvedMember T G J D)) (ownerKey : String)

/-- The row of a schedule after an apply. -/
def settle [DecidableEq D] (now : ℚ) (row : ScheduleRow T G J D E) : ScheduleRow T G J D E :=
  if row.ownerKey = some ownerKey then
    match members.find? fun member ↦ member.qualifiedName = row.name with
    | some member => if Matches row member then row else (declareWrite now member).write row
    | none => (disableWrite now).write row
  else row

/-- The members that have no row. -/
def absentMembers : List (ResolvedMember T G J D) :=
  members.filter fun member ↦ (table.getScheduleByName member.qualifiedName).isNone

/-- The rows under the names of the members are rows of the set. -/
def Owned : Prop :=
  ∀ member ∈ members, ∀ row ∈ table.rows, row.name = member.qualifiedName → row.ownerKey = some ownerKey

/-- The rows under the names of the members are rows of the set, and the ids of new rows are new. -/
structure Accepts (newId : String → String) : Prop where
  owned : Owned table members ownerKey
  newIds : ((absentMembers table members).map fun member ↦ newId member.qualifiedName).Nodup
  freshIds : ∀ member ∈ absentMembers table members, ∀ row ∈ table.rows, row.id ≠ newId member.qualifiedName

variable {table members ownerKey} {adopt : Bool} {now : ℚ} {newId : String → String} {fresh : E}
  {member : ResolvedMember T G J D} {row : ScheduleRow T G J D E}

theorem mem_absentMembers : member ∈ absentMembers table members ↔
    member ∈ members ∧ ∀ row ∈ table.rows, row.name ≠ member.qualifiedName := by
  unfold absentMembers
  rw [List.mem_filter, Option.isNone_iff_eq_none, Schedules.getScheduleByName_eq_none_iff]

theorem absent_or_named (table : Schedules T G J D E) (name : String) :
    (∀ row ∈ table.rows, row.name ≠ name) ∨ ∃ row ∈ table.rows, row.name = name := by
  by_cases h : ∃ row ∈ table.rows, row.name = name
  · exact .inr h
  · exact .inl fun row hrow hname ↦ h ⟨row, hrow, hname⟩

theorem declareWrite_idem (member : ResolvedMember T G J D) (row : ScheduleRow T G J D E) :
    (declareWrite now member).write ((declareWrite now member).write row) =
      (declareWrite now member).write row := by
  unfold declareWrite
  cases member.dbFields.rearmed now <;> rfl

theorem find?_member (hnames : (members.map (·.qualifiedName)).Nodup) (hmember : member ∈ members)
    {name : String} (hname : member.qualifiedName = name) :
    members.find? (fun member ↦ member.qualifiedName = name) = some member := by
  cases hfind : members.find? fun member ↦ member.qualifiedName = name with
  | none => exact absurd (decide_eq_true hname) (List.find?_eq_none.1 hfind member hmember)
  | some found =>
    have hfound := List.find?_some hfind
    have hsame := (of_decide_eq_true hfound).trans hname.symm
    rw [List.inj_on_of_nodup_map hnames (List.mem_of_find?_eq_some hfind) hmember hsame]

theorem find?_member_eq_none {name : String} :
    members.find? (fun member ↦ member.qualifiedName = name) = none ↔
      name ∉ members.map (·.qualifiedName) := by
  rw [List.find?_eq_none, List.mem_map, not_exists]
  apply forall_congr'
  intro member
  rw [not_and, decide_eq_true_iff]

/-- The rows that an apply adds. -/
def newRows (table : Schedules T G J D E) (members : List (ResolvedMember T G J D)) (ownerKey : String)
    (newId : String → String) (now : ℚ) (fresh : E) : List (ScheduleRow T G J D E) :=
  (absentMembers table members).map fun member ↦
    createdRow ownerKey (newId member.qualifiedName) now fresh member

theorem mem_newRows : row ∈ newRows table members ownerKey newId now fresh ↔
    ∃ member ∈ members, (∀ row ∈ table.rows, row.name ≠ member.qualifiedName) ∧
      createdRow ownerKey (newId member.qualifiedName) now fresh member = row := by
  unfold newRows
  simp only [List.mem_map, mem_absentMembers, and_assoc]

/-- The new rows can be inserted where their ids are new. -/
theorem exists_rows_iff (hnames : (members.map (·.qualifiedName)).Nodup)
    (howned : Owned table members ownerKey) :
    (∃ created : Schedules T G J D E,
      created.rows = table.rows ++ newRows table members ownerKey newId now fresh) ↔
        Accepts table members ownerKey newId := by
  have hmapId : (newRows table members ownerKey newId now fresh).map (·.id) =
      (absentMembers table members).map fun member ↦ newId member.qualifiedName := by
    unfold newRows
    rw [List.map_map]
    rfl
  constructor
  · rintro ⟨created, hcreated⟩
    have hids := created.ids
    rw [hcreated, List.map_append, hmapId] at hids
    constructor
    case owned => exact howned
    case newIds => exact (List.nodup_append.1 hids).2.1
    case freshIds =>
      intro member hmember row hrow heq
      have hnew : newId member.qualifiedName ∈ (absentMembers table members).map fun member ↦
          newId member.qualifiedName := List.mem_map.2 ⟨member, hmember, rfl⟩
      exact List.disjoint_of_nodup_append hids (List.mem_map_of_mem hrow) (heq ▸ hnew)
  · intro haccepts
    refine ⟨⟨_, ?_, ?_⟩, rfl⟩
    · rw [List.map_append]
      apply table.names.append
      · unfold newRows
        rw [List.map_map]
        exact hnames.sublist (List.filter_sublist.map _)
      · intro name hold hnew
        obtain ⟨row, hrow, rfl⟩ := List.mem_map.1 hold
        obtain ⟨new, hmem, heq⟩ := List.mem_map.1 hnew
        obtain ⟨member, -, habsent, rfl⟩ := mem_newRows.1 hmem
        exact habsent row hrow heq.symm
    · rw [List.map_append, hmapId]
      apply table.ids.append haccepts.newIds
      intro id hold hnew
      obtain ⟨row, hrow, rfl⟩ := List.mem_map.1 hold
      obtain ⟨member, hmember, heq⟩ := List.mem_map.1 hnew
      exact haccepts.freshIds member hmember row hrow heq.symm

variable [DecidableEq D]

theorem mem_buildPlan {entry : PlanEntry T G J D} : entry ∈ buildPlan table ownerKey adopt members ↔
    (∃ member ∈ members, planMember table ownerKey adopt member = entry) ∨
      ∃ row ∈ table.rows, row.ownerKey = some ownerKey ∧ row.name ∉ members.map (·.qualifiedName) ∧
        PlanEntry.disable row.name row.id = entry := by
  unfold buildPlan Schedules.listSchedulesByOwnerKey
  simp only [List.mem_append, List.mem_map, List.mem_filter, decide_eq_true_eq, and_assoc]

theorem owned_iff_toError : Owned table members ownerKey ↔
    (buildPlan table ownerKey adopt members).filterMap PlanEntry.toError = [] := by
  rw [List.filterMap_eq_nil_iff]
  constructor
  · intro howned entry hentry
    rcases mem_buildPlan.1 hentry with ⟨member, hmember, rfl⟩ | ⟨row, -, -, -, rfl⟩
    · rcases absent_or_named table member.qualifiedName with habsent | ⟨row, hrow, hname⟩
      · rw [planMember_of_absent habsent]
        rfl
      · rw [planMember_of_owned hrow hname (howned member hmember row hrow hname)]
        split <;> rfl
    · rfl
  · intro h member hmember row hrow hname
    by_contra hforeign
    obtain ⟨detail, hplan⟩ : ∃ detail, planMember table ownerKey adopt member =
        .error member.qualifiedName detail := planMember_of_foreign hrow hname hforeign
    have herror := h _ (mem_buildPlan.2 (.inl ⟨member, hmember, hplan⟩))
    cases herror

theorem filterMap_toCreate (howned : Owned table members ownerKey) :
    (buildPlan table ownerKey adopt members).filterMap (PlanEntry.toCreate ownerKey newId now fresh) =
      newRows table members ownerKey newId now fresh := by
  unfold buildPlan newRows absentMembers
  have hdisable : ∀ rows : List (ScheduleRow T G J D E),
      rows.filterMap (PlanEntry.toCreate ownerKey newId now fresh ∘ fun row : ScheduleRow T G J D E ↦
        (PlanEntry.disable row.name row.id : PlanEntry T G J D)) = [] :=
    fun rows ↦ List.filterMap_eq_nil_iff.2 fun _ _ ↦ rfl
  rw [List.filterMap_append, List.filterMap_map, List.filterMap_map, hdisable, List.append_nil,
    ← List.filterMap_eq_map, List.filterMap_filter]
  apply List.filterMap_congr
  intro member hmember
  rw [Function.comp_apply]
  rcases absent_or_named table member.qualifiedName with habsent | ⟨row, hrow, hname⟩
  · rw [planMember_of_absent habsent, Schedules.getScheduleByName_eq_none_iff.2 habsent]
    rfl
  · rw [planMember_of_owned hrow hname (howned member hmember row hrow hname),
      Schedules.getScheduleByName_eq_some_iff.2 ⟨hrow, hname⟩]
    split <;> rfl

variable {entry : String × RowWrite T G J D E}

theorem mem_filterMap_toUpdate (howned : Owned table members ownerKey) :
    entry ∈ (buildPlan table ownerKey adopt members).filterMap (PlanEntry.toUpdate now) ↔
      ∃ member ∈ members, ∃ row ∈ table.rows, row.name = member.qualifiedName ∧ ¬ Matches row member ∧
        entry = (row.id, declareWrite now member) := by
  rw [List.mem_filterMap]
  constructor
  · rintro ⟨planned, hplanned, hentry⟩
    rcases mem_buildPlan.1 hplanned with ⟨member, hmember, rfl⟩ | ⟨row, -, -, -, rfl⟩
    · rcases absent_or_named table member.qualifiedName with habsent | ⟨row, hrow, hname⟩
      · rw [planMember_of_absent habsent] at hentry
        cases hentry
      · rw [planMember_of_owned hrow hname (howned member hmember row hrow hname)] at hentry
        split at hentry
        · cases hentry
        · next hdiffers =>
          cases hentry
          exact ⟨member, hmember, row, hrow, hname, hdiffers, rfl⟩
    · cases hentry
  · rintro ⟨member, hmember, row, hrow, hname, hdiffers, rfl⟩
    refine ⟨_, mem_buildPlan.2 (.inl ⟨member, hmember, rfl⟩), ?_⟩
    rw [planMember_of_owned hrow hname (howned member hmember row hrow hname), if_neg hdiffers]
    rfl

theorem mem_filterMap_toDisable (howned : Owned table members ownerKey) {id : String} :
    id ∈ (buildPlan table ownerKey adopt members).filterMap PlanEntry.toDisable ↔
      ∃ row ∈ table.rows, row.ownerKey = some ownerKey ∧ row.name ∉ members.map (·.qualifiedName) ∧
        row.id = id := by
  rw [List.mem_filterMap]
  constructor
  · rintro ⟨planned, hplanned, hentry⟩
    rcases mem_buildPlan.1 hplanned with ⟨member, hmember, rfl⟩ | ⟨row, hrow, howner, hname, rfl⟩
    · rcases absent_or_named table member.qualifiedName with habsent | ⟨row, hrow, hname⟩
      · rw [planMember_of_absent habsent] at hentry
        cases hentry
      · rw [planMember_of_owned hrow hname (howned member hmember row hrow hname)] at hentry
        split at hentry <;> cases hentry
    · cases hentry
      exact ⟨row, hrow, howner, hname, rfl⟩
  · rintro ⟨row, hrow, howner, hname, rfl⟩
    exact ⟨_, mem_buildPlan.2 (.inr ⟨row, hrow, howner, hname, rfl⟩), rfl⟩

/-- The writes of the plan, by the id of their row. -/
def planWrites (table : Schedules T G J D E) (members : List (ResolvedMember T G J D)) (ownerKey : String)
    (adopt : Bool) (now : ℚ) : List (String × RowWrite T G J D E) :=
  (buildPlan table ownerKey adopt members).filterMap (PlanEntry.toUpdate now) ++
    ((buildPlan table ownerKey adopt members).filterMap PlanEntry.toDisable).map (·, disableWrite now)

theorem mem_planWrites (howned : Owned table members ownerKey) :
    entry ∈ planWrites table members ownerKey adopt now ↔
      (∃ member ∈ members, ∃ row ∈ table.rows, row.name = member.qualifiedName ∧ ¬ Matches row member ∧
        entry = (row.id, declareWrite now member)) ∨
      ∃ row ∈ table.rows, row.ownerKey = some ownerKey ∧ row.name ∉ members.map (·.qualifiedName) ∧
        entry = (row.id, disableWrite now) := by
  unfold planWrites
  rw [List.mem_append, mem_filterMap_toUpdate howned, List.mem_map]
  apply or_congr_right
  constructor
  · rintro ⟨id, hid, rfl⟩
    obtain ⟨row, hrow, howner, hname, rfl⟩ := (mem_filterMap_toDisable howned).1 hid
    exact ⟨row, hrow, howner, hname, rfl⟩
  · rintro ⟨row, hrow, howner, hname, rfl⟩
    exact ⟨row.id, (mem_filterMap_toDisable howned).2 ⟨row, hrow, howner, hname, rfl⟩, rfl⟩

/-- The writes of a plan settle a row of the schedules. -/
theorem writeRow_eq_settle (hnames : (members.map (·.qualifiedName)).Nodup)
    (howned : Owned table members ownerKey) (hrow : row ∈ table.rows) :
    Schedules.writeRow (planWrites table members ownerKey adopt now) row =
      settle members ownerKey now row := by
  unfold settle
  -- A write of the row is a write for its name.
  have hwrites : ∀ entry ∈ planWrites table members ownerKey adopt now, entry.1 = row.id →
      (∃ member ∈ members, row.name = member.qualifiedName ∧ ¬ Matches row member ∧
        entry.2 = declareWrite now member) ∨
      row.ownerKey = some ownerKey ∧ row.name ∉ members.map (·.qualifiedName) ∧
        entry.2 = disableWrite now := by
    intro entry hentry hid
    rcases (mem_planWrites howned).1 hentry with
      ⟨member, hmember, other, hother, hname, hdiffers, rfl⟩ | ⟨other, hother, howner, hname, rfl⟩
    · obtain rfl := Schedules.eq_of_id hother hrow hid
      exact .inl ⟨member, hmember, hname, hdiffers, rfl⟩
    · obtain rfl := Schedules.eq_of_id hother hrow hid
      exact .inr ⟨howner, hname, rfl⟩
  split
  · next howner =>
    split
    · next member hfind =>
      have hmember := List.mem_of_find?_eq_some hfind
      have hfound := List.find?_some hfind
      have hname := (of_decide_eq_true hfound).symm
      have hnamed : row.name ∈ members.map (·.qualifiedName) := hname ▸ List.mem_map_of_mem hmember
      have hunique : ∀ other ∈ members, row.name = other.qualifiedName → other = member :=
        fun other hother hsame ↦ List.inj_on_of_nodup_map hnames hother hmember (hsame.symm.trans hname)
      split
      · next hmatches =>
        apply Schedules.writeRow_of_absent
        intro entry hentry hid
        rcases hwrites entry hentry hid with ⟨other, hother, hsame, hdiffers, -⟩ | ⟨-, hunnamed, -⟩
        · exact hdiffers (hunique other hother hsame ▸ hmatches)
        · exact hunnamed hnamed
      · next hdiffers =>
        apply Schedules.writeRow_of_same (declareWrite_idem member)
        · intro entry hentry hid
          rcases hwrites entry hentry hid with ⟨other, hother, hsame, -, hwrite⟩ | ⟨-, hunnamed, -⟩
          · rw [hwrite, hunique other hother hsame]
          · exact absurd hnamed hunnamed
        · exact ⟨_, (mem_planWrites howned).2 (.inl ⟨member, hmember, row, hrow, hname, hdiffers, rfl⟩), rfl⟩
    · next hfind =>
      have hunnamed := find?_member_eq_none.1 hfind
      apply Schedules.writeRow_of_same (fun _ ↦ rfl)
      · intro entry hentry hid
        rcases hwrites entry hentry hid with ⟨other, hother, hsame, -, -⟩ | ⟨-, -, hwrite⟩
        · exact absurd (hsame ▸ List.mem_map_of_mem hother) hunnamed
        · exact hwrite
      · exact ⟨_, (mem_planWrites howned).2 (.inr ⟨row, hrow, howner, hunnamed, rfl⟩), rfl⟩
  · next hforeign =>
    apply Schedules.writeRow_of_absent
    intro entry hentry hid
    rcases hwrites entry hentry hid with ⟨member, hmember, hname, -, -⟩ | ⟨howner, -, -⟩
    · exact hforeign (howned member hmember row hrow hname)
    · exact hforeign howner

/-- The writes of a plan settle the rows that were there, and pass the new rows. -/
theorem map_writeRow (hnames : (members.map (·.qualifiedName)).Nodup)
    (howned : Owned table members ownerKey) {created : Schedules T G J D E}
    (hcreated : created.rows = table.rows ++ newRows table members ownerKey newId now fresh) :
    created.rows.map (Schedules.writeRow (planWrites table members ownerKey adopt now)) =
      table.rows.map (settle members ownerKey now) ++
        newRows table members ownerKey newId now fresh := by
  rw [hcreated, List.map_append]
  apply congrArg₂
  · exact List.map_congr_left fun row hrow ↦ writeRow_eq_settle hnames howned hrow
  · refine (List.map_congr_left fun row hrow ↦ ?_).trans (List.map_id _)
    apply Schedules.writeRow_of_absent
    intro entry hentry hid
    have hids := created.ids
    rw [hcreated, List.map_append] at hids
    have hother : ∃ other ∈ table.rows, other.id = entry.1 := by
      rcases (mem_planWrites howned).1 hentry with
        ⟨-, -, other, hother, -, -, rfl⟩ | ⟨other, hother, -, -, rfl⟩
      · exact ⟨other, hother, rfl⟩
      · exact ⟨other, hother, rfl⟩
    obtain ⟨other, hmem, heq⟩ := hother
    exact List.disjoint_of_nodup_append hids (List.mem_map_of_mem hmem)
      ((heq.trans hid) ▸ List.mem_map_of_mem hrow)

variable {env : Environment T G J D} {doc : ScheduleSetDocument T G J}

/-- An apply succeeds where it is accepted, settles the rows and adds those of the members that had none. -/
theorem applyScheduleSet_eq_ok_iff (hresolve : resolveScheduleSet env doc = .ok members)
    {plan : List (PlanEntry T G J D)} {after : Schedules T G J D E} :
    applyScheduleSet env newId fresh doc adopt now table = (.ok plan, after) ↔
      Accepts table members doc.ownerKey newId ∧ plan = buildPlan table doc.ownerKey adopt members ∧
        after.rows = table.rows.map (settle members doc.ownerKey now) ++
          newRows table members doc.ownerKey newId now fresh := by
  have hnames := nodup_qualifiedName hresolve
  unfold applyScheduleSet
  rw [hresolve]
  simp only [List.isEmpty_iff]
  by_cases howned : Owned table members doc.ownerKey
  · rw [if_pos (owned_iff_toError.1 howned), filterMap_toCreate howned]
    constructor
    · intro h
      split at h
      · next applied happlied =>
        cases h
        obtain ⟨created, hcreated, hrows⟩ := Schedules.applyScheduleSet_eq_some_iff.1 happlied
        have haccepts := (exists_rows_iff hnames howned).1 ⟨created, hcreated⟩
        exact ⟨haccepts, rfl, hrows.trans (map_writeRow hnames howned hcreated)⟩
      · cases h
    · rintro ⟨haccepts, rfl, hrows⟩
      obtain ⟨created, hcreated⟩ := (exists_rows_iff hnames howned).2 haccepts
      rw [Schedules.applyScheduleSet_eq_some_iff.2
        ⟨created, hcreated, hrows.trans (map_writeRow hnames howned hcreated).symm⟩]
  · have herrors : (buildPlan table doc.ownerKey adopt members).filterMap PlanEntry.toError ≠ [] :=
      fun hnil ↦ howned (owned_iff_toError.2 hnil)
    rw [if_neg herrors]
    constructor
    · intro h
      cases h
    · exact fun h ↦ absurd h.1.owned howned

/-- What is accepted is applied. -/
theorem exists_applied (fresh : E) (adopt : Bool) (now : ℚ) (hresolve : resolveScheduleSet env doc = .ok members)
    (haccepts : Accepts table members doc.ownerKey newId) :
    ∃ after, applyScheduleSet env newId fresh doc adopt now table =
      (.ok (buildPlan table doc.ownerKey adopt members), after) := by
  have hnames := nodup_qualifiedName hresolve
  obtain ⟨created, hcreated⟩ := (exists_rows_iff hnames haccepts.owned).2 haccepts
  refine ⟨(planWrites table members doc.ownerKey adopt now).foldl
    (fun table write ↦ table.update write.1 write.2) created,
      (applyScheduleSet_eq_ok_iff hresolve).2 ⟨haccepts, rfl, ?_⟩⟩
  rw [Schedules.rows_foldl_update]
  exact map_writeRow hnames haccepts.owned hcreated

end Writes

end Lionagi.Studio
