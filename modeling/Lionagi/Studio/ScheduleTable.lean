import Lionagi.Studio.ScheduleDeclaration

/-!
# Writes of the schedules

Updates by id act on every row by itself, and inserts append their rows where names and ids stay unique.
-/

namespace Lionagi.Studio

namespace Schedules

variable {T G J D E : Type} {table table' : Schedules T G J D E} {row row' : ScheduleRow T G J D E}
  {writes : List (String × RowWrite T G J D E)}

theorem eq_of_rows (h : table.rows = table'.rows) : table = table' := by
  cases table
  cases table'
  cases h
  rfl

theorem eq_of_id (h : row ∈ table.rows) (h' : row' ∈ table.rows) (hid : row.id = row'.id) : row = row' :=
  List.inj_on_of_nodup_map table.ids h h' hid

theorem eq_of_name (h : row ∈ table.rows) (h' : row' ∈ table.rows) (hname : row.name = row'.name) :
    row = row' :=
  List.inj_on_of_nodup_map table.names h h' hname

theorem getScheduleByName_eq_some_iff {name : String} :
    table.getScheduleByName name = some row ↔ row ∈ table.rows ∧ row.name = name := by
  unfold getScheduleByName
  constructor
  · intro h
    have hname := List.find?_some h
    exact ⟨List.mem_of_find?_eq_some h, of_decide_eq_true hname⟩
  · rintro ⟨hrow, hname⟩
    cases hfind : table.rows.find? fun row ↦ row.name = name with
    | none => exact absurd (decide_eq_true hname) (List.find?_eq_none.1 hfind row hrow)
    | some found =>
      have hfound := List.find?_some hfind
      rw [eq_of_name (List.mem_of_find?_eq_some hfind) hrow ((of_decide_eq_true hfound).trans hname.symm)]

theorem getScheduleByName_eq_none_iff {name : String} :
    table.getScheduleByName name = none ↔ ∀ row ∈ table.rows, row.name ≠ name := by
  unfold getScheduleByName
  rw [List.find?_eq_none]
  apply forall₂_congr
  intro row _
  rw [decide_eq_true_iff]

/-! ## Updates -/

/-- A row after the updates with its id. -/
def writeRow (writes : List (String × RowWrite T G J D E)) (row : ScheduleRow T G J D E) :
    ScheduleRow T G J D E :=
  writes.foldl (fun row write ↦ if row.id = write.1 then write.2.write row else row) row

theorem rows_foldl_update (writes : List (String × RowWrite T G J D E)) (table : Schedules T G J D E) :
    (writes.foldl (fun table write ↦ table.update write.1 write.2) table).rows =
      table.rows.map (writeRow writes) := by
  induction writes generalizing table with
  | nil => exact (List.map_id table.rows).symm
  | cons write writes ih =>
    rw [List.foldl_cons, ih]
    change (table.rows.map _).map _ = _
    rw [List.map_map]
    rfl

theorem writeRow_of_absent (h : ∀ write ∈ writes, write.1 ≠ row.id) : writeRow writes row = row := by
  induction writes with
  | nil => rfl
  | cons write writes ih =>
    have hhead : row.id ≠ write.1 := (h write List.mem_cons_self).symm
    rw [writeRow, List.foldl_cons, if_neg hhead]
    exact ih fun later hlater ↦ h later (List.mem_cons_of_mem write hlater)

/-- The updates of a row are all one update, which has nothing to do twice. -/
theorem writeRow_of_same {write : RowWrite T G J D E}
    (hidem : ∀ row, write.write (write.write row) = write.write row)
    (hsame : ∀ entry ∈ writes, entry.1 = row.id → entry.2 = write)
    (hmem : ∃ entry ∈ writes, entry.1 = row.id) : writeRow writes row = write.write row := by
  -- Once the row is written, the rest of the updates leaves it.
  have hrest : ∀ writes : List (String × RowWrite T G J D E),
      (∀ entry ∈ writes, entry.1 = row.id → entry.2 = write) →
        writeRow writes (write.write row) = write.write row := by
    intro writes
    induction writes with
    | nil => exact fun _ ↦ rfl
    | cons entry writes ih =>
      intro hsame
      have htail := ih fun later hlater ↦ hsame later (List.mem_cons_of_mem entry hlater)
      rw [writeRow, List.foldl_cons]
      split
      · next hid =>
        rw [write.id_write] at hid
        rw [hsame entry List.mem_cons_self hid.symm, hidem]
        exact htail
      · exact htail
  induction writes with
  | nil =>
    obtain ⟨entry, hentry, -⟩ := hmem
    exact absurd hentry List.not_mem_nil
  | cons entry writes ih =>
    have htail : ∀ later ∈ writes, later.1 = row.id → later.2 = write :=
      fun later hlater ↦ hsame later (List.mem_cons_of_mem entry hlater)
    rw [writeRow, List.foldl_cons]
    split
    · next hid =>
      rw [hsame entry List.mem_cons_self hid.symm]
      exact hrest writes htail
    · next hid =>
      apply ih htail
      obtain ⟨found, hfound, hfid⟩ := hmem
      rcases List.mem_cons.1 hfound with rfl | hlater
      · exact absurd hfid.symm hid
      · exact ⟨found, hlater, hfid⟩

/-! ## Inserts -/

theorem insert_eq_some_iff : table.insert row = some table' ↔ table'.rows = table.rows ++ [row] := by
  unfold insert
  constructor
  · split
    · rintro ⟨⟩
      rfl
    · intro h
      cases h
  · intro h
    have hnames := table'.names
    have hids := table'.ids
    rw [h, List.map_append] at hnames hids
    have hname : row.name ∉ table.rows.map (·.name) :=
      fun hmem ↦ (List.disjoint_of_nodup_append hnames) hmem List.mem_cons_self
    have hid : row.id ∉ table.rows.map (·.id) :=
      fun hmem ↦ (List.disjoint_of_nodup_append hids) hmem List.mem_cons_self
    rw [dif_pos ⟨hname, hid⟩]
    exact congrArg some (eq_of_rows h.symm)

variable {creates : List (ScheduleRow T G J D E)}

theorem foldlM_insert_eq_some_iff :
    creates.foldlM insert table = some table' ↔ table'.rows = table.rows ++ creates := by
  induction creates generalizing table with
  | nil =>
    rw [List.foldlM_nil, List.append_nil]
    constructor
    · rintro ⟨⟩
      rfl
    · exact fun h ↦ congrArg some (eq_of_rows h.symm)
  | cons row creates ih =>
    rw [List.foldlM_cons, Option.bind_eq_bind, Option.bind_eq_some_iff]
    constructor
    · rintro ⟨inserted, hinsert, hrest⟩
      rw [ih.1 hrest, insert_eq_some_iff.1 hinsert, List.append_assoc]
      rfl
    · intro h
      have hsplit : table.rows ++ row :: creates = (table.rows ++ [row]) ++ creates := by
        rw [List.append_assoc]
        rfl
      rw [hsplit] at h
      have hnames := table'.names
      have hids := table'.ids
      rw [h, List.map_append] at hnames hids
      refine ⟨⟨table.rows ++ [row], ?_, ?_⟩, insert_eq_some_iff.2 rfl, ih.2 h⟩
      · exact (List.nodup_append.1 hnames).1
      · exact (List.nodup_append.1 hids).1

/-- A transaction commits where its rows can be inserted, and then makes its updates. -/
theorem applyScheduleSet_eq_some_iff {updates : List (String × RowWrite T G J D E)} {disables : List String} {now : ℚ} :
    table.applyScheduleSet creates updates disables now = some table' ↔
      ∃ created : Schedules T G J D E, created.rows = table.rows ++ creates ∧
        table'.rows = created.rows.map (writeRow (updates ++ disables.map (·, disableWrite now))) := by
  unfold applyScheduleSet
  rw [Option.map_eq_some_iff]
  apply exists_congr
  intro created
  rw [foldlM_insert_eq_some_iff]
  apply and_congr_right
  intro _
  have hfold : disables.foldl (fun table id ↦ table.update id (disableWrite now))
      (updates.foldl (fun table write ↦ table.update write.1 write.2) created) =
        (updates ++ disables.map (·, disableWrite now)).foldl
          (fun (table : Schedules T G J D E) (write : String × RowWrite T G J D E) ↦
            table.update write.1 write.2) created := by
    rw [List.foldl_append, List.foldl_map]
  rw [hfold, ← rows_foldl_update]
  exact ⟨fun h ↦ congrArg rows h.symm, fun h ↦ eq_of_rows h.symm⟩

end Schedules

end Lionagi.Studio
