import Lionagi.Library.OrderedDict
import Lionagi.Library.PyText
import Lionagi.Library.Transition
import Mathlib.Data.List.Infix

/-!
# The data logger

Log entries are collected in a pile and dumped to files. A dump reads the store first and writes what it has read
afterwards: other tasks run while `adump` writes, other threads while `dump` does. The entries are those that
`Log.create` and the redaction have made; what can fail is a parameter or an outcome that the environment gives.
-/

namespace Lionagi.Protocols

structure DataLoggerConfig where
  capacity : Option ℕ
  clearAfterDump : Bool

inductive LogFormat where
  | csv | json
  deriving DecidableEq

/-- The format for a suffix in lower case. -/
def LogFormat.ofSuffix (suffix : Text) : Option LogFormat :=
  if suffix = ".csv".toList then some .csv
  else if suffix = ".json".toList ∨ suffix = ".jsonl".toList then some .json
  else none

/-- `to_dict(mode="json")` of an entry, and the text of the records. Errors are their texts. -/
structure LogSerializer (I C R : Type) where
  toDict : I × C → Except Text R
  serialize : LogFormat → List R → Except Text Text

variable {I C R : Type}

/-- `_serialize_records(self._ordered_records(), obj_key)` -/
def LogSerializer.render (ser : LogSerializer I C R) (format : LogFormat) (entries : List (I × C)) :
    Except Text Text :=
  match entries.mapM ser.toDict with
  | .ok records => ser.serialize format records
  | .error e => .error e

/-- A file as a dump has written it: it holds the entries in full. -/
structure LogFile (ser : LogSerializer I C R) where
  format : LogFormat
  entries : List (I × C)
  text : Text
  full : ser.render format entries = .ok text

/-- A dump that has read the store and has not ended. -/
structure LogDump (I C : Type) where
  isAsync : Bool
  clear : Option Bool
  format : LogFormat
  snapshot : OrderedDict I C
  /-- The entry that `log` includes after its dump. -/
  entry : Option (I × C)

structure DataLogger (ser : LogSerializer I C R) where
  logs : OrderedDict I C
  dumps : List (LogDump I C)
  /-- One for each write that succeeded. -/
  files : List (LogFile ser)

/-- Calls of the logger, and the ends of dumps. `suffix` is that of the path, `none` where making the path raises;
`write` is the error of the write, if there is one. -/
inductive LoggerCall (I C : Type) where
  | log (entry : I × C) (suffix : Option Text)
  | alog (entry : I × C) (suffix : Option Text) (write : Option Text)
  | dump (clear : Option Bool) (suffix : Option Text)
  | adump (clear : Option Bool) (suffix : Option Text)
  | finish (i : ℕ) (write : Option Text)

namespace LogDump

variable (ser : LogSerializer I C R) (d : LogDump I C)

/-- The file, or the error of the serialization or the write. -/
def result (write : Option Text) : Except Text (LogFile ser) :=
  match h : ser.render d.format d.snapshot.entries with
  | .error e => .error e
  | .ok text => match write with
    | some e => .error e
    | none => .ok ⟨d.format, d.snapshot.entries, text, h⟩

/-- `self._config.clear_after_dump if clear is None else clear` -/
def clears (config : DataLoggerConfig) : Bool := d.clear.getD config.clearAfterDump

/-- The error branch of `dump` that clears the store. `adump` has none. -/
def discards (e : Text) : Bool :=
  !d.isAsync && decide ("JSON serializable".toList <:+: e) && d.clear != some false

variable {ser} {d} {write : Option Text} {file : LogFile ser}

theorem result_of_render {text : Text} (h : ser.render d.format d.snapshot.entries = .error text)
    (write : Option Text) : d.result ser write = .error text := by
  unfold result
  split
  · next h' =>
    cases h'.symm.trans h
    rfl
  · next h' => cases h'.symm.trans h

theorem entries_of_result (h : d.result ser write = .ok file) : file.entries = d.snapshot.entries := by
  unfold result at h
  split at h
  · cases h
  · split at h
    · cases h
    · cases h
      rfl

end LogDump

namespace DataLogger

variable {ser : LogSerializer I C R} [DecidableEq I] (config : DataLoggerConfig) (s : DataLogger ser)

def init : DataLogger ser := ⟨.empty, [], []⟩

/-- `self.logs.include(log_)` -/
def includeLog (entry : I × C) : DataLogger ser := { s with logs := s.logs.set entry.1 entry.2 }

/-- What a dump does up to the end of its reading; without a dump it has returned or raised. `adump` makes the
records here, `dump` makes them where its errors are handled. -/
def read (isAsync : Bool) (clear : Option Bool) (suffix : Option Text) (entry : Option (I × C)) :
    Option (LogDump I C) :=
  if s.logs.entries = [] then none
  else match suffix.bind LogFormat.ofSuffix with
    -- The error of `dump` for the suffix has no `JSON` in capitals, so it never discards.
    | none => none
    | some format => match s.logs.entries.mapM ser.toDict with
      | .error _ => if isAsync then none else some ⟨isAsync, clear, format, s.logs, entry⟩
      | .ok _ => some ⟨isAsync, clear, format, s.logs, entry⟩

/-- `dump` clears everything, `adump` what it has read. -/
def cleared (d : LogDump I C) : OrderedDict I C :=
  if d.isAsync then d.snapshot.keys.foldl OrderedDict.erase s.logs else .empty

def settle (d : LogDump I C) : Except Text (LogFile ser) → DataLogger ser
  | .ok file =>
    { s with logs := if d.clears config then s.cleared d else s.logs, files := s.files ++ [file] }
  | .error e => if d.discards e then { s with logs := .empty } else s

/-- The end of a dump. -/
def finish (d : LogDump I C) (write : Option Text) : DataLogger ser :=
  match d.entry with
  | some entry => (s.settle config d (d.result ser write)).includeLog entry
  | none => s.settle config d (d.result ser write)

/-- `self._config.capacity and len(self.logs) >= self._config.capacity` -/
def isFull : Bool := config.capacity.any fun capacity ↦ capacity != 0 && decide (capacity ≤ s.logs.entries.length)

/-- The dump of `log`, when the capacity is reached. -/
def autoDump (entry : I × C) (suffix : Option Text) : Option (LogDump I C) :=
  if s.isFull config then s.read false (some config.clearAfterDump) suffix (some entry) else none

/-- `alog` holds the locks of the store to its end. -/
def exec : LoggerCall I C → DataLogger ser
  | .log entry suffix => match s.autoDump config entry suffix with
    | some d => { s with dumps := s.dumps ++ [d] }
    | none => s.includeLog entry
  | .alog entry suffix write => match s.autoDump config entry suffix with
    | some d => s.finish config d write
    | none => s.includeLog entry
  | .dump clear suffix => { s with dumps := s.dumps ++ (s.read false clear suffix none).toList }
  | .adump clear suffix => { s with dumps := s.dumps ++ (s.read true clear suffix none).toList }
  | .finish i write => match s.dumps[i]? with
    | some d => { s with dumps := s.dumps.eraseIdx i }.finish config d write
    | none => s

/-- A dump that nothing interrupts. -/
def dumpNow (isAsync : Bool) (clear : Option Bool) (suffix write : Option Text) : DataLogger ser :=
  match s.read isAsync clear suffix none with
  | some d => s.finish config d write
  | none => s

/-! ## What a step does -/

/-- The dump that ends at the step, and the outcome of its write. -/
def ended : LoggerCall I C → Option (LogDump I C × Option Text)
  | .alog entry suffix write => (s.autoDump config entry suffix).map (·, write)
  | .finish i write => s.dumps[i]?.map (·, write)
  | _ => none

/-- The entry that is included at the step. -/
def included : LoggerCall I C → Option (I × C)
  | .log entry suffix => if (s.autoDump config entry suffix).isSome then none else some entry
  | .alog entry _ _ => some entry
  | .finish i _ => s.dumps[i]?.bind LogDump.entry
  | _ => none

/-- The entry is in a file that some dump has written. -/
def Saved (e : I × C) : Prop := ∃ file ∈ s.files, e ∈ file.entries

/-- A dump without `clear=False` ends with an error that says `JSON serializable`. -/
def Discards (call : LoggerCall I C) : Prop :=
  ∃ d write e, s.ended config call = some (d, write) ∧ d.result ser write = .error e ∧ d.discards e = true

/-- A dump ends that has not read the entry, and clears it: the entry came while the dump was writing. An `adump`
clears it only if the dump has read another entry with its id. -/
def ClearsUnread (call : LoggerCall I C) (e : I × C) : Prop :=
  ∃ d write, s.ended config call = some (d, write) ∧ e ∉ d.snapshot.entries ∧ (d.isAsync = true → e.1 ∈ d.snapshot)

/-- Another entry with its id takes the place of the entry. -/
def Replaces (call : LoggerCall I C) (e : I × C) : Prop := ∃ e', s.included config call = some e' ∧ e'.1 = e.1 ∧ e' ≠ e

variable {config s} {call : LoggerCall I C} {e : I × C} {d : LogDump I C} {write : Option Text}

theorem mem_includeLog {entry : I × C} : e ∈ (s.includeLog entry).logs.entries ↔
    e = entry ∨ e.1 ≠ entry.1 ∧ e ∈ s.logs.entries := by
  obtain ⟨i, c⟩ := e
  rw [← OrderedDict.get?_eq_some_iff, ← OrderedDict.get?_eq_some_iff, includeLog, OrderedDict.get?_set]
  split
  · next h => simp [h, Prod.ext_iff, eq_comm]
  · next h => simp [h, Prod.ext_iff]

theorem mem_cleared : e ∈ (s.cleared d).entries ↔ d.isAsync = true ∧ e.1 ∉ d.snapshot ∧ e ∈ s.logs.entries := by
  obtain ⟨i, c⟩ := e
  unfold cleared
  split
  · next h =>
    rw [← OrderedDict.get?_eq_some_iff, ← OrderedDict.get?_eq_some_iff, OrderedDict.get?_foldl_erase,
      OrderedDict.mem_def]
    split
    · next hmem => simp [hmem]
    · next hmem => simp [h, hmem]
  · next h => simp [h, OrderedDict.empty]

/-- An entry that goes with the end of a dump is in its file, was not read, or is discarded. -/
theorem saved_of_settle (he : e ∈ s.logs.entries)
    (hgone : e ∉ (s.settle config d (d.result ser write)).logs.entries) :
    (s.settle config d (d.result ser write)).Saved e ∨
      (∃ text, d.result ser write = .error text ∧ d.discards text = true) ∨
      e ∉ d.snapshot.entries ∧ (d.isAsync = true → e.1 ∈ d.snapshot) := by
  cases hresult : d.result ser write with
  | error text =>
    rw [hresult, settle] at hgone
    split at hgone
    · next h => exact .inr (.inl ⟨text, rfl, h⟩)
    · exact absurd he hgone
  | ok file =>
    rw [hresult] at hgone
    by_cases hread : e ∈ d.snapshot.entries
    · refine .inl ⟨file, List.mem_append_right _ (List.mem_singleton_self file), ?_⟩
      rw [LogDump.entries_of_result hresult]
      exact hread
    · refine .inr (.inr ⟨hread, fun hasync ↦ ?_⟩)
      rw [settle] at hgone
      dsimp only at hgone
      split at hgone
      · by_contra hid
        exact hgone (mem_cleared.2 ⟨hasync, hid, he⟩)
      · exact absurd he hgone

theorem saved_of_finish (he : e ∈ s.logs.entries) (hgone : e ∉ (s.finish config d write).logs.entries) :
    (s.finish config d write).Saved e ∨ (∃ text, d.result ser write = .error text ∧ d.discards text = true) ∨
      (e ∉ d.snapshot.entries ∧ (d.isAsync = true → e.1 ∈ d.snapshot)) ∨
      ∃ e', d.entry = some e' ∧ e'.1 = e.1 ∧ e' ≠ e := by
  unfold finish at hgone ⊢
  cases hentry : d.entry with
  | none =>
    rw [hentry] at hgone
    rcases saved_of_settle he hgone with hsaved | hdiscards | hunread
    · exact .inl hsaved
    · exact .inr (.inl hdiscards)
    · exact .inr (.inr (.inl hunread))
  | some entry =>
    rw [hentry] at hgone
    by_cases hsettled : e ∈ (s.settle config d (d.result ser write)).logs.entries
    · have hid : e.1 = entry.1 := by
        by_contra hid
        exact hgone (mem_includeLog.2 (.inr ⟨hid, hsettled⟩))
      exact .inr (.inr (.inr ⟨entry, rfl, hid.symm, fun heq ↦ hgone (mem_includeLog.2 (.inl heq.symm))⟩))
    · rcases saved_of_settle he hsettled with hsaved | hdiscards | hunread
      · exact .inl hsaved
      · exact .inr (.inl hdiscards)
      · exact .inr (.inr (.inl hunread))

theorem kept_of_finish (hasync : d.isAsync = true) (he : e ∈ s.logs.entries) (hid : e.1 ∉ d.snapshot) :
    e ∈ (s.finish config d write).logs.entries ∨ ∃ e', d.entry = some e' ∧ e'.1 = e.1 ∧ e' ≠ e := by
  have hsettled : e ∈ (s.settle config d (d.result ser write)).logs.entries := by
    cases d.result ser write with
    | error text =>
      rw [settle, if_neg]
      · exact he
      · simp [LogDump.discards, hasync]
    | ok file =>
      rw [settle]
      dsimp only
      split
      · exact mem_cleared.2 ⟨hasync, hid, he⟩
      · exact he
  unfold finish
  cases hentry : d.entry with
  | none => exact .inl hsettled
  | some entry =>
    by_cases heq : e = entry
    · exact .inl (mem_includeLog.2 (.inl heq))
    · by_cases hkey : e.1 = entry.1
      · exact .inr ⟨entry, rfl, hkey.symm, Ne.symm heq⟩
      · exact .inl (mem_includeLog.2 (.inr ⟨hkey, hsettled⟩))

omit [DecidableEq I] in
theorem entry_of_autoDump {entry : I × C} {suffix : Option Text} (h : s.autoDump config entry suffix = some d) :
    d.entry = some entry ∧ d.isAsync = false := by
  unfold autoDump read at h
  split at h
  · split at h
    · cases h
    · split at h
      · cases h
      · split at h
        · cases h
          exact ⟨rfl, rfl⟩
        · cases h
          exact ⟨rfl, rfl⟩
  · cases h

/-- The end of a dump is a step of its own, or the end of `alog`. -/
theorem exec_of_ended (h : s.ended config call = some (d, write)) : s.included config call = d.entry ∧
    ∃ dumps, s.exec config call = { s with dumps := dumps }.finish config d write := by
  cases call with
  | log entry suffix => cases h
  | dump clear suffix => cases h
  | adump clear suffix => cases h
  | alog entry suffix write =>
    obtain ⟨d', hd, heq⟩ := Option.map_eq_some_iff.1 h
    cases heq
    rw [exec, hd]
    exact ⟨(entry_of_autoDump hd).1.symm, s.dumps, rfl⟩
  | finish i write =>
    obtain ⟨d', hd, heq⟩ := Option.map_eq_some_iff.1 h
    cases heq
    rw [exec, included, hd]
    exact ⟨rfl, s.dumps.eraseIdx i, rfl⟩

/-- Without the end of a dump the step includes an entry or leaves the store alone. -/
theorem exec_of_not_ended (h : s.ended config call = none) : (s.exec config call).logs =
    match s.included config call with
    | some entry => s.logs.set entry.1 entry.2
    | none => s.logs := by
  cases call with
  | log entry suffix =>
    rw [exec, included]
    cases s.autoDump config entry suffix with
    | none => rfl
    | some d => rfl
  | dump clear suffix => rfl
  | adump clear suffix => rfl
  | alog entry suffix write =>
    rw [exec, included, Option.map_eq_none_iff.1 h]
    rfl
  | finish i write =>
    rw [exec, included, Option.map_eq_none_iff.1 h]
    rfl

theorem mem_of_finish {entry : I × C} (h : d.entry = some entry) :
    entry ∈ (s.finish config d write).logs.entries := by
  rw [finish, h]
  exact mem_includeLog.2 (.inl rfl)

theorem count_of_mem {logs : OrderedDict I C} (h : e ∈ logs.entries) : logs.keys.count e.1 = 1 :=
  List.count_eq_one_of_mem logs.nodup_keys (List.mem_map_of_mem h)

theorem mem_of_included (h : s.included config call = some e) : e ∈ (s.exec config call).logs.entries := by
  cases hended : s.ended config call with
  | some end_ =>
    obtain ⟨hincluded, dumps, hexec⟩ := exec_of_ended hended
    rw [hexec]
    exact mem_of_finish (hincluded.symm.trans h)
  | none =>
    rw [exec_of_not_ended hended, h]
    exact mem_includeLog.2 (.inl rfl)

/-- How an entry leaves the store. -/
theorem leaves (he : e ∈ s.logs.entries) (hgone : e ∉ (s.exec config call).logs.entries) :
    (s.exec config call).Saved e ∨ s.Discards config call ∨ s.ClearsUnread config call e ∨
      s.Replaces config call e := by
  cases hended : s.ended config call with
  | some end_ =>
    obtain ⟨d, write⟩ := end_
    obtain ⟨hincluded, dumps, hexec⟩ := exec_of_ended hended
    rw [hexec] at hgone ⊢
    rcases saved_of_finish (s := { s with dumps := dumps }) he hgone with hsaved | ⟨text, hdiscards⟩ | hunread | hentry
    · exact .inl hsaved
    · exact .inr (.inl ⟨d, write, text, hended, hdiscards⟩)
    · exact .inr (.inr (.inl ⟨d, write, hended, hunread⟩))
    · rw [← hincluded] at hentry
      exact .inr (.inr (.inr hentry))
  | none =>
    rw [exec_of_not_ended hended] at hgone
    cases hincluded : s.included config call with
    | none =>
      rw [hincluded] at hgone
      exact absurd he hgone
    | some entry =>
      rw [hincluded] at hgone
      have hout : e ∉ (s.includeLog entry).logs.entries := hgone
      rw [mem_includeLog, not_or, not_and] at hout
      exact .inr (.inr (.inr ⟨entry, hincluded, (Classical.not_not.1 fun hid ↦ hout.2 hid he).symm, Ne.symm hout.1⟩))

theorem foldl_erase_keys (logs : OrderedDict I C) : logs.keys.foldl OrderedDict.erase logs = .empty := by
  apply OrderedDict.ext
  apply List.eq_nil_iff_forall_not_mem.2
  rintro ⟨i, c⟩ hmem
  rw [← OrderedDict.get?_eq_some_iff, OrderedDict.get?_foldl_erase] at hmem
  split at hmem
  · cases hmem
  · next h => exact h (OrderedDict.mem_of_get? hmem)

section Uninterrupted

variable {clear : Option Bool} {suffix : Option Text}

theorem finish_of_entry (h : d.entry = none) : s.finish config d write = s.settle config d (d.result ser write) := by
  rw [finish, h]

omit [DecidableEq I] in
theorem read_eq_some (h : s.read false clear suffix none = some d) :
    d.isAsync = false ∧ d.snapshot = s.logs ∧ d.entry = none ∧ s.logs.entries ≠ [] := by
  unfold read at h
  split at h
  · cases h
  · next hne =>
    split at h
    · cases h
    · split at h
      · cases h
        exact ⟨rfl, rfl, rfl, hne⟩
      · cases h
        exact ⟨rfl, rfl, rfl, hne⟩

omit [DecidableEq I] in
theorem read_true_of_none (h : s.read false clear suffix none = none) : s.read true clear suffix none = none := by
  unfold read at h ⊢
  split
  · rfl
  · next hne =>
    rw [if_neg hne] at h
    split at h
    · rfl
    · split at h <;> cases h

omit [DecidableEq I] in
/-- `adump` reads what `dump` reads, or raises where `dump` will meet an error. -/
theorem read_true_of_some (write : Option Text) (h : s.read false clear suffix none = some d) :
    s.read true clear suffix none = some { d with isAsync := true } ∨
      s.read true clear suffix none = none ∧ ∃ text, d.result ser write = .error text := by
  unfold read at h ⊢
  split at h
  · cases h
  · next hne =>
    rw [if_neg hne]
    split at h
    · cases h
    · split at h
      · next text htext =>
        cases h
        exact .inr ⟨rfl, text, LogDump.result_of_render (by rw [LogSerializer.render, htext]) write⟩
      · cases h
        exact .inl rfl

theorem settle_error_async {text : Text} (h : d.isAsync = true) : s.settle config d (.error text) = s := by
  rw [settle, if_neg]
  simp [LogDump.discards, h]

/-- Two dumps of one store that nothing interrupts do the same, unless `dump` discards. -/
theorem dumpNow_eq_iff : s.dumpNow config false clear suffix write = s.dumpNow config true clear suffix write ↔
    ¬ ∃ d text, s.read false clear suffix none = some d ∧ d.result ser write = .error text ∧
      d.discards text = true := by
  unfold dumpNow
  cases hread : s.read false clear suffix none with
  | none =>
    rw [read_true_of_none hread]
    simp
  | some d =>
    obtain ⟨hsync, hsnapshot, hentry, hne⟩ := read_eq_some hread
    dsimp only
    rw [finish_of_entry hentry]
    cases hresult : d.result ser write with
    | error text =>
      have hother : (match s.read true clear suffix none with
          | some d => s.finish config d write
          | none => s) = s := by
        rcases read_true_of_some write hread with hasync | ⟨hasync, -⟩
        · rw [hasync]
          have hsame : LogDump.result ser { d with isAsync := true } write = .error text := hresult
          refine (finish_of_entry (d := { d with isAsync := true }) hentry).trans ?_
          rw [hsame, settle_error_async rfl]
        · rw [hasync]
      rw [hother, settle]
      split
      · next h =>
        refine iff_of_false (fun heq ↦ hne ?_) (not_not_intro ⟨d, text, rfl, hresult, h⟩)
        exact (congrArg (fun logger ↦ logger.logs.entries) heq).symm
      · next h =>
        refine iff_of_true rfl ?_
        rintro ⟨d', text', hd, htext, hdiscards⟩
        cases hd
        cases hresult.symm.trans htext
        exact h hdiscards
    | ok file =>
      rcases read_true_of_some write hread with hasync | ⟨-, text, htext⟩
      · have hsame : LogDump.result ser { d with isAsync := true } write = .ok file := hresult
        have hcleared : s.cleared d = s.cleared { d with isAsync := true } := by
          rw [cleared, cleared, hsync, hsnapshot, foldl_erase_keys]
          rfl
        have hother : s.finish config { d with isAsync := true } write = s.settle config d (.ok file) := by
          refine (finish_of_entry (d := { d with isAsync := true }) hentry).trans ?_
          rw [hsame, settle, settle, hcleared]
          rfl
        rw [hasync]
        refine iff_of_true hother.symm ?_
        rintro ⟨d', text, hd, htext, -⟩
        cases hd
        cases hresult.symm.trans htext
      · cases htext.symm.trans hresult

end Uninterrupted

/-! ## Runs of the logger -/

variable (config) (s) (call)

/-- At the step, an entry leaves the store only into a file, an entry that the ending dump has not read stays, an
included entry is in the store once, and the two dumps do the same. -/
structure Careful : Prop where
  saved : ∀ e ∈ s.logs.entries, e ∉ (s.exec config call).logs.entries → (s.exec config call).Saved e
  stays : ∀ d write, s.ended config call = some (d, write) → ∀ e ∈ s.logs.entries, e.1 ∉ d.snapshot →
    e ∈ (s.exec config call).logs.entries
  once : ∀ e, s.included config call = some e →
    e ∈ (s.exec config call).logs.entries ∧ (s.exec config call).logs.keys.count e.1 = 1
  agree : ∀ clear suffix write, s.dumpNow config false clear suffix write = s.dumpNow config true clear suffix write

/-- What of it `dump` keeps: it discards what it cannot serialize, and it clears what came while it was writing. -/
structure CarefulOrDiscards : Prop where
  saved : ∀ e ∈ s.logs.entries, e ∉ (s.exec config call).logs.entries →
    (s.exec config call).Saved e ∨ s.Discards config call ∨ s.ClearsUnread config call e ∨ s.Replaces config call e
  stays : ∀ d write, s.ended config call = some (d, write) → d.isAsync = true → ∀ e ∈ s.logs.entries,
    e.1 ∉ d.snapshot → e ∈ (s.exec config call).logs.entries ∨ s.Replaces config call e
  once : ∀ e, s.included config call = some e →
    e ∈ (s.exec config call).logs.entries ∧ (s.exec config call).logs.keys.count e.1 = 1
  agree : ∀ clear suffix write,
    s.dumpNow config false clear suffix write = s.dumpNow config true clear suffix write ↔
      ¬ ∃ d text, s.read false clear suffix none = some d ∧ d.result ser write = .error text ∧ d.discards text = true

variable {config} {s} {call}

theorem stays_of_ended (hended : s.ended config call = some (d, write)) (hasync : d.isAsync = true)
    (he : e ∈ s.logs.entries) (hid : e.1 ∉ d.snapshot) :
    e ∈ (s.exec config call).logs.entries ∨ s.Replaces config call e := by
  obtain ⟨hincluded, dumps, hexec⟩ := exec_of_ended hended
  rw [hexec, Replaces, hincluded]
  exact kept_of_finish hasync he hid

/-- A serializer that cannot serialize anything. -/
def unserializable : LogSerializer ℕ Unit Unit where
  toDict := fun _ ↦ .error "Type is not JSON serializable: object".toList
  serialize := fun _ _ ↦ .ok []

end DataLogger

end Lionagi.Protocols
