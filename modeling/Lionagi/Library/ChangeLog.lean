import Mathlib.Data.List.Basic

/-!
# Logs of changes

A log records the changes of a value as pairs of what it was and what it became. It leads from one value
to another when every change starts from the value in which the one before it ended; replaying the log
from the first value then gives the last.
-/

universe u

namespace ChangeLog

variable {α : Type u} {a b c : α}

def Leads : α → List (α × α) → α → Prop
  | a, [], b => a = b
  | a, change :: log, b => change.1 = a ∧ Leads change.2 log b

variable {log : List (α × α)}

theorem leads_append {log' : List (α × α)} : Leads a (log ++ log') c ↔ ∃ b, Leads a log b ∧ Leads b log' c := by
  induction log generalizing a with
  | nil =>
    constructor
    · intro h
      exact ⟨a, rfl, h⟩
    · intro h
      obtain ⟨b, hab, h⟩ := h
      exact hab ▸ h
  | cons change log ih =>
    rw [List.cons_append, Leads, ih]
    constructor
    · intro h
      obtain ⟨hchange, b, hlog, hlog'⟩ := h
      exact ⟨b, ⟨hchange, hlog⟩, hlog'⟩
    · intro h
      obtain ⟨b, ⟨hchange, hlog⟩, hlog'⟩ := h
      exact ⟨hchange, b, hlog, hlog'⟩

/-- A log that leads somewhere goes on with a change that starts there. -/
theorem leads_concat {change : α × α} : Leads a (log ++ [change]) c ↔ Leads a log change.1 ∧ change.2 = c := by
  rw [leads_append]
  constructor
  · intro h
    obtain ⟨b, hlog, hchange, hc⟩ := h
    exact ⟨hchange ▸ hlog, hc⟩
  · intro h
    obtain ⟨hlog, hc⟩ := h
    exact ⟨change.1, hlog, rfl, hc⟩

/-- Where a log leads is determined by where it starts. -/
theorem Leads.unique (hb : Leads a log b) (hc : Leads a log c) : b = c := by
  induction log generalizing a with
  | nil => exact hb.symm.trans hc
  | cons change log ih => exact ih hb.2 hc.2

end ChangeLog
