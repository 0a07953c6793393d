import Mathlib.Algebra.Order.Group.Unbundled.Int
import Lionagi.Library.PyText

/-!
# The context tool

A branch has a full record of its messages and, from the first action of the tool on, a view of its own of what is
active. The tool evicts messages from the view, restores them to it and replaces some of them by a summary, which is
a new message at the end of the record.
-/

namespace Lionagi.Tools

inductive MessageKind where
  | actionRequest
  | actionResponse
  | other
  deriving DecidableEq

structure ContextMessage where
  kind : MessageKind
  content : Text

/-- New messages have identifiers that no message has. -/
structure FreshIds (U : Type*) where
  new : List U → U
  new_not_mem : ∀ used, new used ∉ used

/-- The record, the messages, the view when there is one, and which of the messages are summaries. -/
structure BranchContext (U : Type*) where
  record : List U
  messages : U → Option ContextMessage
  currentProgression : Option (List U) := none
  summaries : List U := []

/-- What an action answers with. -/
inductive ContextResult where
  | error (text : String)
  | evicted (removed active total : ℕ)
  | keptAll (results : ℕ)
  | restored (restored active total : ℕ)
  | compacted (compacted active total : ℕ)
  deriving DecidableEq

/-- The changing actions of the tool. The model's answer to a request for a summary comes with the action. Others
add messages in between. -/
inductive ContextOp where
  | evict (start stop : Option ℤ)
  | evictActionResults (keepLast : Option ℤ)
  | restore (start stop : Option ℤ)
  | compact (start stop : Option ℤ) (summary : Option Text) (mode : Option String) (auto : Bool) (answer : Option Text)
  | addMessage (message : ContextMessage)

/-- `number or default` -/
def orDefault (number : Option ℤ) (default : ℤ) : ℤ :=
  match number with
  | some number => if number = 0 then default else number
  | none => default

namespace BranchContext

variable {U : Type*} [DecidableEq U] (py : CharTable) (ids : FreshIds U) (branch : BranchContext U)

/-- The active messages. -/
def progression (branch : BranchContext U) : List U := branch.currentProgression.getD branch.record

def withView (branch : BranchContext U) (view : List U) : BranchContext U :=
  { branch with currentProgression := some view }

def isKind (kinds : List MessageKind) (uid : U) : Bool :=
  (branch.messages uid).any fun message ↦ message.kind ∈ kinds

def exclude (view uids : List U) : List U := view.filter (· ∉ uids)

def invalidRange (s e : ℤ) : ContextResult :=
  .error ("Invalid range [" ++ toString s ++ ":" ++ toString e ++ ")")

/-- The positions from `s` to `e` of a list. -/
def span {α : Type*} (list : List α) (s e : ℤ) : List α := (list.take e.toNat).drop s.toNat

/-- The view begins as a copy of the record. -/
def evict (start stop : Option ℤ) : ContextResult × BranchContext U :=
  let cp := branch.progression
  let s := max 1 (orDefault start 1)
  let e := min (cp.length : ℤ) (stop.getD (s + 1))
  if e ≤ s then (invalidRange s e, branch.withView cp)
  else
    let uids := span cp s e
    let left := exclude cp uids
    (.evicted uids.length left.length branch.record.length, branch.withView left)

def evictActionResults (keepLast : Option ℤ) : ContextResult × BranchContext U :=
  let cp := branch.progression
  let keep := keepLast.getD 5
  let ar := cp.filter (branch.isKind [.actionResponse])
  if (ar.length : ℤ) ≤ keep then (.keptAll ar.length, branch.withView cp)
  else
    let toEvict := if 0 < keep then ar.take (ar.length - keep.toNat) else ar
    let left := exclude cp toEvict
    (.evicted toEvict.length left.length branch.record.length, branch.withView left)

/-- A message of the record goes before the first active one that comes later in the record. -/
def restoreOne (record view : List U) (i : ℕ) : List U :=
  match record[i]? with
  | none => view
  | some uid =>
    if uid ∈ view then view
    else view.insertIdx (view.findIdx fun active ↦ decide (i < record.idxOf active)) uid

def restore (start stop : Option ℤ) : ContextResult × BranchContext U :=
  let cp := branch.progression
  let s := max 0 (orDefault start 0)
  let e := min (branch.record.length : ℤ) (stop.getD (s + 1))
  let view := (List.range' s.toNat (e - s).toNat).foldl (restoreOne branch.record) cp
  (.restored (view.length - cp.length) view.length branch.record.length, branch.withView view)

/-- The answer of the model, when there is anything to summarize. -/
def autoSummarize (collapse : List U) (answer : Option Text) : Option Text :=
  if collapse.any fun uid ↦ (branch.messages uid).any fun message ↦ !message.content.isEmpty then
    (answer.map py.strip).filter (· ≠ [])
  else none

/-- A new message at the end of the record. -/
def addMessage (message : ContextMessage) : BranchContext U :=
  { branch with
    record := branch.record ++ [ids.new branch.record]
    messages := fun uid ↦ if uid = ids.new branch.record then some message else branch.messages uid }

/-- The summary takes the place of the first collapsed position. -/
def addSummary (summary : Text) (s : ℕ) (collapse : List U) : BranchContext U :=
  let note := ids.new branch.record
  let content := "[CONTEXT COMPACTION] ".toList ++ py.strip summary
  { branch.addMessage ids ⟨.other, content⟩ with
    currentProgression := some (exclude (branch.progression.insertIdx s note) collapse)
    summaries := branch.summaries ++ [note] }

def nothingToCompact : ContextResult :=
  .error "Nothing to compact in range (no tool messages; use mode='all' to collapse reasoning too)."

def autoFailed : ContextResult :=
  .error ("Auto-summarization failed or produced nothing — write the summary yourself and retry compact with " ++
    "`summary=...`.")

/-- The summary given, or one that is asked for when none is. -/
def chooseSummary (collapse : List U) (summary : Option Text) (auto : Bool) (answer : Option Text) :
    Except ContextResult Text :=
  if py.strip (summary.getD []) ≠ [] then .ok (summary.getD [])
  else if auto then
    match branch.autoSummarize py collapse answer with
    | some generated => .ok generated
    | none => .error autoFailed
  else .error (.error "compact requires a non-empty `summary`.")

def compact (start stop : Option ℤ) (summary : Option Text) (mode : Option String) (auto : Bool)
    (answer : Option Text) : ContextResult × BranchContext U :=
  let cp := branch.progression
  let s := max 1 (orDefault start 1)
  let e := min (cp.length : ℤ) (stop.getD cp.length)
  if e ≤ s then (invalidRange s e, branch.withView cp)
  else
    let collapse :=
      if mode.getD "tool_io" ∈ ["", "tool_io"] then
        (span cp s e).filter (branch.isKind [.actionRequest, .actionResponse])
      else span cp s e
    if collapse = [] then (nothingToCompact, branch.withView cp)
    else
      match branch.chooseSummary py collapse summary auto answer with
      | .error result => (result, branch.withView cp)
      | .ok summary =>
        let compacted := branch.addSummary py ids summary s.toNat collapse
        (.compacted collapse.length compacted.progression.length compacted.record.length, compacted)

def exec (branch : BranchContext U) : ContextOp → BranchContext U
  | .evict start stop => (branch.evict start stop).2
  | .evictActionResults keepLast => (branch.evictActionResults keepLast).2
  | .restore start stop => (branch.restore start stop).2
  | .compact start stop summary mode auto answer => (branch.compact py ids start stop summary mode auto answer).2
  | .addMessage message => branch.addMessage ids message

end BranchContext

end Lionagi.Tools
