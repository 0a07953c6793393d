import Mathlib.Algebra.Order.Field.Rat
import Mathlib.Order.Defs.LinearOrder

/-!
# Polls of GitHub

A poll lists the events past the stored cursor, in the order of their cursors. Each event that is
dispatchable is fired by itself. Its occurrence and the new cursor are written in one transaction, under a
claim of the due instant for the first event and of the cursor for each. A fire that was refused is counted
against the event, and after three the poll passes it. What the poll has passed without an occurrence is
written at its end. The poll may crash between any two writes, and other writers of the schedule may move
the due instant.
-/

namespace Lionagi.Scheduler

universe u

def maxPredispatchRefusals : ℕ := 3

/-- An event that a poll has listed, by its cursor. -/
structure PollItem (C : Type u) where
  cursor : C
  dispatchable : Bool
  deriving DecidableEq

/-- The fields of the schedule that a poll reads and writes. -/
structure PollRow (C : Type u) where
  githubCursor : Option C
  nextFireAt : Option ℚ
  refusalEvent : Option C := none
  refusalCount : ℕ := 0
  deriving DecidableEq

/-- Where a poll is: it takes the next item, fires it, has fired it or not, passes it after its last refusal,
or has left the loop. -/
inductive PollStage where
  | next
  | firing
  | fired
  | unfired
  | passing
  | trailing
  deriving DecidableEq

/-- A poll, with the schedule as it has read it, the items that are left, the cursor that it has come to, and
what its next fire claims. -/
structure GithubTick (C : Type u) where
  schedule : PollRow C
  items : List (PollItem C)
  cursor : Option C
  unclaimedPollCycle : Bool := true
  claimedCursor : Option C
  stage : PollStage := .next
  deriving DecidableEq

/-- The schedule and the poll, if there is one, with the batch that was listed last, the events that have
occurrences, and those whose fires were refused. -/
structure GithubPoll (C : Type u) where
  row : PollRow C
  poll : Option (GithubTick C) := none
  batch : List (PollItem C) := []
  occurrences : List C := []
  refusals : List C := []

inductive PollOp (C : Type u) where
  | begin (batch : List (PollItem C))
  | filter
  | reserve (granted : Bool)
  | fire (valid : Bool) (nextAt : Option ℚ)
  | record
  | clear
  | trail
  | crash
  | touch (nextAt : Option ℚ)

namespace GithubPoll

variable {C : Type u} [LinearOrder C] (system : GithubPoll C)

/-- The cursor is only moved forward. -/
def guardCursorForward (stored : Option C) (cursor : C) : Option C :=
  match stored with
  | none => some cursor
  | some old => if old < cursor then some cursor else some old

/-- The items are past the stored cursor, in their order. -/
def Listed (batch : List (PollItem C)) : Prop :=
  batch.Pairwise (fun item later ↦ item.cursor < later.cursor) ∧
    ∀ item ∈ batch, ∀ stored ∈ system.row.githubCursor, stored < item.cursor

instance (batch : List (PollItem C)) : Decidable (system.Listed batch) :=
  inferInstanceAs (Decidable (_ ∧ _))

/-- The claims of the next fire hold. -/
def Claimed (tick : GithubTick C) : Prop :=
  (tick.unclaimedPollCycle = true → system.row.nextFireAt = tick.schedule.nextFireAt) ∧
    system.row.githubCursor = tick.claimedCursor

instance (tick : GithubTick C) : Decidable (system.Claimed tick) :=
  inferInstanceAs (Decidable ((_ → _) ∧ _ = _))

def begin (batch : List (PollItem C)) : GithubPoll C :=
  if system.poll = none ∧ system.Listed batch then
    { system with
      poll := some {
        schedule := system.row
        items := batch
        cursor := system.row.githubCursor
        claimedCursor := system.row.githubCursor }
      batch := batch }
  else system

def setTick (tick : GithubTick C) : GithubPoll C := { system with poll := some tick }

/-- The poll passes an item that is not dispatchable. -/
def filter (tick : GithubTick C) : GithubPoll C :=
  match tick.stage, tick.items with
  | .next, item :: items =>
    if item.dispatchable then system
    else system.setTick { tick with items := items, cursor := some item.cursor }
  | _, _ => system

/-- The next fire is admitted, or the poll leaves the loop. -/
def reserve (granted : Bool) (tick : GithubTick C) : GithubPoll C :=
  match tick.stage, tick.items with
  | .next, item :: _ =>
    if item.dispatchable then system.setTick { tick with stage := if granted then .firing else .trailing }
    else system
  | _, _ => system

/-- The action of the event is valid, or the fire is refused. Its row is written where the claims hold, with
the cursor of the event where the action is valid. -/
def fire (valid : Bool) (nextAt : Option ℚ) (tick : GithubTick C) : GithubPoll C :=
  match tick.stage, tick.items with
  | .firing, item :: _ =>
    let refusals := if valid then system.refusals else system.refusals ++ [item.cursor]
    if system.Claimed tick then
      if valid then
        { system with
          row := { system.row with
            githubCursor := guardCursorForward system.row.githubCursor item.cursor
            nextFireAt := nextAt.or system.row.nextFireAt }
          occurrences := system.occurrences ++ [item.cursor]
          poll := some { tick with
            unclaimedPollCycle := false
            claimedCursor := some item.cursor
            stage := .fired } }
      else
        { system with
          row := { system.row with nextFireAt := nextAt.or system.row.nextFireAt }
          refusals := refusals
          poll := some { tick with stage := .unfired } }
    else { system with refusals := refusals, poll := some { tick with stage := .unfired } }
  | _, _ => system

/-- One more refusal than were counted of the event so far. -/
def nextRefusalCount (schedule : PollRow C) (cursor : C) : ℕ :=
  (if schedule.refusalEvent = some cursor then schedule.refusalCount else 0) + 1

/-- A fire that did not fire is counted against its event. -/
def recordPredispatchRefusal (tick : GithubTick C) : GithubPoll C :=
  match tick.stage, tick.items with
  | .unfired, item :: _ =>
    let count := nextRefusalCount tick.schedule item.cursor
    { system with
      row := { system.row with refusalEvent := some item.cursor, refusalCount := count }
      poll := some { tick with
        schedule := { tick.schedule with refusalEvent := some item.cursor, refusalCount := count }
        stage := if count < maxPredispatchRefusals then .trailing else .passing } }
  | _, _ => system

/-- The poll goes on past an event that was fired, or refused often enough, and drops the count. -/
def clearPredispatchRefusals (tick : GithubTick C) : GithubPoll C :=
  match tick.stage, tick.items with
  | .fired, item :: items | .passing, item :: items =>
    let counted := tick.schedule.refusalCount ≠ 0 ∨ tick.schedule.refusalEvent ≠ none
    { system with
      row := if counted then { system.row with refusalEvent := none, refusalCount := 0 } else system.row
      poll := some { tick with
        schedule := { tick.schedule with refusalEvent := none, refusalCount := 0 }
        items := items
        cursor := some item.cursor
        stage := .next } }
  | _, _ => system

/-- The cursor that the poll has come to is written. -/
def trail (tick : GithubTick C) : GithubPoll C :=
  if tick.stage = .trailing ∨ tick.stage = .next ∧ tick.items = [] then
    match tick.cursor with
    | some cursor =>
      if some cursor = tick.schedule.githubCursor then { system with poll := none }
      else
        { system with
          row := { system.row with githubCursor := guardCursorForward system.row.githubCursor cursor }
          poll := none }
    | none => { system with poll := none }
  else system

def onTick (step : GithubTick C → GithubPoll C) : GithubPoll C :=
  match system.poll with
  | some tick => step tick
  | none => system

/-- The step of the poll, which is none where it is not at that point. -/
def exec (system : GithubPoll C) : PollOp C → GithubPoll C
  | .begin batch => system.begin batch
  | .filter => system.onTick system.filter
  | .reserve granted => system.onTick (system.reserve granted)
  | .fire valid nextAt => system.onTick (system.fire valid nextAt)
  | .record => system.onTick system.recordPredispatchRefusal
  | .clear => system.onTick system.clearPredispatchRefusals
  | .trail => system.onTick system.trail
  | .crash => { system with poll := none }
  | .touch nextAt => { system with row := { system.row with nextFireAt := nextAt } }

end GithubPoll

end Lionagi.Scheduler
