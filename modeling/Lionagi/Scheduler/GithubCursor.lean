import Lionagi.Library.FixedWidth
import Lionagi.Scheduler.GithubPoll

/-!
# Cursors of GitHub polls

A cursor is the time of an event and the number of its pull request, padded to a fixed width. An event whose
number cannot be placed has its time as its cursor, which stands for the whole second. The events that a poll
offers are past the bound that is read from the stored cursor, and they are sorted by their own cursors. A
stored cursor is only moved forward in the order of texts. Digits are those of ASCII.
-/

namespace Lionagi.Scheduler

open Library

/-! ## Cursors and positions -/

def cursorSep : Char := '#'

def cursorNumberWidth : ℕ := 10

def cursorMaxNumber : ℕ := 10 ^ cursorNumberWidth - 1

/-- The number that a cursor without one compares as: the largest machine integer. -/
def wholeSecond : ℕ := 2 ^ 63 - 1

/-- The number of a pull request, which may be absent or of another type. -/
inductive PrNumber where
  | int (n : ℤ)
  | bool (b : Bool)
  | other
  deriving DecidableEq

/-- The number that a cursor carries, if the event can be placed. -/
def placedNumber : PrNumber → Option ℕ
  | .int n => if n < 0 then none else some (min n.toNat cursorMaxNumber)
  | .bool _ => none
  | .other => none

/-- The cursor of an event. -/
def cursorFor (cursorAt : Text) (prNumber : PrNumber) : Text :=
  match placedNumber prNumber with
  | none => cursorAt
  | some placed => cursorAt ++ cursorSep :: padded cursorNumberWidth placed

/-- A text that has digits and no other characters. -/
def isDigits (t : Text) : Bool := !t.isEmpty && t.all Char.isDigit

/-- What a stored cursor claims. -/
def cursorBound : Option Text → Option (Text ×ₗ ℕ)
  | none => none
  | some cursor =>
    if cursor = [] then none
    else
      let timestamp := cursor.takeWhile (· != cursorSep)
      match cursor.dropWhile (· != cursorSep) with
      | [] => some (toLex (timestamp, wholeSecond))
      | _ :: number =>
        if isDigits number then some (toLex (timestamp, Nat.ofDigitChars 10 number 0))
        else some (toLex (timestamp, wholeSecond))

/-- Where an event sits in the order that a stored cursor is read in. -/
def eventPosition (cursorAt : Text) (prNumber : PrNumber) : Text ×ₗ ℕ :=
  match placedNumber prNumber with
  | none => toLex (cursorAt, wholeSecond)
  | some placed => toLex (cursorAt, placed)

/-- The event is not at or before what the stored cursor claims. -/
def pastBound (bound : Option (Text ×ₗ ℕ)) (cursorAt : Text) (prNumber : PrNumber) : Bool :=
  match bound with
  | none => true
  | some bound => !decide (eventPosition cursorAt prNumber ≤ bound)

/-- Items in the order of their cursors. -/
def sortByCursor {α : Type} (cursor : α → Text) (items : List α) : List α :=
  items.mergeSort fun item later ↦ decide (cursor item ≤ cursor later)

/-! ## The form of cursors -/

/-- The text has the length of the form, with digits for its zeros and its other characters. -/
def fits : Text → Text → Bool
  | [], [] => true
  | f :: form, c :: t => (if f = '0' then c.isDigit else c == f) && fits form t
  | _, _ => false

def instantForm : Text := "0000-00-00T00:00:00Z".toList

/-- The end of a text for a pattern, where a last newline may follow. -/
def atEnd (t : Text) : Bool := t == [] || t == ['\n']

/-- The number of a cursor and its separator, and the end. -/
def isCursorTail : Text → Bool
  | c :: t => c == cursorSep && fits (List.replicate cursorNumberWidth '0') (t.take cursorNumberWidth) &&
      atEnd (t.drop cursorNumberWidth)
  | [] => false

/-- The one spelling of a cursor. -/
def cursorRe (t : Text) : Bool :=
  fits instantForm (t.take instantForm.length) &&
    (isCursorTail (t.drop instantForm.length) || atEnd (t.drop instantForm.length))

/-- A time with a resolution of one second. -/
abbrev Instant : Type := { t : Text // fits instantForm t = true }

/-- A cursor that the service accepts and the poller writes. -/
abbrev StoredCursor : Type := { t : Text // cursorRe t = true }

/-! ## Events -/

/-- An event, by what its cursor is made of. -/
structure CursorEvent where
  cursorAt : Instant
  prNumber : PrNumber
  deriving DecidableEq

namespace CursorEvent

def cursor (event : CursorEvent) : Text := cursorFor event.cursorAt.1 event.prNumber

def position (event : CursorEvent) : Text ×ₗ ℕ := eventPosition event.cursorAt.1 event.prNumber

/-- The events that a poll offers, of those it has fetched. -/
def offered (stored : Option Text) (events : List CursorEvent) : List CursorEvent :=
  events.filter fun event ↦ pastBound (cursorBound stored) event.cursorAt.1 event.prNumber

/-- The batch that a poll returns. -/
def listed (stored : Option Text) (events : List CursorEvent) : List CursorEvent :=
  sortByCursor cursor (offered stored events)

/-- The stored cursor after the writes for the items. -/
def dispatch (stored : Option Text) (items : List CursorEvent) : Option Text :=
  items.foldl (fun stored item ↦ GithubPoll.guardCursorForward stored item.cursor) stored

end CursorEvent

end Lionagi.Scheduler
