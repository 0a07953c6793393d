import Lionagi.Protocols.Element

/-!
# The exchange

Every owner has a mailbox: a pile of items, an outbox and an inbox for each sender, which list them by their
identifiers. A collector empties an outbox and notes its messages as in flight. The asynchronous one leaves each
delivery to a task of its own, which runs some time later; the synchronous one delivers at once, and so does a
reader that drains what is pending. Only between these steps can the other owners act.
-/

namespace Lionagi.Session

open Lionagi.Protocols

/-- Identifiers are drawn in the order in which the messages are sent. Without a recipient it is a broadcast. -/
structure Message (U κ : Type*) where
  id : ℕ
  sender : U
  recipient : Option U
  content : κ
  channel : Option String

/-- The inboxes stand in the order of their creation. -/
structure Mailbox (U κ : Type*) where
  items : ℕ → Option (Message U κ) := fun _ ↦ none
  outbox : List ℕ := []
  senders : List U := []
  inbox : U → List ℕ := fun _ ↦ []

/-- The exchange, with the messages sent and the owners there were then, the broadcasts collected with those that
got a copy, and what each owner has consumed. -/
structure Exchange (U κ : Type*) where
  owners : List U := []
  mailboxes : U → Mailbox U κ := fun _ ↦ {}
  inFlight : U → List (Message U κ) := fun _ ↦ []
  sent : List (Message U κ × List U) := []
  broadcasts : List (Message U κ × List U) := []
  consumed : U → List (Message U κ) := fun _ ↦ []

variable {U κ : Type*} [DecidableEq U]

namespace Mailbox

variable (mailbox : Mailbox U κ)

/-- An item that is there already stays. -/
def includeItem (message : Message U κ) : Mailbox U κ :=
  match mailbox.items message.id with
  | some _ => mailbox
  | none => { mailbox with items := Function.update mailbox.items message.id (some message) }

def popItem (id : ℕ) : Option (Message U κ) × Mailbox U κ :=
  (mailbox.items id, { mailbox with items := Function.update mailbox.items id none })

def addOutbox (message : Message U κ) : Mailbox U κ :=
  let included := mailbox.includeItem message
  { included with outbox := included.outbox ++ [message.id] }

def addInbox (message : Message U κ) : Mailbox U κ :=
  let included := mailbox.includeItem message
  { included with
    senders := if message.sender ∈ included.senders then included.senders
      else included.senders ++ [message.sender]
    inbox := Function.update included.inbox message.sender (included.inbox message.sender ++ [message.id]) }

/-- The messages that the outbox lists, without those that the pile has not. -/
def popEach (mailbox : Mailbox U κ) : List ℕ → List (Message U κ) × Mailbox U κ
  | [] => ([], mailbox)
  | id :: ids =>
    let popped := mailbox.popItem id
    let rest := popped.2.popEach ids
    (popped.1.toList ++ rest.1, rest.2)

def popOutbox : List (Message U κ) × Mailbox U κ := { mailbox with outbox := [] }.popEach mailbox.outbox

/-- The oldest message of an inbox. -/
def popInbox (sender : U) : Option (Message U κ) × Mailbox U κ :=
  match mailbox.inbox sender with
  | [] => (none, mailbox)
  | id :: ids => { mailbox with inbox := Function.update mailbox.inbox sender ids }.popItem id

end Mailbox

namespace Exchange

variable (exchange : Exchange U κ)

def get (owner : U) : Option (Mailbox U κ) :=
  if owner ∈ exchange.owners then some (exchange.mailboxes owner) else none

def setMailbox (owner : U) (mailbox : Mailbox U κ) : Exchange U κ :=
  { exchange with mailboxes := Function.update exchange.mailboxes owner mailbox }

def register (owner : U) : Except PyError Unit × Exchange U κ :=
  if owner ∈ exchange.owners then (.error .valueError, exchange)
  else (.ok (), { exchange.setMailbox owner {} with owners := exchange.owners ++ [owner] })

def send (sender : U) (recipient : Option U) (content : κ) (channel : Option String) :
    Except PyError (Message U κ) × Exchange U κ :=
  match exchange.get sender with
  | none => (.error .valueError, exchange)
  | some mailbox =>
    let message : Message U κ := { id := exchange.sent.length, sender, recipient, content, channel }
    (.ok message, { exchange.setMailbox sender (mailbox.addOutbox message) with
      sent := exchange.sent ++ [(message, exchange.owners)] })

/-! ## Collecting -/

/-- The owners that get a message from its sender. -/
def recipients (owner : U) (message : Message U κ) : List U :=
  match message.recipient with
  | none => exchange.owners.filter (· ≠ owner)
  | some recipient => if recipient ∈ exchange.owners then [recipient] else []

def deliveries (owner : U) (messages : List (Message U κ)) : List (U × Message U κ) :=
  messages.flatMap fun message ↦ (exchange.recipients owner message).map fun recipient ↦ (recipient, message)

def markInFlight (exchange : Exchange U κ) (delivery : U × Message U κ) : Exchange U κ :=
  { exchange with
    inFlight := Function.update exchange.inFlight delivery.1 (exchange.inFlight delivery.1 ++ [delivery.2]) }

/-- The number of messages routed, a broadcast being one. -/
def routed (deliveries : List (U × Message U κ)) : ℕ := (deliveries.map fun delivery ↦ delivery.2.id).dedup.length

/-- The outbox is emptied, and its messages are in flight. -/
def take (owner : U) (mailbox : Mailbox U κ) : List (U × Message U κ) × Exchange U κ :=
  let popped := mailbox.popOutbox
  let deliveries := exchange.deliveries owner popped.1
  let noted := { exchange.setMailbox owner popped.2 with
    broadcasts := exchange.broadcasts ++ (popped.1.filter fun message ↦ message.recipient.isNone).map
      fun message ↦ (message, exchange.recipients owner message) }
  (deliveries, deliveries.foldl markInFlight noted)

/-- A collector up to its deliveries, which are tasks. -/
def collect (owner : U) : Except PyError ℕ × Exchange U κ :=
  match exchange.get owner with
  | none => (.error .valueError, exchange)
  | some mailbox => (.ok (routed (exchange.take owner mailbox).1), (exchange.take owner mailbox).2)

/-- The message leaves those in flight, each of which is known by its identifier. -/
def removeInFlight (recipient : U) (message : Message U κ) : Exchange U κ :=
  { exchange with
    inFlight := Function.update exchange.inFlight recipient
      ((exchange.inFlight recipient).eraseP fun candidate ↦ candidate.id = message.id) }

def deliverLocked (recipient : U) (message : Message U κ) : Exchange U κ :=
  match exchange.get recipient with
  | none => exchange
  | some mailbox => exchange.setMailbox recipient (mailbox.addInbox message)

/-- A message that is in flight no more is not delivered again. -/
def deliverTo (exchange : Exchange U κ) (recipient : U) (id : ℕ) : Exchange U κ :=
  match (exchange.inFlight recipient).find? fun candidate ↦ candidate.id = id with
  | none => exchange
  | some message => (exchange.deliverLocked recipient message).removeInFlight recipient message

/-- The deliveries in order. -/
def deliverEach (exchange : Exchange U κ) : List (U × Message U κ) → Exchange U κ
  | [] => exchange
  | delivery :: rest => (exchange.deliverTo delivery.1 delivery.2.id).deliverEach rest

def collectSync (owner : U) : Except PyError ℕ × Exchange U κ :=
  match exchange.get owner with
  | none => (.error .valueError, exchange)
  | some mailbox =>
    let taken := exchange.take owner mailbox
    (.ok (routed taken.1), taken.2.deliverEach taken.1)

/-! ## Reading -/

/-- What has come for an owner, from one sender or from all of them. -/
def receive (owner : U) (sender : Option U) : List (Message U κ) :=
  match exchange.get owner with
  | none => []
  | some mailbox => (mailbox.senders.filter fun other ↦ sender.all (· = other)).flatMap
      fun other ↦ (mailbox.inbox other).filterMap mailbox.items

def popMessage (owner sender : U) : Option (Message U κ) × Exchange U κ :=
  match exchange.get owner with
  | none => (none, exchange)
  | some mailbox =>
    let popped := mailbox.popInbox sender
    (popped.1, { exchange.setMailbox owner popped.2 with
      consumed := Function.update exchange.consumed owner (exchange.consumed owner ++ popped.1.toList) })

/-- The messages of a sender are popped until there is none. -/
def popWhile (owner sender : U) : ℕ → Exchange U κ → List (Message U κ) × Exchange U κ
  | 0, exchange => ([], exchange)
  | fuel + 1, exchange =>
    match exchange.popMessage owner sender with
    | (none, exchange) => ([], exchange)
    | (some message, exchange) =>
      let rest := popWhile owner sender fuel exchange
      (message :: rest.1, rest.2)

/-- The inbox of a sender gets shorter with each message. -/
def popAll (exchange : Exchange U κ) (owner sender : U) : List (Message U κ) × Exchange U κ :=
  popWhile owner sender (((exchange.mailboxes owner).inbox sender).length + 1) exchange

def popSenders (exchange : Exchange U κ) (owner : U) : List U → List (Message U κ) × Exchange U κ
  | [] => ([], exchange)
  | sender :: senders =>
    let popped := exchange.popAll owner sender
    let rest := popped.2.popSenders owner senders
    (popped.1 ++ rest.1, rest.2)

/-- Everything in flight for the owner is delivered. -/
def deliverPending (owner : U) : Exchange U κ :=
  (exchange.inFlight owner).foldl
    (fun exchange message ↦ (exchange.deliverLocked owner message).removeInFlight owner message) exchange

/-- The senders of what is pending are a set, which is gone through in some order. -/
def drainPending (owner : U) (senders : List U) : List (Message U κ) × Exchange U κ :=
  let delivered := exchange.deliverPending owner
  if senders.Perm ((delivered.receive owner none).map Message.sender).dedup then delivered.popSenders owner senders
  else ([], exchange)

end Exchange

/-- The steps of the owners' calls, and of the delivery tasks. -/
inductive ExchangeOp (U κ : Type*) where
  | register (owner : U)
  | send (sender : U) (recipient : Option U) (content : κ) (channel : Option String)
  | collect (owner : U)
  | deliver (recipient : U) (id : ℕ)
  | collectSync (owner : U)
  | drainPending (owner : U) (senders : List U)
  | peekPending (owner : U)
  | popMessage (owner sender : U)

namespace Exchange

def exec (exchange : Exchange U κ) : ExchangeOp U κ → Exchange U κ
  | .register owner => (exchange.register owner).2
  | .send sender recipient content channel => (exchange.send sender recipient content channel).2
  | .collect owner => (exchange.collect owner).2
  | .deliver recipient id => exchange.deliverTo recipient id
  | .collectSync owner => (exchange.collectSync owner).2
  | .drainPending owner senders => (exchange.drainPending owner senders).2
  | .peekPending _ => exchange
  | .popMessage owner sender => (exchange.popMessage owner sender).2

end Exchange

end Lionagi.Session
