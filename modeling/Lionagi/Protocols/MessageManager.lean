import Lionagi.Protocols.Pile

/-!
# The message manager

A conversation keeps its messages in a pile and remembers which of them is the system message. What the
constructors and updates of the messages do to their contents, and what the hooks do, is code outside: a call
says which new object it would build and which exceptions come back.
-/

universe u v

namespace Lionagi.Protocols

inductive MessageType where
  | message
  | system
  | instruction
  | assistantResponse
  | actionRequest
  | actionResponse
deriving DecidableEq

/-- A message object; `ref` tells two objects with one identifier apart. -/
structure Message (U : Type u) where
  id : U
  ref : ℕ
  type : MessageType
deriving DecidableEq

instance (U : Type u) [DecidableEq U] : Observable (Message U) U MessageType where
  id message := message.id
  type message := message.type
  issubclass type base := base = .message ∨ type = base
  eq a b := a.id = b.id
  eq_refl _ := decide_eq_true rfl

/-- Exceptions of the containers, of the manager itself, and of the code it calls. -/
inductive MessageError (ε : Type v) where
  | container (e : PyError)
  | valueError
  | runtimeError
  | raised (e : ε)
  | group (es : List ε)

/-- An argument of `create_message`: none at all, a falsy or a truthy value, or a message object. -/
inductive MessageArg (U : Type u) where
  | none
  | falsy
  | truthy
  | message (message : Message U)

namespace MessageArg

variable {U : Type u}

def isTruthy : MessageArg U → Bool
  | none => false
  | falsy => false
  | truthy => true
  | message _ => true

def isNone : MessageArg U → Bool
  | none => true
  | _ => false

/-- `isinstance(arg, type)` for one of the message classes. -/
def isInstance (type : MessageType) : MessageArg U → Bool
  | message m => m.type = type
  | _ => false

end MessageArg

/-- The arguments of `add_message` that decide which message is meant. -/
structure MessageArgs (U : Type u) where
  instruction : MessageArg U
  assistantResponse : MessageArg U
  system : MessageArg U
  actionFunction : MessageArg U
  actionArguments : MessageArg U
  actionOutput : MessageArg U
  actionRequest : MessageArg U
  actionResponse : MessageArg U

/-- The identity of the object that a constructor builds. -/
structure Built (U : Type u) where
  id : U
  ref : ℕ

/-- A hook of `on_message_added`. -/
inductive MessageHook where
  | function
  | coroutine
deriving DecidableEq

/-- One entry of the list of messages that a manager is built from. -/
inductive MessageEntry (U : Type u) (ε : Type v) where
  | message (message : Message U)
  | dict (restored : Except ε (Message U))
  | other

structure MessageManager (U : Type u) where
  messages : Pile U (Message U) MessageType
  system : Option (Message U)
  onMessageAdded : List MessageHook

namespace MessageManager

variable {U : Type u} {ε : Type v} [DecidableEq U]

/-! ## Creating a message -/

/-- An object of the class is updated and returned, anything else goes into a new one. -/
def create (type : MessageType) (arg : MessageArg U) (built : Except ε (Built U)) :
    Except (MessageError ε) (Message U) :=
  match built, arg with
  | .error e, _ => .error (.raised e)
  | .ok built, .message given => .ok (if given.type = type then given else ⟨built.id, built.ref, type⟩)
  | .ok built, _ => .ok ⟨built.id, built.ref, type⟩

def createSystem (system : MessageArg U) (built : Except ε (Built U)) : Except (MessageError ε) (Message U) :=
  create .system system built

def createActionResponse (actionRequest actionResponse : MessageArg U) (built : Except ε (Built U)) :
    Except (MessageError ε) (Message U) :=
  if actionRequest.isInstance .actionRequest then create .actionResponse actionResponse built
  else .error .valueError

def createActionRequest (actionRequest : MessageArg U) (built : Except ε (Built U)) :
    Except (MessageError ε) (Message U) :=
  create .actionRequest actionRequest built

def createAssistantResponse (assistantResponse : MessageArg U) (built : Except ε (Built U)) :
    Except (MessageError ε) (Message U) :=
  create .assistantResponse assistantResponse built

def createInstruction (instruction : MessageArg U) (built : Except ε (Built U)) :
    Except (MessageError ε) (Message U) :=
  create .instruction instruction built

/-- The arguments of which at most one may be given. -/
def messageTypes (args : MessageArgs U) : List (MessageArg U) :=
  [args.instruction, args.assistantResponse, args.system] ++
    if args.actionRequest.isTruthy && args.actionOutput.isNone && args.actionResponse.isNone then
      [args.actionRequest]
    else []

def createMessage (args : MessageArgs U) (built : Except ε (Built U)) : Except (MessageError ε) (Message U) :=
  if 1 < (messageTypes args).countP MessageArg.isTruthy then .error .valueError
  else if args.system.isTruthy then createSystem args.system built
  else if !args.actionResponse.isNone || !args.actionOutput.isNone then
    createActionResponse args.actionRequest args.actionResponse built
  else if args.actionRequest.isTruthy || args.actionFunction.isTruthy && !args.actionArguments.isNone then
    createActionRequest args.actionRequest built
  else if args.assistantResponse.isTruthy then createAssistantResponse args.assistantResponse built
  else createInstruction args.instruction built

/-! ## The calls -/

/-- `set_system`. The system is remembered before the pile may raise. -/
def setSystem (manager : MessageManager U) (system : Message U) : MessageManager U × Except PyError Unit :=
  match manager.system with
  | none =>
    ({ manager with system := some system, messages := (manager.messages.insert 0 (.item system)).1 },
      (manager.messages.insert 0 (.item system)).2)
  | some oldSystem =>
    match manager.messages.insert 0 (.item system) with
    | (messages, .error e) => ({ manager with system := some system, messages }, .error e)
    | (messages, .ok ()) =>
      ({ manager with system := some system, messages := (messages.exclude (.item oldSystem)).1 },
        (messages.exclude (.item oldSystem)).2)

/-- A message that is there is taken out and put back at its index, another one is included. -/
def includeOrReplace (messages : Pile U (Message U) MessageType) (message : Message U) :
    Pile U (Message U) MessageType × Except PyError Unit :=
  if messages.contains (.item message) then
    match messages.exclude (.uuid message.id) with
    | (excluded, .error e) => (excluded, .error e)
    | (excluded, .ok ()) => excluded.insert (messages.order.idxOf message.id : ℕ) (.item message)
  else messages.includeItem (.item message)

/-- What `add_message` and `a_add_message` do with the message they have created. -/
def store (manager : MessageManager U) (isSystem : Bool) (message : Message U) :
    MessageManager U × Except PyError Unit :=
  match if isSystem then manager.setSystem message else (manager, .ok ()) with
  | (manager, .error e) => (manager, .error e)
  | (manager, .ok ()) =>
    ({ manager with messages := (includeOrReplace manager.messages message).1 },
      (includeOrReplace manager.messages message).2)

/-- Every hook is called; `outcomes` are the exceptions they raise. -/
def fireOnMessageAdded (manager : MessageManager U) (outcomes : List (Option ε)) (message : Message U) :
    Except (MessageError ε) (Message U) :=
  match (manager.onMessageAdded.zip outcomes).filterMap Prod.snd with
  | [] => .ok message
  | [e] => .error (.raised e)
  | errors => .error (.group errors)

/-- `a_add_message` -/
def aAddMessage (manager : MessageManager U) (args : MessageArgs U) (built : Except ε (Built U))
    (outcomes : List (Option ε)) : MessageManager U × Except (MessageError ε) (Message U) :=
  match createMessage args built with
  | .error e => (manager, .error e)
  | .ok message =>
    match manager.store args.system.isTruthy message with
    | (manager, .error e) => (manager, .error (.container e))
    | (manager, .ok ()) => (manager, manager.fireOnMessageAdded outcomes message)

/-- `add_message`, which rejects hooks that are coroutine functions before anything else. -/
def addMessage (manager : MessageManager U) (args : MessageArgs U) (built : Except ε (Built U))
    (outcomes : List (Option ε)) : MessageManager U × Except (MessageError ε) (Message U) :=
  if .coroutine ∈ manager.onMessageAdded then (manager, .error .runtimeError)
  else manager.aAddMessage args built outcomes

def clearMessages (manager : MessageManager U) : MessageManager U × Except PyError Unit :=
  match manager.system with
  | none => ({ manager with messages := manager.messages.clear.1 }, manager.messages.clear.2)
  | some system =>
    ({ manager with messages := (manager.messages.clear.1.insert 0 (.item system)).1 },
      (manager.messages.clear.1.insert 0 (.item system)).2)

/-! ## The constructor -/

/-- The messages of a list: dictionaries are restored, and what is no message is left out. -/
def collectMessages : List (MessageEntry U ε) → Except (MessageError ε) (List (Message U))
  | [] => .ok []
  | .other :: entries => collectMessages entries
  | .dict (.error e) :: _ => .error (.raised e)
  | .dict (.ok message) :: entries => (collectMessages entries).map (message :: ·)
  | .message message :: entries => (collectMessages entries).map (message :: ·)

/-- The arguments of `add_message(system=system)`. -/
def systemArgs (system : MessageArg U) : MessageArgs U where
  instruction := .none
  assistantResponse := .none
  system := system
  actionFunction := .none
  actionArguments := .none
  actionOutput := .none
  actionRequest := .none
  actionResponse := .none

/-- The constructor. The system is set as an attribute first and then added as a message. -/
def init (entries : List (MessageEntry U ε)) (progression : Option (List U)) (system : MessageArg U)
    (onMessageAdded : List MessageHook) (progressionId : U) (built : Except ε (Built U))
    (outcomes : List (Option ε)) : Except (MessageError ε) (MessageManager U) :=
  match collectMessages entries with
  | .error e => .error e
  | .ok collected =>
    match Pile.new (.ofItems collected) (some [.message]) progression false progressionId with
    | .error e => .error (.container e)
    | .ok messages =>
      match system with
      | .message given =>
        if given.type = .system then
          let manager : MessageManager U := { messages, system := some given, onMessageAdded }
          match manager.addMessage (systemArgs system) built outcomes with
          | (_, .error e) => .error e
          | (manager, .ok _) => .ok manager
        else .error .valueError
      | .truthy => .error .valueError
      | _ => .ok { messages, system := none, onMessageAdded }

end MessageManager

/-! ## Runs -/

/-- A call of a manager with its arguments. -/
inductive ManagerCall (U : Type u) (ε : Type v) where
  | addMessage (args : MessageArgs U) (built : Except ε (Built U)) (outcomes : List (Option ε))
  | aAddMessage (args : MessageArgs U) (built : Except ε (Built U)) (outcomes : List (Option ε))
  | setSystem (system : Message U) (isSystem : system.type = .system)
  | clearMessages

namespace MessageManager

variable {U : Type u} {ε : Type v} [DecidableEq U]

/-- The manager a call leaves behind, whether it returns or raises. -/
def exec (manager : MessageManager U) : ManagerCall U ε → MessageManager U
  | .addMessage args built outcomes => (manager.addMessage args built outcomes).1
  | .aAddMessage args built outcomes => (manager.aAddMessage args built outcomes).1
  | .setSystem system _ => (manager.setSystem system).1
  | .clearMessages => manager.clearMessages.1

end MessageManager

end Lionagi.Protocols
