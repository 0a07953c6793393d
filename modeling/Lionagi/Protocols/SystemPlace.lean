import Lionagi.Library.Transition
import Lionagi.Protocols.MessageManager
import Lionagi.Protocols.PileItem

/-!
# The place of the system message

Between the calls of a manager its system message is in the pile once and first, as long as each system that
comes in is new to the pile and no other message takes its identifier.
-/

universe u v

namespace Lionagi.Protocols

open PySequence

variable {U : Type u} {ε : Type v} [DecidableEq U]

/-! ## What a pile of messages holds -/

/-- The pile is of messages and holds them in an order under their identifiers. -/
structure Pile.Holds (messages : Pile U (Message U) MessageType) (order : List U)
    (contents : U → Option (Message U)) : Prop where
  agrees : messages.Agrees
  itemType : messages.itemType = some [.message]
  strictType : messages.strictType = false
  order_eq : messages.order = order
  get_eq : messages.collections.get? = contents

namespace Pile.Holds

variable {messages : Pile U (Message U) MessageType} {order : List U} {contents : U → Option (Message U)}

theorem admits (h : messages.Holds order contents) (message : Message U) : messages.Admits message := by
  have hadmits : admitItem (some [MessageType.message]) false (.item message : Ref U (Message U)) = .ok message := rfl
  unfold Pile.Admits
  rw [h.itemType, h.strictType]
  exact hadmits

theorem nodup (h : messages.Holds order contents) : order.Nodup := h.order_eq ▸ h.agrees.nodup

theorem withItem (h : messages.Holds order contents) (message : Message U) {order' : List U} (hnodup : order'.Nodup)
    (hmem : ∀ u, u ∈ order' ↔ u = message.id ∨ u ∈ order) :
    (messages.withItem order' message).Holds order' (Function.update contents message.id (some message)) where
  agrees := agrees_withItem h.agrees hnodup fun u ↦ by rw [hmem, h.order_eq]; rfl
  itemType := h.itemType
  strictType := h.strictType
  order_eq := rfl
  get_eq := by
    funext u
    rw [collections_withItem, OrderedDict.get?_set, Function.update_apply, ← h.get_eq]
    rfl

theorem without (h : messages.Holds order contents) (uid : U) :
    (messages.without uid).Holds (order.filter (· ≠ uid)) (Function.update contents uid none) where
  agrees := agrees_without h.agrees uid
  itemType := h.itemType
  strictType := h.strictType
  order_eq := by rw [order_without, h.order_eq]
  get_eq := by
    funext u
    rw [collections_without, OrderedDict.get?_erase, Function.update_apply, ← h.get_eq]

theorem insert (h : messages.Holds order contents) {message : Message U} (hfresh : message.id ∉ order) (index : Int) :
    ∃ inserted, messages.insert index (.item message) = (inserted, .ok ()) ∧
      inserted.Holds (insertAt order index message.id) (Function.update contents message.id (some message)) := by
  have hnew : Observable.id message ∉ messages.order := h.order_eq.symm ▸ hfresh
  refine ⟨_, by rw [insert_of_admits (h.admits message) index, if_neg hnew], ?_⟩
  rw [h.order_eq]
  exact h.withItem message (nodup_insertAt h.nodup hfresh index) (mem_insertAt order index message.id)

theorem insert_of_mem (h : messages.Holds order contents) {message : Message U} (hmem : message.id ∈ order)
    (index : Int) : messages.insert index (.item message) = (messages, .error .itemExistsError) := by
  have hold : Observable.id message ∈ messages.order := h.order_eq.symm ▸ hmem
  rw [insert_of_admits (h.admits message) index, if_pos hold]

theorem includeItem (h : messages.Holds order contents) {message : Message U} (hfresh : message.id ∉ order) :
    ∃ included, messages.includeItem (.item message) = (included, .ok ()) ∧
      included.Holds (order ++ [message.id]) (Function.update contents message.id (some message)) := by
  have hnew : Observable.id message ∉ messages.order := h.order_eq.symm ▸ hfresh
  refine ⟨_, includeItem_of_admits (h.admits message) hnew, ?_⟩
  rw [h.order_eq]
  have hnodup : (order ++ [message.id]).Nodup :=
    List.concat_eq_append ▸ (List.nodup_concat order message.id).2 ⟨hfresh, h.nodup⟩
  refine h.withItem message hnodup fun u ↦ ?_
  rw [List.mem_append, List.mem_singleton]
  exact or_comm

theorem exclude (h : messages.Holds order contents) {uid : U} (hmem : uid ∈ order) {r : Ref U (Message U)}
    (hlist : r.toListType = [r]) (hid : r.validateOrder = .ok [uid]) :
    ∃ excluded, messages.exclude r = (excluded, .ok ()) ∧
      excluded.Holds (order.filter (· ≠ uid)) (Function.update contents uid none) := by
  refine ⟨messages.without uid, ?_, h.without uid⟩
  rw [exclude_one h.agrees hlist hid, if_pos (h.order_eq.symm ▸ hmem)]

theorem clear (h : messages.Holds order contents) : messages.clear.1.Holds [] fun _ ↦ none where
  agrees := agrees_clear messages
  itemType := h.itemType
  strictType := h.strictType
  order_eq := rfl
  get_eq := rfl

/-- A message stays where it was, or comes last. -/
theorem includeOrReplace (h : messages.Holds order contents) (message : Message U) :
    ∃ stored, MessageManager.includeOrReplace messages message = (stored, .ok ()) ∧
      stored.Holds (if message.id ∈ order then order else order ++ [message.id])
        (Function.update contents message.id (some message)) := by
  have hcontains : messages.contains (.item message) = decide (message.id ∈ order) := by
    have hid : (Ref.item message : Ref U (Message U)).validateOrder = .ok [message.id] := rfl
    rw [contains_eq hid, h.order_eq]
  unfold MessageManager.includeOrReplace
  rw [hcontains]
  by_cases hmem : message.id ∈ order
  · obtain ⟨excluded, heq, hexcluded⟩ := h.exclude hmem (r := .uuid message.id) rfl rfl
    have hgone : message.id ∉ order.filter (· ≠ message.id) := fun hleft ↦
      of_decide_eq_true (List.mem_filter.1 hleft).2 rfl
    obtain ⟨stored, hstore, hstored⟩ := hexcluded.insert hgone (order.idxOf message.id : ℕ)
    rw [insertAt_filter_ne h.nodup hmem, Function.update_idem] at hstored
    rw [if_pos hmem, if_pos (decide_eq_true hmem), heq, h.order_eq]
    exact ⟨stored, hstore, hstored⟩
  · rw [if_neg hmem, if_neg (by rw [decide_eq_true_eq]; exact hmem)]
    exact h.includeItem hmem

end Pile.Holds

namespace MessageManager

def order (manager : MessageManager U) : List U := manager.messages.order

/-- The message under an identifier. -/
def get? (manager : MessageManager U) (uid : U) : Option (Message U) := manager.messages.collections.get? uid

/-- The representation of a manager. -/
structure Sound (manager : MessageManager U) : Prop where
  holds : manager.messages.Holds manager.order manager.get?
  system_type : ∀ system, manager.system = some system → system.type = .system

/-- The message is in the pile, once and first. -/
structure Placed (manager : MessageManager U) (system : Message U) : Prop where
  once : manager.order.count system.id = 1
  first : manager.order.head? = some system.id
  itself : manager.get? system.id = some system

/-- The system message has its place. -/
def OnePlace (manager : MessageManager U) : Prop := ∀ system, manager.system = some system → manager.Placed system

/-- The identifier belongs to neither of the two system messages. -/
def Other (before after : MessageManager U) (uid : U) : Prop :=
  before.system.map Message.id ≠ some uid ∧ after.system.map Message.id ≠ some uid

instance (before after : MessageManager U) (uid : U) : Decidable (Other before after uid) :=
  inferInstanceAs (Decidable (_ ∧ _))

/-- The messages that are in both piles and no system messages come in the same order. -/
def KeepsOrder (before after : MessageManager U) : Prop :=
  before.order.filter (fun uid ↦ Other before after uid ∧ uid ∈ after.order) =
    after.order.filter fun uid ↦ Other before after uid ∧ uid ∈ before.order

/-- The message that a call is about, once it has one. -/
def brings (manager : MessageManager U) : ManagerCall U ε → Option (Message U)
  | .addMessage args built _ =>
    if .coroutine ∈ manager.onMessageAdded then none else (createMessage args built).toOption
  | .aAddMessage args built _ => (createMessage args built).toOption
  | .setSystem system _ => some system
  | .clearMessages => none

/-- A message that is there is left at its index. -/
def KeepsPosition (before after : MessageManager U) (call : ManagerCall U ε) : Prop :=
  ∀ message, before.brings call = some message → message.id ∈ before.order →
    after.order.idxOf message.id = before.order.idxOf message.id

/-- A system comes in under a new identifier, unless it is the first message already and no other one is the
system; any other message leaves the identifier of the system alone. -/
def Fits (manager : MessageManager U) (message : Message U) : Prop :=
  if message.type = .system then message.id ∈ manager.order →
    manager.Placed message ∧ (manager.system = none ∨ manager.system = some message)
  else ∀ system, manager.system = some system → message.id ≠ system.id

/-- The message of the call fits in. -/
def Clean (manager : MessageManager U) (call : ManagerCall U ε) : Prop :=
  ∀ message, manager.brings call = some message → manager.Fits message

/-! ## What a call does -/

/-- A new system stands before the others, and the old one is gone. -/
structure Replaces (before : MessageManager U) (system : Message U) (after : MessageManager U) : Prop where
  sound : after.Sound
  system_eq : after.system = some system
  order_eq : after.order = system.id :: before.order.filter fun uid ↦ before.system.map Message.id ≠ some uid
  get_eq : ∀ uid, after.get? uid = if uid = system.id then some system
    else if before.system.map Message.id = some uid then none else before.get? uid

/-- A message is put under its identifier and the system stays. -/
structure Stores (before : MessageManager U) (message : Message U) (after : MessageManager U) : Prop where
  sound : after.Sound
  system_eq : after.system = before.system
  order_eq : after.order = if message.id ∈ before.order then before.order else before.order ++ [message.id]
  get_eq : ∀ uid, after.get? uid = if uid = message.id then some message else before.get? uid

/-- Only the system is left. -/
structure Clears (before after : MessageManager U) : Prop where
  sound : after.Sound
  system_eq : after.system = before.system
  order_eq : after.order = (before.system.map Message.id).toList
  get_eq : ∀ uid, after.get? uid = before.system.filter fun system ↦ system.id = uid

variable {manager : MessageManager U}

theorem sound_of_holds {messages : Pile U (Message U) MessageType} {order : List U}
    {contents : U → Option (Message U)} {system : Option (Message U)} {onMessageAdded : List MessageHook}
    (h : messages.Holds order contents) (hsystem : ∀ s, system = some s → s.type = .system) :
    Sound { messages, system, onMessageAdded } where
  holds := by
    have horder : order = messages.order := h.order_eq.symm
    have hget : contents = messages.collections.get? := h.get_eq.symm
    subst horder hget
    exact h
  system_type := hsystem

variable {message system : Message U}

theorem setSystem_of_mem (h : manager.Sound) (hmem : system.id ∈ manager.order) :
    manager.setSystem system = ({ manager with system := some system }, .error .itemExistsError) := by
  have hinsert := h.holds.insert_of_mem hmem 0
  unfold setSystem
  split
  · rw [hinsert]
  · rw [hinsert]

theorem setSystem_of_not_mem (h : manager.Sound) (hplace : manager.OnePlace) (htype : system.type = .system)
    (hfresh : system.id ∉ manager.order) :
    ∃ after, manager.setSystem system = (after, .ok ()) ∧ manager.Replaces system after := by
  obtain ⟨inserted, heq, hinserted⟩ := h.holds.insert hfresh 0
  have hfirst : insertAt manager.order 0 system.id = system.id :: manager.order := by
    rw [insertAt, insertPos, if_neg (by omega), Int.toNat_zero, Nat.zero_min]
    rfl
  have hsystems : ∀ s, some system = some s → s.type = .system := by
    intro s hs
    cases hs
    exact htype
  rw [hfirst] at hinserted
  unfold setSystem
  cases hold : manager.system with
  | none =>
    refine ⟨{ manager with system := some system, messages := inserted }, by rw [heq], ?_⟩
    exact {
      sound := sound_of_holds hinserted hsystems
      system_eq := rfl
      order_eq := by
        have hkept : manager.order.filter (fun uid ↦ Option.map Message.id none ≠ some uid) = manager.order :=
          List.filter_eq_self.2 fun uid _ ↦ rfl
        rw [hold, hkept]
        exact hinserted.order_eq
      get_eq := fun uid ↦ by
        rw [hold, Option.map_none, if_neg (Option.some_ne_none uid).symm]
        exact (congrFun hinserted.get_eq uid).trans (Function.update_apply _ _ _ _) }
  | some old =>
    have hmem : old.id ∈ manager.order := List.mem_of_mem_head? (hplace old hold).first
    have hne : system.id ≠ old.id := fun hid ↦ hfresh (hid ▸ hmem)
    obtain ⟨excluded, hexclude, hexcluded⟩ :=
      hinserted.exclude (List.mem_cons_of_mem _ hmem) (r := .item old) rfl rfl
    refine ⟨{ manager with system := some system, messages := excluded }, by simp only [heq, hexclude], ?_⟩
    exact {
      sound := sound_of_holds hexcluded hsystems
      system_eq := rfl
      order_eq := by
        have hkept : (system.id :: manager.order).filter (· ≠ old.id) =
            system.id :: manager.order.filter fun uid ↦ some old.id ≠ some uid := by
          rw [List.filter_cons_of_pos (by simpa using hne)]
          exact congrArg _ (List.filter_congr fun uid _ ↦ by simp [eq_comm])
        rw [hold]
        exact hexcluded.order_eq.trans hkept
      get_eq := fun uid ↦ by
        have hget := congrFun hexcluded.get_eq uid
        rw [Function.update_apply, Function.update_apply] at hget
        rw [hold]
        refine hget.trans ?_
        by_cases hsystem : uid = system.id
        · rw [if_pos hsystem, if_pos hsystem, if_neg (hsystem ▸ hne)]
        · rw [if_neg hsystem, if_neg hsystem]
          exact if_congr (by rw [Option.map_some, Option.some.injEq, eq_comm]) rfl rfl }

variable {after before : MessageManager U}

theorem Replaces.mem (h : before.Replaces system after) : system.id ∈ after.order := by
  rw [h.order_eq]
  exact List.mem_cons_self

theorem store_system_of_mem (h : manager.Sound) (hmem : system.id ∈ manager.order) :
    manager.store true system = ({ manager with system := some system }, .error .itemExistsError) := by
  unfold store
  rw [if_pos rfl, setSystem_of_mem h hmem]

theorem store_system_of_not_mem (h : manager.Sound) (hplace : manager.OnePlace) (htype : system.type = .system)
    (hfresh : system.id ∉ manager.order) :
    ∃ after, manager.store true system = (after, .ok ()) ∧ manager.Replaces system after := by
  obtain ⟨replaced, heq, hreplaced⟩ := setSystem_of_not_mem h hplace htype hfresh
  obtain ⟨stored, hstore, hstored⟩ := hreplaced.sound.holds.includeOrReplace system
  rw [if_pos hreplaced.mem] at hstored
  have hsame : Function.update replaced.get? system.id (some system) = replaced.get? := by
    rw [Function.update_eq_self_iff, hreplaced.get_eq, if_pos rfl]
  rw [hsame] at hstored
  refine ⟨{ replaced with messages := stored }, ?_, ?_⟩
  · unfold store
    rw [if_pos rfl, heq]
    simp only [hstore]
  · exact {
      sound := sound_of_holds hstored hreplaced.sound.system_type
      system_eq := hreplaced.system_eq
      order_eq := hstored.order_eq.trans hreplaced.order_eq
      get_eq := fun uid ↦ (congrFun hstored.get_eq uid).trans (hreplaced.get_eq uid) }

theorem store_other (h : manager.Sound) (message : Message U) :
    ∃ after, manager.store false message = (after, .ok ()) ∧ manager.Stores message after := by
  obtain ⟨stored, hstore, hstored⟩ := h.holds.includeOrReplace message
  refine ⟨{ manager with messages := stored }, ?_, ?_⟩
  · unfold store
    rw [if_neg Bool.false_ne_true]
    simp only [hstore]
  · exact {
      sound := sound_of_holds hstored h.system_type
      system_eq := rfl
      order_eq := hstored.order_eq
      get_eq := fun uid ↦ (congrFun hstored.get_eq uid).trans (Function.update_apply _ _ _ _) }

theorem clears_clearMessages (h : manager.Sound) : manager.Clears manager.clearMessages.1 := by
  have hcleared := h.holds.clear
  unfold clearMessages
  split
  · next hsystem => exact {
      sound := sound_of_holds hcleared h.system_type
      system_eq := rfl
      order_eq := by rw [hsystem]; rfl
      get_eq := fun uid ↦ by rw [hsystem]; rfl }
  · next system hsystem =>
    obtain ⟨inserted, heq, hinserted⟩ := hcleared.insert (List.not_mem_nil (a := system.id)) 0
    rw [heq]
    exact {
      sound := sound_of_holds hinserted h.system_type
      system_eq := rfl
      order_eq := by rw [hsystem]; exact hinserted.order_eq
      get_eq := fun uid ↦ by
        rw [hsystem, Option.filter_some]
        refine (congrFun hinserted.get_eq uid).trans ?_
        rw [Function.update_apply]
        exact if_congr (by rw [decide_eq_true_eq, eq_comm]) rfl rfl }

/-! ## The steps of a run -/

variable {built : Except ε (Built U)}

omit [DecidableEq U] in
theorem create_type {type : MessageType} {arg : MessageArg U} (h : create type arg built = .ok message) :
    message.type = type := by
  unfold create at h
  split at h
  · cases h
  · next given =>
    cases h
    split
    · next hgiven => exact hgiven
    · rfl
  · cases h
    rfl

variable {args : MessageArgs U}

omit [DecidableEq U] in
/-- The message created is a system exactly when one was asked for. -/
theorem createMessage_type (h : createMessage args built = .ok message) :
    message.type = .system ↔ args.system.isTruthy = true := by
  unfold createMessage at h
  split at h
  · cases h
  by_cases hsystem : args.system.isTruthy = true
  · rw [if_pos hsystem] at h
    exact iff_of_true (create_type h) hsystem
  rw [if_neg hsystem] at h
  refine iff_of_false ?_ hsystem
  split at h
  · unfold createActionResponse at h
    split at h
    · rw [create_type h]
      decide
    · cases h
  split at h
  · rw [createActionRequest] at h
    rw [create_type h]
    decide
  split at h
  · rw [createAssistantResponse] at h
    rw [create_type h]
    decide
  · rw [createInstruction] at h
    rw [create_type h]
    decide

theorem aAddMessage_of_some (h : (createMessage args built).toOption = some message) (outcomes : List (Option ε)) :
    (manager.aAddMessage args built outcomes).1 = (manager.store (decide (message.type = .system)) message).1 := by
  have h : createMessage args built = .ok message := by
    cases hcreate : createMessage args built with
    | error e =>
      rw [hcreate] at h
      cases h
    | ok created =>
      rw [hcreate] at h
      exact congrArg _ (Option.some.inj h)
  have hsystem : args.system.isTruthy = decide (message.type = .system) := by
    rw [Bool.eq_iff_iff, decide_eq_true_eq, createMessage_type h]
  unfold aAddMessage
  rw [h, hsystem]
  simp only
  split <;> simp only [*]

theorem aAddMessage_of_none (h : (createMessage args built).toOption = none) (outcomes : List (Option ε)) :
    (manager.aAddMessage args built outcomes).1 = manager := by
  unfold aAddMessage
  cases hcreate : createMessage args built with
  | error e => rfl
  | ok created =>
    rw [hcreate] at h
    cases h

variable {call : ManagerCall U ε}

/-- A call that has a message stores it or sets it as the system. -/
theorem exec_of_brings (h : manager.brings call = some message) :
    manager.exec call = (manager.store (decide (message.type = .system)) message).1 ∨
      message.type = .system ∧ manager.exec call = (manager.setSystem message).1 := by
  cases call with
  | addMessage args built outcomes =>
    rw [brings] at h
    split at h
    · cases h
    · next hhooks =>
      left
      rw [exec, addMessage, if_neg hhooks]
      exact aAddMessage_of_some h outcomes
  | aAddMessage args built outcomes => exact .inl (aAddMessage_of_some h outcomes)
  | setSystem system isSystem =>
    cases h
    exact .inr ⟨isSystem, rfl⟩
  | clearMessages => cases h

/-- Any other call changes nothing, unless it clears the messages. -/
theorem exec_of_not_brings (h : manager.brings call = none) :
    manager.exec call = manager ∨ manager.exec call = manager.clearMessages.1 := by
  cases call with
  | addMessage args built outcomes =>
    rw [brings] at h
    rw [exec, addMessage]
    split at h
    · next hhooks =>
      rw [if_pos hhooks]
      exact .inl rfl
    · next hhooks =>
      rw [if_neg hhooks]
      exact .inl (aAddMessage_of_none h outcomes)
  | aAddMessage args built outcomes => exact .inl (aAddMessage_of_none h outcomes)
  | setSystem system isSystem => cases h
  | clearMessages => exact .inr rfl

/-- What a call does to a manager whose system has its place. -/
theorem exec_cases (h : manager.Sound) (hplace : manager.OnePlace) (call : ManagerCall U ε) :
    manager.brings call = none ∧ (manager.exec call = manager ∨ manager.Clears (manager.exec call)) ∨
      ∃ message, manager.brings call = some message ∧
        (message.type = .system ∧ message.id ∈ manager.order ∧
            manager.exec call = { manager with system := some message } ∨
          message.type = .system ∧ message.id ∉ manager.order ∧ manager.Replaces message (manager.exec call) ∨
            message.type ≠ .system ∧ manager.Stores message (manager.exec call)) := by
  cases hbrings : manager.brings call with
  | none =>
    refine .inl ⟨rfl, ?_⟩
    rcases exec_of_not_brings hbrings with heq | heq
    · exact .inl heq
    · rw [heq]
      exact .inr (clears_clearMessages h)
  | some message =>
    refine .inr ⟨message, rfl, ?_⟩
    by_cases htype : message.type = .system
    · by_cases hmem : message.id ∈ manager.order
      · refine .inl ⟨htype, hmem, ?_⟩
        rcases exec_of_brings hbrings with heq | ⟨-, heq⟩
        · rw [heq, decide_eq_true htype, store_system_of_mem h hmem]
        · rw [heq, setSystem_of_mem h hmem]
      · refine .inr (.inl ⟨htype, hmem, ?_⟩)
        rcases exec_of_brings hbrings with heq | ⟨-, heq⟩
        · obtain ⟨after, hstore, hreplaces⟩ := store_system_of_not_mem h hplace htype hmem
          rw [heq, decide_eq_true htype, hstore]
          exact hreplaces
        · obtain ⟨after, hset, hreplaces⟩ := setSystem_of_not_mem h hplace htype hmem
          rw [heq, hset]
          exact hreplaces
    · refine .inr (.inr ⟨htype, ?_⟩)
      obtain ⟨after, hstore, hstores⟩ := store_other h message
      rcases exec_of_brings hbrings with heq | ⟨hsystem, -⟩
      · rw [heq, decide_eq_false htype, hstore]
        exact hstores
      · exact absurd hsystem htype

/-! ## The steps keep the place, the order and the positions -/

theorem Replaces.onePlace (h : before.Replaces system after) (hfresh : system.id ∉ before.order) : after.OnePlace := by
  intro s hs
  rw [h.system_eq] at hs
  cases hs
  have hrest : system.id ∉ before.order.filter fun uid ↦ before.system.map Message.id ≠ some uid :=
    fun hmem ↦ hfresh (List.mem_of_mem_filter hmem)
  exact {
    once := by rw [h.order_eq, List.count_cons_self, List.count_eq_zero_of_not_mem hrest]
    first := by rw [h.order_eq]; rfl
    itself := by rw [h.get_eq, if_pos rfl] }

theorem Stores.onePlace_iff (h : before.Stores message after) (hsound : before.Sound) (hplace : before.OnePlace)
    (htype : message.type ≠ .system) :
    after.OnePlace ↔ ∀ system, before.system = some system → message.id ≠ system.id := by
  constructor
  · intro hafter system hsystem hid
    have hitself := (hafter system (h.system_eq.trans hsystem)).itself
    rw [h.get_eq, if_pos hid.symm] at hitself
    exact htype (Option.some.inj hitself ▸ hsound.system_type system hsystem)
  · intro hne system hsystem
    rw [h.system_eq] at hsystem
    have hplaced := hplace system hsystem
    exact {
      once := by
        rw [h.order_eq]
        split
        · exact hplaced.once
        · rw [List.count_append, hplaced.once, List.count_singleton, if_neg (by simpa using hne system hsystem)]
      first := by
        rw [h.order_eq]
        split
        · exact hplaced.first
        · rw [List.head?_append, hplaced.first]
          rfl
      itself := by
        rw [h.get_eq, if_neg (hne system hsystem).symm]
        exact hplaced.itself }

theorem Clears.onePlace (h : before.Clears after) : after.OnePlace := by
  intro system hsystem
  rw [h.system_eq] at hsystem
  have horder : after.order = [system.id] := by
    rw [h.order_eq, hsystem]
    rfl
  exact {
    once := by rw [horder, List.count_singleton_self]
    first := by rw [horder]; rfl
    itself := by rw [h.get_eq, hsystem, Option.filter_some, if_pos (decide_eq_true rfl)] }

theorem Placed.unique {first second : Message U} (hfirst : manager.Placed first) (hsecond : manager.Placed second) :
    first = second := by
  have hid : first.id = second.id := Option.some.inj (hfirst.first.symm.trans hsecond.first)
  exact Option.some.inj (hfirst.itself.symm.trans (hid ▸ hsecond.itself))

/-- Naming a message that is there as the system is right when it has the place already. -/
theorem onePlace_named_iff (hplace : manager.OnePlace) :
    OnePlace { manager with system := some system } ↔
      manager.Placed system ∧ (manager.system = none ∨ manager.system = some system) := by
  constructor
  · intro hnamed
    have hplaced : manager.Placed system := by
      obtain ⟨honce, hfirst, hitself⟩ := hnamed system rfl
      exact ⟨honce, hfirst, hitself⟩
    refine ⟨hplaced, ?_⟩
    cases hold : manager.system with
    | none => exact .inl rfl
    | some old => exact .inr (congrArg some ((hplace old hold).unique hplaced))
  · rintro ⟨⟨honce, hfirst, hitself⟩, -⟩ s hs
    cases hs
    exact ⟨honce, hfirst, hitself⟩

/-- The system has its place after a call exactly when the message of the call fits in. -/
theorem onePlace_exec_iff (h : manager.Sound) (hplace : manager.OnePlace) (call : ManagerCall U ε) :
    (manager.exec call).OnePlace ↔ manager.Clean call := by
  have hnothing (hbrings : manager.brings call = none) : manager.Clean call := by
    intro message hsome
    rw [hbrings] at hsome
    cases hsome
  have hfits {message : Message U} (hbrings : manager.brings call = some message) :
      manager.Fits message ↔ manager.Clean call := by
    constructor
    · intro hfits other hother
      rw [hbrings] at hother
      cases hother
      exact hfits
    · exact fun hclean ↦ hclean message hbrings
  rcases exec_cases h hplace call with ⟨hbrings, heq | hclears⟩ | ⟨message, hbrings, hcase⟩
  · rw [heq]
    exact iff_of_true hplace (hnothing hbrings)
  · exact iff_of_true hclears.onePlace (hnothing hbrings)
  rw [← hfits hbrings, Fits]
  rcases hcase with ⟨htype, hmem, heq⟩ | ⟨htype, hfresh, hreplaces⟩ | ⟨htype, hstores⟩
  · rw [if_pos htype, heq, onePlace_named_iff hplace]
    exact ⟨fun hplaced _ ↦ hplaced, fun hplaced ↦ hplaced hmem⟩
  · rw [if_pos htype]
    exact iff_of_true (hreplaces.onePlace hfresh) fun hmem ↦ absurd hmem hfresh
  · rw [if_neg htype]
    exact hstores.onePlace_iff h hplace htype

theorem keepsOrder_of_order_eq (h : after.order = manager.order) : manager.KeepsOrder after := by
  rw [KeepsOrder, h]

/-- When the others all stay, it is enough that nothing moves among them. -/
theorem keepsOrder_of_kept (hkept : ∀ uid ∈ before.order, Other before after uid → uid ∈ after.order)
    (hrest : after.order.filter (fun uid ↦ Other before after uid ∧ uid ∈ before.order) =
      before.order.filter fun uid ↦ Other before after uid) : before.KeepsOrder after := by
  rw [KeepsOrder, hrest]
  refine List.filter_congr fun uid hmem ↦ decide_eq_decide.2 ⟨And.left, fun hother ↦ ?_⟩
  exact ⟨hother, hkept uid hmem hother⟩

theorem Replaces.keepsOrder (h : before.Replaces system after) : before.KeepsOrder after := by
  have hnew : ¬ (Other before after system.id ∧ system.id ∈ before.order) := by
    rintro ⟨⟨-, hother⟩, -⟩
    exact hother (h.system_eq ▸ rfl)
  refine keepsOrder_of_kept (fun uid hmem hother ↦ ?_) ?_
  · rw [h.order_eq]
    exact List.mem_cons_of_mem _ (List.mem_filter.2 ⟨hmem, decide_eq_true hother.1⟩)
  · rw [h.order_eq, List.filter_cons_of_neg (by rw [decide_eq_true_eq]; exact hnew), List.filter_filter]
    refine List.filter_congr fun uid hmem ↦ ?_
    rw [← Bool.decide_and]
    exact decide_eq_decide.2 ⟨fun hboth ↦ hboth.1.1, fun hother ↦ ⟨⟨hother, hmem⟩, hother.1⟩⟩

theorem Stores.keepsOrder (h : before.Stores message after) : before.KeepsOrder after := by
  have horder := h.order_eq
  split at horder
  · exact keepsOrder_of_order_eq horder
  · next hfresh =>
    refine keepsOrder_of_kept (fun uid hmem _ ↦ ?_) ?_
    · rw [horder]
      exact List.mem_append_left _ hmem
    · rw [horder, List.filter_append, List.filter_cons_of_neg (by simp [hfresh]), List.filter_nil, List.append_nil]
      exact List.filter_congr fun uid hmem ↦ decide_eq_decide.2 (and_iff_left hmem)

theorem Clears.keepsOrder (h : before.Clears after) : before.KeepsOrder after := by
  have hnone : ∀ uid ∈ after.order, ¬ Other before after uid := by
    intro uid hmem hother
    rw [h.order_eq, Option.mem_toList] at hmem
    exact hother.1 hmem
  have hleft : before.order.filter (fun uid ↦ Other before after uid ∧ uid ∈ after.order) = [] :=
    List.filter_eq_nil_iff.2 fun uid _ hboth ↦ hnone uid (of_decide_eq_true hboth).2 (of_decide_eq_true hboth).1
  have hright : after.order.filter (fun uid ↦ Other before after uid ∧ uid ∈ before.order) = [] :=
    List.filter_eq_nil_iff.2 fun uid hmem hboth ↦ hnone uid hmem (of_decide_eq_true hboth).1
  rw [KeepsOrder, hleft, hright]

/-- No call moves a message that is there, and the order of the others stays. -/
theorem keeps_exec (h : manager.Sound) (hplace : manager.OnePlace) (call : ManagerCall U ε) :
    manager.KeepsOrder (manager.exec call) ∧ manager.KeepsPosition (manager.exec call) call := by
  rcases exec_cases h hplace call with ⟨hbrings, heq | hclears⟩ | ⟨message, hbrings, hcase⟩
  · rw [heq]
    exact ⟨keepsOrder_of_order_eq rfl, fun _ _ _ ↦ rfl⟩
  · refine ⟨hclears.keepsOrder, fun _ hsome ↦ ?_⟩
    rw [hbrings] at hsome
    cases hsome
  rcases hcase with ⟨-, -, heq⟩ | ⟨-, hfresh, hreplaces⟩ | ⟨-, hstores⟩
  · rw [heq]
    exact ⟨keepsOrder_of_order_eq rfl, fun _ _ _ ↦ rfl⟩
  · refine ⟨hreplaces.keepsOrder, fun other hsome hmem ↦ ?_⟩
    rw [hbrings] at hsome
    cases hsome
    exact absurd hmem hfresh
  · refine ⟨hstores.keepsOrder, fun other hsome hmem ↦ ?_⟩
    rw [hbrings] at hsome
    cases hsome
    rw [hstores.order_eq, if_pos hmem]

end MessageManager

/-! ## Runs -/

/-- A manager with the messages that have been its system. -/
structure WatchedManager (U : Type u) where
  manager : MessageManager U
  former : List (Message U)

namespace WatchedManager

def exec (watched : WatchedManager U) (call : ManagerCall U ε) : WatchedManager U where
  manager := watched.manager.exec call
  former := watched.manager.system.toList ++ watched.former

/-- No message that was the system and is it no more is left in the pile. -/
def NoneLeft (watched : WatchedManager U) : Prop :=
  ∀ old ∈ watched.former, watched.manager.system ≠ some old → watched.manager.get? old.id ≠ some old

/-- The system has its place and the ones it has replaced are gone. -/
def SystemPlaced (watched : WatchedManager U) : Prop := watched.manager.OnePlace ∧ watched.NoneLeft

/-- What clean calls keep. -/
structure Kept (watched : WatchedManager U) : Prop where
  sound : watched.manager.Sound
  placed : watched.SystemPlaced
  former_type : ∀ old ∈ watched.former, old.type = .system

variable {watched : WatchedManager U}

theorem Kept.former_type_exec (h : watched.Kept) (call : ManagerCall U ε) :
    ∀ old ∈ (watched.exec call).former, old.type = .system := by
  intro old hold
  rcases List.mem_append.1 hold with hsystem | hformer
  · exact h.sound.system_type old (Option.mem_toList.1 hsystem)
  · exact h.former_type old hformer

variable {call : ManagerCall U ε}

/-- The systems so far are gone, up to the one at hand. -/
theorem Kept.gone (h : watched.Kept) {old : Message U} (hold : old ∈ (watched.exec call).former)
    (hother : watched.manager.system ≠ some old) : watched.manager.get? old.id ≠ some old := by
  rcases List.mem_append.1 hold with hsystem | hformer
  · exact absurd (Option.mem_toList.1 hsystem) hother
  · exact h.placed.2 old hformer hother

theorem Kept.exec (h : watched.Kept) (hclean : watched.manager.Clean call) : (watched.exec call).Kept := by
  have hplaced := (MessageManager.onePlace_exec_iff h.sound h.placed.1 call).2 hclean
  have htype := h.former_type_exec call
  suffices hrest : (watched.manager.exec call).Sound ∧ (watched.exec call).NoneLeft from
    ⟨hrest.1, ⟨hplaced, hrest.2⟩, htype⟩
  rcases MessageManager.exec_cases h.sound h.placed.1 call with
    ⟨-, heq | hclears⟩ | ⟨message, hbrings, ⟨hsystem, hmem, heq⟩ | ⟨hsystem, hfresh, hreplaces⟩ | ⟨hother, hstores⟩⟩
  · refine ⟨by rw [heq]; exact h.sound, fun old hold hne ↦ ?_⟩
    change (watched.manager.exec call).system ≠ some old at hne
    change (watched.manager.exec call).get? old.id ≠ some old
    rw [heq] at hne ⊢
    exact h.gone hold hne
  · refine ⟨hclears.sound, fun old _ hne hget ↦ ?_⟩
    have hfilter := (hclears.get_eq old.id).symm.trans hget
    exact hne (hclears.system_eq.trans (Option.filter_eq_some_iff.1 hfilter).1)
  · have hfits := hclean message hbrings
    rw [MessageManager.Fits, if_pos hsystem] at hfits
    refine ⟨?_, fun old hold hne ↦ ?_⟩
    · rw [heq]
      refine MessageManager.sound_of_holds h.sound.holds fun s hs ↦ ?_
      cases hs
      exact hsystem
    · change (watched.manager.exec call).system ≠ some old at hne
      change (watched.manager.exec call).get? old.id ≠ some old
      rw [heq] at hne ⊢
      apply h.gone hold
      rcases (hfits hmem).2 with hnone | hsame
      · rw [hnone]
        exact (Option.some_ne_none old).symm
      · rw [hsame]
        exact hne
  · refine ⟨hreplaces.sound, fun old hold hne hget ↦ ?_⟩
    have hget := (hreplaces.get_eq old.id).symm.trans hget
    split at hget
    · exact hne (hreplaces.system_eq.trans hget)
    split at hget
    · cases hget
    · next hid => exact h.gone hold (fun hsame ↦ hid (by rw [hsame]; rfl)) hget
  · refine ⟨hstores.sound, fun old hold hne hget ↦ ?_⟩
    have hget := (hstores.get_eq old.id).symm.trans hget
    split at hget
    · exact hother (Option.some.inj hget ▸ htype old hold)
    · exact h.gone hold (fun hsame ↦ hne (hstores.system_eq.trans hsame)) hget

end WatchedManager

/-! ## The constructor -/

variable {itemType : Option (List MessageType)} {order : Option (List U)} {strictType : Bool} {progressionId : U}
  {p : Pile U (Message U) MessageType}

theorem Pile.new_types {collections : Ref U (Message U)}
    (h : Pile.new collections itemType order strictType progressionId = .ok p) :
    p.itemType = itemType ∧ p.strictType = strictType := by
  unfold Pile.new at h
  split at h
  · cases h
  split at h
  · cases h
  · cases h
    exact ⟨rfl, rfl⟩

theorem Pile.mem_admitAll {refs : List (Ref U (Message U))} {start collections : OrderedDict U (Message U)}
    (h : admitAll itemType strictType refs start = .ok collections) {uid : U} (hmem : uid ∈ start) :
    uid ∈ collections := by
  induction refs generalizing start with
  | nil =>
    cases h
    exact hmem
  | cons r refs ih =>
    rw [admitAll] at h
    split at h
    · cases h
    · exact ih h ((OrderedDict.mem_set _ _ _ _).2 (.inr hmem))

/-- A new pile is empty when it is built from nothing. -/
theorem Pile.new_order_eq_nil_iff {messages : List (Message U)}
    (h : Pile.new (.ofItems messages) itemType order strictType progressionId = .ok p) :
    p.order = [] ↔ messages = [] := by
  have hagrees := agrees_new h
  unfold Pile.new at h
  split at h
  · cases h
  next collections hcollections =>
  split at h
  · cases h
  cases h
  cases messages with
  | nil =>
    cases hcollections
    exact iff_of_true (List.eq_nil_iff_forall_not_mem.2 fun uid hmem ↦
      OrderedDict.not_mem_empty uid ((hagrees.mem_iff uid).1 hmem)) rfl
  | cons message messages =>
    refine iff_of_false (fun hnil ↦ ?_) (List.cons_ne_nil _ _)
    have hadmits : admitAll itemType strictType (Ref.item message :: messages.map Ref.item) OrderedDict.empty =
        .ok collections := hcollections
    rw [admitAll] at hadmits
    split at hadmits
    · cases hadmits
    · have hmem := (hagrees.mem_iff _).2 (mem_admitAll hadmits ((OrderedDict.mem_set _ _ _ _).2 (.inl rfl)))
      rw [hnil] at hmem
      cases hmem

namespace MessageManager

variable {manager : MessageManager U}
variable {given message : Message U} {built : Except ε (Built U)}

omit [DecidableEq U] in
theorem createMessage_systemArgs (htype : given.type = .system)
    (h : createMessage (systemArgs (.message given)) built = .ok message) : message = given := by
  have hcreate : createMessage (systemArgs (.message given)) built = create .system (.message given) built := rfl
  rw [hcreate] at h
  cases built with
  | error e => cases h
  | ok built =>
    rw [create, if_pos htype] at h
    exact (Except.ok.inj h).symm

variable {after : MessageManager U}

/-- A system that is the system already when it is stored goes behind the others. -/
theorem store_own_system (h : manager.Sound) (hsystem : manager.system = some given)
    (hstore : manager.store true given = (after, .ok ())) :
    given.id ∉ manager.order ∧ after.Sound ∧ after.system = some given ∧
      after.order = manager.order ++ [given.id] ∧ after.get? given.id = some given := by
  by_cases hmem : given.id ∈ manager.order
  · rw [store_system_of_mem h hmem] at hstore
    cases hstore
  refine ⟨hmem, ?_⟩
  obtain ⟨inserted, hinsert, hinserted⟩ := h.holds.insert hmem 0
  obtain ⟨excluded, hexclude, hexcluded⟩ := hinserted.exclude (r := .item given)
    ((mem_insertAt manager.order 0 given.id given.id).2 (.inl rfl)) rfl rfl
  have hleft : (insertAt manager.order 0 given.id).filter (· ≠ given.id) = manager.order := by
    rw [insertAt, filter_insertIdx _ (by simp)]
    exact List.filter_eq_self.2 fun uid huid ↦ decide_eq_true fun heq ↦ hmem (heq ▸ huid)
  rw [hleft] at hexcluded
  obtain ⟨stored, hput, hstored⟩ := hexcluded.includeOrReplace given
  rw [if_neg hmem] at hstored
  have hset : manager.setSystem given = ({ manager with system := some given, messages := excluded }, .ok ()) := by
    unfold setSystem
    rw [hsystem]
    simp only [hinsert, hexclude]
  unfold store at hstore
  rw [if_pos rfl, hset] at hstore
  simp only [hput] at hstore
  cases hstore
  refine ⟨sound_of_holds hstored fun s hs ↦ ?_, rfl, hstored.order_eq, ?_⟩
  · cases hs
    exact h.system_type given hsystem
  · exact (congrFun hstored.get_eq given.id).trans (Function.update_self _ _ _)

variable {outcomes : List (Option ε)}

/-- Adding the system that returns has stored it. -/
theorem store_of_addMessage (htype : given.type = .system)
    (h : manager.addMessage (systemArgs (.message given)) built outcomes = (after, .ok message)) :
    manager.store true given = (after, .ok ()) := by
  unfold addMessage at h
  split at h
  · cases h
  unfold aAddMessage at h
  split at h
  · cases h
  next created hcreate =>
  cases createMessage_systemArgs htype hcreate
  split at h
  · cases h
  · next stored hstore =>
    have hafter : stored = after := congrArg Prod.fst h
    rw [← hafter]
    exact hstore

/-- A new manager has no system, or has it behind the messages of the list. -/
theorem init_cases {entries : List (MessageEntry U ε)} {progression : Option (List U)} {system : MessageArg U}
    {onMessageAdded : List MessageHook}
    (h : init entries progression system onMessageAdded progressionId built outcomes = .ok manager) :
    manager.Sound ∧ (system.isTruthy = false ∧ manager.system = none ∨
      ∃ given order, system = .message given ∧ manager.system = some given ∧ given.id ∉ order ∧
        manager.order = order ++ [given.id] ∧ manager.get? given.id = some given ∧
          (order = [] ↔ collectMessages entries = .ok [])) := by
  unfold init at h
  split at h
  · cases h
  next collected hcollected =>
  split at h
  · cases h
  next messages hnew =>
  have htypes := Pile.new_types hnew
  have hholds : messages.Holds messages.order messages.collections.get? :=
    ⟨Pile.agrees_new hnew, htypes.1, htypes.2, rfl, rfl⟩
  have hempty : messages.order = [] ↔ collectMessages entries = .ok [] := by
    rw [Pile.new_order_eq_nil_iff hnew, hcollected, Except.ok.injEq]
  split at h
  · next given =>
    split at h
    · next htype =>
      simp only at h
      split at h
      · cases h
      next after message hadd =>
      cases h
      have hstart : Sound { messages, system := some given, onMessageAdded } := sound_of_holds hholds fun s hs ↦ by
        cases hs
        exact htype
      obtain ⟨hfresh, hsound, hsystem, horder, hget⟩ := store_own_system hstart rfl (store_of_addMessage htype hadd)
      exact ⟨hsound, .inr ⟨given, messages.order, rfl, hsystem, hfresh, horder, hget, hempty⟩⟩
    · cases h
  · cases h
  · next hfalsy hmessage =>
    cases h
    refine ⟨sound_of_holds hholds fun _ hs ↦ absurd hs (Option.some_ne_none _).symm, .inl ⟨?_, rfl⟩⟩
    cases system with
    | none => rfl
    | falsy => rfl
    | truthy => exact absurd rfl hmessage
    | message given => exact absurd rfl (hfalsy given)

section Run

variable {entries : List (MessageEntry U ε)} {progression : Option (List U)} {system : MessageArg U}
  {onMessageAdded : List MessageHook} {progressionId : U} {built : Except ε (Built U)} {outcomes : List (Option ε)}

/-- The system of a new manager has its place when there is none, or nothing else. -/
theorem onePlace_init_iff
    (h : init entries progression system onMessageAdded progressionId built outcomes = .ok manager) :
    manager.OnePlace ↔ (system.isTruthy = true → collectMessages entries = .ok []) := by
  rcases (init_cases h).2 with ⟨hfalsy, hnone⟩ | ⟨given, order, rfl, hsystem, hfresh, horder, hget, hempty⟩
  · refine iff_of_true (fun s hs ↦ ?_) fun htruthy ↦ ?_
    · rw [hnone] at hs
      cases hs
    · rw [hfalsy] at htruthy
      cases htruthy
  · rw [← hempty]
    constructor
    · intro hplace _
      have hfirst := (hplace given hsystem).first
      cases order with
      | nil => rfl
      | cons uid rest =>
        rw [horder] at hfirst
        exact absurd (Option.some.inj hfirst ▸ List.mem_cons_self) hfresh
    · intro hnil s hs
      rw [hsystem] at hs
      cases hs
      have honly : manager.order = [given.id] := by
        rw [horder, hnil rfl]
        rfl
      exact {
        once := by rw [honly, List.count_singleton_self]
        first := by rw [honly]; rfl
        itself := hget }

/-- In every state of a run the system has its place and the ones it has replaced are gone, and every call keeps
the order of the others and the index of a message that it adds again, exactly when a system given to the
constructor comes without messages and the message of every call fits in. -/
theorem systemPlaced_iff
    (h : init entries progression system onMessageAdded progressionId built outcomes = .ok manager)
    (calls : List (ManagerCall U ε)) :
    Transition.Throughout WatchedManager.exec WatchedManager.SystemPlaced ⟨manager, []⟩ calls ∧
        Transition.Along WatchedManager.exec (fun watched call ↦
          watched.manager.KeepsOrder (watched.exec call).manager ∧
            watched.manager.KeepsPosition (watched.exec call).manager call) ⟨manager, []⟩ calls ↔
      (system.isTruthy = true → collectMessages entries = .ok []) ∧
        Transition.Along WatchedManager.exec (fun watched call ↦ watched.manager.Clean call) ⟨manager, []⟩ calls := by
  rw [← onePlace_init_iff h]
  by_cases hplace : manager.OnePlace
  swap
  · exact iff_of_false (fun hrun ↦ hplace hrun.1.start.1) fun hrun ↦ hplace hrun.1
  have hkept : WatchedManager.Kept ⟨manager, []⟩ := {
    sound := (init_cases h).1
    placed := ⟨hplace, fun old hold ↦ absurd hold List.not_mem_nil⟩
    former_type := fun old hold ↦ absurd hold List.not_mem_nil }
  have hiff : Transition.Throughout WatchedManager.exec WatchedManager.SystemPlaced ⟨manager, []⟩ calls ↔
      Transition.Along WatchedManager.exec (fun watched call ↦ watched.manager.Clean call) ⟨manager, []⟩ calls :=
    Transition.throughout_iff_along (fun _ hkept ↦ hkept.placed) (fun watched call hkept hclean ↦ hkept.exec hclean)
      (fun watched call hkept hunclean hplaced ↦
        hunclean ((onePlace_exec_iff hkept.sound hkept.placed.1 call).1 hplaced.1)) hkept
  rw [hiff, and_iff_right hplace]
  refine and_iff_left_of_imp fun hclean ↦ Transition.Along.of_invariant (fun watched call hkept _ ↦ ?_)
    (fun watched call hkept hclean ↦ hkept.exec hclean) hkept hclean
  exact keeps_exec hkept.sound hkept.placed.1 call

/-- A manager is built from a system alone; a message comes in, and then another system. -/
theorem systemPlaced_replaced : ∃ manager : MessageManager ℕ,
    init ([] : List (MessageEntry ℕ Unit)) none (.message ⟨1, 1, .system⟩) [] 0 (.ok ⟨4, 4⟩) [] = .ok manager ∧
      Transition.Throughout WatchedManager.exec WatchedManager.SystemPlaced ⟨manager, []⟩
        [.addMessage { systemArgs .none with instruction := .truthy } (.ok ⟨2, 2⟩) ([] : List (Option Unit)),
          .setSystem ⟨3, 3, .system⟩ rfl] := by
  have hinit : init ([] : List (MessageEntry ℕ Unit)) none (.message ⟨1, 1, .system⟩) [] 0 (.ok ⟨4, 4⟩) [] =
      .ok { messages := ⟨⟨[(1, ⟨1, 1, .system⟩)], by decide⟩, some [.message], ⟨0, [1], none⟩, false⟩,
            system := some ⟨1, 1, .system⟩, onMessageAdded := [] } := rfl
  refine ⟨_, hinit, ((systemPlaced_iff hinit [_, _]).2 ⟨fun _ ↦ rfl, fun message hbrings ↦ ?_,
    fun message hbrings ↦ ?_, trivial⟩).1⟩
  · cases hbrings
    rw [Fits, if_neg (by decide)]
    intro system hsystem
    cases hsystem
    decide
  · cases hbrings
    rw [Fits, if_pos rfl]
    exact fun hmem ↦ absurd hmem (by decide)

end Run

/-- A system given with a message comes behind it. -/
theorem not_onePlace_behind :
    ∃ manager : MessageManager ℕ,
      init ([.message ⟨2, 2, .instruction⟩] : List (MessageEntry ℕ Unit)) none (.message ⟨1, 1, .system⟩) [] 0
          (.ok ⟨3, 3⟩) [] = .ok manager ∧
        manager.order = [2, 1] ∧ ¬ manager.OnePlace := by
  refine ⟨_, rfl, rfl, fun hplace ↦ ?_⟩
  have hfirst := (hplace ⟨1, 1, .system⟩ rfl).first
  exact absurd hfirst (by decide)

end MessageManager

end Lionagi.Protocols
