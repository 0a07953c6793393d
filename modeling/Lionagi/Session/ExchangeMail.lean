import Mathlib.Data.List.Nodup
import Lionagi.Library.Processes
import Lionagi.Session.Exchange

/-!
# No mail is lost or duplicated

For a sender and a recipient, the messages that have left the sender's outbox are consumed, in the inbox or in
flight, in this order from the oldest on, and the outbox holds what was sent since. Each step moves messages along
this trail and neither drops nor repeats one that has an owner to go to.
-/

namespace Lionagi.Session

variable {U κ : Type*}

/-- The identifiers of the messages of one sender. -/
def fromSender [DecidableEq U] (sender : U) (messages : List (Message U κ)) : List ℕ :=
  (messages.filter fun message ↦ message.sender = sender).map Message.id

section FromSender

variable [DecidableEq U] {sender : U} {message : Message U κ} {messages others : List (Message U κ)} {id : ℕ}

theorem fromSender_append :
    fromSender sender (messages ++ others) = fromSender sender messages ++ fromSender sender others := by
  rw [fromSender, List.filter_append, List.map_append]
  rfl

theorem fromSender_cons_self : fromSender message.sender (message :: messages) =
    message.id :: fromSender message.sender messages := by
  have hself : decide (message.sender = message.sender) = true := decide_eq_true rfl
  rw [fromSender, List.filter_cons, if_pos hself]
  rfl

theorem fromSender_cons_other (h : message.sender ≠ sender) :
    fromSender sender (message :: messages) = fromSender sender messages := by
  rw [fromSender, List.filter_cons_of_neg (by rwa [decide_eq_true_eq])]
  rfl

theorem mem_fromSender : id ∈ fromSender sender messages ↔
    ∃ message ∈ messages, message.sender = sender ∧ message.id = id := by
  simp only [fromSender, List.mem_map, List.mem_filter, decide_eq_true_eq, and_assoc]

end FromSender

namespace Mailbox

variable {mailbox : Mailbox U κ} {message : Message U κ} {id : ℕ}

theorem includeItem_items_self (h : ∀ stored, mailbox.items message.id = some stored → stored = message) :
    (mailbox.includeItem message).items message.id = some message := by
  unfold includeItem
  split
  · next stored hstored => rw [hstored, h stored hstored]
  · exact Function.update_self _ _ _

theorem includeItem_items_of_ne (h : id ≠ message.id) :
    (mailbox.includeItem message).items id = mailbox.items id := by
  unfold includeItem
  split
  · rfl
  · exact Function.update_of_ne h _ _

theorem includeItem_outbox : (mailbox.includeItem message).outbox = mailbox.outbox := by
  unfold includeItem
  split
  · rfl
  · rfl

theorem includeItem_inbox : (mailbox.includeItem message).inbox = mailbox.inbox := by
  unfold includeItem
  split
  · rfl
  · rfl

theorem addInbox_items [DecidableEq U] : (mailbox.addInbox message).items = (mailbox.includeItem message).items := rfl

/-- Distinct identifiers are looked up and dropped one by one. -/
theorem popEach_eq {ids : List ℕ} (h : ids.Nodup) (mailbox : Mailbox U κ) :
    (mailbox.popEach ids).1 = ids.filterMap mailbox.items ∧
      (mailbox.popEach ids).2.outbox = mailbox.outbox ∧ (mailbox.popEach ids).2.inbox = mailbox.inbox ∧
      ∀ id, (mailbox.popEach ids).2.items id = if id ∈ ids then none else mailbox.items id := by
  induction ids generalizing mailbox with
  | nil => exact ⟨rfl, rfl, rfl, fun id ↦ (if_neg List.not_mem_nil).symm⟩
  | cons first ids ih =>
    obtain ⟨hfirst, hids⟩ := List.nodup_cons.1 h
    obtain ⟨hmessages, houtbox, hinbox, hitems⟩ := ih hids (mailbox.popItem first).2
    refine ⟨?_, houtbox, hinbox, ?_⟩
    · have hsame : ids.filterMap (mailbox.popItem first).2.items = ids.filterMap mailbox.items := by
        apply List.filterMap_congr
        intro id hid
        have hne : id ≠ first := ne_of_mem_of_not_mem hid hfirst
        exact Function.update_of_ne hne _ _
      rw [popEach, hmessages, hsame, List.filterMap_cons]
      cases hitem : mailbox.items first with
      | none => rw [popItem, hitem]; rfl
      | some message => rw [popItem, hitem]; rfl
    · intro id
      rw [popEach, hitems]
      by_cases hid : id ∈ ids
      · rw [if_pos hid, if_pos (List.mem_cons_of_mem _ hid)]
      · rw [if_neg hid]
        by_cases heq : id = first
        · rw [heq, if_pos List.mem_cons_self]
          exact Function.update_self _ _ _
        · rw [if_neg fun hmem ↦ (List.mem_cons.1 hmem).elim heq hid]
          exact Function.update_of_ne heq _ _

end Mailbox

namespace Exchange

section

variable [DecidableEq U] (exchange : Exchange U κ)

/-- The messages that have left the sender for the recipient: consumed, in the inbox and in flight. -/
def copies (sender recipient : U) : List ℕ :=
  fromSender sender (exchange.consumed recipient) ++ (exchange.mailboxes recipient).inbox sender ++
    fromSender sender (exchange.inFlight recipient)

/-- What has left the sender for the recipient, and what is in the outbox. -/
def trail (sender recipient : U) : List ℕ :=
  exchange.copies sender recipient ++ (exchange.mailboxes sender).outbox

end

def WasSent (exchange : Exchange U κ) (message : Message U κ) : Prop :=
  ∃ owners, exchange.sent[message.id]? = some (message, owners)

end Exchange

/-- A message is for its recipient, and a broadcast is for everyone but its sender. -/
def Message.IsFor (message : Message U κ) (owner : U) : Prop :=
  message.recipient = some owner ∨ message.recipient = none ∧ message.sender ≠ owner

namespace Exchange

/-- Where the messages are, and that none is there twice. -/
structure Kept [DecidableEq U] (exchange : Exchange U κ) : Prop where
  owned : exchange.owners.Nodup
  fresh : ∀ owner, owner ∉ exchange.owners → exchange.mailboxes owner = {}
  numbered : ∀ (i : ℕ) (entry : Message U κ × List U), exchange.sent[i]? = some entry → entry.1.id = i ∧ entry.2 ⊆ exchange.owners
  stored : ∀ owner id message, (exchange.mailboxes owner).items id = some message →
    message.id = id ∧ exchange.WasSent message
  outboxed : ∀ owner, ∀ id ∈ (exchange.mailboxes owner).outbox,
    ∃ message, (exchange.mailboxes owner).items id = some message ∧ message.sender = owner
  inboxed : ∀ owner sender, ∀ id ∈ (exchange.mailboxes owner).inbox sender,
    ∃ message, (exchange.mailboxes owner).items id = some message ∧ message.sender = sender ∧ message.IsFor owner
  flying : ∀ owner, ∀ message ∈ exchange.inFlight owner,
    exchange.WasSent message ∧ owner ∈ exchange.owners ∧ message.IsFor owner
  read : ∀ owner, ∀ message ∈ exchange.consumed owner, exchange.WasSent message ∧ message.IsFor owner
  distinct : ∀ sender recipient, (exchange.trail sender recipient).Nodup
  direct : ∀ entry ∈ exchange.sent, ∀ recipient ∈ entry.2, entry.1.recipient = some recipient →
    entry.1.id ∈ exchange.trail entry.1.sender recipient
  copied : ∀ broadcast ∈ exchange.broadcasts, exchange.WasSent broadcast.1 ∧
    broadcast.1.id ∉ (exchange.mailboxes broadcast.1.sender).outbox ∧
    ∀ recipient, broadcast.1.id ∈ exchange.copies broadcast.1.sender recipient ↔ recipient ∈ broadcast.2

theorem kept_init [DecidableEq U] : ({} : Exchange U κ).Kept where
  owned := List.nodup_nil
  fresh _ _ := rfl
  numbered i entry h := by cases h
  stored _ _ _ h := by cases h
  outboxed _ _ h := absurd h List.not_mem_nil
  inboxed _ _ _ h := absurd h List.not_mem_nil
  flying _ _ h := absurd h List.not_mem_nil
  read _ _ h := absurd h List.not_mem_nil
  distinct _ _ := List.nodup_nil
  direct _ h := absurd h List.not_mem_nil
  copied _ h := absurd h List.not_mem_nil

variable {exchange : Exchange U κ}
variable {message other : Message U κ}

theorem WasSent.eq (h : exchange.WasSent message) (h' : exchange.WasSent other) (hid : other.id = message.id) :
    other = message := by
  obtain ⟨owners, hsent⟩ := h
  obtain ⟨owners', hsent'⟩ := h'
  rw [hid, hsent] at hsent'
  exact (congrArg Prod.fst (Option.some.inj hsent')).symm

variable [DecidableEq U]

theorem Kept.wasSent (h : exchange.Kept) {entry : Message U κ × List U} (hentry : entry ∈ exchange.sent) :
    exchange.WasSent entry.1 := by
  obtain ⟨i, hi⟩ := List.mem_iff_getElem?.1 hentry
  exact ⟨entry.2, (h.numbered i entry hi).1 ▸ hi⟩

variable {owner recipient sender : U} {id : ℕ}

/-- Messages with a common place have the same sender when they have the same identifier. -/
theorem Kept.sender_eq (h : exchange.Kept) (hitem : (exchange.mailboxes owner).items id = some message)
    (hid : id ∈ (exchange.mailboxes owner).inbox sender) : message.sender = sender := by
  obtain ⟨stored, hstored, hsender, -⟩ := h.inboxed owner sender id hid
  rw [hitem] at hstored
  exact Option.some.inj hstored ▸ hsender

/-! ## Registering and sending -/

/-- A new mailbox is empty. -/
theorem Kept.register_cases (h : exchange.Kept) (owner : U) : (exchange.register owner).2 = exchange ∨
    owner ∉ exchange.owners ∧
      (exchange.register owner).2 = { exchange with owners := exchange.owners ++ [owner] } := by
  unfold Exchange.register
  split
  · exact .inl rfl
  · next hnew =>
    have hsame : Function.update exchange.mailboxes owner {} = exchange.mailboxes := by
      rw [← h.fresh owner hnew]
      exact Function.update_eq_self _ _
    refine .inr ⟨hnew, ?_⟩
    rw [setMailbox, hsame]

theorem Kept.register (h : exchange.Kept) (owner : U) : (exchange.register owner).2.Kept := by
  rcases h.register_cases owner with heq | ⟨hnew, heq⟩
  · rw [heq]
    exact h
  rw [heq]
  constructor
  · exact List.nodup_append_comm.1 (List.nodup_cons.2 ⟨hnew, h.owned⟩)
  · intro other hother
    exact h.fresh other fun hmem ↦ hother (List.mem_append_left _ hmem)
  · intro i entry hentry
    obtain ⟨hid, howners⟩ := h.numbered i entry hentry
    exact ⟨hid, List.subset_append_of_subset_left _ howners⟩
  · exact h.stored
  · exact h.outboxed
  · exact h.inboxed
  · intro other message hmem
    obtain ⟨hsent, howner, hfor⟩ := h.flying other message hmem
    exact ⟨hsent, List.mem_append_left _ howner, hfor⟩
  · exact h.read
  · exact h.distinct
  · exact h.direct
  · exact h.copied

omit [DecidableEq U] in
theorem WasSent.lt (h : exchange.WasSent message) : message.id < exchange.sent.length := by
  obtain ⟨owners, hsent⟩ := h
  exact (List.getElem?_eq_some_iff.1 hsent).1

theorem mem_copies : id ∈ exchange.copies sender recipient ↔
    (∃ message ∈ exchange.consumed recipient, message.sender = sender ∧ message.id = id) ∨
      id ∈ (exchange.mailboxes recipient).inbox sender ∨
      ∃ message ∈ exchange.inFlight recipient, message.sender = sender ∧ message.id = id := by
  rw [copies, List.mem_append, List.mem_append, mem_fromSender, mem_fromSender, or_assoc]

/-- What has left a sender was sent by it to the recipient. -/
theorem Kept.sent_of_mem_copies (h : exchange.Kept) (hid : id ∈ exchange.copies sender recipient) :
    ∃ message, exchange.WasSent message ∧ message.sender = sender ∧ message.id = id ∧ message.IsFor recipient := by
  rcases mem_copies.1 hid with ⟨message, hmem, hsender, heq⟩ | hinbox | ⟨message, hmem, hsender, heq⟩
  · obtain ⟨hsent, hfor⟩ := h.read recipient message hmem
    exact ⟨message, hsent, hsender, heq, hfor⟩
  · obtain ⟨message, hitem, hsender, hfor⟩ := h.inboxed recipient sender id hinbox
    obtain ⟨heq, hsent⟩ := h.stored recipient id message hitem
    exact ⟨message, hsent, hsender, heq, hfor⟩
  · obtain ⟨hsent, -, hfor⟩ := h.flying recipient message hmem
    exact ⟨message, hsent, hsender, heq, hfor⟩

theorem Kept.sent_of_mem_outbox (h : exchange.Kept) (hid : id ∈ (exchange.mailboxes owner).outbox) :
    ∃ message, exchange.WasSent message ∧ message.sender = owner ∧ message.id = id ∧
      (exchange.mailboxes owner).items id = some message := by
  obtain ⟨message, hitem, hsender⟩ := h.outboxed owner id hid
  obtain ⟨heq, hsent⟩ := h.stored owner id message hitem
  exact ⟨message, hsent, hsender, heq, hitem⟩

theorem Kept.lt_of_mem_trail (h : exchange.Kept) (hid : id ∈ exchange.trail sender recipient) :
    id < exchange.sent.length := by
  rcases List.mem_append.1 hid with hcopies | houtbox
  · obtain ⟨message, hsent, -, heq, -⟩ := h.sent_of_mem_copies hcopies
    exact heq ▸ hsent.lt
  · obtain ⟨message, hsent, -, heq, -⟩ := h.sent_of_mem_outbox houtbox
    exact heq ▸ hsent.lt

/-- What has left a sender is not in its outbox. -/
theorem Kept.not_mem_outbox (h : exchange.Kept) (hid : id ∈ exchange.copies sender recipient) :
    id ∉ (exchange.mailboxes sender).outbox :=
  fun houtbox ↦ (List.nodup_append.1 (h.distinct sender recipient)).2.2 id hid id houtbox rfl

/-- An inbox and the outbox of a mailbox have no message in common. -/
theorem Kept.inbox_not_mem_outbox (h : exchange.Kept) (hid : id ∈ (exchange.mailboxes owner).inbox sender) :
    id ∉ (exchange.mailboxes owner).outbox := by
  intro houtbox
  obtain ⟨message, hitem, howner⟩ := h.outboxed owner id houtbox
  have hsender : owner = sender := howner.symm.trans (h.sender_eq hitem hid)
  have hcopies : id ∈ exchange.copies owner owner := mem_copies.2 (.inr (.inl (hsender ▸ hid)))
  exact h.not_mem_outbox hcopies houtbox

theorem get_eq_some {mailbox : Mailbox U κ} (h : exchange.get owner = some mailbox) :
    owner ∈ exchange.owners ∧ mailbox = exchange.mailboxes owner := by
  unfold Exchange.get at h
  split at h
  · next howner => exact ⟨howner, (Option.some.inj h).symm⟩
  · cases h

/-- The exchange after an owner has sent a message. -/
def afterSend (exchange : Exchange U κ) (message : Message U κ) : Exchange U κ :=
  { exchange.setMailbox message.sender ((exchange.mailboxes message.sender).addOutbox message) with
    sent := exchange.sent ++ [(message, exchange.owners)] }

section Send

variable {message : Message U κ} (h : exchange.Kept) (hid : message.id = exchange.sent.length)

theorem wasSent_afterSend (hsent : exchange.WasSent other) : (exchange.afterSend message).WasSent other := by
  obtain ⟨owners, hsent⟩ := hsent
  have hlt : other.id < exchange.sent.length := (List.getElem?_eq_some_iff.1 hsent).1
  exact ⟨owners, (List.getElem?_append_left hlt).trans hsent⟩

theorem inbox_afterSend (owner sender : U) : ((exchange.afterSend message).mailboxes owner).inbox sender =
    (exchange.mailboxes owner).inbox sender := by
  change (Function.update exchange.mailboxes message.sender _ owner).inbox sender = _
  by_cases howner : owner = message.sender
  · rw [howner, Function.update_self]
    exact congrFun Mailbox.includeItem_inbox sender
  · rw [Function.update_of_ne howner]

theorem copies_afterSend (sender recipient : U) :
    (exchange.afterSend message).copies sender recipient = exchange.copies sender recipient := by
  rw [copies, copies, inbox_afterSend]
  rfl

theorem outbox_afterSend_self : ((exchange.afterSend message).mailboxes message.sender).outbox =
    (exchange.mailboxes message.sender).outbox ++ [message.id] := by
  change (Function.update exchange.mailboxes message.sender _ message.sender).outbox = _
  rw [Function.update_self]
  exact congrArg (· ++ [message.id]) Mailbox.includeItem_outbox

theorem mailboxes_afterSend_of_ne (howner : owner ≠ message.sender) :
    (exchange.afterSend message).mailboxes owner = exchange.mailboxes owner :=
  Function.update_of_ne howner _ _

theorem trail_afterSend (sender recipient : U) : (exchange.afterSend message).trail sender recipient =
    exchange.trail sender recipient ++ if sender = message.sender then [message.id] else [] := by
  rw [trail, trail, copies_afterSend, List.append_assoc]
  split
  · next hsender => rw [hsender, outbox_afterSend_self]
  · next hsender => rw [mailboxes_afterSend_of_ne hsender, List.append_nil]

include h hid

variable {stored : Message U κ}

theorem not_stored_of_new : (exchange.mailboxes owner).items message.id ≠ some stored := by
  intro hstored
  obtain ⟨heq, hsent⟩ := h.stored owner message.id stored hstored
  exact absurd hsent.lt (by rw [heq, hid]; exact Nat.lt_irrefl _)

theorem items_afterSend_self :
    ((exchange.afterSend message).mailboxes message.sender).items message.id = some message := by
  change (Function.update exchange.mailboxes message.sender _ message.sender).items _ = _
  rw [Function.update_self]
  exact Mailbox.includeItem_items_self fun stored hstored ↦ absurd hstored (not_stored_of_new h hid)

theorem items_afterSend_of_some (hstored : (exchange.mailboxes owner).items id = some stored) :
    ((exchange.afterSend message).mailboxes owner).items id = some stored := by
  have hne : id ≠ message.id := by
    intro heq
    rw [heq] at hstored
    exact not_stored_of_new h hid hstored
  change (Function.update exchange.mailboxes message.sender _ owner).items _ = _
  by_cases howner : owner = message.sender
  · rw [howner] at hstored
    rw [howner, Function.update_self]
    exact (Mailbox.includeItem_items_of_ne hne).trans hstored
  · rw [Function.update_of_ne howner]
    exact hstored

theorem items_afterSend_cases (hstored : ((exchange.afterSend message).mailboxes owner).items id = some stored) :
    id = message.id ∧ stored = message ∨ (exchange.mailboxes owner).items id = some stored := by
  by_cases howner : owner = message.sender
  · rw [howner] at hstored
    by_cases heq : id = message.id
    · rw [heq, items_afterSend_self h hid] at hstored
      exact .inl ⟨heq, (Option.some.inj hstored).symm⟩
    · change (Function.update exchange.mailboxes message.sender _ message.sender).items _ = _ at hstored
      rw [Function.update_self] at hstored
      rw [howner]
      exact .inr ((Mailbox.includeItem_items_of_ne heq).symm.trans hstored)
  · rw [mailboxes_afterSend_of_ne howner] at hstored
    exact .inr hstored

theorem Kept.afterSend (hsender : message.sender ∈ exchange.owners) : (exchange.afterSend message).Kept := by
  have hnew : ∀ {recipient : U}, message.id ∉ exchange.trail message.sender recipient := by
    intro recipient hmem
    exact absurd (h.lt_of_mem_trail hmem) (by rw [hid]; exact Nat.lt_irrefl _)
  have hself : (exchange.afterSend message).WasSent message := by
    refine ⟨exchange.owners, ?_⟩
    rw [hid]
    exact List.getElem?_concat_length
  constructor
  · exact h.owned
  · intro owner howner
    have hne : owner ≠ message.sender := fun heq ↦ howner (heq ▸ hsender)
    exact (mailboxes_afterSend_of_ne hne).trans (h.fresh owner howner)
  · intro i entry hentry
    rcases Processes.getElem?_concat_cases hentry with ⟨hi, rfl⟩ | hentry
    · exact ⟨hid.trans hi.symm, List.Subset.refl _⟩
    · exact h.numbered i entry hentry
  · intro owner id stored hstored
    rcases items_afterSend_cases h hid hstored with ⟨rfl, rfl⟩ | hold
    · exact ⟨rfl, hself⟩
    · obtain ⟨heq, hsent⟩ := h.stored owner id stored hold
      exact ⟨heq, wasSent_afterSend hsent⟩
  · intro owner id houtbox
    have hold : id ∈ (exchange.mailboxes owner).outbox → ∃ stored,
        ((exchange.afterSend message).mailboxes owner).items id = some stored ∧ stored.sender = owner := by
      intro hmem
      obtain ⟨stored, hstored, howner⟩ := h.outboxed owner id hmem
      exact ⟨stored, items_afterSend_of_some h hid hstored, howner⟩
    by_cases howner : owner = message.sender
    · rw [howner, outbox_afterSend_self] at houtbox
      rcases List.mem_append.1 houtbox with hmem | hmem
      · exact hold (howner ▸ hmem)
      · rw [List.mem_singleton.1 hmem, howner]
        exact ⟨message, items_afterSend_self h hid, rfl⟩
    · rw [mailboxes_afterSend_of_ne howner] at houtbox
      exact hold houtbox
  · intro owner sender id hinbox
    rw [inbox_afterSend] at hinbox
    obtain ⟨stored, hstored, hsame, hfor⟩ := h.inboxed owner sender id hinbox
    exact ⟨stored, items_afterSend_of_some h hid hstored, hsame, hfor⟩
  · intro owner other hmem
    obtain ⟨hsent, howner, hfor⟩ := h.flying owner other hmem
    exact ⟨wasSent_afterSend hsent, howner, hfor⟩
  · intro owner other hmem
    obtain ⟨hsent, hfor⟩ := h.read owner other hmem
    exact ⟨wasSent_afterSend hsent, hfor⟩
  · intro sender recipient
    rw [trail_afterSend]
    split
    · next hsame =>
      rw [hsame]
      exact List.nodup_append_comm.1 (List.nodup_cons.2 ⟨hnew, h.distinct message.sender recipient⟩)
    · rw [List.append_nil]
      exact h.distinct sender recipient
  · intro entry hentry recipient howner hdirect
    rw [trail_afterSend]
    rcases List.mem_append.1 hentry with hold | hself
    · exact List.mem_append_left _ (h.direct entry hold recipient howner hdirect)
    · rw [List.mem_singleton.1 hself, if_pos rfl]
      exact List.mem_append_right _ List.mem_cons_self
  · intro broadcast hmem
    obtain ⟨hsent, houtbox, hcopies⟩ := h.copied broadcast hmem
    refine ⟨wasSent_afterSend hsent, ?_, fun recipient ↦ ?_⟩
    · by_cases howner : broadcast.1.sender = message.sender
      · rw [howner, outbox_afterSend_self]
        rw [howner] at houtbox
        have hne : broadcast.1.id ≠ message.id := by
          rw [hid]
          exact Nat.ne_of_lt hsent.lt
        simp only [List.mem_append, List.mem_singleton, houtbox, hne, or_self, not_false_eq_true]
      · rw [mailboxes_afterSend_of_ne howner]
        exact houtbox
    · rw [copies_afterSend]
      exact hcopies recipient

end Send

theorem Kept.send (h : exchange.Kept) (sender : U) (recipient : Option U) (content : κ) (channel : Option String) :
    (exchange.send sender recipient content channel).2.Kept := by
  unfold Exchange.send
  split
  · exact h
  · next mailbox hget =>
    obtain ⟨howner, rfl⟩ := get_eq_some hget
    have hafter : (exchange.afterSend ⟨exchange.sent.length, sender, recipient, content, channel⟩).Kept :=
      h.afterSend rfl howner
    exact hafter

/-! ## Collecting -/

/-- What a collector takes from the outbox of an owner for a recipient. -/
def newFor (exchange : Exchange U κ) (owner recipient : U) : List (Message U κ) :=
  ((exchange.mailboxes owner).outbox.filterMap (exchange.mailboxes owner).items).filter
    fun message ↦ recipient ∈ exchange.recipients owner message

theorem mem_recipients :
    recipient ∈ exchange.recipients owner message ↔ recipient ∈ exchange.owners ∧
      (message.recipient = some recipient ∨ message.recipient = none ∧ recipient ≠ owner) := by
  unfold recipients
  split
  · next hnone => simp only [hnone, List.mem_filter, decide_eq_true_eq, reduceCtorEq, true_and, false_or]
  · next other hsome =>
    simp only [hsome, Option.some.injEq, reduceCtorEq, false_and, or_false]
    split
    · next hmem =>
      rw [List.mem_singleton]
      constructor
      · rintro rfl
        exact ⟨hmem, rfl⟩
      · rintro ⟨-, rfl⟩
        rfl
    · next hmem =>
      refine iff_of_false List.not_mem_nil ?_
      rintro ⟨howner, rfl⟩
      exact hmem howner

theorem nodup_recipients (h : exchange.owners.Nodup) (owner : U) (message : Message U κ) :
    (exchange.recipients owner message).Nodup := by
  unfold recipients
  split
  · exact h.filter _
  · split
    · exact List.nodup_singleton _
    · exact List.nodup_nil

/-- In flight for a recipient is what was, and the messages delivered to it. -/
theorem markInFlight_foldl (deliveries : List (U × Message U κ)) (exchange : Exchange U κ) :
    deliveries.foldl markInFlight exchange = { exchange with
      inFlight := fun recipient ↦ exchange.inFlight recipient ++
        (deliveries.filter fun delivery ↦ delivery.1 = recipient).map Prod.snd } := by
  induction deliveries generalizing exchange with
  | nil =>
    simp only [List.foldl_nil, List.filter_nil, List.map_nil, List.append_nil]
  | cons delivery deliveries ih =>
    rw [List.foldl_cons, ih, markInFlight]
    congr 1
    funext recipient
    change Function.update exchange.inFlight delivery.1 (exchange.inFlight delivery.1 ++ [delivery.2]) recipient ++
      (deliveries.filter fun delivery ↦ delivery.1 = recipient).map Prod.snd = _
    by_cases heq : delivery.1 = recipient
    · rw [heq, Function.update_self, List.filter_cons, if_pos (decide_eq_true heq), List.append_assoc]
      rfl
    · rw [Function.update_of_ne (Ne.symm heq), List.filter_cons_of_neg (by rwa [decide_eq_true_eq])]

/-- A recipient gets the messages that are for it, once each and in order. -/
theorem deliveries_for (h : exchange.owners.Nodup) (owner recipient : U) (messages : List (Message U κ)) :
    ((exchange.deliveries owner messages).filter fun delivery ↦ delivery.1 = recipient).map Prod.snd =
      messages.filter fun message ↦ recipient ∈ exchange.recipients owner message := by
  induction messages with
  | nil => rfl
  | cons message messages ih =>
    have hone : (((exchange.recipients owner message).map fun recipient ↦ (recipient, message)).filter
        fun delivery ↦ delivery.1 = recipient).map Prod.snd =
          if recipient ∈ exchange.recipients owner message then [message] else [] := by
      have hnodup := nodup_recipients h owner message
      generalize exchange.recipients owner message = recipients at hnodup
      induction recipients with
      | nil => rfl
      | cons first recipients ih =>
        obtain ⟨hfirst, hrest⟩ := List.nodup_cons.1 hnodup
        specialize ih hrest
        by_cases heq : first = recipient
        · rw [← heq, if_neg hfirst] at ih
          rw [← heq, List.map_cons, List.filter_cons, if_pos (decide_eq_true rfl), List.map_cons, ih,
            if_pos List.mem_cons_self]
        · rw [List.map_cons, List.filter_cons_of_neg (by rwa [decide_eq_true_eq]), ih]
          simp only [List.mem_cons, Ne.symm heq, false_or]
    rw [deliveries, List.flatMap_cons, List.filter_append, List.map_append, hone]
    rw [deliveries] at ih
    rw [ih]
    by_cases hmem : recipient ∈ exchange.recipients owner message
    · rw [if_pos hmem, List.filter_cons, if_pos (decide_eq_true hmem)]
      rfl
    · rw [if_neg hmem, List.filter_cons, if_neg (by rwa [decide_eq_true_eq])]
      rfl

/-- The exchange after a collector has taken the messages of an owner. -/
def taken (exchange : Exchange U κ) (owner : U) : Exchange U κ :=
  (exchange.take owner (exchange.mailboxes owner)).2

section Take

variable (h : exchange.Kept) {owner : U}

theorem taken_sent : (exchange.taken owner).sent = exchange.sent := by
  rw [taken, take, markInFlight_foldl]
  rfl

theorem taken_owners : (exchange.taken owner).owners = exchange.owners := by
  rw [taken, take, markInFlight_foldl]
  rfl

theorem taken_consumed : (exchange.taken owner).consumed = exchange.consumed := by
  rw [taken, take, markInFlight_foldl]
  rfl

theorem wasSent_taken : (exchange.taken owner).WasSent message ↔ exchange.WasSent message := by
  rw [WasSent, WasSent, taken_sent]

theorem mailboxes_taken_of_ne {other : U} (hne : other ≠ owner) :
    (exchange.taken owner).mailboxes other = exchange.mailboxes other := by
  rw [taken, take, markInFlight_foldl]
  exact Function.update_of_ne hne _ _

include h

/-- The outbox lists each message once. -/
theorem Kept.nodup_outbox : (exchange.mailboxes owner).outbox.Nodup :=
  (h.distinct owner owner).of_append_right

theorem outbox_taken_self : ((exchange.taken owner).mailboxes owner).outbox = [] := by
  rw [taken, take, markInFlight_foldl]
  change (Function.update exchange.mailboxes owner _ owner).outbox = _
  rw [Function.update_self]
  exact (Mailbox.popEach_eq h.nodup_outbox _).2.1

theorem inbox_taken (other sender : U) :
    ((exchange.taken owner).mailboxes other).inbox sender = (exchange.mailboxes other).inbox sender := by
  by_cases hother : other = owner
  · rw [hother, taken, take, markInFlight_foldl]
    change (Function.update exchange.mailboxes owner _ owner).inbox sender = _
    rw [Function.update_self]
    exact congrFun (Mailbox.popEach_eq h.nodup_outbox _).2.2.1 sender
  · rw [mailboxes_taken_of_ne hother]

theorem items_taken_self (id : ℕ) : ((exchange.taken owner).mailboxes owner).items id =
    if id ∈ (exchange.mailboxes owner).outbox then none else (exchange.mailboxes owner).items id := by
  rw [taken, take, markInFlight_foldl]
  change (Function.update exchange.mailboxes owner _ owner).items id = _
  rw [Function.update_self]
  exact (Mailbox.popEach_eq h.nodup_outbox _).2.2.2 id

theorem popOutbox_messages : (exchange.mailboxes owner).popOutbox.1 =
    (exchange.mailboxes owner).outbox.filterMap (exchange.mailboxes owner).items :=
  (Mailbox.popEach_eq h.nodup_outbox _).1

theorem inFlight_taken (recipient : U) : (exchange.taken owner).inFlight recipient =
    exchange.inFlight recipient ++ exchange.newFor owner recipient := by
  rw [taken, take, markInFlight_foldl, newFor, ← popOutbox_messages h, ← deliveries_for h.owned]
  rfl

theorem broadcasts_taken {broadcast : Message U κ × List U} (hmem : broadcast ∈ (exchange.taken owner).broadcasts) :
    broadcast ∈ exchange.broadcasts ∨ broadcast.1.id ∈ (exchange.mailboxes owner).outbox ∧
      (exchange.mailboxes owner).items broadcast.1.id = some broadcast.1 ∧
      broadcast.2 = exchange.recipients owner broadcast.1 := by
  rw [taken, take, markInFlight_foldl] at hmem
  rcases List.mem_append.1 hmem with hold | hnew
  · exact .inl hold
  · obtain ⟨message, hmessage, rfl⟩ := List.mem_map.1 hnew
    have hpopped := (List.mem_filter.1 hmessage).1
    rw [popOutbox_messages h] at hpopped
    obtain ⟨id, hid, hitem⟩ := List.mem_filterMap.1 hpopped
    have heq : message.id = id := (h.stored owner id message hitem).1
    exact .inr ⟨heq ▸ hid, heq ▸ hitem, rfl⟩

theorem mem_newFor : message ∈ exchange.newFor owner recipient ↔
    message.id ∈ (exchange.mailboxes owner).outbox ∧
      (exchange.mailboxes owner).items message.id = some message ∧
      recipient ∈ exchange.recipients owner message := by
  rw [newFor, List.mem_filter, decide_eq_true_eq, List.mem_filterMap, ← and_assoc, and_congr_left_iff]
  intro _
  constructor
  · rintro ⟨id, hid, hitem⟩
    have heq : message.id = id := (h.stored owner id message hitem).1
    exact ⟨heq ▸ hid, heq ▸ hitem⟩
  · rintro ⟨hid, hitem⟩
    exact ⟨message.id, hid, hitem⟩

/-- What is taken stays in the order of the outbox. -/
theorem newFor_sublist (recipient : U) :
    ((exchange.newFor owner recipient).map Message.id).Sublist (exchange.mailboxes owner).outbox := by
  have hall : ((exchange.mailboxes owner).outbox.filterMap (exchange.mailboxes owner).items).map Message.id =
      (exchange.mailboxes owner).outbox := by
    rw [List.map_filterMap]
    calc (exchange.mailboxes owner).outbox.filterMap
          (fun id ↦ ((exchange.mailboxes owner).items id).map Message.id)
        = (exchange.mailboxes owner).outbox.filterMap some := by
          apply List.filterMap_congr
          intro id hid
          obtain ⟨message, -, -, heq, hitem⟩ := h.sent_of_mem_outbox hid
          rw [hitem, Option.map_some, heq]
      _ = (exchange.mailboxes owner).outbox := List.filterMap_some
  rw [← hall]
  exact List.filter_sublist.map Message.id

theorem sender_newFor (hmem : message ∈ exchange.newFor owner recipient) : message.sender = owner := by
  obtain ⟨hid, hitem, -⟩ := (mem_newFor h).1 hmem
  obtain ⟨stored, hstored, hsender⟩ := h.outboxed owner message.id hid
  rw [hitem] at hstored
  rw [Option.some.inj hstored]
  exact hsender

theorem fromSender_newFor (sender recipient : U) : fromSender sender (exchange.newFor owner recipient) =
    if sender = owner then (exchange.newFor owner recipient).map Message.id else [] := by
  split
  · next hsender =>
    rw [fromSender, List.filter_eq_self.2]
    intro message hmem
    rw [sender_newFor h hmem, hsender, decide_eq_true_eq]
  · next hsender =>
    rw [fromSender, List.filter_eq_nil_iff.2]
    · rfl
    · intro message hmem
      rw [sender_newFor h hmem, decide_eq_true_eq]
      exact Ne.symm hsender

theorem copies_taken (sender recipient : U) : (exchange.taken owner).copies sender recipient =
    exchange.copies sender recipient ++
      if sender = owner then (exchange.newFor owner recipient).map Message.id else [] := by
  rw [copies, copies, taken_consumed, inbox_taken h, inFlight_taken h, fromSender_append, fromSender_newFor h,
    List.append_assoc, List.append_assoc, List.append_assoc]

/-- The trail keeps its order, without what has no owner to go to. -/
theorem trail_taken (sender recipient : U) :
    ((exchange.taken owner).trail sender recipient).Sublist (exchange.trail sender recipient) := by
  rw [trail, trail, copies_taken h]
  by_cases hsender : sender = owner
  · rw [hsender, if_pos rfl, outbox_taken_self h, List.append_nil]
    exact (List.Sublist.refl _).append (newFor_sublist h recipient)
  · rw [if_neg hsender, List.append_nil, mailboxes_taken_of_ne hsender]

theorem items_taken_of_some {other : U} (hitem : ((exchange.taken owner).mailboxes other).items id = some message) :
    (exchange.mailboxes other).items id = some message := by
  by_cases hother : other = owner
  · rw [hother, items_taken_self h] at hitem
    split at hitem
    · cases hitem
    · rw [hother]
      exact hitem
  · rw [mailboxes_taken_of_ne hother] at hitem
    exact hitem

theorem Kept.taken (howner : owner ∈ exchange.owners) : (exchange.taken owner).Kept := by
  constructor
  · rw [taken_owners]
    exact h.owned
  · intro other hother
    rw [taken_owners] at hother
    have hne : other ≠ owner := fun heq ↦ hother (heq ▸ howner)
    exact (mailboxes_taken_of_ne hne).trans (h.fresh other hother)
  · rw [taken_sent, taken_owners]
    exact h.numbered
  · intro other id message hitem
    rw [wasSent_taken]
    exact h.stored other id message (items_taken_of_some h hitem)
  · intro other id hid
    by_cases hother : other = owner
    · rw [hother, outbox_taken_self h] at hid
      cases hid
    · rw [mailboxes_taken_of_ne hother] at hid ⊢
      exact h.outboxed other id hid
  · intro other sender id hid
    rw [inbox_taken h] at hid
    obtain ⟨message, hitem, hsender, hfor⟩ := h.inboxed other sender id hid
    refine ⟨message, ?_, hsender, hfor⟩
    by_cases hother : other = owner
    · rw [hother] at hid hitem
      rw [hother, items_taken_self h, if_neg (h.inbox_not_mem_outbox hid)]
      exact hitem
    · rw [mailboxes_taken_of_ne hother]
      exact hitem
  · intro other message hmem
    rw [inFlight_taken h] at hmem
    rw [wasSent_taken, taken_owners]
    rcases List.mem_append.1 hmem with hold | hnew
    · exact h.flying other message hold
    · obtain ⟨hid, hitem, hrecipient⟩ := (mem_newFor h).1 hnew
      obtain ⟨hother, hdirect⟩ := mem_recipients.1 hrecipient
      refine ⟨(h.stored owner _ message hitem).2, hother, hdirect.imp_right fun hbroadcast ↦ ?_⟩
      rw [sender_newFor h hnew]
      exact ⟨hbroadcast.1, Ne.symm hbroadcast.2⟩
  · intro other message hmem
    rw [taken_consumed] at hmem
    rw [wasSent_taken]
    exact h.read other message hmem
  · intro sender recipient
    exact (h.distinct sender recipient).sublist (trail_taken h sender recipient)
  · intro entry hentry recipient hmem hdirect
    rw [taken_sent] at hentry
    rw [trail, copies_taken h]
    rcases List.mem_append.1 (h.direct entry hentry recipient hmem hdirect) with hcopies | houtbox
    · exact List.mem_append_left _ (List.mem_append_left _ hcopies)
    · by_cases hsender : entry.1.sender = owner
      · rw [hsender] at houtbox
        obtain ⟨stored, hsent, -, heq, hitem⟩ := h.sent_of_mem_outbox houtbox
        have hself : stored = entry.1 := (h.wasSent hentry).eq hsent heq
        obtain ⟨i, hi⟩ := List.mem_iff_getElem?.1 hentry
        have hrecipient : recipient ∈ exchange.recipients owner entry.1 :=
          mem_recipients.2 ⟨(h.numbered i entry hi).2 hmem, .inl hdirect⟩
        rw [if_pos hsender]
        apply List.mem_append_left
        apply List.mem_append_right
        exact List.mem_map_of_mem ((mem_newFor h).2 ⟨houtbox, hself ▸ hitem, hrecipient⟩)
      · rw [mailboxes_taken_of_ne hsender]
        exact List.mem_append_right _ houtbox
  · intro broadcast hmem
    rw [wasSent_taken]
    rcases broadcasts_taken h hmem with hold | ⟨hid, hitem, hrecipients⟩
    · obtain ⟨hsent, houtbox, hcopies⟩ := h.copied broadcast hold
      refine ⟨hsent, ?_, fun recipient ↦ ?_⟩
      · by_cases hsender : broadcast.1.sender = owner
        · rw [hsender, outbox_taken_self h]
          exact List.not_mem_nil
        · rw [mailboxes_taken_of_ne hsender]
          exact houtbox
      · rw [copies_taken h, List.mem_append, hcopies]
        refine or_iff_left_of_imp fun hnew ↦ ?_
        split at hnew
        · next hsender =>
          rw [hsender] at houtbox
          exact absurd ((newFor_sublist h recipient).subset hnew) houtbox
        · cases hnew
    · have hsent : exchange.WasSent broadcast.1 := (h.stored owner _ _ hitem).2
      have hsender : broadcast.1.sender = owner := by
        obtain ⟨stored, hstored, hsender⟩ := h.outboxed owner _ hid
        rw [hitem] at hstored
        rw [Option.some.inj hstored]
        exact hsender
      refine ⟨hsent, ?_, fun recipient ↦ ?_⟩
      · rw [hsender, outbox_taken_self h]
        exact List.not_mem_nil
      · have hbefore : broadcast.1.id ∉ exchange.copies owner recipient := fun hcopies ↦ h.not_mem_outbox hcopies hid
        rw [hsender, copies_taken h, if_pos rfl, List.mem_append, or_iff_right hbefore, hrecipients, List.mem_map]
        constructor
        · rintro ⟨message, hnew, heq⟩
          obtain ⟨-, hstored, hrecipient⟩ := (mem_newFor h).1 hnew
          rw [heq, hitem] at hstored
          rw [Option.some.inj hstored]
          exact hrecipient
        · intro hrecipient
          exact ⟨broadcast.1, (mem_newFor h).2 ⟨hid, hitem, hrecipient⟩, rfl⟩

end Take

theorem Kept.collect (h : exchange.Kept) (owner : U) : (exchange.collect owner).2.Kept := by
  unfold Exchange.collect
  split
  · exact h
  · next mailbox hget =>
    obtain ⟨howner, rfl⟩ := get_eq_some hget
    have htaken : (exchange.taken owner).Kept := h.taken howner
    exact htaken

end Exchange

end Lionagi.Session
