import Lionagi.Session.ExchangeMail

/-!
# Deliveries and readers keep the mail

A delivery moves a message from those in flight to the end of an inbox, past those of its sender that were in
flight before it, and a reader consumes the first message of an inbox.
-/

namespace Lionagi.Session

variable {U κ : Type*} [DecidableEq U]

namespace Exchange

variable {exchange : Exchange U κ}

/-! ## Delivering -/

/-- The exchange after one of the messages in flight has come into the inbox. -/
def moved (exchange : Exchange U κ) (recipient : U) (message : Message U κ) (inFlight : List (Message U κ)) :
    Exchange U κ :=
  { exchange.setMailbox recipient ((exchange.mailboxes recipient).addInbox message) with
    inFlight := Function.update exchange.inFlight recipient inFlight }

section Move

variable {recipient : U} {message : Message U κ} {before after : List (Message U κ)} (h : exchange.Kept)
  (hflight : exchange.inFlight recipient = before ++ message :: after)
variable {inFlight : List (Message U κ)}

theorem mailboxes_moved_of_ne {owner : U} (hne : owner ≠ recipient) :
    (exchange.moved recipient message inFlight).mailboxes owner = exchange.mailboxes owner :=
  Function.update_of_ne hne _ _

variable (owner : U)

theorem outbox_moved :
    ((exchange.moved recipient message inFlight).mailboxes owner).outbox = (exchange.mailboxes owner).outbox := by
  by_cases howner : owner = recipient
  · change (Function.update exchange.mailboxes recipient _ owner).outbox = _
    rw [howner, Function.update_self]
    exact Mailbox.includeItem_outbox
  · rw [mailboxes_moved_of_ne howner]

theorem inbox_moved (sender : U) :
    ((exchange.moved recipient message inFlight).mailboxes owner).inbox sender =
      (exchange.mailboxes owner).inbox sender ++
        if owner = recipient ∧ sender = message.sender then [message.id] else [] := by
  by_cases howner : owner = recipient
  · change (Function.update exchange.mailboxes recipient _ owner).inbox sender = _
    rw [howner, Function.update_self, Mailbox.addInbox]
    simp only [Mailbox.includeItem_inbox, true_and]
    by_cases hsender : sender = message.sender
    · rw [hsender, Function.update_self, if_pos rfl]
    · rw [Function.update_of_ne hsender, if_neg hsender, List.append_nil]
  · rw [mailboxes_moved_of_ne howner, if_neg fun hand ↦ howner hand.1, List.append_nil]

include h hflight

theorem items_moved (id : ℕ) :
    ((exchange.moved recipient message (before ++ after)).mailboxes owner).items id =
      if owner = recipient ∧ id = message.id then some message else (exchange.mailboxes owner).items id := by
  have hmessage := h.flying recipient message (hflight ▸ List.mem_append_right _ List.mem_cons_self)
  by_cases howner : owner = recipient
  · change (Function.update exchange.mailboxes recipient _ owner).items id = _
    rw [howner, Function.update_self, Mailbox.addInbox_items]
    by_cases hid : id = message.id
    · rw [hid, if_pos ⟨rfl, rfl⟩]
      apply Mailbox.includeItem_items_self
      intro stored hstored
      obtain ⟨heq, hsent⟩ := h.stored recipient _ stored hstored
      exact hmessage.1.eq hsent heq
    · rw [if_neg fun hand ↦ hid hand.2]
      exact Mailbox.includeItem_items_of_ne hid
  · rw [mailboxes_moved_of_ne howner, if_neg fun hand ↦ howner hand.1]

omit h hflight in
theorem inFlight_moved_self : (exchange.moved recipient message inFlight).inFlight recipient = inFlight :=
  Function.update_self _ _ _

omit h in
/-- A delivered message moves past those of its sender that were in flight before it. -/
theorem copies_moved (sender owner : U) :
    ((exchange.moved recipient message (before ++ after)).copies sender owner).Perm (exchange.copies sender owner) ∧
      ((owner = recipient → sender = message.sender → ∀ other ∈ before, other.sender ≠ message.sender) →
        (exchange.moved recipient message (before ++ after)).copies sender owner = exchange.copies sender owner) := by
  rw [copies, copies, inbox_moved]
  by_cases howner : owner = recipient
  · subst howner
    rw [inFlight_moved_self, hflight, fromSender_append, fromSender_append]
    by_cases hsender : sender = message.sender
    · subst hsender
      rw [if_pos ⟨rfl, rfl⟩, fromSender_cons_self]
      simp only [List.append_assoc, List.singleton_append]
      refine ⟨?_, fun hfirst ↦ ?_⟩
      · exact (List.perm_middle.symm.append_left _).append_left _
      · have hnone : fromSender message.sender before = [] := by
          rw [fromSender, List.filter_eq_nil_iff.2, List.map_nil]
          intro other hmem
          rw [decide_eq_true_eq]
          exact hfirst trivial trivial other hmem
        rw [hnone, List.nil_append, List.nil_append]
        rfl
    · rw [if_neg fun hand ↦ hsender hand.2, fromSender_cons_other (Ne.symm hsender), List.append_nil]
      exact ⟨List.Perm.refl _, fun _ ↦ rfl⟩
  · have hother : (exchange.moved recipient message (before ++ after)).inFlight owner = exchange.inFlight owner :=
      Function.update_of_ne howner _ _
    rw [if_neg fun hand ↦ howner hand.1, List.append_nil, hother]
    exact ⟨List.Perm.refl _, fun _ ↦ rfl⟩

omit h in
theorem trail_moved (sender owner : U) :
    ((exchange.moved recipient message (before ++ after)).trail sender owner).Perm (exchange.trail sender owner) ∧
      ((owner = recipient → sender = message.sender → ∀ other ∈ before, other.sender ≠ message.sender) →
        (exchange.moved recipient message (before ++ after)).trail sender owner = exchange.trail sender owner) := by
  obtain ⟨hperm, heq⟩ := copies_moved hflight sender owner
  rw [trail, trail, outbox_moved]
  exact ⟨hperm.append_right _, fun hfirst ↦ congrArg (· ++ _) (heq hfirst)⟩

theorem Kept.moved : (exchange.moved recipient message (before ++ after)).Kept := by
  obtain ⟨hsent, howner, hfor⟩ :=
    h.flying recipient message (hflight ▸ List.mem_append_right _ List.mem_cons_self)
  have hstays : ∀ {owner : U} {id : ℕ} {stored : Message U κ}, (exchange.mailboxes owner).items id = some stored →
      ((exchange.moved recipient message (before ++ after)).mailboxes owner).items id = some stored := by
    intro owner id stored hstored
    rw [items_moved h hflight]
    split
    · next hand =>
      obtain ⟨heq, hother⟩ := h.stored owner id stored hstored
      rw [hother.eq hsent (hand.2.symm.trans heq.symm)]
    · exact hstored
  constructor
  · exact h.owned
  · intro owner hnew
    have hne : owner ≠ recipient := fun heq ↦ hnew (heq ▸ howner)
    exact (mailboxes_moved_of_ne hne).trans (h.fresh owner hnew)
  · exact h.numbered
  · intro owner id stored hstored
    rw [items_moved h hflight] at hstored
    split at hstored
    · next hand =>
      rw [← Option.some.inj hstored]
      exact ⟨hand.2.symm, hsent⟩
    · exact h.stored owner id stored hstored
  · intro owner id hid
    rw [outbox_moved] at hid
    obtain ⟨stored, hstored, hsender⟩ := h.outboxed owner id hid
    exact ⟨stored, hstays hstored, hsender⟩
  · intro owner sender id hid
    rw [inbox_moved] at hid
    rcases List.mem_append.1 hid with hold | hnew
    · obtain ⟨stored, hstored, hsender⟩ := h.inboxed owner sender id hold
      exact ⟨stored, hstays hstored, hsender⟩
    · split at hnew
      · next hand =>
        refine ⟨message, ?_, hand.2.symm, hand.1 ▸ hfor⟩
        rw [items_moved h hflight, if_pos ⟨hand.1, List.mem_singleton.1 hnew⟩]
      · cases hnew
  · intro owner other hmem
    by_cases howner : owner = recipient
    · rw [howner, inFlight_moved_self] at hmem
      rw [howner]
      apply h.flying recipient other
      rw [hflight]
      exact List.mem_append.2 ((List.mem_append.1 hmem).imp_right (List.mem_cons_of_mem message))
    · have hother : (exchange.moved recipient message (before ++ after)).inFlight owner = exchange.inFlight owner :=
        Function.update_of_ne howner _ _
      rw [hother] at hmem
      exact h.flying owner other hmem
  · exact h.read
  · intro sender owner
    exact (trail_moved hflight sender owner).1.nodup_iff.2 (h.distinct sender owner)
  · intro entry hentry owner hmem hdirect
    exact (trail_moved hflight _ owner).1.mem_iff.2 (h.direct entry hentry owner hmem hdirect)
  · intro broadcast hmem
    obtain ⟨hsent, houtbox, hcopies⟩ := h.copied broadcast hmem
    refine ⟨hsent, ?_, fun owner ↦ ?_⟩
    · rw [outbox_moved]
      exact houtbox
    · rw [(copies_moved hflight _ owner).1.mem_iff]
      exact hcopies owner

end Move

variable {recipient : U} {message : Message U κ}

/-- The first message with its identifier leaves those in flight. -/
theorem Kept.deliver_eq (h : exchange.Kept) {before after : List (Message U κ)}
    (hflight : exchange.inFlight recipient = before ++ message :: after)
    (hbefore : ∀ other ∈ before, other.id ≠ message.id) :
    (exchange.deliverLocked recipient message).removeInFlight recipient message =
      exchange.moved recipient message (before ++ after) := by
  obtain ⟨-, howner, -⟩ :=
    h.flying recipient message (hflight ▸ List.mem_append_right _ List.mem_cons_self)
  have herase : (exchange.inFlight recipient).eraseP (fun candidate ↦ candidate.id = message.id) =
      before ++ after := by
    rw [hflight, List.eraseP_append_right]
    · exact congrArg (before ++ ·) (List.eraseP_cons_of_pos (decide_eq_true rfl))
    · intro other hmem
      rw [decide_eq_true_eq]
      exact hbefore other hmem
  rw [deliverLocked, Exchange.get, if_pos howner, removeInFlight]
  simp only [setMailbox, Exchange.moved, herase]

theorem Kept.deliverTo_of_mem (h : exchange.Kept) (hmem : message ∈ exchange.inFlight recipient) : ∃ before after,
      exchange.inFlight recipient = before ++ message :: after ∧ (∀ other ∈ before, other.id ≠ message.id) ∧
        exchange.deliverTo recipient message.id = exchange.moved recipient message (before ++ after) := by
  have hisSome : ((exchange.inFlight recipient).find? fun candidate ↦ candidate.id = message.id).isSome :=
    List.find?_isSome.2 ⟨message, hmem, decide_eq_true rfl⟩
  obtain ⟨found, hfind⟩ := Option.isSome_iff_exists.1 hisSome
  obtain ⟨hid, before, after, hflight, hbefore⟩ := List.find?_eq_some_iff_append.1 hfind
  rw [decide_eq_true_eq] at hid
  have hfound : found ∈ exchange.inFlight recipient := hflight ▸ List.mem_append_right _ List.mem_cons_self
  have hsame : found = message := (h.flying recipient message hmem).1.eq (h.flying recipient found hfound).1 hid
  subst hsame
  have hother : ∀ other ∈ before, other.id ≠ found.id := by
    intro other hmem heq
    have hnot := hbefore other hmem
    rw [decide_eq_true heq] at hnot
    exact Bool.false_ne_true hnot
  refine ⟨before, after, hflight, hother, ?_⟩
  rw [deliverTo, hfind]
  exact h.deliver_eq hflight hother

theorem deliverTo_of_not_mem {id : ℕ} (hnone : ∀ message ∈ exchange.inFlight recipient, message.id ≠ id) :
    exchange.deliverTo recipient id = exchange := by
  have hfind : ((exchange.inFlight recipient).find? fun candidate ↦ candidate.id = id) = none := by
    rw [List.find?_eq_none]
    intro message hmem
    rw [decide_eq_true_eq]
    exact hnone message hmem
  rw [deliverTo, hfind]

theorem Kept.deliverTo (h : exchange.Kept) (recipient : U) (id : ℕ) : (exchange.deliverTo recipient id).Kept := by
  by_cases hmem : ∃ message ∈ exchange.inFlight recipient, message.id = id
  · obtain ⟨message, hmessage, rfl⟩ := hmem
    obtain ⟨before, after, hflight, -, heq⟩ := h.deliverTo_of_mem hmessage
    rw [heq]
    exact h.moved hflight
  · rw [deliverTo_of_not_mem fun message hmessage hid ↦ hmem ⟨message, hmessage, hid⟩]
    exact h

theorem Kept.deliverEach (h : exchange.Kept) (deliveries : List (U × Message U κ)) :
    (exchange.deliverEach deliveries).Kept := by
  induction deliveries generalizing exchange with
  | nil => exact h
  | cons delivery deliveries ih => exact ih (h.deliverTo delivery.1 delivery.2.id)

theorem Kept.collectSync (h : exchange.Kept) (owner : U) : (exchange.collectSync owner).2.Kept := by
  unfold Exchange.collectSync
  split
  · exact h
  · next mailbox hget =>
    obtain ⟨howner, rfl⟩ := get_eq_some hget
    have htaken : (exchange.taken owner).Kept := h.taken howner
    exact htaken.deliverEach _

/-! ## Reading -/

/-- The exchange after the first message of an inbox is consumed. -/
def popped (exchange : Exchange U κ) (owner sender : U) (message : Message U κ) (ids : List ℕ) : Exchange U κ :=
  { exchange.setMailbox owner { exchange.mailboxes owner with
      inbox := Function.update (exchange.mailboxes owner).inbox sender ids
      items := Function.update (exchange.mailboxes owner).items message.id none } with
    consumed := Function.update exchange.consumed owner (exchange.consumed owner ++ [message]) }

section Pop

variable {owner sender : U} {message : Message U κ} {ids : List ℕ} (h : exchange.Kept)
  (hinbox : (exchange.mailboxes owner).inbox sender = message.id :: ids)
  (hitem : (exchange.mailboxes owner).items message.id = some message)

theorem mailboxes_popped_of_ne {other : U} (hne : other ≠ owner) :
    (exchange.popped owner sender message ids).mailboxes other = exchange.mailboxes other :=
  Function.update_of_ne hne _ _

variable (other : U)

theorem outbox_popped : ((exchange.popped owner sender message ids).mailboxes other).outbox =
    (exchange.mailboxes other).outbox := by
  by_cases hother : other = owner
  · change (Function.update exchange.mailboxes owner _ other).outbox = _
    rw [hother, Function.update_self]
  · rw [mailboxes_popped_of_ne hother]

theorem inbox_popped (author : U) :
    ((exchange.popped owner sender message ids).mailboxes other).inbox author =
      if other = owner ∧ author = sender then ids else (exchange.mailboxes other).inbox author := by
  by_cases hother : other = owner
  · change (Function.update exchange.mailboxes owner _ other).inbox author = _
    rw [hother, Function.update_self]
    by_cases hauthor : author = sender
    · rw [hauthor, if_pos ⟨rfl, rfl⟩]
      exact Function.update_self _ _ _
    · rw [if_neg fun hand ↦ hauthor hand.2]
      exact Function.update_of_ne hauthor _ _
  · rw [mailboxes_popped_of_ne hother, if_neg fun hand ↦ hother hand.1]

theorem items_popped (id : ℕ) :
    ((exchange.popped owner sender message ids).mailboxes other).items id =
      if other = owner ∧ id = message.id then none else (exchange.mailboxes other).items id := by
  by_cases hother : other = owner
  · change (Function.update exchange.mailboxes owner _ other).items id = _
    rw [hother, Function.update_self]
    by_cases hid : id = message.id
    · rw [hid, if_pos ⟨rfl, rfl⟩]
      exact Function.update_self _ _ _
    · rw [if_neg fun hand ↦ hid hand.2]
      exact Function.update_of_ne hid _ _
  · rw [mailboxes_popped_of_ne hother, if_neg fun hand ↦ hother hand.1]

include h hinbox hitem

theorem sender_popped : message.sender = sender :=
  h.sender_eq hitem (hinbox ▸ List.mem_cons_self)

theorem copies_popped (author other : U) :
    (exchange.popped owner sender message ids).copies author other = exchange.copies author other := by
  have hsender : message.sender = sender := sender_popped h hinbox hitem
  rw [copies, copies, inbox_popped]
  change fromSender author (Function.update exchange.consumed owner _ other) ++ _ ++
    fromSender author (exchange.inFlight other) = _
  by_cases hother : other = owner
  · subst hother
    rw [Function.update_self, fromSender_append]
    by_cases hauthor : author = sender
    · rw [hauthor, if_pos ⟨rfl, rfl⟩, hinbox, ← hsender, fromSender_cons_self]
      simp only [fromSender, List.filter_nil, List.map_nil, List.append_assoc, List.cons_append, List.nil_append]
    · rw [if_neg fun hand ↦ hauthor hand.2, fromSender_cons_other (by rw [hsender]; exact Ne.symm hauthor)]
      simp only [fromSender, List.filter_nil, List.map_nil, List.append_nil]
  · rw [Function.update_of_ne hother, if_neg fun hand ↦ hother hand.1]

theorem trail_popped (author other : U) :
    (exchange.popped owner sender message ids).trail author other = exchange.trail author other := by
  rw [trail, trail, copies_popped h hinbox hitem, outbox_popped]

theorem Kept.popped (howner : owner ∈ exchange.owners) : (exchange.popped owner sender message ids).Kept := by
  have hsender : message.sender = sender := sender_popped h hinbox hitem
  have hlisted : message.id ∈ (exchange.mailboxes owner).inbox sender := hinbox ▸ List.mem_cons_self
  constructor
  · exact h.owned
  · intro other hnew
    have hne : other ≠ owner := fun heq ↦ hnew (heq ▸ howner)
    exact (mailboxes_popped_of_ne hne).trans (h.fresh other hnew)
  · exact h.numbered
  · intro other id stored hstored
    rw [items_popped] at hstored
    split at hstored
    · cases hstored
    · exact h.stored other id stored hstored
  · intro other id hid
    rw [outbox_popped] at hid
    rw [items_popped, if_neg]
    · exact h.outboxed other id hid
    · rintro ⟨rfl, rfl⟩
      exact h.inbox_not_mem_outbox hlisted hid
  · intro other author id hid
    rw [inbox_popped] at hid
    have hrest : id ∈ (exchange.mailboxes other).inbox author ∧ ¬ (other = owner ∧ id = message.id) := by
      split at hid
      · next hand =>
        obtain ⟨rfl, rfl⟩ := hand
        have hnodup : ((exchange.mailboxes other).inbox author).Nodup :=
          (List.nodup_append.1 (List.nodup_append.1 (h.distinct author other).of_append_left).1).2.1
        rw [hinbox, List.nodup_cons] at hnodup
        refine ⟨hinbox ▸ List.mem_cons_of_mem _ hid, ?_⟩
        rintro ⟨-, rfl⟩
        exact hnodup.1 hid
      · next hother =>
        refine ⟨hid, ?_⟩
        rintro ⟨rfl, rfl⟩
        exact hother ⟨rfl, (h.sender_eq hitem hid).symm.trans hsender⟩
    rw [items_popped, if_neg hrest.2]
    exact h.inboxed other author id hrest.1
  · exact h.flying
  · intro other stored hmem
    by_cases hother : other = owner
    · change stored ∈ Function.update exchange.consumed owner _ other at hmem
      rw [hother, Function.update_self] at hmem
      rw [hother]
      rcases List.mem_append.1 hmem with hold | hnew
      · exact h.read owner stored hold
      · rw [List.mem_singleton.1 hnew]
        obtain ⟨found, hfound, -, hfor⟩ := h.inboxed owner sender message.id hlisted
        rw [hitem] at hfound
        exact ⟨(h.stored owner _ message hitem).2, Option.some.inj hfound ▸ hfor⟩
    · change stored ∈ Function.update exchange.consumed owner _ other at hmem
      rw [Function.update_of_ne hother] at hmem
      exact h.read other stored hmem
  · intro author other
    rw [trail_popped h hinbox hitem]
    exact h.distinct author other
  · intro entry hentry other hmem hdirect
    rw [trail_popped h hinbox hitem]
    exact h.direct entry hentry other hmem hdirect
  · intro broadcast hmem
    obtain ⟨hsent, houtbox, hcopies⟩ := h.copied broadcast hmem
    refine ⟨hsent, ?_, fun other ↦ ?_⟩
    · rw [outbox_popped]
      exact houtbox
    · rw [copies_popped h hinbox hitem]
      exact hcopies other

end Pop

/-- Nothing is popped, or the first message of the inbox. -/
theorem Kept.popMessage_cases (h : exchange.Kept) (owner sender : U) :
    exchange.popMessage owner sender = (none, exchange) ∨ ∃ message ids, owner ∈ exchange.owners ∧
      (exchange.mailboxes owner).inbox sender = message.id :: ids ∧
      (exchange.mailboxes owner).items message.id = some message ∧
      exchange.popMessage owner sender = (some message, exchange.popped owner sender message ids) := by
  unfold popMessage Exchange.get
  split
  · exact .inl rfl
  next mailbox hget =>
  obtain ⟨howner, rfl⟩ := get_eq_some hget
  cases hinbox : (exchange.mailboxes owner).inbox sender with
  | nil =>
    left
    simp only [Mailbox.popInbox, hinbox, setMailbox, Function.update_eq_self, Option.toList_none, List.append_nil]
  | cons id ids =>
    obtain ⟨message, hitem, -⟩ := h.inboxed owner sender id (hinbox ▸ List.mem_cons_self)
    have hid : message.id = id := (h.stored owner id message hitem).1
    subst hid
    refine .inr ⟨message, ids, howner, rfl, hitem, ?_⟩
    simp only [Mailbox.popInbox, hinbox, Mailbox.popItem, hitem]
    rfl

theorem Kept.popMessage (h : exchange.Kept) (owner sender : U) : (exchange.popMessage owner sender).2.Kept := by
  rcases h.popMessage_cases owner sender with heq | ⟨message, ids, howner, hinbox, hitem, heq⟩
  · rw [heq]
    exact h
  · rw [heq]
    exact h.popped hinbox hitem howner

/-- Every trail is as before. -/
def SameTrails (exchange after : Exchange U κ) : Prop :=
  ∀ sender recipient, after.trail sender recipient = exchange.trail sender recipient

theorem SameTrails.trans {second third : Exchange U κ} (h : exchange.SameTrails second)
    (h' : second.SameTrails third) : exchange.SameTrails third :=
  fun sender recipient ↦ (h' sender recipient).trans (h sender recipient)

theorem Kept.popMessage_sameTrails (h : exchange.Kept) (owner sender : U) :
    (exchange.popMessage owner sender).2.Kept ∧ exchange.SameTrails (exchange.popMessage owner sender).2 := by
  refine ⟨h.popMessage owner sender, ?_⟩
  rcases h.popMessage_cases owner sender with heq | ⟨message, ids, -, hinbox, hitem, heq⟩
  · rw [heq]
    exact fun _ _ ↦ rfl
  · rw [heq]
    exact trail_popped h hinbox hitem

theorem Kept.popWhile (h : exchange.Kept) (owner sender : U) (fuel : ℕ) :
    (popWhile owner sender fuel exchange).2.Kept ∧
      exchange.SameTrails (popWhile owner sender fuel exchange).2 := by
  induction fuel generalizing exchange with
  | zero => exact ⟨h, fun _ _ ↦ rfl⟩
  | succ fuel ih =>
    obtain ⟨hkept, hsame⟩ := h.popMessage_sameTrails owner sender
    rw [Exchange.popWhile]
    split
    · next after heq =>
      rw [heq] at hkept hsame
      exact ⟨hkept, hsame⟩
    · next message after heq =>
      rw [heq] at hkept hsame
      obtain ⟨hrest, hsameRest⟩ := ih hkept
      exact ⟨hrest, hsame.trans hsameRest⟩

theorem Kept.popSenders (h : exchange.Kept) (owner : U) (senders : List U) :
    (exchange.popSenders owner senders).2.Kept ∧
      exchange.SameTrails (exchange.popSenders owner senders).2 := by
  induction senders generalizing exchange with
  | nil => exact ⟨h, fun _ _ ↦ rfl⟩
  | cons sender senders ih =>
    obtain ⟨hkept, hsame⟩ := h.popWhile owner sender (((exchange.mailboxes owner).inbox sender).length + 1)
    obtain ⟨hrest, hsameRest⟩ := ih hkept
    exact ⟨hrest, hsame.trans hsameRest⟩

/-- What is in flight is delivered in its order. -/
theorem Kept.deliverPending (h : exchange.Kept) (owner : U) :
    (exchange.deliverPending owner).Kept ∧ exchange.SameTrails (exchange.deliverPending owner) := by
  unfold Exchange.deliverPending
  generalize hflight : exchange.inFlight owner = messages
  induction messages generalizing exchange with
  | nil => exact ⟨h, fun _ _ ↦ rfl⟩
  | cons message messages ih =>
    have hfirst : exchange.inFlight owner = [] ++ message :: messages := hflight
    rw [List.foldl_cons, h.deliver_eq hfirst (fun other hmem ↦ absurd hmem List.not_mem_nil)]
    obtain ⟨hkept, hsame⟩ := ih (h.moved hfirst) inFlight_moved_self
    refine ⟨hkept, SameTrails.trans ?_ hsame⟩
    intro sender recipient
    exact (trail_moved hfirst sender recipient).2 fun _ _ other hmem ↦ absurd hmem List.not_mem_nil

theorem Kept.drainPending (h : exchange.Kept) (owner : U) (senders : List U) :
    (exchange.drainPending owner senders).2.Kept ∧
      exchange.SameTrails (exchange.drainPending owner senders).2 := by
  obtain ⟨hkept, hsame⟩ := h.deliverPending owner
  unfold Exchange.drainPending
  extract_lets delivered
  split
  · obtain ⟨hrest, hsameRest⟩ := hkept.popSenders owner senders
    exact ⟨hrest, hsame.trans hsameRest⟩
  · exact ⟨h, fun _ _ ↦ rfl⟩

/-- Every step keeps the mail. -/
theorem Kept.exec (h : exchange.Kept) (op : ExchangeOp U κ) : (exchange.exec op).Kept := by
  cases op with
  | register owner => exact h.register owner
  | send sender recipient content channel => exact h.send sender recipient content channel
  | collect owner => exact h.collect owner
  | deliver recipient id => exact h.deliverTo recipient id
  | collectSync owner => exact h.collectSync owner
  | drainPending owner senders => exact (h.drainPending owner senders).1
  | peekPending owner => exact h
  | popMessage owner sender => exact h.popMessage owner sender

end Exchange

end Lionagi.Session
