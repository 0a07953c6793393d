import Lionagi.Library.Transition
import Lionagi.Session.ExchangeDelivery

/-!
# What the exchange promises

Every direct message to an owner is in one place, and every broadcast makes one copy for each of the others. The
messages of a sender are consumed in the order in which they were sent when no delivery overtakes another one: a
task delivers the oldest message in flight, and a synchronous collector runs when nothing of its owner is in flight
to those whom it delivers.
-/

namespace Lionagi.Session

open Transition

variable {U κ : Type*} [DecidableEq U]

namespace Exchange

variable (exchange : Exchange U κ)

/-- How often a message is in flight to an owner, in its inbox and consumed by it. -/
def arrivals (message : Message U κ) (owner : U) : ℕ :=
  (exchange.inFlight owner).countP (fun other ↦ other.id = message.id) +
    ((exchange.mailboxes owner).inbox message.sender).count message.id +
    (exchange.consumed owner).countP fun other ↦ other.id = message.id

/-- Neither lost nor duplicated. -/
structure Conserved : Prop where
  /-- A direct message to an owner is in the outbox, or it has left it for the owner, and for nobody else. -/
  direct : ∀ message owners recipient, (message, owners) ∈ exchange.sent → message.recipient = some recipient →
    recipient ∈ owners →
      (exchange.mailboxes message.sender).outbox.count message.id + exchange.arrivals message recipient = 1 ∧
        ∀ other, other ≠ recipient → exchange.arrivals message other = 0
  /-- A collected broadcast has left the outbox for those who got a copy. -/
  broadcast : ∀ message others, (message, others) ∈ exchange.broadcasts →
    (exchange.mailboxes message.sender).outbox.count message.id = 0 ∧
      ∀ owner, exchange.arrivals message owner = if owner ∈ others then 1 else 0
  /-- What an outbox lists can be collected. -/
  collectable : ∀ owner, ∀ id ∈ (exchange.mailboxes owner).outbox,
    ∃ message, (exchange.mailboxes owner).items id = some message ∧ message.id = id ∧ message.sender = owner
  /-- What an inbox lists can be read. -/
  readable : ∀ owner sender, ∀ id ∈ (exchange.mailboxes owner).inbox sender,
    ∃ message, (exchange.mailboxes owner).items id = some message ∧ message.id = id ∧ message.sender = sender

/-- Each owner consumes the messages of each sender in the order in which they were sent. -/
def InOrder : Prop :=
  ∀ owner sender, ((exchange.consumed owner).filter fun message ↦ message.sender = sender).Pairwise
    fun message later ↦ message.id < later.id

/-- No delivery overtakes another one of the same sender to the same recipient. -/
def Overtakes : ExchangeOp U κ → Prop
  | .deliver recipient id => ∃ message ∈ exchange.inFlight recipient, message.id = id ∧
      ∃ other ∈ exchange.inFlight recipient, other.sender = message.sender ∧ other.id < id
  | .collectSync owner => ∃ message, message.id ∈ (exchange.mailboxes owner).outbox ∧
      (exchange.mailboxes owner).items message.id = some message ∧
      ∃ recipient ∈ exchange.recipients owner message,
        ∃ other ∈ exchange.inFlight recipient, other.sender = owner
  | _ => False

variable {exchange}

/-! ## Conservation -/

theorem countP_eq_count {messages : List (Message U κ)} {sender : U} {id : ℕ}
    (h : ∀ message ∈ messages, message.id = id → message.sender = sender) :
    messages.countP (fun message ↦ message.id = id) = (fromSender sender messages).count id := by
  induction messages with
  | nil => rfl
  | cons message messages ih =>
    specialize ih fun other hmem ↦ h other (List.mem_cons_of_mem _ hmem)
    by_cases hid : message.id = id
    · have hsender : message.sender = sender := h message List.mem_cons_self hid
      subst hsender
      rw [fromSender_cons_self, List.countP_cons, if_pos (decide_eq_true hid), ih, hid, List.count_cons_self]
    · rw [List.countP_cons, if_neg (by rwa [decide_eq_true_eq]), ih]
      by_cases hsender : message.sender = sender
      · subst hsender
        rw [fromSender_cons_self, List.count_cons_of_ne hid, Nat.add_zero]
      · rw [fromSender_cons_other hsender, Nat.add_zero]

variable {message : Message U κ}

theorem Kept.arrivals_eq (h : exchange.Kept) (hsent : exchange.WasSent message) (owner : U) :
    exchange.arrivals message owner = (exchange.copies message.sender owner).count message.id := by
  have hflying : ∀ other ∈ exchange.inFlight owner, other.id = message.id → other.sender = message.sender := by
    intro other hmem hid
    rw [hsent.eq (h.flying owner other hmem).1 hid]
  have hread : ∀ other ∈ exchange.consumed owner, other.id = message.id → other.sender = message.sender := by
    intro other hmem hid
    rw [hsent.eq (h.read owner other hmem).1 hid]
  rw [arrivals, countP_eq_count hflying, countP_eq_count hread, copies, List.count_append, List.count_append]
  omega

theorem Kept.nodup_copies (h : exchange.Kept) (sender recipient : U) : (exchange.copies sender recipient).Nodup :=
  (List.nodup_append.1 (h.distinct sender recipient)).1

theorem Kept.conserved (h : exchange.Kept) : exchange.Conserved where
  direct := by
    intro message owners recipient hmem hdirect howner
    have hsent : exchange.WasSent message := h.wasSent hmem
    rw [h.arrivals_eq hsent]
    constructor
    · have hone : (exchange.trail message.sender recipient).count message.id = 1 :=
        List.count_eq_one_of_mem (h.distinct _ _) (h.direct (message, owners) hmem recipient howner hdirect)
      rw [trail, List.count_append] at hone
      omega
    · intro other hne
      rw [h.arrivals_eq hsent]
      apply List.count_eq_zero_of_not_mem
      intro hcopies
      obtain ⟨found, hfound, -, hid, hfor⟩ := h.sent_of_mem_copies hcopies
      rw [hsent.eq hfound hid, Message.IsFor, hdirect] at hfor
      rcases hfor with hsame | hbroadcast
      · exact hne (Option.some.inj hsame).symm
      · cases hbroadcast.1
  broadcast := by
    intro message others hmem
    obtain ⟨hsent, houtbox, hcopies⟩ := h.copied (message, others) hmem
    refine ⟨List.count_eq_zero_of_not_mem houtbox, fun owner ↦ ?_⟩
    rw [h.arrivals_eq hsent]
    split
    · next howner => exact List.count_eq_one_of_mem (h.nodup_copies _ _) ((hcopies owner).2 howner)
    · next howner => exact List.count_eq_zero_of_not_mem fun hmem ↦ howner ((hcopies owner).1 hmem)
  collectable := by
    intro owner id hid
    obtain ⟨message, -, hsender, heq, hitem⟩ := h.sent_of_mem_outbox hid
    exact ⟨message, hitem, heq, hsender⟩
  readable := by
    intro owner sender id hid
    obtain ⟨message, hitem, hsender, -⟩ := h.inboxed owner sender id hid
    exact ⟨message, hitem, (h.stored owner id message hitem).1, hsender⟩

/-! ## Order -/

/-- From the oldest message consumed to the youngest one in the outbox, a trail follows the order of sending. -/
def Ordered (exchange : Exchange U κ) : Prop :=
  ∀ sender recipient, (exchange.trail sender recipient).Pairwise (· < ·)

theorem Ordered.of_sameTrails (h : exchange.Ordered) {after : Exchange U κ} (hsame : exchange.SameTrails after) :
    after.Ordered := by
  intro sender recipient
  rw [hsame]
  exact h sender recipient

theorem Ordered.inOrder (h : exchange.Ordered) : exchange.InOrder := by
  intro owner sender
  have hcopies := (List.pairwise_append.1 (h sender owner)).1
  exact List.pairwise_map.1 (List.pairwise_append.1 (List.pairwise_append.1 hcopies).1).1

theorem Ordered.flying (h : exchange.Ordered) (sender owner : U) :
    (fromSender sender (exchange.inFlight owner)).Pairwise (· < ·) :=
  (List.pairwise_append.1 (List.pairwise_append.1 (h sender owner)).1).2.1

theorem Ordered.send (h : exchange.Ordered) (hkept : exchange.Kept) (sender : U) (recipient : Option U) (content : κ)
    (channel : Option String) : (exchange.send sender recipient content channel).2.Ordered := by
  unfold Exchange.send
  split
  · exact h
  · next mailbox hget =>
    obtain ⟨-, rfl⟩ := get_eq_some hget
    intro author owner
    have htrail := @trail_afterSend _ _ exchange _
      ⟨exchange.sent.length, sender, recipient, content, channel⟩ author owner
    refine htrail.symm ▸ List.pairwise_append.2 ⟨h author owner, ?_, fun id hid later hlater ↦ ?_⟩
    · split
      · exact List.pairwise_singleton _ _
      · exact List.Pairwise.nil
    · split at hlater
      · rw [List.mem_singleton.1 hlater]
        exact hkept.lt_of_mem_trail hid
      · cases hlater

theorem Ordered.taken (h : exchange.Ordered) (hkept : exchange.Kept) (owner : U) : (exchange.taken owner).Ordered :=
  fun sender recipient ↦ (h sender recipient).sublist (trail_taken hkept sender recipient)

variable {owner recipient : U}

/-- A message that overtakes none leaves every trail as it is. -/
theorem deliverTo_sameTrails (hkept : exchange.Kept) (hmem : message ∈ exchange.inFlight recipient)
    (hfirst : ∃ rest, (exchange.inFlight recipient).filter (fun other ↦ other.sender = message.sender) =
      message :: rest) : exchange.SameTrails (exchange.deliverTo recipient message.id) := by
  obtain ⟨before, after, hflight, hbefore, heq⟩ := hkept.deliverTo_of_mem hmem
  rw [heq]
  intro sender owner
  apply (trail_moved hflight sender owner).2
  rintro - - other hother hsender
  obtain ⟨rest, hrest⟩ := hfirst
  rw [hflight, List.filter_append] at hrest
  have hfiltered : other ∈ before.filter fun other ↦ other.sender = message.sender :=
    List.mem_filter.2 ⟨hother, decide_eq_true hsender⟩
  cases hlist : before.filter fun other ↦ other.sender = message.sender with
  | nil =>
    rw [hlist] at hfiltered
    cases hfiltered
  | cons first others =>
    rw [hlist, List.cons_append, List.cons.injEq] at hrest
    have hfirst : first ∈ before.filter fun other ↦ other.sender = message.sender := hlist ▸ List.mem_cons_self
    exact hbefore first (List.mem_filter.1 hfirst).1 (congrArg Message.id hrest.1)

theorem Ordered.deliverTo (h : exchange.Ordered) (hkept : exchange.Kept) {id : ℕ}
    (hlast : ¬ exchange.Overtakes (.deliver recipient id)) : (exchange.deliverTo recipient id).Ordered := by
  by_cases hmem : ∃ message ∈ exchange.inFlight recipient, message.id = id
  swap
  · rw [deliverTo_of_not_mem fun message hmessage hid ↦ hmem ⟨message, hmessage, hid⟩]
    exact h
  obtain ⟨message, hmessage, rfl⟩ := hmem
  apply h.of_sameTrails
  apply deliverTo_sameTrails hkept hmessage
  have hfiltered : message ∈ (exchange.inFlight recipient).filter fun other ↦ other.sender = message.sender :=
    List.mem_filter.2 ⟨hmessage, decide_eq_true rfl⟩
  obtain ⟨before, rest, hsplit⟩ := List.append_of_mem hfiltered
  cases before with
  | nil => exact ⟨rest, hsplit⟩
  | cons other before =>
    exfalso
    have hother : other ∈ (exchange.inFlight recipient).filter fun other ↦ other.sender = message.sender :=
      hsplit ▸ List.mem_append_left _ List.mem_cons_self
    obtain ⟨hin, hsender⟩ := List.mem_filter.1 hother
    have hsorted := List.pairwise_map.1 (h.flying message.sender recipient)
    rw [hsplit] at hsorted
    have hlt : other.id < message.id :=
      (List.pairwise_append.1 hsorted).2.2 other List.mem_cons_self message List.mem_cons_self
    exact hlast ⟨message, hmessage, rfl, other, hin, of_decide_eq_true hsender, hlt⟩

/-- In flight from an owner to those that a list of deliveries names is what the list has for them. -/
def Pending (exchange : Exchange U κ) (owner : U) (deliveries : List (U × Message U κ)) : Prop :=
  ∀ recipient, recipient ∈ deliveries.map Prod.fst →
    (exchange.inFlight recipient).filter (fun message ↦ message.sender = owner) =
      (deliveries.filter fun delivery ↦ delivery.1 = recipient).map Prod.snd

theorem Pending.deliverEach {deliveries : List (U × Message U κ)} (hkept : exchange.Kept)
    (hpending : exchange.Pending owner deliveries) : exchange.SameTrails (exchange.deliverEach deliveries) := by
  induction deliveries generalizing exchange with
  | nil => exact fun _ _ ↦ rfl
  | cons delivery deliveries ih =>
    obtain ⟨recipient, message⟩ := delivery
    have hfirst : (exchange.inFlight recipient).filter (fun message ↦ message.sender = owner) =
        message :: (deliveries.filter fun delivery ↦ delivery.1 = recipient).map Prod.snd := by
      rw [hpending recipient List.mem_cons_self, List.filter_cons, if_pos (decide_eq_true rfl)]
      rfl
    have hfiltered : message ∈ (exchange.inFlight recipient).filter fun message ↦ message.sender = owner :=
      hfirst ▸ List.mem_cons_self
    obtain ⟨hmem, hsender⟩ := List.mem_filter.1 hfiltered
    have hsender : message.sender = owner := of_decide_eq_true hsender
    have hsame : exchange.SameTrails (exchange.deliverTo recipient message.id) :=
      deliverTo_sameTrails hkept hmem ⟨_, hsender ▸ hfirst⟩
    refine hsame.trans (ih (hkept.deliverTo recipient message.id) ?_)
    intro other hother
    obtain ⟨before, after, hflight, hbefore, heq⟩ := hkept.deliverTo_of_mem hmem
    rw [heq]
    by_cases hrecipient : other = recipient
    · rw [hrecipient, inFlight_moved_self]
      rw [hflight, List.filter_append, List.filter_cons, if_pos (decide_eq_true hsender)] at hfirst
      cases hlist : before.filter fun message ↦ message.sender = owner with
      | nil =>
        rw [hlist, List.nil_append, List.cons.injEq] at hfirst
        rw [List.filter_append, hlist]
        exact hfirst.2
      | cons first others =>
        rw [hlist, List.cons_append, List.cons.injEq] at hfirst
        have hin : first ∈ before.filter fun message ↦ message.sender = owner := hlist ▸ List.mem_cons_self
        exact absurd (congrArg Message.id hfirst.1) (hbefore first (List.mem_filter.1 hin).1)
    · have hsameFlight : (exchange.moved recipient message (before ++ after)).inFlight other = exchange.inFlight other :=
        Function.update_of_ne hrecipient _ _
      rw [hsameFlight, hpending other (List.mem_cons_of_mem _ hother), List.filter_cons,
        if_neg (by rw [decide_eq_true_eq]; exact Ne.symm hrecipient)]

theorem take_fst (hkept : exchange.Kept) (owner : U) : (exchange.take owner (exchange.mailboxes owner)).1 =
    exchange.deliveries owner ((exchange.mailboxes owner).outbox.filterMap (exchange.mailboxes owner).items) := by
  rw [← popOutbox_messages hkept]
  rfl

/-- Without anything of its owner in flight to those whom it delivers, a synchronous collector delivers in order. -/
theorem pending_taken (hkept : exchange.Kept) (hlast : ¬ exchange.Overtakes (.collectSync owner)) :
    (exchange.taken owner).Pending owner (exchange.take owner (exchange.mailboxes owner)).1 := by
  rw [take_fst hkept]
  intro recipient hrecipient
  rw [deliveries_for hkept.owned, inFlight_taken hkept, List.filter_append]
  obtain ⟨delivery, hdelivery, hname⟩ := List.mem_map.1 hrecipient
  obtain ⟨message, hmessage, hfor⟩ := List.mem_flatMap.1 hdelivery
  obtain ⟨other, hother, rfl⟩ := List.mem_map.1 hfor
  have hother : recipient ∈ exchange.recipients owner message := hname ▸ hother
  have hnew : message ∈ exchange.newFor owner recipient := List.mem_filter.2 ⟨hmessage, decide_eq_true hother⟩
  obtain ⟨hid, hitem, -⟩ := (mem_newFor hkept).1 hnew
  have hnone : (exchange.inFlight recipient).filter (fun message ↦ message.sender = owner) = [] := by
    rw [List.filter_eq_nil_iff]
    intro flying hflying hsender
    exact hlast ⟨message, hid, hitem, recipient, hother, flying, hflying, of_decide_eq_true hsender⟩
  have hall : (exchange.newFor owner recipient).filter (fun message ↦ message.sender = owner) =
      exchange.newFor owner recipient := by
    rw [List.filter_eq_self]
    intro message hmem
    exact decide_eq_true (sender_newFor hkept hmem)
  rw [hnone, hall]
  rfl

theorem Ordered.collectSync (h : exchange.Ordered) (hkept : exchange.Kept)
    (hlast : ¬ exchange.Overtakes (.collectSync owner)) : (exchange.collectSync owner).2.Ordered := by
  unfold Exchange.collectSync
  split
  · exact h
  · next mailbox hget =>
    obtain ⟨howner, rfl⟩ := get_eq_some hget
    exact (h.taken hkept owner).of_sameTrails ((pending_taken hkept hlast).deliverEach (hkept.taken howner))

theorem Ordered.exec (h : exchange.Ordered) (hkept : exchange.Kept) (op : ExchangeOp U κ)
    (hlast : ¬ exchange.Overtakes op) : (exchange.exec op).Ordered := by
  cases op with
  | register owner =>
    rcases hkept.register_cases owner with heq | ⟨-, heq⟩
    · rw [Exchange.exec, heq]
      exact h
    · rw [Exchange.exec, heq]
      exact h
  | send sender recipient content channel => exact h.send hkept sender recipient content channel
  | collect owner =>
    change (exchange.collect owner).2.Ordered
    unfold Exchange.collect
    split
    · exact h
    · next mailbox hget =>
      obtain ⟨-, rfl⟩ := get_eq_some hget
      exact h.taken hkept owner
  | deliver recipient id => exact h.deliverTo hkept hlast
  | collectSync owner => exact h.collectSync hkept hlast
  | drainPending owner senders => exact h.of_sameTrails (hkept.drainPending owner senders).2
  | peekPending owner => exact h
  | popMessage owner sender => exact h.of_sameTrails (hkept.popMessage_sameTrails owner sender).2

/-! ## Runs -/

/-- In every run each message is in its place, and in the runs without an overtaking delivery the messages are
consumed in the order of sending. -/
theorem conserved_and_inOrder (ops : List (ExchangeOp U κ)) :
    Throughout exec Conserved ({} : Exchange U κ) ops ∧
      (Along exec (fun exchange op ↦ ¬ Overtakes exchange op) ({} : Exchange U κ) ops →
        Throughout exec InOrder ({} : Exchange U κ) ops) := by
  constructor
  · have hkept : Throughout exec Kept ({} : Exchange U κ) ops :=
      Throughout.of_invariant (fun exchange op h ↦ h.exec op) kept_init
    exact hkept.mono fun exchange h ↦ h.conserved
  · intro hlast
    have hordered : Throughout exec (fun exchange ↦ exchange.Kept ∧ exchange.Ordered) ({} : Exchange U κ) ops :=
      Throughout.of_along (fun exchange op h hop ↦ ⟨h.1.exec op, h.2.exec h.1 op hop⟩)
        ⟨kept_init, fun _ _ ↦ List.Pairwise.nil⟩ hlast
    exact hordered.mono fun exchange h ↦ h.2.inOrder

/-- Two messages that a task and a synchronous collector deliver one after the other are consumed in order. -/
theorem inOrder_collected : Throughout exec InOrder ({} : Exchange Bool Unit)
    [.register false, .register true, .send false (some true) () none, .collect false, .deliver true 0,
      .send false (some true) () none, .collectSync false, .popMessage true false, .popMessage true false] := by
  refine (conserved_and_inOrder _).2 ⟨id, id, id, id, ?_, id, ?_, id, id, trivial⟩
  · rintro ⟨message, -, -, other, -, -, hlt⟩
    exact Nat.not_lt_zero _ hlt
  · rintro ⟨message, -, -, recipient, -, other, hmem, -⟩
    have hnone : (([.register false, .register true, .send false (some true) () none, .collect false,
        .deliver true 0, .send false (some true) () none] : List (ExchangeOp Bool Unit)).foldl exec {}).inFlight
          recipient = [] := by
      cases recipient with
      | false => exact List.length_eq_zero_iff.1 (by decide +kernel)
      | true => exact List.length_eq_zero_iff.1 (by decide +kernel)
    exact absurd (hnone ▸ hmem : other ∈ []) List.not_mem_nil

/-- Two messages are sent, the first one collected by a task and the second one at once. -/
def overtaken : List (ExchangeOp Bool Unit) :=
  [.register false, .register true, .send false (some true) () none, .collect false,
    .send false (some true) () none, .collectSync false, .popMessage true false, .deliver true 0,
    .popMessage true false]

/-- The message of a synchronous collector is consumed before one that was sent and collected earlier. -/
theorem not_inOrder_overtaken : ¬ Throughout exec InOrder ({} : Exchange Bool Unit) overtaken := by
  intro h
  have hlast : ((overtaken.foldl exec {}).consumed true).map Message.id = [1, 0] := by decide +kernel
  have hsender : ((overtaken.foldl exec {}).consumed true).all fun message ↦ message.sender = false := by
    decide +kernel
  have hall := h.final true false
  rw [List.filter_eq_self.2 (List.all_eq_true.1 hsender), ← List.pairwise_map (R := (· < ·)), hlast] at hall
  exact absurd hall (by decide)

end Exchange

end Lionagi.Session
