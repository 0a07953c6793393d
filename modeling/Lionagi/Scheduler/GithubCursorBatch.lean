import Mathlib.Data.List.Nodup
import Lionagi.Scheduler.GithubCursorOrder

/-!
# Batches of a poll

A poll returns the events past its stored cursor in the order of their cursors, and the cursor of each is
written when it is dispatched. When the order of cursors is the order of positions on the batch, each write
moves the stored cursor to the event, and a further poll over the same events returns what is left.
-/

namespace Lionagi.Scheduler

open Library

/-! ## Sorting -/

section Sorted

variable {α : Type} {cursor : α → Text} {items sorted : List α}

theorem sortByCursor_perm (cursor : α → Text) (items : List α) : (sortByCursor cursor items).Perm items :=
  List.mergeSort_perm items _

theorem pairwise_sortByCursor (cursor : α → Text) (items : List α) :
    (sortByCursor cursor items).Pairwise fun item later ↦ cursor item ≤ cursor later := by
  have h : (sortByCursor cursor items).Pairwise fun item later ↦
      decide (cursor item ≤ cursor later) = true := by
    apply List.pairwise_mergeSort
    · simp only [decide_eq_true_iff]
      exact fun _ _ _ ↦ le_trans
    · simp only [Bool.or_eq_true, decide_eq_true_iff]
      exact fun _ _ ↦ le_total _ _
  exact h.imp of_decide_eq_true

/-- Items that are in their order already, and apart, are what sorting gives. -/
theorem sortByCursor_eq (hperm : items.Perm sorted)
    (hsorted : sorted.Pairwise fun item later ↦ cursor item < cursor later) :
    sortByCursor cursor items = sorted := by
  have hle : sorted.Pairwise fun item later ↦ cursor item ≤ cursor later := hsorted.imp le_of_lt
  refine List.Perm.eq_of_pairwise ?_ (pairwise_sortByCursor cursor items) hle
    ((sortByCursor_perm cursor items).trans hperm)
  intro a b ha hb hab hba
  have ha' : a ∈ sorted := hperm.subset ((sortByCursor_perm cursor items).subset ha)
  have hnodup : (sorted.map cursor).Nodup := List.pairwise_map.2 (hsorted.imp ne_of_lt)
  exact List.inj_on_of_nodup_map hnodup ha' hb (le_antisymm hab hba)

theorem pairwise_of_splits {R : α → α → Prop}
    (h : ∀ done item rest, items = done ++ item :: rest → ∀ later ∈ rest, R item later) :
    items.Pairwise R := by
  induction items with
  | nil => exact List.Pairwise.nil
  | cons a items ih =>
    refine List.pairwise_cons.2 ⟨h [] a items rfl, ih fun done item rest heq ↦ ?_⟩
    exact h (a :: done) item rest (congrArg (a :: ·) heq)

end Sorted

namespace CursorEvent

/-! ## Writes -/

variable {stored : Option Text}

theorem guardCursorForward_of_lt {cursor : Text} (h : ∀ old ∈ stored, old < cursor) :
    GithubPoll.guardCursorForward stored cursor = some cursor := by
  cases stored with
  | none => rfl
  | some old => exact if_pos (h old rfl)

/-- The stored cursor never moves back. -/
theorem le_of_mem_dispatch {items : List CursorEvent} {old new : Text} (hold : old ∈ stored)
    (hnew : new ∈ dispatch stored items) : old ≤ new := by
  induction items generalizing stored old with
  | nil => exact le_of_eq (Option.mem_unique hold hnew)
  | cons item items ih =>
    obtain rfl := Option.mem_def.1 hold
    by_cases h : old < item.cursor
    · have hmoved : item.cursor ∈ GithubPoll.guardCursorForward (some old) item.cursor :=
        Option.mem_def.2 (if_pos h)
      exact h.le.trans (ih hmoved hnew)
    · have hkept : old ∈ GithubPoll.guardCursorForward (some old) item.cursor :=
        Option.mem_def.2 (if_neg h)
      exact ih hkept hnew

theorem dispatch_of_sorted {done : List CursorEvent} {item : CursorEvent}
    (hfirst : ∀ event ∈ done ++ [item], ∀ old ∈ stored, old < event.cursor)
    (hsorted : (done ++ [item]).Pairwise fun event later ↦ event.cursor < later.cursor) :
    dispatch stored (done ++ [item]) = some item.cursor := by
  induction done generalizing stored with
  | nil => exact guardCursorForward_of_lt (hfirst item List.mem_cons_self)
  | cons event done ih =>
    have hevent : GithubPoll.guardCursorForward stored event.cursor = some event.cursor :=
      guardCursorForward_of_lt (hfirst event List.mem_cons_self)
    have hstep : dispatch stored (event :: done ++ [item]) = dispatch (some event.cursor) (done ++ [item]) :=
      congrArg (fun stored ↦ dispatch stored (done ++ [item])) hevent
    rw [List.cons_append, List.pairwise_cons] at hsorted
    rw [hstep]
    refine ih (fun later hlater old hold ↦ ?_) hsorted.2
    obtain rfl := Option.mem_some_iff.1 hold
    exact hsorted.1 later hlater

/-! ## Batches -/

/-- The two events have places of their own in a second that they share. -/
def Apart (event other : CursorEvent) : Prop :=
  event.cursorAt = other.cursorAt → ∃ m n : ℕ, event.prNumber = .int m ∧ other.prNumber = .int n ∧
    min m cursorMaxNumber ≠ min n cursorMaxNumber

variable {event other : CursorEvent}

theorem Apart.symm (h : Apart event other) : Apart other event := by
  intro hat
  obtain ⟨m, n, hm, hn, hne⟩ := h hat.symm
  exact ⟨n, m, hn, hm, hne.symm⟩

theorem Apart.cursor_ne (h : Apart event other) : event.cursor ≠ other.cursor := by
  intro heq
  by_cases hat : event.cursorAt = other.cursorAt
  · obtain ⟨m, n, hm, hn, hne⟩ := h hat
    have hplaced := placedNumber_natCast m
    have hplaced' := placedNumber_natCast n
    rw [← hm] at hplaced
    rw [← hn] at hplaced'
    obtain hlt | hlt := Nat.lt_or_gt_of_ne hne
    · have hcursor : event.cursor < other.cursor :=
        (cursor_lt_iff _ _).2 (Or.inr ⟨congrArg Subtype.val hat, (cursorSuffix_lt_iff hplaced hplaced').2 hlt⟩)
      exact hcursor.ne heq
    · have hcursor : other.cursor < event.cursor :=
        (cursor_lt_iff _ _).2
          (Or.inr ⟨congrArg Subtype.val hat.symm, (cursorSuffix_lt_iff hplaced' hplaced).2 hlt⟩)
      exact hcursor.ne heq.symm
  · have hat' : event.cursorAt.1 ≠ other.cursorAt.1 := fun h ↦ hat (Subtype.ext h)
    obtain hlt | hlt := lt_or_gt_of_ne hat'
    · exact ((cursor_lt_iff _ _).2 (Or.inl hlt)).ne heq
    · exact ((cursor_lt_iff _ _).2 (Or.inl hlt)).ne heq.symm

theorem Apart.position_lt (h : Apart event other) (hlt : event.cursor < other.cursor) :
    event.position < other.position := by
  by_cases hat : event.cursorAt = other.cursorAt
  · obtain ⟨m, n, hm, hn, -⟩ := h hat
    have hplaced := placedNumber_natCast m
    have hplaced' := placedNumber_natCast n
    rw [← hm] at hplaced
    rw [← hn] at hplaced'
    exact (cursor_lt_iff_position_lt hplaced hplaced').1 hlt
  · exact (cursor_lt_iff_position_lt_of_ne fun h ↦ hat (Subtype.ext h)).1 hlt

/-- Events that share a second have places of their own in it, and events in the second of the stored cursor
have places. -/
structure Separable (stored : Option Text) (events : List CursorEvent) : Prop where
  apart : (offered stored events).Pairwise Apart
  numbered : ∀ event ∈ offered stored events, ∀ bound ∈ cursorBound stored,
    (ofLex bound).1 = event.cursorAt.1 → ∃ n : ℕ, event.prNumber = .int n

/-- Dispatching the batch of a poll in its order moves the stored cursor to each event, and leaves what
follows it to be offered. -/
structure DispatchesInOrder (stored : Option Text) (events : List CursorEvent) : Prop where
  advances : ∀ done item rest, listed stored events = done ++ item :: rest →
    dispatch stored (done ++ [item]) = some item.cursor
  leaves : ∀ done item rest, listed stored events = done ++ item :: rest →
    listed (dispatch stored (done ++ [item])) events = rest

theorem listed_perm (stored : Option Text) (events : List CursorEvent) :
    (listed stored events).Perm (offered stored events) :=
  sortByCursor_perm cursor _

theorem mem_listed_iff {events : List CursorEvent} :
    event ∈ listed stored events ↔ event ∈ events ∧ ∀ b ∈ cursorBound stored, b < event.position :=
  (listed_perm stored events).mem_iff.trans mem_offered_iff

section Separable

variable {stored : Option StoredCursor} {events done rest : List CursorEvent} {item : CursorEvent}

theorem Separable.pairwise {stored : Option Text} (h : Separable stored events) :
    (listed stored events).Pairwise fun event later ↦
      event.cursor < later.cursor ∧ event.position < later.position := by
  have hapart : (listed stored events).Pairwise Apart :=
    ((listed_perm stored events).pairwise_iff Apart.symm).2 h.apart
  refine (hapart.and (pairwise_sortByCursor cursor _)).imp fun hpair ↦ ?_
  have hlt := lt_of_le_of_ne hpair.2 hpair.1.cursor_ne
  exact ⟨hlt, hpair.1.position_lt hlt⟩

theorem Separable.dispatch_eq (h : Separable (stored.map Subtype.val) events)
    (hlisted : listed (stored.map Subtype.val) events = done ++ item :: rest) :
    dispatch (stored.map Subtype.val) (done ++ [item]) = some item.cursor := by
  have hstart : (done ++ [item]).Sublist (listed (stored.map Subtype.val) events) := by
    rw [hlisted]
    exact (List.cons_sublist_cons.2 (List.nil_sublist rest)).append_left done
  refine dispatch_of_sorted (fun event hevent old hold ↦ ?_)
    ((h.pairwise.sublist hstart).imp And.left)
  cases stored with
  | none => exact absurd hold (by simp)
  | some cursor =>
    obtain rfl := Option.mem_some_iff.1 hold
    have hmem := mem_listed_iff.1 (hstart.subset hevent)
    exact (cursor.lt_cursor_iff hmem.2).2 (h.numbered event (mem_offered_iff.2 hmem))

/-- A poll from the cursor of an event of the batch returns what follows the event. -/
theorem Separable.listed_eq {stored : Option Text} (h : Separable stored events)
    (hlisted : listed stored events = done ++ item :: rest) : listed (some item.cursor) events = rest := by
  have hpairs := h.pairwise
  have hitem : ∀ b ∈ cursorBound stored, b < item.position := by
    have hmem : item ∈ listed stored events := hlisted ▸ List.mem_append_right _ List.mem_cons_self
    exact (mem_listed_iff.1 hmem).2
  rw [hlisted, List.pairwise_append, List.pairwise_cons] at hpairs
  obtain ⟨-, ⟨hafter, hrest⟩, hbefore⟩ := hpairs
  refine sortByCursor_eq ?_ (hrest.imp And.left)
  have hlater : ∀ event : CursorEvent, pastBound (cursorBound (some item.cursor)) event.cursorAt.1
      event.prNumber = true ↔ item.position < event.position := by
    intro event
    rw [pastBound_iff, cursorBound_cursor]
    simp [position]
  -- What is past the event was past the stored cursor, so the batch has it.
  have hsame : offered (some item.cursor) events = offered (some item.cursor) (offered stored events) := by
    rw [offered, offered, offered, List.filter_filter]
    refine List.filter_congr fun event _ ↦ ?_
    rw [Bool.eq_iff_iff, Bool.and_eq_true, hlater, pastBound_iff]
    exact (and_iff_left_of_imp fun hlt b hb ↦ (hitem b hb).trans hlt).symm
  have hfilter : offered (some item.cursor) (done ++ item :: rest) = rest := by
    have hdone : offered (some item.cursor) done = [] := by
      refine List.filter_eq_nil_iff.2 fun event hevent ↦ ?_
      rw [hlater]
      exact (hbefore event hevent item List.mem_cons_self).2.not_gt
    have hself : offered (some item.cursor) (item :: rest) = offered (some item.cursor) rest :=
      List.filter_cons_of_neg (by rw [hlater]; exact lt_irrefl _)
    have hkept : offered (some item.cursor) rest = rest :=
      List.filter_eq_self.2 fun event hevent ↦ (hlater event).2 (hafter event hevent).2
    calc
      _ = offered (some item.cursor) done ++ offered (some item.cursor) (item :: rest) :=
        List.filter_append _ _
      _ = rest := by rw [hdone, hself, hkept, List.nil_append]
  rw [hsame]
  calc
    (offered (some item.cursor) (offered stored events)).Perm
        (offered (some item.cursor) (listed stored events)) := (listed_perm stored events).symm.filter _
    _ = rest := by rw [hlisted, hfilter]

theorem Separable.dispatchesInOrder (h : Separable (stored.map Subtype.val) events) :
    DispatchesInOrder (stored.map Subtype.val) events where
  advances _ _ _ := h.dispatch_eq
  leaves done item rest hlisted := by rw [h.dispatch_eq hlisted, h.listed_eq hlisted]

/-- A batch whose writes move the cursor to each event and leave the rest is separable. -/
theorem DispatchesInOrder.separable (h : DispatchesInOrder (stored.map Subtype.val) events) :
    Separable (stored.map Subtype.val) events := by
  constructor
  · rw [← (listed_perm _ events).pairwise_iff Apart.symm]
    refine pairwise_of_splits fun done item rest hlisted later hlater hat ↦ ?_
    have hoffered := h.leaves done item rest hlisted
    rw [h.advances done item rest hlisted] at hoffered
    rw [← hoffered, mem_listed_iff, cursorBound_cursor] at hlater
    have hposition := (position_lt_iff _ _).1 (hlater.2 _ rfl)
    have hat' : item.cursorAt.1 = later.cursorAt.1 := congrArg Subtype.val hat
    have hnumber := (hposition.resolve_left (hat' ▸ lt_irrefl _)).2
    have hle : item.cursor ≤ later.cursor := by
      have hsorted := pairwise_sortByCursor cursor (offered (stored.map Subtype.val) events)
      rw [← listed, hlisted, List.pairwise_append, List.pairwise_cons] at hsorted
      exact hsorted.2.1.1 later (hoffered ▸ mem_listed_iff.2 (cursorBound_cursor item ▸ hlater))
    cases hitem : placedNumber item.prNumber with
    | none =>
      rw [positionNumber, hitem] at hnumber
      exact absurd (positionNumber_le later.prNumber) (not_le.2 hnumber)
    | some m =>
      cases hother : placedNumber later.prNumber with
      | none =>
        -- An event without a place comes before the others of its second as a text.
        have hlt : later.cursor < item.cursor := by
          refine (cursor_lt_iff _ _).2 (Or.inr ⟨hat'.symm, ?_⟩)
          rw [cursorSuffix, cursorSuffix, hother, hitem]
          exact List.nil_lt_cons _ _
        exact absurd hle (not_le.2 hlt)
      | some n =>
        rw [positionNumber_of_placed hitem, positionNumber_of_placed hother] at hnumber
        obtain ⟨m', hm', rfl⟩ := placedNumber_eq_some_iff.1 hitem
        obtain ⟨n', hn', rfl⟩ := placedNumber_eq_some_iff.1 hother
        exact ⟨m', n', hm', hn', hnumber.ne⟩
  · intro event hevent bound hbound
    obtain ⟨done, rest, hlisted⟩ := List.append_of_mem ((listed_perm _ events).mem_iff.2 hevent)
    have hwritten := h.advances done event rest hlisted
    cases stored with
    | none => exact absurd hbound (by simp [cursorBound])
    | some cursor =>
      have hmem := mem_offered_iff.1 hevent
      have hle : cursor.1 ≤ event.cursor := le_of_mem_dispatch rfl (Option.mem_def.2 hwritten)
      have hne : cursor.1 ≠ event.cursor := by
        intro heq
        have hself := hmem.2
        rw [Option.map_some, heq, cursorBound_cursor] at hself
        exact lt_irrefl _ (hself _ rfl)
      exact (cursor.lt_cursor_iff hmem.2).1 (lt_of_le_of_ne hle hne) bound hbound

end Separable

/-! ## Cursors and events -/

/-- The number of the event fits the width of a cursor. -/
def Placeable (event : CursorEvent) : Prop := ∃ n ≤ cursorMaxNumber, event.prNumber = .int (n : ℕ)

/-- Cursors are ordered like the events they stand for. -/
structure CursorsOrdered (stored : Option Text) (events : List CursorEvent) : Prop where
  matched : ∀ event : CursorEvent, cursorRe event.cursor = true
  processed : ∀ event : CursorEvent,
    pastBound (cursorBound (some event.cursor)) event.cursorAt.1 event.prNumber = false
  texts : ∀ event later : CursorEvent, event.Placeable → later.Placeable →
    (event.cursor < later.cursor ↔ event.position < later.position)
  bounds : ∀ event later : CursorEvent, event.Placeable → later.Placeable →
    (pastBound (cursorBound (some event.cursor)) later.cursorAt.1 later.prNumber = true ↔
      event.position < later.position)
  dispatched : DispatchesInOrder stored events

theorem pastBound_cursor_iff (event later : CursorEvent) :
    pastBound (cursorBound (some event.cursor)) later.cursorAt.1 later.prNumber = true ↔
      event.position < later.position := by
  rw [pastBound_iff, cursorBound_cursor]
  simp [position]

end CursorEvent

end Lionagi.Scheduler
