import Mathlib.Data.List.Nodup
import Lionagi.Scheduler.GithubCursorBatch
import Lionagi.Scheduler.GithubScan

/-!
# The floor of a scan that was cut short

A scan that was cut short has fetched the pull requests of its pages and not the older ones. It returns the
merges before the oldest update that it has seen. A merge that was not fetched may be before these as well, so
nothing is passed exactly when every unfetched merge past the cursor is after the fetched ones below the floor.
-/

namespace Lionagi.Scheduler

open Library

/-! ## The walk -/

namespace PullListing

variable (listing : PullListing) (limits : PageLimits) (bound : Option (Text ×ₗ ℕ))
  (faults : ℕ → Option PageFault)

/-- The pull requests of the pages up to this one, and the others. -/
def fetched (perPage n : ℕ) : List PullRequest := listing.prs.take ((n + 1) * perPage)

def unfetched (perPage n : ℕ) : List PullRequest := listing.prs.drop ((n + 1) * perPage)

/-- The page is full, its oldest update is past the cursor, and there is a further page. -/
def Unproven (perPage n : ℕ) : Prop :=
  perPage ≤ (listing.page perPage n).length ∧ cursorReached bound (listing.page perPage n) = false ∧
    listing.next perPage n = true

/-- The scan ends with this page before it has reached the cursor: a further page is due, and it is past the
cap or cannot be fetched. -/
structure CutAfter (n : ℕ) : Prop where
  unproven : ∀ m ≤ n, listing.Unproven bound limits.perPage m
  reached : ∀ m ≤ n, 0 < m → m < limits.maxPages ∧ faults m = none
  cut : limits.maxPages ≤ n + 1 ∨ ∃ fault, faults (n + 1) = some fault

variable {listing limits bound faults}
variable (perPage : ℕ)

theorem fetched_append_page (n : ℕ) :
    listing.fetched perPage n ++ listing.page perPage (n + 1) = listing.fetched perPage (n + 1) := by
  rw [fetched, fetched, page, Nat.succ_mul (n + 1), List.take_add]

theorem page_zero : listing.page perPage 0 = listing.fetched perPage 0 := by
  rw [page, fetched, Nat.zero_mul, Nat.zero_add, Nat.one_mul, List.drop_zero]

theorem scanPages_condition_iff (n : ℕ) :
    ((decide ((listing.page perPage n).length < perPage) || cursorReached bound (listing.page perPage n) ||
      !listing.next perPage n) = true) ↔ ¬ listing.Unproven bound perPage n := by
  rw [Unproven]
  simp only [Bool.or_eq_true, decide_eq_true_iff, Bool.not_eq_true']
  rw [← Bool.not_eq_true, ← Bool.not_eq_true, ← not_le]
  tauto

/-- A walk that is at a page, with all the pages before it unproven. -/
theorem scanPages_spec {budget n : ℕ} (hbudget : budget + (n + 1) = max limits.maxPages 1)
    (hunproven : ∀ m < n, listing.Unproven bound limits.perPage m)
    (hreached : ∀ m ≤ n, 0 < m → m < limits.maxPages ∧ faults m = none) {prs : List PullRequest}
    {complete : Bool}
    (h : scanPages bound limits.perPage (listing.fetch limits.perPage faults) budget (n + 1)
      (listing.page limits.perPage n) (listing.next limits.perPage n) (listing.fetched limits.perPage n) =
        (prs, complete)) :
    complete = true ∧ (∀ m, ¬ CutAfter listing limits bound faults m) ∨
      complete = false ∧ ∃ m, CutAfter listing limits bound faults m ∧ prs = listing.fetched limits.perPage m ∧
        ∀ m', CutAfter listing limits bound faults m' → m' = m := by
  -- The walk of a scan that was cut earlier would not be here.
  have hlater {m : ℕ} (hm : CutAfter listing limits bound faults m) : n ≤ m := by
    by_contra hlt
    have hnext := hreached (m + 1) (Nat.succ_le_of_lt (not_le.1 hlt)) (Nat.succ_pos m)
    obtain hcap | ⟨fault, hfault⟩ := hm.cut
    · exact absurd hnext.1 (not_lt.2 hcap)
    · exact absurd (hnext.2.symm.trans hfault) (by simp)
  induction budget generalizing n prs complete with
  | zero =>
    rw [scanPages] at h
    by_cases hpage : listing.Unproven bound limits.perPage n
    · rw [if_neg (not_not.2 hpage ∘ (scanPages_condition_iff _ _).1)] at h
      obtain ⟨rfl, rfl⟩ := Prod.mk.inj h
      have hcap : limits.maxPages ≤ n + 1 := by omega
      refine Or.inr ⟨rfl, n, ⟨fun m hm ↦ ?_, hreached, Or.inl hcap⟩, rfl, fun m' hm' ↦ ?_⟩
      · exact (Nat.lt_or_eq_of_le hm).elim (hunproven m) fun h ↦ h ▸ hpage
      · refine le_antisymm (not_lt.1 fun hlt ↦ ?_) (hlater hm')
        exact absurd (hm'.reached (n + 1) hlt (Nat.succ_pos n)).1 (not_lt.2 hcap)
    · rw [if_pos ((scanPages_condition_iff _ _).2 hpage)] at h
      obtain ⟨rfl, rfl⟩ := Prod.mk.inj h
      exact Or.inl ⟨rfl, fun m hm ↦ hpage (hm.unproven n (hlater hm))⟩
  | succ budget ih =>
    rw [scanPages] at h
    by_cases hpage : listing.Unproven bound limits.perPage n
    · rw [if_neg (not_not.2 hpage ∘ (scanPages_condition_iff _ _).1)] at h
      have hcap : n + 1 < limits.maxPages := by omega
      have hunproven' : ∀ m ≤ n, listing.Unproven bound limits.perPage m := fun m hm ↦
        (Nat.lt_or_eq_of_le hm).elim (hunproven m) fun h ↦ h ▸ hpage
      cases hfault : faults (n + 1) with
      | some fault =>
        simp only [fetch, hfault] at h
        obtain ⟨rfl, rfl⟩ := Prod.mk.inj h
        refine Or.inr ⟨rfl, n, ⟨hunproven', hreached, Or.inr ⟨fault, hfault⟩⟩, rfl, fun m' hm' ↦ ?_⟩
        refine le_antisymm (not_lt.1 fun hlt ↦ ?_) (hlater hm')
        exact absurd ((hm'.reached (n + 1) hlt (Nat.succ_pos n)).2.symm.trans hfault) (by simp)
      | none =>
        simp only [fetch, hfault, fetched_append_page] at h
        have hreached' : ∀ m ≤ n + 1, 0 < m → m < limits.maxPages ∧ faults m = none := by
          intro m hm hpos
          obtain hlt | rfl := Nat.lt_or_eq_of_le hm
          · exact hreached m (Nat.le_of_lt_succ hlt) hpos
          · exact ⟨hcap, hfault⟩
        refine ih (by omega) (fun m hm ↦ hunproven' m (Nat.le_of_lt_succ hm)) hreached' h fun {m} hm ↦ ?_
        by_contra hlt
        have heq : m = n := le_antisymm (Nat.le_of_lt_succ (not_le.1 hlt)) (hlater hm)
        obtain hcut | ⟨fault, hcut⟩ := hm.cut
        · omega
        · rw [heq, hfault] at hcut
          exact absurd hcut (by simp)
    · rw [if_pos ((scanPages_condition_iff _ _).2 hpage)] at h
      obtain ⟨rfl, rfl⟩ := Prod.mk.inj h
      exact Or.inl ⟨rfl, fun m hm ↦ hpage (hm.unproven n (hlater hm))⟩

end PullListing

/-! ## The floor -/

variable {prs : List PullRequest}

theorem lt_foldl_min_iff {t first : Text} :
    t < prs.foldl (fun oldest pr ↦ min oldest pr.updatedAt.1) first ↔
      t < first ∧ ∀ pr ∈ prs, t < pr.updatedAt.1 := by
  induction prs generalizing first with
  | nil => simp
  | cons pr prs ih =>
    rw [List.foldl_cons, ih, lt_min_iff, and_assoc, List.forall_mem_cons]

/-- A time is before the floor when it is before every update that was seen. -/
theorem below_unsafeFloor_iff {t : Text} :
    ((unsafeFloor true false prs).any fun floor ↦ decide (floor ≤ t)) = false ↔
      ∀ pr ∈ prs, t < pr.updatedAt.1 := by
  cases prs with
  | nil => simp [unsafeFloor]
  | cons pr prs =>
    rw [List.forall_mem_cons, ← lt_foldl_min_iff]
    simp [unsafeFloor]

section Items

variable {casefold : Text → Text} {repo : Text} {filter : GithubFilter} {bound : Option (Text ×ₗ ℕ)}
  {floor : Option Text} {pr : PullRequest} {item : GithubPollItem}

theorem pollItem_of_merged (casefold : Text → Text) (repo : Text) (hmerged : filter.prMerged = true) {mergedAt : Instant}
    (hpr : pr.mergedAt = some mergedAt) (hpast : pastBound bound mergedAt.1 pr.number = true)
    (hfloor : (floor.any fun floor ↦ decide (floor ≤ mergedAt.1)) = false) :
    ∃ item, pollItem casefold repo filter bound floor pr = some item ∧
      item.event.prNumber = pr.number ∧ item.updatedAt = mergedAt.1 := by
  have hat : cursorAt filter pr = some mergedAt := (if_pos hmerged).trans hpr
  refine ⟨{
    event := eventOf casefold repo filter pr
    updatedAt := mergedAt.1
    dispatchable := isDispatchable casefold repo filter pr
    cursor := cursorFor mergedAt.1 pr.number }, ?_, rfl, rfl⟩
  simp only [pollItem, hat, hpast, hfloor, Bool.not_true, Bool.false_eq_true, if_false]

/-- The item of a merge is past the bound and before the floor. -/
theorem merged_of_pollItem (hmerged : filter.prMerged = true)
    (h : pollItem casefold repo filter bound floor pr = some item) :
    ∃ mergedAt, pr.mergedAt = some mergedAt ∧ pastBound bound mergedAt.1 pr.number = true ∧
      (floor.any fun floor ↦ decide (floor ≤ mergedAt.1)) = false ∧ item.event.prNumber = pr.number ∧
        item.updatedAt = mergedAt.1 ∧ item.cursor = cursorFor mergedAt.1 pr.number := by
  have hat : cursorAt filter pr = pr.mergedAt := if_pos hmerged
  rw [pollItem, hat] at h
  cases hpr : pr.mergedAt with
  | none =>
    rw [hpr] at h
    exact absurd h (by simp)
  | some mergedAt =>
    simp only [hpr] at h
    by_cases hpast : pastBound bound mergedAt.1 pr.number = true
    · by_cases hfloor : (floor.any fun floor ↦ decide (floor ≤ mergedAt.1)) = true
      · simp only [hpast, hfloor, Bool.not_true, Bool.false_eq_true, if_false, if_true] at h
        exact absurd h (by simp)
      · rw [Bool.not_eq_true] at hfloor
        simp only [hpast, hfloor, Bool.not_true, Bool.false_eq_true, if_false] at h
        obtain rfl := Option.some.inj h
        exact ⟨mergedAt, rfl, hpast, hfloor, rfl, rfl, rfl⟩
    · rw [Bool.not_eq_true] at hpast
      simp only [hpast, Bool.not_false, if_true] at h
      exact absurd h (by simp)

end Items

/-! ## Merges that are passed -/

namespace PullListing

variable (listing : PullListing) (casefold : Text → Text) (repo : Text) (filter : GithubFilter)
  (limits : PageLimits) (cursor : Option Text) (faults : ℕ → Option PageFault)

/-- The poll returned an item for the merge. -/
def Returned (pr : PullRequest) (mergedAt : Instant) : Prop :=
  ∃ item ∈ (listing.poll casefold repo filter limits cursor faults).items,
    item.event.prNumber = pr.number ∧ item.updatedAt = mergedAt.1

/-- A scan that is not complete returns, with an item, every merge past the cursor up to that item, and the
cursor of the item is before the merges that were not returned. -/
structure HoldsBackUnsafe : Prop where
  returned : filter.prMerged = true →
    (listing.poll casefold repo filter limits cursor faults).scanComplete = false →
    ∀ item ∈ (listing.poll casefold repo filter limits cursor faults).items, ∀ pr ∈ listing.prs,
      ∀ mergedAt ∈ pr.mergedAt, pastBound (cursorBound cursor) mergedAt.1 pr.number = true →
        eventPosition mergedAt.1 pr.number ≤ item.position →
          listing.Returned casefold repo filter limits cursor faults pr mergedAt
  unpassed : filter.prMerged = true →
    (listing.poll casefold repo filter limits cursor faults).scanComplete = false →
    ∀ item ∈ (listing.poll casefold repo filter limits cursor faults).items, ∀ pr ∈ listing.prs,
      ∀ mergedAt ∈ pr.mergedAt, pastBound (cursorBound cursor) mergedAt.1 pr.number = true →
        ¬ listing.Returned casefold repo filter limits cursor faults pr mergedAt →
          pastBound (cursorBound (some item.cursor)) mergedAt.1 pr.number = true

/-- In a scan that is cut short, the merges past the cursor that were not fetched are after the fetched ones
from before every update that was seen. -/
def MergesInOrder : Prop :=
  filter.prMerged = true → ∀ n, CutAfter listing limits (cursorBound cursor) faults n →
    ∀ pr ∈ listing.fetched limits.perPage n, ∀ older ∈ listing.unfetched limits.perPage n,
      ∀ mergedAt ∈ pr.mergedAt, ∀ olderMergedAt ∈ older.mergedAt,
        (∀ seen ∈ listing.fetched limits.perPage n, mergedAt.1 < seen.updatedAt.1) →
          pastBound (cursorBound cursor) olderMergedAt.1 older.number = true →
            eventPosition mergedAt.1 pr.number < eventPosition olderMergedAt.1 older.number

variable {listing casefold repo filter limits cursor faults}

/-- A poll is complete, or it was cut short and returns what it has fetched below its floor. -/
theorem poll_cases (casefold : Text → Text) (repo : Text) (hmerged : filter.prMerged = true) :
    (listing.poll casefold repo filter limits cursor faults).scanComplete = true ∧
        (∀ n, ¬ CutAfter listing limits (cursorBound cursor) faults n) ∨
      (listing.poll casefold repo filter limits cursor faults).scanComplete = false ∧
        ∃ n, CutAfter listing limits (cursorBound cursor) faults n ∧
          (∀ m, CutAfter listing limits (cursorBound cursor) faults m → m = n) ∧
            ∀ item, item ∈ (listing.poll casefold repo filter limits cursor faults).items ↔
              ∃ pr ∈ listing.fetched limits.perPage n, pollItem casefold repo filter (cursorBound cursor)
                (unsafeFloor true false (listing.fetched limits.perPage n)) pr = some item := by
  have hscan := @scanPages_spec listing limits (cursorBound cursor) faults (limits.maxPages - 1) 0 (by omega)
    (fun m hm ↦ absurd hm (Nat.not_lt_zero m)) (fun m hm hpos ↦ absurd hpos (Nat.not_lt.2 hm)) _ _ rfl
  rw [poll, githubPoll, page_zero]
  simp only [hmerged, if_true, page_zero, Nat.zero_add] at hscan ⊢
  refine hscan.imp_right ?_
  rintro ⟨hcomplete, n, hcut, hfetched, hunique⟩
  refine ⟨hcomplete, n, hcut, hunique, fun item ↦ ?_⟩
  rw [(sortByCursor_perm GithubPollItem.cursor _).mem_iff, List.mem_filterMap, hcomplete, hfetched]

variable {n : ℕ}

/-- What a poll that was cut short returns. -/
theorem mem_items_of_cutAfter (casefold : Text → Text) (repo : Text) (hmerged : filter.prMerged = true)
    (hcut : CutAfter listing limits (cursorBound cursor) faults n) :
    (listing.poll casefold repo filter limits cursor faults).scanComplete = false ∧
      ∀ item, item ∈ (listing.poll casefold repo filter limits cursor faults).items ↔
        ∃ pr ∈ listing.fetched limits.perPage n, pollItem casefold repo filter (cursorBound cursor)
          (unsafeFloor true false (listing.fetched limits.perPage n)) pr = some item := by
  obtain ⟨-, hnone⟩ | ⟨hcomplete, m, -, hunique, hitems⟩ := poll_cases casefold repo hmerged
  · exact absurd hcut (hnone n)
  · obtain rfl := hunique n hcut
    exact ⟨hcomplete, hitems⟩

theorem exists_cutAfter (hmerged : filter.prMerged = true)
    (h : (listing.poll casefold repo filter limits cursor faults).scanComplete = false) :
    ∃ n, CutAfter listing limits (cursorBound cursor) faults n := by
  obtain ⟨hcomplete, -⟩ | ⟨-, n, hcut, -⟩ := poll_cases casefold repo hmerged
  · exact absurd (h.symm.trans hcomplete) (by decide)
  · exact ⟨n, hcut⟩

variable {pr : PullRequest}

theorem mem_prs_of_mem_unfetched {perPage : ℕ} (h : pr ∈ listing.unfetched perPage n) : pr ∈ listing.prs :=
  List.mem_of_mem_drop h

/-- No number is among the fetched and the unfetched ones. -/
theorem number_ne {perPage : ℕ} {other : PullRequest} (hpr : pr ∈ listing.fetched perPage n)
    (hother : other ∈ listing.unfetched perPage n) : pr.number ≠ other.number := by
  have hnumbered := listing.numbered
  rw [← List.take_append_drop ((n + 1) * perPage) listing.prs, List.map_append, List.nodup_append] at hnumbered
  exact hnumbered.2.2 _ (List.mem_map_of_mem hpr) _ (List.mem_map_of_mem hother)

theorem returned_of_mergesInOrder (h : MergesInOrder listing filter limits cursor faults)
    (hmerged : filter.prMerged = true)
    (hincomplete : (listing.poll casefold repo filter limits cursor faults).scanComplete = false)
    {item : GithubPollItem} (hitem : item ∈ (listing.poll casefold repo filter limits cursor faults).items)
    (hpr : pr ∈ listing.prs) {mergedAt : Instant} (hmergedAt : mergedAt ∈ pr.mergedAt)
    (hpast : pastBound (cursorBound cursor) mergedAt.1 pr.number = true)
    (hle : eventPosition mergedAt.1 pr.number ≤ item.position) :
    listing.Returned casefold repo filter limits cursor faults pr mergedAt := by
  obtain ⟨n, hcut⟩ := exists_cutAfter hmerged hincomplete
  have hitems := (mem_items_of_cutAfter casefold repo hmerged hcut).2
  obtain ⟨source, hsource, hsourceItem⟩ := (hitems item).1 hitem
  obtain ⟨at', hat, -, hfloor, hnumber, hupdated, -⟩ := merged_of_pollItem hmerged hsourceItem
  have hbelow := below_unsafeFloor_iff.1 hfloor
  have hposition : item.position = eventPosition at'.1 source.number := by
    rw [GithubPollItem.position, hnumber, hupdated]
  rw [hposition] at hle
  rw [← List.take_append_drop ((n + 1) * limits.perPage) listing.prs, List.mem_append] at hpr
  obtain hfetched | hunfetched := hpr
  · -- What was fetched and is not after the item is below the floor as the item is.
    have hat' : mergedAt.1 ≤ at'.1 := by
      rw [eventPosition_eq, eventPosition_eq, Prod.Lex.toLex_le_toLex] at hle
      exact hle.elim le_of_lt fun h ↦ h.1.le
    obtain ⟨other, hother, hotherNumber, hotherUpdated⟩ := pollItem_of_merged casefold repo hmerged
      hmergedAt hpast
      (below_unsafeFloor_iff.2 fun seen hseen ↦ lt_of_le_of_lt hat' (hbelow seen hseen))
    exact ⟨other, (hitems other).2 ⟨pr, hfetched, hother⟩, hotherNumber, hotherUpdated⟩
  · have hlt := h hmerged n hcut source hsource pr hunfetched at' hat mergedAt hmergedAt hbelow hpast
    exact absurd hle (not_le.2 hlt)

/-- The order of the merges is what such a scan rests on. -/
theorem mergesInOrder_of_returned (h : HoldsBackUnsafe listing casefold repo filter limits cursor faults) :
    MergesInOrder listing filter limits cursor faults := by
  intro hmerged n hcut pr hpr older holder mergedAt hmergedAt olderMergedAt holderMergedAt hbelow hpast
  by_contra hlt
  rw [not_lt] at hlt
  obtain ⟨hincomplete, hitems⟩ := mem_items_of_cutAfter casefold repo hmerged hcut
  have hprPast : pastBound (cursorBound cursor) mergedAt.1 pr.number = true := by
    rw [pastBound_iff] at hpast ⊢
    exact fun b hb ↦ lt_of_lt_of_le (hpast b hb) hlt
  obtain ⟨item, hitem, hnumber, hupdated⟩ := pollItem_of_merged casefold repo hmerged
    hmergedAt hprPast (below_unsafeFloor_iff.2 hbelow)
  have hposition : item.position = eventPosition mergedAt.1 pr.number := by
    rw [GithubPollItem.position, hnumber, hupdated]
  obtain ⟨other, hother, hotherNumber, -⟩ := h.returned hmerged hincomplete item
    ((hitems item).2 ⟨pr, hpr, hitem⟩) older (mem_prs_of_mem_unfetched holder) olderMergedAt holderMergedAt
    hpast (hposition ▸ hlt)
  -- An item is of a fetched pull request, which has a number of its own.
  obtain ⟨source, hsource, hsourceItem⟩ := (hitems other).1 hother
  obtain ⟨-, -, -, -, hsourceNumber, -, -⟩ := merged_of_pollItem hmerged hsourceItem
  exact number_ne hsource holder (hsourceNumber.symm.trans hotherNumber)

/-- A scan that was cut short passes no merge exactly when the unfetched merges are after the fetched ones below
the floor. -/
theorem holdsBackUnsafe_iff (listing : PullListing) (casefold : Text → Text) (repo : Text)
    (filter : GithubFilter) (limits : PageLimits) (cursor : Option Text) (faults : ℕ → Option PageFault) :
    HoldsBackUnsafe listing casefold repo filter limits cursor faults ↔
      MergesInOrder listing filter limits cursor faults := by
  constructor
  · exact mergesInOrder_of_returned
  · intro h
    have hreturned : filter.prMerged = true →
        (listing.poll casefold repo filter limits cursor faults).scanComplete = false →
        ∀ item ∈ (listing.poll casefold repo filter limits cursor faults).items, ∀ pr ∈ listing.prs,
          ∀ mergedAt ∈ pr.mergedAt, pastBound (cursorBound cursor) mergedAt.1 pr.number = true →
            eventPosition mergedAt.1 pr.number ≤ item.position →
              listing.Returned casefold repo filter limits cursor faults pr mergedAt :=
      fun hmerged hincomplete _ hitem _ hpr _ hmergedAt ↦
        returned_of_mergesInOrder h hmerged hincomplete hitem hpr hmergedAt
    refine ⟨hreturned, fun hmerged hincomplete item hitem pr hpr mergedAt hmergedAt hpast hnot ↦ ?_⟩
    obtain ⟨n, hcut⟩ := exists_cutAfter hmerged hincomplete
    obtain ⟨source, -, hsourceItem⟩ := ((mem_items_of_cutAfter casefold repo hmerged hcut).2 item).1 hitem
    obtain ⟨at', -, -, -, hnumber, hupdated, hcursor⟩ := merged_of_pollItem hmerged hsourceItem
    have hposition : item.position = eventPosition at'.1 source.number := by
      rw [GithubPollItem.position, hnumber, hupdated]
    rw [hcursor]
    refine (CursorEvent.pastBound_cursor_iff ⟨at', source.number⟩ ⟨mergedAt, pr.number⟩).2 (not_le.1 fun hle ↦ ?_)
    exact hnot (hreturned hmerged hincomplete item hitem pr hpr mergedAt hmergedAt hpast (hposition ▸ hle))

/-! ## A merge that was not fetched -/

def unmerged (number : ℕ) : PullRequest where
  number := .int number
  updatedAt := ⟨"2026-07-07T12:00:00Z".toList, by decide⟩
  mergedAt := none

def mergedBefore (number : ℕ) (updatedAt mergedAt : Instant) : PullRequest where
  number := .int number
  updatedAt := updatedAt
  mergedAt := some mergedAt

/-- A full page that ends with an old merge, and an older merge on the next one. -/
def crowded : PullListing where
  prs := (List.range 99).map unmerged ++
    [mergedBefore 200 ⟨"2026-07-07T12:00:00Z".toList, by decide⟩ ⟨"2026-07-07T09:00:00Z".toList, by decide⟩,
      mergedBefore 300 ⟨"2026-07-07T10:00:00Z".toList, by decide⟩ ⟨"2026-07-07T08:00:00Z".toList, by decide⟩]
  sorted := by decide +kernel
  merged := by decide +kernel
  numbered := by decide +kernel

theorem crowded_cutAfter : CutAfter crowded mergedModeLimits (cursorBound none)
    (fun _ ↦ some .failed) 0 where
  unproven m hm := by
    obtain rfl := Nat.le_zero.1 hm
    exact ⟨by decide +kernel, by decide +kernel, by decide +kernel⟩
  reached m hm hpos := absurd hpos (Nat.not_lt.2 hm)
  cut := Or.inr ⟨.failed, rfl⟩

theorem not_holdsBackUnsafe : ¬ ∀ (listing : PullListing) (casefold : Text → Text) (repo : Text)
    (filter : GithubFilter) (cursor : Option Text) (faults : ℕ → Option PageFault),
    HoldsBackUnsafe listing casefold repo filter mergedModeLimits cursor faults := by
  intro h
  have horder := mergesInOrder_of_returned (h crowded id [] ⟨true, none, none⟩ none fun _ ↦ some .failed)
  have hlt := horder rfl 0 crowded_cutAfter
    (mergedBefore 200 ⟨"2026-07-07T12:00:00Z".toList, by decide⟩ ⟨"2026-07-07T09:00:00Z".toList, by decide⟩)
    (by decide +kernel)
    (mergedBefore 300 ⟨"2026-07-07T10:00:00Z".toList, by decide⟩ ⟨"2026-07-07T08:00:00Z".toList, by decide⟩)
    (by decide +kernel) _ rfl _ rfl (by decide +kernel) rfl
  exact absurd hlt (by decide +kernel)

end PullListing

end Lionagi.Scheduler
