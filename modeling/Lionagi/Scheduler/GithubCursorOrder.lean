import Lionagi.Scheduler.GithubCursor

/-!
# The order of cursors

For placed events the order of cursors as texts, the order of positions and the comparison with the bound of a
stored cursor are one order. A batch that is dispatched in its sorted order moves the cursor forward with each
write, and leaves what follows to be offered, exactly when no two events of one second share a place in it and
the second of the stored cursor has placed events only.
-/

namespace Lionagi.Scheduler

open Library

/-! ## Forms -/

variable {t : Text}

theorem length_of_fits {form : Text} (h : fits form t = true) : t.length = form.length := by
  induction form generalizing t with
  | nil =>
    cases t with
    | nil => rfl
    | cons c t => exact absurd h (by simp [fits])
  | cons f form ih =>
    cases t with
    | nil => exact absurd h (by simp [fits])
    | cons c t =>
      rw [fits, Bool.and_eq_true] at h
      rw [List.length_cons, List.length_cons, ih h.2]

theorem notMem_of_fits {form : Text} {c : Char} (hc : c.isDigit = false) (hform : c ∉ form) (h : fits form t = true) :
    c ∉ t := by
  induction form generalizing t with
  | nil =>
    cases t with
    | nil => exact List.not_mem_nil
    | cons d t => exact absurd h (by simp [fits])
  | cons f form ih =>
    cases t with
    | nil => exact List.not_mem_nil
    | cons d t =>
      rw [fits, Bool.and_eq_true] at h
      rw [List.mem_cons, not_or] at hform ⊢
      refine ⟨?_, ih hform.2 h.2⟩
      rintro rfl
      by_cases hf : f = '0'
      · rw [if_pos hf, hc] at h
        exact absurd h.1 (by decide)
      · rw [if_neg hf, beq_iff_eq] at h
        exact hform.1 h.1

theorem fits_replicate_zero_iff {width : ℕ} :
    fits (List.replicate width '0') t = true ↔ t.length = width ∧ ∀ c ∈ t, c.isDigit = true := by
  induction width generalizing t with
  | zero =>
    cases t with
    | nil => simp [fits]
    | cons c t => simp [fits]
  | succ width ih =>
    cases t with
    | nil => simp [fits, List.replicate_succ]
    | cons c t =>
      rw [List.replicate_succ, fits, if_pos rfl, Bool.and_eq_true, ih]
      simp only [List.length_cons, List.mem_cons, forall_eq_or_imp, Nat.add_right_cancel_iff]
      tauto

namespace Instant

variable (instant : Instant)

theorem length_eq : instant.1.length = 20 := length_of_fits instant.2

theorem ne_nil : instant.1 ≠ [] := by
  intro h
  have hlength := instant.length_eq
  rw [h] at hlength
  exact absurd hlength (by decide)

theorem cursorSep_notMem : cursorSep ∉ instant.1 := notMem_of_fits (by decide) (by decide) instant.2

end Instant

/-! ## What a cursor claims -/

theorem placedNumber_natCast (n : ℕ) : placedNumber (.int n) = some (min n cursorMaxNumber) := by
  have hn : ¬ (n : ℤ) < 0 := by omega
  rw [placedNumber, if_neg hn, Int.toNat_natCast]

variable {p : PrNumber} {placed : ℕ}

theorem placedNumber_eq_some_iff :
    placedNumber p = some placed ↔ ∃ n : ℕ, p = .int n ∧ min n cursorMaxNumber = placed := by
  constructor
  · intro h
    cases p with
    | int n =>
      by_cases hn : n < 0
      · exact absurd ((if_pos hn).symm.trans h) (by simp)
      · refine ⟨n.toNat, congrArg PrNumber.int (Int.toNat_of_nonneg (not_lt.1 hn)).symm, ?_⟩
        exact Option.some.inj ((if_neg hn).symm.trans h)
    | bool b => exact absurd h (by simp [placedNumber])
    | other => exact absurd h (by simp [placedNumber])
  · rintro ⟨n, rfl, rfl⟩
    exact placedNumber_natCast n

theorem lt_of_placedNumber (h : placedNumber p = some placed) : placed < 10 ^ cursorNumberWidth := by
  obtain ⟨n, -, rfl⟩ := placedNumber_eq_some_iff.1 h
  have hmax : cursorMaxNumber < 10 ^ cursorNumberWidth := by decide
  exact lt_of_le_of_lt (min_le_right n cursorMaxNumber) hmax

theorem lt_wholeSecond_of_placedNumber (h : placedNumber p = some placed) : placed < wholeSecond :=
  (lt_of_placedNumber h).trans (by decide)

/-- What the cursor of an event has after its time. -/
def cursorSuffix (p : PrNumber) : Text :=
  match placedNumber p with
  | none => []
  | some placed => cursorSep :: padded cursorNumberWidth placed

/-- The number of a position. -/
def positionNumber (p : PrNumber) : ℕ := (placedNumber p).getD wholeSecond

theorem cursorFor_eq (cursorAt : Text) (p : PrNumber) : cursorFor cursorAt p = cursorAt ++ cursorSuffix p := by
  rw [cursorFor, cursorSuffix]
  cases placedNumber p with
  | none => exact (List.append_nil cursorAt).symm
  | some placed => rfl

theorem eventPosition_eq (cursorAt : Text) (p : PrNumber) :
    eventPosition cursorAt p = toLex (cursorAt, positionNumber p) := by
  rw [eventPosition, positionNumber]
  cases placedNumber p <;> rfl

theorem positionNumber_le (p : PrNumber) : positionNumber p ≤ wholeSecond := by
  rw [positionNumber]
  cases h : placedNumber p with
  | none => exact Nat.le_refl _
  | some placed => exact (lt_wholeSecond_of_placedNumber h).le

theorem isDigits_padded (placed : ℕ) (h : placed < 10 ^ cursorNumberWidth) :
    isDigits (padded cursorNumberWidth placed) = true := by
  have hpos : 0 < (padded cursorNumberWidth placed).length := by
    rw [length_padded (by decide) h]
    decide
  rw [isDigits, Bool.and_eq_true, Bool.not_eq_true', List.isEmpty_eq_false_iff, List.all_eq_true]
  exact ⟨List.ne_nil_of_length_pos hpos, fun _ ↦ isDigit_of_mem_padded⟩

section Bound

variable {t : Text} (hsep : cursorSep ∉ t)

include hsep

theorem ne_cursorSep : ∀ c ∈ t, (c != cursorSep) = true := by
  intro c hc
  rw [bne_iff_ne]
  rintro rfl
  exact hsep hc

variable (number : Text)

theorem takeWhile_append_cursorSep : (t ++ cursorSep :: number).takeWhile (· != cursorSep) = t := by
  rw [List.takeWhile_append_of_pos (ne_cursorSep hsep)]
  exact List.append_nil t

theorem dropWhile_append_cursorSep : (t ++ cursorSep :: number).dropWhile (· != cursorSep) = cursorSep :: number := by
  rw [List.dropWhile_append_of_pos (ne_cursorSep hsep)]
  rfl

theorem cursorBound_bare (ht : t ≠ []) : cursorBound (some t) = some (toLex (t, wholeSecond)) := by
  have htake : t.takeWhile (· != cursorSep) = t := List.takeWhile_eq_self_iff.2 (ne_cursorSep hsep)
  have hdrop : t.dropWhile (· != cursorSep) = [] := List.dropWhile_eq_nil_iff.2 (ne_cursorSep hsep)
  rw [cursorBound, if_neg ht]
  simp only [htake, hdrop]

theorem cursorBound_number : cursorBound (some (t ++ cursorSep :: number)) =
    some (toLex (t, if isDigits number then Nat.ofDigitChars 10 number 0 else wholeSecond)) := by
  rw [cursorBound, if_neg (by simp)]
  simp only [takeWhile_append_cursorSep hsep, dropWhile_append_cursorSep hsep]
  split <;> rfl

end Bound

variable (instant : Instant)

/-- The position of an event is the position of the cursor that is written for it. -/
theorem cursorBound_cursorFor (p : PrNumber) :
    cursorBound (some (cursorFor instant.1 p)) = some (eventPosition instant.1 p) := by
  rw [cursorFor_eq, eventPosition_eq, cursorSuffix, positionNumber]
  cases h : placedNumber p with
  | none =>
    simp only [List.append_nil]
    exact cursorBound_bare instant.cursorSep_notMem instant.ne_nil
  | some placed =>
    simp only [cursorBound_number instant.cursorSep_notMem,
      if_pos (isDigits_padded placed (lt_of_placedNumber h)), ofDigitChars_padded]
    rfl

theorem cursorRe_cursorFor (p : PrNumber) : cursorRe (cursorFor instant.1 p) = true := by
  have hlength : instant.1.length = instantForm.length := instant.length_eq
  rw [cursorFor_eq, cursorRe, ← hlength, List.take_left, List.drop_left, Bool.and_eq_true]
  refine ⟨instant.2, ?_⟩
  rw [cursorSuffix]
  cases h : placedNumber p with
  | none => rfl
  | some placed =>
    have hpadded := length_padded (by decide) (lt_of_placedNumber h)
    have htake := List.take_of_length_le hpadded.le
    have hdrop := List.drop_of_length_le hpadded.le
    have hfits : fits (List.replicate cursorNumberWidth '0') (padded cursorNumberWidth placed) = true :=
      fits_replicate_zero_iff.2 ⟨hpadded, fun _ ↦ isDigit_of_mem_padded⟩
    simp only [isCursorTail, htake, hdrop, hfits, BEq.rfl, atEnd, Bool.and_self, Bool.true_or]

theorem pastBound_iff {bound : Option (Text ×ₗ ℕ)} {cursorAt : Text} :
    pastBound bound cursorAt p = true ↔ ∀ b ∈ bound, b < eventPosition cursorAt p := by
  cases bound with
  | none => simp [pastBound]
  | some b =>
    rw [pastBound, Bool.not_eq_true', decide_eq_false_iff_not, not_le]
    simp

/-! ## One order -/

namespace CursorEvent

theorem cursorBound_cursor (event : CursorEvent) : cursorBound (some event.cursor) = some event.position :=
  cursorBound_cursorFor event.cursorAt event.prNumber

theorem cursor_lt_iff (event later : CursorEvent) : event.cursor < later.cursor ↔
    event.cursorAt.1 < later.cursorAt.1 ∨
      event.cursorAt.1 = later.cursorAt.1 ∧ cursorSuffix event.prNumber < cursorSuffix later.prNumber := by
  rw [cursor, cursor, cursorFor_eq, cursorFor_eq]
  exact append_lt_append_iff (event.cursorAt.length_eq.trans later.cursorAt.length_eq.symm) _ _

theorem position_lt_iff (event later : CursorEvent) : event.position < later.position ↔
    event.cursorAt.1 < later.cursorAt.1 ∨
      event.cursorAt.1 = later.cursorAt.1 ∧ positionNumber event.prNumber < positionNumber later.prNumber := by
  rw [position, position, eventPosition_eq, eventPosition_eq]
  exact Prod.Lex.toLex_lt_toLex

variable {n : ℕ}

theorem cursorSuffix_lt_iff {q : PrNumber} {m : ℕ} (hp : placedNumber p = some m) (hq : placedNumber q = some n) :
    cursorSuffix p < cursorSuffix q ↔ m < n := by
  simp only [cursorSuffix, hp, hq]
  rw [List.cons_lt_cons_self]
  exact padded_lt_padded_iff (by decide) (lt_of_placedNumber hp) (lt_of_placedNumber hq)

theorem positionNumber_of_placed (hp : placedNumber p = some n) : positionNumber p = n := by
  rw [positionNumber, hp]
  rfl

variable {event later : CursorEvent}

/-- For placed events the order of texts is the order of positions. -/
theorem cursor_lt_iff_position_lt {m : ℕ} (hevent : placedNumber event.prNumber = some m)
    (hlater : placedNumber later.prNumber = some n) :
    event.cursor < later.cursor ↔ event.position < later.position := by
  rw [cursor_lt_iff, position_lt_iff, cursorSuffix_lt_iff hevent hlater, positionNumber_of_placed hevent,
    positionNumber_of_placed hlater]

/-- Events of different seconds are ordered by their seconds. -/
theorem cursor_lt_iff_position_lt_of_ne (hne : event.cursorAt.1 ≠ later.cursorAt.1) :
    event.cursor < later.cursor ↔ event.position < later.position := by
  rw [cursor_lt_iff, position_lt_iff]
  simp only [hne, false_and, or_false]

theorem mem_offered_iff {stored : Option Text} {events : List CursorEvent} :
    event ∈ offered stored events ↔ event ∈ events ∧ ∀ b ∈ cursorBound stored, b < event.position := by
  rw [offered, List.mem_filter, pastBound_iff, position]

end CursorEvent

/-! ## Stored cursors -/

namespace StoredCursor

variable (stored : StoredCursor)

theorem eq_append : ∃ (instant : Instant) (tail : Text),
    stored.1 = instant.1 ++ tail ∧ (isCursorTail tail = true ∨ atEnd tail = true) := by
  have h := stored.2
  rw [cursorRe, Bool.and_eq_true, Bool.or_eq_true] at h
  exact ⟨⟨_, h.1⟩, _, (List.take_append_drop _ _).symm, h.2⟩

theorem atEnd_iff : atEnd t = true ↔ t = [] ∨ t = ['\n'] := by
  rw [atEnd, Bool.or_eq_true, beq_iff_eq, beq_iff_eq]

/-- A stored cursor claims a whole second, or it ends with a number and claims that. -/
theorem bound_cases : ∃ (instant : Instant) (tail timestamp : Text) (number : ℕ),
    stored.1 = instant.1 ++ tail ∧ cursorBound (some stored.1) = some (toLex (timestamp, number)) ∧
      ((timestamp = instant.1 ∨ timestamp = instant.1 ++ ['\n']) ∧ number = wholeSecond ∨
        ∃ digits, tail = cursorSep :: digits ∧ digits.length = cursorNumberWidth ∧
          (∀ c ∈ digits, c.isDigit = true) ∧ timestamp = instant.1 ∧ number = Nat.ofDigitChars 10 digits 0) := by
  obtain ⟨instant, tail, heq, htail | hend⟩ := stored.eq_append
  · cases tail with
    | nil => exact absurd htail (by decide)
    | cons c rest =>
      rw [isCursorTail, Bool.and_eq_true, Bool.and_eq_true, beq_iff_eq] at htail
      obtain ⟨⟨rfl, hfits⟩, hend⟩ := htail
      obtain ⟨hlength, hdigits⟩ := fits_replicate_zero_iff.1 hfits
      have hbound := cursorBound_number instant.cursorSep_notMem rest
      rw [← heq] at hbound
      obtain hnil | hnewline := atEnd_iff.1 hend
      · have hrest : rest.take cursorNumberWidth = rest :=
          List.take_of_length_le (List.drop_eq_nil_iff.1 hnil)
        rw [hrest] at hlength hdigits
        have hisDigits : isDigits rest = true := by
          rw [isDigits, Bool.and_eq_true, Bool.not_eq_true', List.isEmpty_eq_false_iff, List.all_eq_true]
          exact ⟨List.ne_nil_of_length_pos (by rw [hlength]; decide), hdigits⟩
        rw [if_pos hisDigits] at hbound
        exact ⟨instant, _, _, _, heq, hbound, Or.inr ⟨rest, rfl, hlength, hdigits, rfl, rfl⟩⟩
      · have hmem : '\n' ∈ rest := List.mem_of_mem_drop (hnewline ▸ List.mem_singleton_self '\n')
        have hisDigits : ¬ isDigits rest = true := by
          rw [isDigits, Bool.and_eq_true, List.all_eq_true]
          exact fun h ↦ absurd (h.2 _ hmem) (by decide)
        rw [if_neg hisDigits] at hbound
        exact ⟨instant, _, _, _, heq, hbound, Or.inl ⟨Or.inl rfl, rfl⟩⟩
  · obtain rfl | rfl := atEnd_iff.1 hend
    · have hbound := cursorBound_bare instant.cursorSep_notMem instant.ne_nil
      rw [heq, List.append_nil]
      exact ⟨instant, [], _, _, (List.append_nil _).symm, hbound, Or.inl ⟨Or.inl rfl, rfl⟩⟩
    · have hsep : cursorSep ∉ instant.1 ++ ['\n'] := by
        rw [List.mem_append, not_or]
        exact ⟨instant.cursorSep_notMem, by decide⟩
      have hbound := cursorBound_bare hsep (by simp)
      rw [heq]
      exact ⟨instant, _, _, _, rfl, hbound, Or.inl ⟨Or.inr rfl, rfl⟩⟩

/-- The cursor of an event past the stored one is later as a text, unless the event cannot be placed in the
second of the stored cursor. -/
theorem lt_cursor_iff {event : CursorEvent} (hpast : ∀ b ∈ cursorBound (some stored.1), b < event.position) :
    stored.1 < event.cursor ↔ ∀ b ∈ cursorBound (some stored.1), (ofLex b).1 = event.cursorAt.1 →
      ∃ n : ℕ, event.prNumber = .int n := by
  obtain ⟨instant, tail, timestamp, number, heq, hbound, hcases⟩ := stored.bound_cases
  have hlength : instant.1.length = event.cursorAt.1.length :=
    instant.length_eq.trans event.cursorAt.length_eq.symm
  have hlt := hpast _ hbound
  rw [CursorEvent.position, eventPosition_eq, Prod.Lex.toLex_lt_toLex] at hlt
  dsimp only at hlt
  have htext : stored.1 < event.cursor ↔ instant.1 < event.cursorAt.1 ∨
      instant.1 = event.cursorAt.1 ∧ tail < cursorSuffix event.prNumber := by
    rw [heq, CursorEvent.cursor, cursorFor_eq]
    exact append_lt_append_iff hlength _ _
  rw [htext, hbound]
  simp only [Option.mem_some_iff, forall_eq', ofLex_toLex]
  obtain ⟨htimestamp, rfl⟩ | ⟨digits, rfl, hdigits, hall, rfl, rfl⟩ := hcases
  · have hbefore : timestamp < event.cursorAt.1 := by
      refine hlt.resolve_right fun h ↦ ?_
      exact absurd h.2 (not_lt.2 (positionNumber_le event.prNumber))
    have hinstant : instant.1 < event.cursorAt.1 := by
      obtain rfl | rfl := htimestamp
      · exact hbefore
      · rw [← List.append_nil event.cursorAt.1, append_lt_append_iff hlength] at hbefore
        exact hbefore.resolve_right fun h ↦ absurd h.2 (List.not_lt_nil _)
    exact iff_of_true (Or.inl hinstant) fun h ↦ absurd h hbefore.ne
  · obtain hinstant | ⟨hinstant, hnumber⟩ := hlt
    · exact iff_of_true (Or.inl hinstant) fun h ↦ absurd h hinstant.ne
    · simp only [hinstant, lt_irrefl, true_and, false_or, forall_const]
      cases hplaced : placedNumber event.prNumber with
      | none =>
        have hsuffix : ¬ cursorSep :: digits < cursorSuffix event.prNumber := by
          rw [cursorSuffix, hplaced]
          exact List.not_lt_nil _
        refine iff_of_false hsuffix ?_
        rintro ⟨n, hn⟩
        rw [hn, placedNumber_natCast] at hplaced
        exact absurd hplaced (by simp)
      | some placed =>
        have hsuffix : cursorSuffix event.prNumber = cursorSep :: padded cursorNumberWidth placed := by
          rw [cursorSuffix, hplaced]
        have hpadded := length_padded (by decide) (lt_of_placedNumber hplaced)
        rw [CursorEvent.positionNumber_of_placed hplaced] at hnumber
        obtain ⟨n, hn, -⟩ := placedNumber_eq_some_iff.1 hplaced
        refine iff_of_true ?_ ⟨n, hn⟩
        rw [hsuffix, List.cons_lt_cons_self, lt_iff_ofDigitChars_lt (hdigits.trans hpadded.symm) hall
          (fun _ ↦ isDigit_of_mem_padded), ofDigitChars_padded]
        exact hnumber

end StoredCursor

end Lionagi.Scheduler
