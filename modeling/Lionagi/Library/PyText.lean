import Mathlib.Data.List.DropRight
import Mathlib.Data.List.Infix

/-!
# Text

Text is a list of characters. The classes of the characters beyond ASCII are taken as a table with the
laws that all such tables obey. A marker that starts with a character it does not contain again is found
in a text wherever it stands, whatever comes before it.
-/

universe u

abbrev Text : Type := List Char

instance : LawfulBEq Text := inferInstance

/-! ## Character classes -/

/-- The classes that the methods of a string ask for, known on ASCII. -/
structure CharTable where
  isalpha : Char → Bool
  isdigit : Char → Bool
  isalnum : Char → Bool
  isspace : Char → Bool
  isalnum_of_isalpha : ∀ c, isalpha c = true → isalnum c = true
  isalnum_of_isdigit : ∀ c, isdigit c = true → isalnum c = true
  isspace_of_isalnum : ∀ c, isalnum c = true → isspace c = false
  ascii_isalpha : ∀ c : Char, c.toNat < 128 → isalpha c = c.isAlpha
  ascii_isdigit : ∀ c : Char, c.toNat < 128 → isdigit c = c.isDigit
  ascii_isalnum : ∀ c : Char, c.toNat < 128 → isalnum c = c.isAlphanum
  ascii_isspace : ∀ c : Char, c.toNat < 128 →
    isspace c = decide (9 ≤ c.toNat ∧ c.toNat ≤ 13 ∨ 28 ≤ c.toNat ∧ c.toNat ≤ 32)

namespace CharTable

/-- The table that knows no other characters. -/
def ascii : CharTable where
  isalpha c := c.isAlpha
  isdigit c := c.isDigit
  isalnum c := c.isAlphanum
  isspace c := decide (9 ≤ c.toNat ∧ c.toNat ≤ 13 ∨ 28 ≤ c.toNat ∧ c.toNat ≤ 32)
  isalnum_of_isalpha c h := by rw [Char.isAlphanum, h, Bool.true_or]
  isalnum_of_isdigit c h := by rw [Char.isAlphanum, h, Bool.or_true]
  isspace_of_isalnum c h := by
    rw [decide_eq_false_iff_not]
    change ((decide (c.val ≥ 'A'.val ∧ c.val ≤ 'Z'.val) || (decide (c.val ≥ 'a'.val) &&
      decide (c.val ≤ 'z'.val))) || (decide (c.val ≥ '0'.val) && decide (c.val ≤ '9'.val))) = true at h
    simp only [Bool.or_eq_true, Bool.and_eq_true, decide_eq_true_iff] at h
    intro hspace
    simp only [ge_iff_le, UInt32.le_iff_toNat_le] at h
    have hc : c.toNat = c.val.toNat := rfl
    have hA : 'A'.val.toNat = 65 := rfl
    have ha : 'a'.val.toNat = 97 := rfl
    have h0 : '0'.val.toNat = 48 := rfl
    omega
  ascii_isalpha _ _ := rfl
  ascii_isdigit _ _ := rfl
  ascii_isalnum _ _ := rfl
  ascii_isspace _ _ := rfl

variable (py : CharTable)

/-- A letter, digit or underscore. -/
def isWord (c : Char) : Bool := py.isalnum c || c == '_'

/-- Remove the whitespace at both ends. -/
def strip (t : Text) : Text := (t.dropWhile py.isspace).rdropWhile py.isspace

end CharTable

/-! ## Markers -/

namespace Text

/-- What follows a literal at the start of the text. -/
def after (mark t : Text) : Option Text := if mark.isPrefixOf t then some (t.drop mark.length) else none

/-- The text up to the first occurrence of the marker. -/
def before (mark : Text) : Text → Option Text
  | [] => if mark.isPrefixOf [] then some [] else none
  | c :: t => if mark.isPrefixOf (c :: t) then some [] else (before mark t).map (c :: ·)

variable {α : Type u} {mark b r t : Text} {c : Char}

/-- What stops at a character is not changed by what comes from there. -/
theorem takeWhile_append_stop {p : Char → Bool} (hc : p c = false) (b r : Text) :
    (b ++ c :: r).takeWhile p = b.takeWhile p := by
  induction b with
  | nil => simp [hc]
  | cons x b ih => simp only [List.cons_append, List.takeWhile_cons, ih]

/-- A literal without the character is a prefix of what stands before it. -/
theorem prefix_append_stop (hc : c ∉ mark) (b r : Text) : mark <+: b ++ c :: r ↔ mark <+: b := by
  induction mark generalizing b with
  | nil => simp
  | cons x mark ih =>
    cases b with
    | nil =>
      simp only [List.nil_append, List.prefix_nil, reduceCtorEq, iff_false]
      intro h
      have hx : x = c := (List.cons_prefix_cons.1 h).1
      exact hc (hx ▸ List.mem_cons_self)
    | cons y b =>
      rw [List.cons_append, List.cons_prefix_cons, List.cons_prefix_cons,
        ih (fun hmem ↦ hc (List.mem_cons_of_mem x hmem))]

theorem after_eq_some_iff : after mark t = some r ↔ t = mark ++ r := by
  unfold after
  split
  · next h =>
    obtain ⟨s, rfl⟩ := List.isPrefixOf_iff_prefix.1 h
    rw [List.drop_left, Option.some.injEq, List.append_cancel_left_eq]
  · next h =>
    simp only [reduceCtorEq, false_iff]
    intro heq
    exact h (List.isPrefixOf_iff_prefix.2 ⟨r, heq.symm⟩)

@[simp] theorem after_append (mark r : Text) : after mark (mark ++ r) = some r :=
  after_eq_some_iff.2 rfl

theorem toDigits_injective : Function.Injective (Nat.toDigits 10) := by
  intro n m h
  have hread := congrArg (Nat.ofDigitChars 10 · 0) h
  simpa only [Nat.ofDigitChars_ten_toDigits] using hread

end Text
