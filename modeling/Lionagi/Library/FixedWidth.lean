import Lionagi.Library.PyText
import Mathlib.Algebra.Ring.Nat
import Mathlib.Data.Char
import Mathlib.Data.List.Lex
import Mathlib.Data.Prod.Lex

/-!
# Numerals of a fixed width

Texts are ordered by their first difference. Numerals of one width are ordered as their numbers are, and texts
that start with parts of one length are ordered by these parts first. So a text that is a part of fixed length
and a padded numeral is ordered as the pair of the two.
-/

namespace Lionagi.Library

/-! ## The order of texts -/

section Order

variable {α : Type} [LinearOrder α]

theorem append_lt_append_iff {s t : List α} (hlength : s.length = t.length) (u v : List α) :
    s ++ u < t ++ v ↔ s < t ∨ s = t ∧ u < v := by
  induction s generalizing t with
  | nil =>
    obtain rfl := List.eq_nil_of_length_eq_zero hlength.symm
    simp
  | cons a s ih =>
    cases t with
    | nil => exact absurd hlength (by simp)
    | cons b t =>
      have htail := ih (t := t) (Nat.succ.inj hlength)
      simp only [List.cons_append, List.cons_lt_cons_iff, List.cons.injEq, htail]
      constructor
      · rintro (h | ⟨rfl, h | ⟨rfl, h⟩⟩)
        · exact Or.inl (Or.inl h)
        · exact Or.inl (Or.inr ⟨rfl, h⟩)
        · exact Or.inr ⟨⟨rfl, rfl⟩, h⟩
      · rintro ((h | ⟨rfl, h⟩) | ⟨⟨rfl, rfl⟩, h⟩)
        · exact Or.inl h
        · exact Or.inr ⟨rfl, Or.inl h⟩
        · exact Or.inr ⟨rfl, Or.inr ⟨rfl, h⟩⟩

end Order

/-! ## Digits -/

/-- The value of a digit. -/
def digitValue (c : Char) : ℕ := c.toNat - '0'.toNat

theorem ofDigitChars_cons_eq (c : Char) (cs : List Char) :
    Nat.ofDigitChars 10 (c :: cs) 0 = 10 ^ cs.length * digitValue c + Nat.ofDigitChars 10 cs 0 := by
  rw [Nat.ofDigitChars_cons, Nat.ofDigitChars_eq_ofDigitChars_zero, Nat.mul_zero, Nat.zero_add, digitValue]

theorem digitValue_lt_ten {c : Char} (hc : c.isDigit = true) : digitValue c < 10 := by
  have h := Char.isDigit_iff_toNat.1 hc
  have hzero : '0'.toNat = 48 := rfl
  have hnine : '9'.toNat = 57 := rfl
  rw [digitValue]
  omega

theorem digitValue_lt_digitValue_iff {c d : Char} (hc : c.isDigit = true) (hd : d.isDigit = true) :
    digitValue c < digitValue d ↔ c < d := by
  have hc' := Char.isDigit_iff_toNat.1 hc
  have hd' := Char.isDigit_iff_toNat.1 hd
  have hzero : '0'.toNat = 48 := rfl
  have horder : c < d ↔ c.toNat < d.toNat := UInt32.lt_iff_toNat_lt
  rw [horder, digitValue, digitValue]
  omega

theorem digitValue_inj {c d : Char} (hc : c.isDigit = true) (hd : d.isDigit = true)
    (h : digitValue c = digitValue d) : c = d :=
  le_antisymm (not_lt.1 fun hlt ↦ (h ▸ (digitValue_lt_digitValue_iff hd hc).2 hlt).false)
    (not_lt.1 fun hlt ↦ (h ▸ (digitValue_lt_digitValue_iff hc hd).2 hlt).false)

theorem ofDigitChars_lt {digits : List Char} (hdigits : ∀ c ∈ digits, c.isDigit = true) :
    Nat.ofDigitChars 10 digits 0 < 10 ^ digits.length := by
  induction digits with
  | nil => simp
  | cons c cs ih =>
    have hc := digitValue_lt_ten (hdigits c List.mem_cons_self)
    have hcs := ih fun d hd ↦ hdigits d (List.mem_cons_of_mem c hd)
    calc
      _ = 10 ^ cs.length * digitValue c + Nat.ofDigitChars 10 cs 0 := ofDigitChars_cons_eq c cs
      _ < 10 ^ cs.length * (digitValue c + 1) := by rw [Nat.mul_succ]; omega
      _ ≤ 10 ^ cs.length * 10 := Nat.mul_le_mul_left _ hc
      _ = 10 ^ (c :: cs).length := by rw [List.length_cons, Nat.pow_succ]

/-- Numerals of one width are ordered as their numbers are. -/
theorem lt_iff_ofDigitChars_lt {s t : List Char} (hlength : s.length = t.length)
    (hs : ∀ c ∈ s, c.isDigit = true) (ht : ∀ c ∈ t, c.isDigit = true) :
    s < t ↔ Nat.ofDigitChars 10 s 0 < Nat.ofDigitChars 10 t 0 := by
  induction s generalizing t with
  | nil =>
    obtain rfl := List.eq_nil_of_length_eq_zero hlength.symm
    simp
  | cons c s ih =>
    cases t with
    | nil => exact absurd hlength (by simp)
    | cons d t =>
      have hlength' : s.length = t.length := Nat.succ.inj hlength
      have hc := hs c List.mem_cons_self
      have hd := ht d List.mem_cons_self
      have hs' : ∀ c' ∈ s, c'.isDigit = true := fun c' h ↦ hs c' (List.mem_cons_of_mem c h)
      have ht' : ∀ c' ∈ t, c'.isDigit = true := fun c' h ↦ ht c' (List.mem_cons_of_mem d h)
      have hsmall := ofDigitChars_lt hs'
      have htsmall := ofDigitChars_lt ht'
      rw [List.cons_lt_cons_iff, ih hlength' hs' ht', ofDigitChars_cons_eq, ofDigitChars_cons_eq,
        ← digitValue_lt_digitValue_iff hc hd]
      rw [hlength'] at hsmall ⊢
      constructor
      · rintro (hlt | ⟨rfl, hlt⟩)
        -- The first digits differ, and what follows them is too small to matter.
        · have hstep := Nat.mul_le_mul_left (10 ^ t.length) hlt
          rw [Nat.mul_succ] at hstep
          omega
        · omega
      · intro h
        obtain hlt | heq | hgt := Nat.lt_trichotomy (digitValue c) (digitValue d)
        · exact Or.inl hlt
        · exact Or.inr ⟨digitValue_inj hc hd heq, by rw [heq] at h; omega⟩
        · have hstep := Nat.mul_le_mul_left (10 ^ t.length) hgt
          rw [Nat.mul_succ] at hstep
          omega

/-! ## Padded numerals -/

/-- The decimal numeral, padded with zeros. -/
def padded (width n : ℕ) : List Char := (Nat.toDigits 10 n).leftpad width '0'

variable {width m n : ℕ}

theorem length_padded (hwidth : 0 < width) (hn : n < 10 ^ width) : (padded width n).length = width := by
  rw [padded, List.length_leftpad]
  exact max_eq_left ((Nat.length_toDigits_le_iff (by decide) hwidth).2 hn)

theorem isDigit_of_mem_padded {c : Char} (hc : c ∈ padded width n) : c.isDigit = true := by
  rw [padded, List.leftpad, List.mem_append] at hc
  obtain hc | hc := hc
  · rw [List.eq_of_mem_replicate hc]
    rfl
  · exact Nat.isDigit_of_mem_toDigits (by decide) (by decide) hc

theorem ofDigitChars_padded (width n : ℕ) : Nat.ofDigitChars 10 (padded width n) 0 = n := by
  rw [padded, List.leftpad, Nat.ofDigitChars_append, Nat.ofDigitChars_replicate_zero, Nat.mul_zero,
    Nat.ofDigitChars_ten_toDigits]

theorem padded_lt_padded_iff (hwidth : 0 < width) (hm : m < 10 ^ width) (hn : n < 10 ^ width) :
    padded width m < padded width n ↔ m < n := by
  rw [lt_iff_ofDigitChars_lt ((length_padded hwidth hm).trans (length_padded hwidth hn).symm)
    (fun _ ↦ isDigit_of_mem_padded) (fun _ ↦ isDigit_of_mem_padded), ofDigitChars_padded, ofDigitChars_padded]

end Lionagi.Library
