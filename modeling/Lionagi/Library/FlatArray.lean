import Mathlib.Data.List.Basic
import Mathlib.Data.Nat.Notation

/-!
# Flat arrays

An array over all addresses is a function. A run of values is written over it at an address, a window of
it is read as a list, and what a history of writes leaves at an address is the last value written there.
-/

namespace FlatArray

variable {α : Type*} (flat : ℕ → α)

/-- The values at `addr`, `addr + 1`, …, `len` of them. -/
def window (addr len : ℕ) : List α := (List.range len).map fun i ↦ flat (addr + i)

/-- The values of `data` at `addr`, `addr + 1`, …; the other addresses keep theirs. -/
def overwrite (addr : ℕ) (data : List α) : ℕ → α :=
  fun a ↦ if addr ≤ a then data[a - addr]?.getD (flat a) else flat a

/-- The last value that the writes left at an address; the first write of the list is the earliest. -/
def lastWritten : List (ℕ × List α) → ℕ → Option α
  | [], _ => none
  | (addr, data) :: writes, a =>
    (lastWritten writes a).or (if addr ≤ a then data[a - addr]? else none)

variable (addr : ℕ)

@[simp] theorem length_window (len : ℕ) : (window flat addr len).length = len := by
  simp [window]

@[simp] theorem window_zero : window flat addr 0 = [] := rfl

theorem window_add (m n : ℕ) : window flat addr (m + n) = window flat addr m ++ window flat (addr + m) n := by
  simp only [window, List.range_add, List.map_append, List.map_map]
  congr 2
  funext i
  simp only [Function.comp, Nat.add_assoc]

theorem overwrite_of_lt {addr a : ℕ} (data : List α) (h : a < addr) : overwrite flat addr data a = flat a :=
  if_neg (Nat.not_le.2 h)

theorem overwrite_of_ge {addr a : ℕ} {data : List α} (h : addr + data.length ≤ a) :
    overwrite flat addr data a = flat a := by
  rw [overwrite, if_pos (by omega), List.getElem?_eq_none (by omega), Option.getD_none]

@[simp] theorem overwrite_nil : overwrite flat addr [] = flat := by
  funext a
  simp [overwrite]

/-- A run is written piece by piece. -/
theorem overwrite_append (front back : List α) : overwrite flat addr (front ++ back) =
    overwrite (overwrite flat addr front) (addr + front.length) back := by
  funext a
  unfold overwrite
  by_cases hfront : addr + front.length ≤ a
  · rw [if_pos (by omega), if_pos hfront, if_pos (by omega), List.getElem?_append_right (by omega),
      List.getElem?_eq_none (l := front) (by omega), Option.getD_none, Nat.sub_sub]
  · rw [if_neg hfront]
    split_ifs with haddr
    · rw [List.getElem?_append_left (by omega)]
    · rfl

/-- What a history of writes leaves is the last value written, or the value from before. -/
theorem foldl_overwrite (writes : List (ℕ × List α)) (a : ℕ) :
    writes.foldl (fun f write ↦ overwrite f write.1 write.2) flat a = (lastWritten writes a).getD (flat a) := by
  induction writes generalizing flat with
  | nil => rfl
  | cons write writes ih =>
    rw [List.foldl_cons, ih, lastWritten]
    cases lastWritten writes a with
    | some b => rfl
    | none =>
      rw [Option.getD_none, Option.none_or, overwrite]
      split_ifs <;> rfl

end FlatArray
