import Mathlib.Data.List.Palindrome
import Lionagi.Protocols.PileInvariant

/-!
# Insertion of several references

`Progression.insert` inserts its references one by one, the last first, always at the given index.
The order grows meanwhile, so only an index inside it names the same place every time. With an index
from the end every reference lands behind the one before it, except those inserted while the index
still lies before the front; with an index beyond the end references are appended until the order
reaches it.
-/

universe u v w

namespace Lionagi.Protocols

open PySequence

namespace Progression

variable {U : Type u} {α : Type v} {τ : Type w} [Observable α U τ]

/-- Where the references are cut into a part that is turned round and one that is not. -/
def cutAt (order refs : List U) (index : ℤ) : ℕ :=
  if index < 0 then (refs.length + order.length + index).toNat
  else (refs.length + order.length - index).toNat

/-- What stands between the two halves of the old order afterwards. -/
def landed (order refs : List U) (index : ℤ) : List U :=
  if index < 0 then
    (refs.take (cutAt order refs index)).reverse ++ refs.drop (cutAt order refs index)
  else
    (refs.drop (cutAt order refs index)).reverse ++ refs.take (cutAt order refs index)

/-- The index is inside the order, or turning the part of the references that is turned round does
not show. -/
def KeepsRefs (order refs : List U) (index : ℤ) : Prop :=
  (0 ≤ index ∧ index ≤ order.length) ∨
    (index < 0 ∧ (refs.take (cutAt order refs index)).Palindrome) ∨
      (order.length < index ∧ (refs.drop (cutAt order refs index)).reverse ++
        refs.take (cutAt order refs index) = refs)

/-! ## One insertion -/

variable (order : List U)

theorem insertRefs_cons (refs : List U) (index : ℤ) (ref : U) :
    insertRefs order index (ref :: refs) = insertAt (insertRefs order index refs) index ref := rfl

/-- From the end, the next reference comes right behind the turned part. -/
theorem landed_cons_of_neg (refs : List U) {index : ℤ} (h : index < 0) (ref : U) :
    landed order (ref :: refs) index =
      (refs.take (cutAt order refs index)).reverse ++ ref :: refs.drop (cutAt order refs index) := by
  have hcut : cutAt order refs index = (refs.length + order.length + index).toNat := if_pos h
  have hnow : cutAt order (ref :: refs) index =
      (refs.length + 1 + order.length + index).toNat := by
    rw [cutAt, if_pos h, List.length_cons, Nat.cast_succ]
  rw [landed, if_pos h, hnow, hcut]
  by_cases hfront : refs.length + order.length + index < 0
  · have hnone : (refs.length + order.length + index).toNat = 0 := by omega
    have hnext : (refs.length + 1 + order.length + index).toNat = 0 := by omega
    rw [hnone, hnext]
    rfl
  · have hnext : (refs.length + 1 + order.length + index).toNat =
        (refs.length + order.length + index).toNat + 1 := by omega
    rw [hnext, List.take_succ_cons, List.drop_succ_cons, List.reverse_cons, List.append_assoc]
    rfl

/-- Otherwise it comes right behind the turned part too, or to the end of it. -/
theorem landed_cons_of_nonneg (refs : List U) {index : ℤ} (h : ¬ index < 0) (ref : U) :
    landed order (ref :: refs) index =
      (refs.drop (cutAt order refs index)).reverse ++ ref :: refs.take (cutAt order refs index) := by
  have hcut : cutAt order refs index = (refs.length + order.length - index).toNat := if_neg h
  have hnow : cutAt order (ref :: refs) index =
      (refs.length + 1 + order.length - index).toNat := by
    rw [cutAt, if_neg h, List.length_cons, Nat.cast_succ]
  rw [landed, if_neg h, hnow, hcut]
  by_cases hshort : refs.length + order.length - index < 0
  · have hnone : (refs.length + order.length - index).toNat = 0 := by omega
    have hnext : (refs.length + 1 + order.length - index).toNat = 0 := by omega
    rw [hnone, hnext, List.drop_zero, List.reverse_cons, List.take_zero, List.append_nil]
    rfl
  · have hnext : (refs.length + 1 + order.length - index).toNat =
        (refs.length + order.length - index).toNat + 1 := by omega
    rw [hnext, List.take_succ_cons, List.drop_succ_cons]

/-- The references land at the insertion point of the old order. -/
theorem insertRefs_eq (index : ℤ) (refs : List U) :
    insertRefs order index refs = order.take (insertPos order.length index) ++
      (landed order refs index ++ order.drop (insertPos order.length index)) := by
  induction refs with
  | nil =>
    have hnone : landed order [] index = [] := by
      unfold landed
      split
      · rw [List.take_nil, List.drop_nil, List.reverse_nil, List.append_nil]
      · rw [List.take_nil, List.drop_nil, List.reverse_nil, List.append_nil]
    rw [hnone, List.nil_append, List.take_append_drop]
    rfl
  | cons ref refs ih =>
    rw [insertRefs_cons, ih]
    by_cases h : index < 0
    · have hplace : insertPos (order.take (insertPos order.length index) ++
          (refs.take (cutAt order refs index)).reverse ++ (refs.drop (cutAt order refs index) ++
            order.drop (insertPos order.length index))).length index =
          (order.take (insertPos order.length index) ++
            (refs.take (cutAt order refs index)).reverse).length := by
        simp only [insertPos, cutAt, if_pos h, List.length_append, List.length_take,
          List.length_drop, List.length_reverse]
        omega
      rw [landed_cons_of_neg order refs h, landed, if_pos h, List.append_assoc (List.reverse _),
        ← List.append_assoc (order.take _), insertAt_append hplace]
      simp only [List.append_assoc, List.cons_append]
    · have hplace : insertPos (order.take (insertPos order.length index) ++
          (refs.drop (cutAt order refs index)).reverse ++ (refs.take (cutAt order refs index) ++
            order.drop (insertPos order.length index))).length index =
          (order.take (insertPos order.length index) ++
            (refs.drop (cutAt order refs index)).reverse).length := by
        simp only [insertPos, cutAt, if_neg h, List.length_append, List.length_take,
          List.length_drop, List.length_reverse]
        omega
      rw [landed_cons_of_nonneg order refs h, landed, if_neg h, List.append_assoc (List.reverse _),
        ← List.append_assoc (order.take _), insertAt_append hplace]
      simp only [List.append_assoc, List.cons_append]

/-! ## The slice assignment -/

/-- `order[index:index] = refs` -/
theorem setSlice_same (refs : List U) (index : ℤ) :
    PySequence.setSlice order ⟨some index, some index, none⟩ refs =
      some (order.take (insertPos order.length index) ++
        (refs ++ order.drop (insertPos order.length index))) := by
  have hend : (clampEnd order.length 1 index).toNat = insertPos order.length index := by
    unfold clampEnd insertPos
    split
    · rw [if_neg (by omega)]
      omega
    · rw [if_neg (by omega)]
      omega
  have hbounds : ∃ b : Bounds order.length,
      Slice.bounds ⟨some index, some index, none⟩ order.length = some b ∧ b.step = 1 ∧
        b.start = clampEnd order.length 1 index ∧ b.stop = clampEnd order.length 1 index :=
    ⟨_, rfl, rfl, rfl, rfl⟩
  obtain ⟨b, hb, hstep, hstart, hstop⟩ := hbounds
  simp only [PySequence.setSlice, hb]
  rw [if_pos hstep, hstart, hstop, max_self, hend, List.append_assoc]

theorem landed_eq_iff (refs : List U) (index : ℤ) :
    landed order refs index = refs ↔ KeepsRefs order refs index := by
  by_cases h : index < 0
  · have hsplit : landed order refs index = refs ↔
        (refs.take (cutAt order refs index)).reverse = refs.take (cutAt order refs index) := by
      conv_lhs => rhs; rw [← List.take_append_drop (cutAt order refs index) refs]
      rw [landed, if_pos h, List.append_left_inj]
    rw [hsplit, ← List.Palindrome.iff_reverse_eq]
    constructor
    · intro hturned
      exact .inr (.inl ⟨h, hturned⟩)
    · rintro (⟨hinside, -⟩ | ⟨-, hturned⟩ | ⟨hbeyond, -⟩)
      · exact absurd hinside (by omega)
      · exact hturned
      · exact absurd hbeyond (by omega)
  · rw [landed, if_neg h]
    by_cases hinside : index ≤ order.length
    · have hcut : refs.length ≤ cutAt order refs index := by
        rw [cutAt, if_neg h]
        omega
      rw [List.drop_of_length_le hcut, List.take_of_length_le hcut]
      exact iff_of_true rfl (.inl ⟨by omega, hinside⟩)
    · constructor
      · intro hturned
        exact .inr (.inr ⟨by omega, hturned⟩)
      · rintro (⟨-, hlast⟩ | ⟨hneg, -⟩ | ⟨-, hturned⟩)
        · exact absurd hlast hinside
        · exact absurd hneg h
        · exact hturned

/-- One by one at a fixed index is a slice assignment exactly where the turned part does not show. -/
theorem insertRefs_eq_setSlice_iff (refs : List U) (index : ℤ) :
    some (insertRefs order index refs) =
        PySequence.setSlice order ⟨some index, some index, none⟩ refs ↔
      KeepsRefs order refs index := by
  rw [setSlice_same, insertRefs_eq, Option.some.injEq, List.append_right_inj, List.append_left_inj,
    landed_eq_iff]

/-! ## References without repetition -/

variable {refs : List U}

/-- A list whose last element is its first repeats it, unless it has no other. -/
theorem length_le_one_of_head?_eq_getLast? (h : refs.Nodup) (hends : refs.head? = refs.getLast?) :
    refs.length ≤ 1 := by
  cases refs with
  | nil => exact Nat.zero_le 1
  | cons ref rest =>
    cases rest with
    | nil => exact le_rfl
    | cons next rest =>
      have hlast : ref = (next :: rest).getLast (List.cons_ne_nil next rest) := by
        rw [List.head?_cons, List.getLast?_cons_cons, List.getLast?_eq_some_getLast
          (List.cons_ne_nil next rest), Option.some.injEq] at hends
        exact hends
      have hmem : ref ∈ next :: rest := by
        rw [hlast]
        exact List.getLast_mem _
      exact absurd hmem (List.nodup_cons.1 h).1

theorem palindrome_iff_length_le_one (h : refs.Nodup) : refs.Palindrome ↔ refs.length ≤ 1 := by
  constructor
  · intro hsame
    apply length_le_one_of_head?_eq_getLast? h
    rw [← List.head?_reverse, hsame.reverse_eq]
  · intro hshort
    rcases Nat.le_one_iff_eq_zero_or_eq_one.1 hshort with hzero | hone
    · rw [List.length_eq_zero_iff.1 hzero]
      exact .nil
    · obtain ⟨ref, rfl⟩ := List.length_eq_one_iff.1 hone
      exact .singleton ref

/-- Of distinct references at most one may be turned. -/
theorem keepsRefs_iff_of_nodup {order : List U} (hrefs : refs.Nodup) (index : ℤ) :
    KeepsRefs order refs index ↔
      refs.length ≤ 1 ∨ (0 ≤ index ∧ index ≤ order.length) ∨
        refs.length + order.length + index ≤ 1 := by
  have hneg (h : index < 0) : (refs.take (cutAt order refs index)).Palindrome ↔
      refs.length ≤ 1 ∨ refs.length + order.length + index ≤ 1 := by
    rw [palindrome_iff_length_le_one (hrefs.sublist (List.take_sublist _ _)), List.length_take,
      cutAt, if_pos h]
    omega
  have hbeyond (h : order.length < index) : (refs.drop (cutAt order refs index)).reverse ++
      refs.take (cutAt order refs index) = refs ↔ refs.length ≤ 1 := by
    by_cases hempty : refs = []
    · rw [hempty, List.take_nil, List.drop_nil]
      exact iff_of_true rfl (Nat.zero_le 1)
    have hpos : 0 < refs.length := List.length_pos_iff.2 hempty
    have hcut : cutAt order refs index < refs.length := by
      rw [cutAt, if_neg (by omega)]
      omega
    constructor
    · intro hturned
      apply length_le_one_of_head?_eq_getLast? hrefs
      have hlast : (refs.drop (cutAt order refs index)).getLast? = refs.getLast? := by
        rw [List.getLast?_drop, if_neg (by omega)]
      rw [← hlast, ← List.head?_reverse]
      conv_lhs => rw [← hturned]
      rw [List.head?_append_of_ne_nil]
      rw [Ne, List.reverse_eq_nil_iff, List.drop_eq_nil_iff]
      omega
    · intro hshort
      have hfirst : cutAt order refs index = 0 := by omega
      rw [hfirst, List.drop_zero, List.take_zero, List.append_nil]
      exact ((palindrome_iff_length_le_one hrefs).2 hshort).reverse_eq
  constructor
  · rintro (hinside | ⟨h, hturned⟩ | ⟨h, hturned⟩)
    · exact .inr (.inl hinside)
    · exact ((hneg h).1 hturned).imp_right .inr
    · exact .inl ((hbeyond h).1 hturned)
  · intro h
    by_cases hinside : 0 ≤ index ∧ index ≤ order.length
    · exact .inl hinside
    by_cases hlt : index < 0
    · exact .inr (.inl ⟨hlt, (hneg hlt).2 (by omega)⟩)
    · exact .inr (.inr ⟨by omega, (hbeyond (by omega)).2 (by omega)⟩)

end Progression

namespace Pile

variable {U : Type u} {α : Type v} {τ : Type w} [Observable α U τ] [DecidableEq U] [DecidableEq τ]

/-- New items are inserted under their identifiers, in the order they were given in. -/
theorem order_insert {p : Pile U α τ} {item : Ref U α} {itemDict : OrderedDict U α}
    (hitems : validateCollections item p.itemType p.strictType = .ok itemDict)
    (hfresh : ∀ uid ∈ itemDict.keys, uid ∉ p.order) (index : ℤ) :
    (p.insert index item).1.order = Progression.insertRefs p.order index itemDict.keys := by
  have hnone : itemDict.keys.any (· ∈ p.order) = false := by
    rw [List.any_eq_false]
    intro uid huid
    rw [decide_eq_true_eq]
    exact hfresh uid huid
  simp only [insert, hitems, hnone, Bool.false_eq_true, if_false, Progression.insert,
    validateOrder_ofIds]
  rfl

end Pile

section

variable {U : Type u} {α : Type v} {τ : Type w} [Observable α U τ] [DecidableEq U] [DecidableEq τ]

/-- `insert` is the slice assignment `order[index:index] = refs` exactly where the turned part of
the references does not show; for a pile, whose items are distinct, that part is one item at most. -/
theorem insert_eq_setSlice_iff :
    (∀ (order refs : List U) (index : ℤ) (item : Ref U α), item.validateOrder = .ok refs →
      (some (Progression.insert order index item).1 =
          PySequence.setSlice order ⟨some index, some index, none⟩ refs ↔
        Progression.KeepsRefs order refs index)) ∧
      ∀ (p : Pile U α τ) (item : Ref U α) (itemDict : OrderedDict U α) (index : ℤ),
        Pile.validateCollections item p.itemType p.strictType = .ok itemDict →
        (∀ uid ∈ itemDict.keys, uid ∉ p.order) →
        (some (p.insert index item).1.order =
            PySequence.setSlice p.order ⟨some index, some index, none⟩ itemDict.keys ↔
          itemDict.keys.length ≤ 1 ∨ (0 ≤ index ∧ index ≤ p.order.length) ∨
            itemDict.keys.length + p.order.length + index ≤ 1) := by
  constructor
  · intro order refs index item hrefs
    have hinsert : (Progression.insert order index item).1 =
        Progression.insertRefs order index refs := by
      rw [Progression.insert, hrefs]
    rw [hinsert, Progression.insertRefs_eq_setSlice_iff]
  · intro p item itemDict index hitems hfresh
    rw [Pile.order_insert hitems hfresh, Progression.insertRefs_eq_setSlice_iff,
      Progression.keepsRefs_iff_of_nodup itemDict.keys_nodup]

end

/-- The pile of the items `0`, `1` and `2`. -/
def threeItems : Pile ℕ (Bare ℕ) Unit where
  collections := ((OrderedDict.empty.set 0 ⟨0⟩).set 1 ⟨1⟩).set 2 ⟨2⟩
  itemType := none
  progression := ⟨9, [0, 1, 2], none⟩
  strictType := false

theorem insert_eq_setSlice_iff_example :
    some (Progression.insert [0, 1, 2] 1 (.ofIds [3, 4] : Ref ℕ (Bare ℕ))).1 =
        PySequence.setSlice [0, 1, 2] ⟨some 1, some 1, none⟩ [3, 4] ∧
      some (threeItems.insert 1 (.ofItems [⟨3⟩, ⟨4⟩])).1.order =
        PySequence.setSlice threeItems.order ⟨some 1, some 1, none⟩ [3, 4] := by
  have hiff := insert_eq_setSlice_iff (U := ℕ) (α := Bare ℕ) (τ := Unit)
  constructor
  · exact (hiff.1 [0, 1, 2] [3, 4] 1 (.ofIds [3, 4]) rfl).2 (.inl ⟨by decide, by decide⟩)
  · refine (hiff.2 threeItems (.ofItems [⟨3⟩, ⟨4⟩]) ((OrderedDict.empty.set 3 ⟨3⟩).set 4 ⟨4⟩) 1
      rfl ?_).2 (.inr (.inl ⟨by decide, by decide⟩))
    decide

/-- One place before the end, the two references come out in reverse. -/
theorem insert_ne_setSlice :
    (Progression.insert [0, 1, 2] (-1) (.ofIds [3, 4] : Ref ℕ (Bare ℕ))).1 = [0, 1, 4, 3, 2] ∧
      PySequence.setSlice [0, 1, 2] ⟨some (-1), some (-1), none⟩ [3, 4] = some [0, 1, 3, 4, 2] ∧
      (threeItems.insert (-1) (.ofItems [⟨3⟩, ⟨4⟩])).1.order = [0, 1, 4, 3, 2] := by
  refine ⟨?_, ?_, ?_⟩
  · rfl
  · decide
  · rfl

end Lionagi.Protocols
