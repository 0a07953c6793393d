import Mathlib.Data.List.Basic
import Mathlib.Data.List.Nodup

/-!
# Processes in a list

Processes are numbered by their place in a list. One of them takes a step, or one is added at the end, and
the others stay as they are.
-/

namespace Processes

variable {α : Type*} {l : List α} {i j : ℕ} {a b : α}

/-- After a step of one process, each is the one that took it or as it was. -/
theorem getElem?_set_cases (h : (l.set i a)[j]? = some b) : j = i ∧ b = a ∨ j ≠ i ∧ l[j]? = some b := by
  rw [List.getElem?_set] at h
  split at h
  · next heq =>
    split at h
    · exact .inl ⟨heq.symm, (Option.some.inj h).symm⟩
    · cases h
  · next hne => exact .inr ⟨Ne.symm hne, h⟩

theorem getElem?_set_self_of_some (h : l[i]? = some b) : (l.set i a)[i]? = some a := by
  obtain ⟨hlt, -⟩ := List.getElem?_eq_some_iff.1 h
  rw [List.getElem?_set_self hlt]

theorem getElem?_concat_of_some (h : l[i]? = some b) : (l ++ [a])[i]? = some b := by
  obtain ⟨hlt, -⟩ := List.getElem?_eq_some_iff.1 h
  rw [List.getElem?_append_left hlt, h]

/-- After one is added, each is the new one or was there before. -/
theorem getElem?_concat_cases (h : (l ++ [a])[j]? = some b) : j = l.length ∧ b = a ∨ l[j]? = some b := by
  by_cases hlt : j < l.length
  · rw [List.getElem?_append_left hlt] at h
    exact .inr h
  · have hmem : (l ++ [a])[j]? = [a][j - l.length]? := List.getElem?_append_right (Nat.le_of_not_lt hlt)
    rw [hmem] at h
    have hj : j - l.length = 0 := by
      by_contra hne
      rw [List.getElem?_eq_none (Nat.one_le_iff_ne_zero.2 hne)] at h
      cases h
    rw [hj] at h
    exact .inl ⟨by omega, (Option.some.inj h).symm⟩

/-! ## Tallies

The processes with a property are counted, and their tickets are listed. -/

section Tally

variable {p : α → Bool}

/-- A step that leaves the property leaves the number of processes with it. -/
theorem countP_set_of_eq (h : l[i]? = some b) (hp : p a = p b) : (l.set i a).countP p = l.countP p := by
  induction l generalizing i with
  | nil => rfl
  | cons c l ih =>
    cases i with
    | zero =>
      cases Option.some.inj h
      rw [List.set_cons_zero, List.countP_cons, List.countP_cons, hp]
    | succ i =>
      rw [List.set_cons_succ, List.countP_cons, List.countP_cons, ih h]

/-- A process that gets the property is counted. -/
theorem countP_set_of_grant (h : l[i]? = some b) (hb : p b = false) (ha : p a = true) :
    (l.set i a).countP p = l.countP p + 1 := by
  induction l generalizing i with
  | nil => cases h
  | cons c l ih =>
    cases i with
    | zero =>
      cases Option.some.inj h
      rw [List.set_cons_zero, List.countP_cons_of_pos ha, List.countP_cons_of_neg (by rw [hb]; decide)]
    | succ i =>
      rw [List.set_cons_succ, List.countP_cons, List.countP_cons, ih h]
      exact Nat.add_right_comm _ _ _

/-- A process that loses the property is counted no more. -/
theorem countP_of_release (h : l[i]? = some b) (hb : p b = true) (ha : p a = false) :
    l.countP p = (l.set i a).countP p + 1 := by
  have hset : (l.set i a)[i]? = some a := getElem?_set_self_of_some h
  have hback : (l.set i a).set i b = l := by
    obtain ⟨hlt, rfl⟩ := List.getElem?_eq_some_iff.1 h
    rw [List.set_set, List.set_getElem_self]
  rw [← countP_set_of_grant hset ha hb, hback]

theorem countP_concat_of_false (ha : p a = false) : (l ++ [a]).countP p = l.countP p := by
  rw [List.countP_append, List.countP_singleton, ha]
  rfl

/-- A step moves the number of processes with the property as it moves the property of its own. -/
theorem countP_set_add (h : l[i]? = some b) :
    (l.set i a).countP p + (p b).toNat = l.countP p + (p a).toNat := by
  cases hb : p b with
  | false =>
    cases ha : p a with
    | false => exact congrArg (· + 0) (countP_set_of_eq h (ha.trans hb.symm))
    | true => exact countP_set_of_grant h hb ha
  | true =>
    cases ha : p a with
    | false => exact (countP_of_release h hb ha).symm
    | true => exact congrArg (· + 1) (countP_set_of_eq h (ha.trans hb.symm))

theorem countP_set_le (h : l[i]? = some b) (hp : p a = true → p b = true) :
    (l.set i a).countP p ≤ l.countP p := by
  have hle : (p a).toNat ≤ (p b).toNat := by
    cases ha : p a with
    | false => exact Nat.zero_le _
    | true => exact Nat.le_of_eq (congrArg Bool.toNat (hp ha)).symm
  have hset := countP_set_add (p := p) (a := a) h
  omega

theorem countP_set_le_succ (h : l[i]? = some b) : (l.set i a).countP p ≤ l.countP p + 1 := by
  have hle : (p a).toNat ≤ 1 := Bool.toNat_le (p a)
  have hset := countP_set_add (p := p) (a := a) h
  omega

theorem toNat_le_countP (h : l[i]? = some b) : (p b).toNat ≤ l.countP p := by
  cases hb : p b with
  | false => exact Nat.zero_le _
  | true => exact List.countP_pos_iff.2 ⟨b, List.mem_of_getElem? h, hb⟩

/-- Tickets that no two processes share are listed once. -/
theorem nodup_filterMap {β : Type*} {f : α → Option β}
    (h : ∀ (i j : ℕ) (a b : α) (c : β), l[i]? = some a → l[j]? = some b → f a = some c → f b = some c →
      i = j) : (l.filterMap f).Nodup := by
  rw [List.Nodup, List.pairwise_filterMap, List.pairwise_iff_getElem]
  intro i j hi hj hlt b hb b' hb' heq
  subst heq
  have hij := h i j _ _ b (List.getElem?_eq_getElem hi) (List.getElem?_eq_getElem hj) hb hb'
  exact absurd hij (Nat.ne_of_lt hlt)

end Tally

end Processes
