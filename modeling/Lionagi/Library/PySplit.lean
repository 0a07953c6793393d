import Lionagi.Library.PyText

/-!
# Splitting a text at a separator

`str.split` cuts a text at the leftmost separators that do not overlap. Joining what it gives restores the text.
-/

namespace Text

/-- Characters still to be skipped belong to a separator. -/
def splitFrom (sep : Text) : ℕ → Text → List Text
  | _, [] => [[]]
  | skipped + 1, _ :: t => splitFrom sep skipped t
  | 0, c :: t =>
    if sep.isPrefixOf (c :: t) then [] :: splitFrom sep (sep.length - 1) t
    else (splitFrom sep 0 t).modifyHead (c :: ·)

/-- `t.split(sep)` for a separator that is not empty. -/
def split (sep t : Text) : List Text := splitFrom sep 0 t

/-- `sep.join(parts)` -/
def join (sep : Text) (parts : List Text) : Text := List.intercalate sep parts

variable {sep : Text} {parts : List Text}

theorem splitFrom_ne_nil (sep : Text) (skipped : ℕ) (t : Text) : splitFrom sep skipped t ≠ [] := by
  induction t generalizing skipped with
  | nil => cases skipped <;> simp [splitFrom]
  | cons c t ih =>
    cases skipped with
    | zero =>
      rw [splitFrom]
      split
      · exact List.cons_ne_nil _ _
      · rw [ne_eq, List.modifyHead_eq_nil_iff]
        exact ih 0
    | succ skipped => exact ih skipped

theorem split_ne_nil (sep t : Text) : split sep t ≠ [] := splitFrom_ne_nil sep 0 t

theorem join_cons (sep part : Text) (h : parts ≠ []) : join sep (part :: parts) = part ++ sep ++ join sep parts := by
  obtain ⟨next, parts, rfl⟩ := List.exists_cons_of_ne_nil h
  rw [join, List.intercalate_cons_cons]
  rfl

theorem join_modifyHead (sep : Text) (c : Char) (h : parts ≠ []) :
    join sep (parts.modifyHead (c :: ·)) = c :: join sep parts := by
  obtain ⟨part, parts, rfl⟩ := List.exists_cons_of_ne_nil h
  rw [List.modifyHead_cons]
  cases parts with
  | nil => simp [join]
  | cons next parts =>
    rw [join_cons sep (c :: part) (by simp), join_cons sep part (by simp), List.cons_append, List.cons_append]

theorem join_splitFrom (hsep : sep ≠ []) (skipped : ℕ) (t : Text) :
    join sep (splitFrom sep skipped t) = t.drop skipped := by
  induction t generalizing skipped with
  | nil => cases skipped <;> simp [splitFrom, join]
  | cons c t ih =>
    cases skipped with
    | zero =>
      rw [splitFrom]
      split
      · next hpre =>
        obtain ⟨rest, hrest⟩ := List.isPrefixOf_iff_prefix.1 hpre
        obtain ⟨d, sep, rfl⟩ := List.exists_cons_of_ne_nil hsep
        obtain ⟨rfl, rfl⟩ := List.cons.inj hrest
        rw [join_cons _ _ (splitFrom_ne_nil _ _ _), ih]
        simp
      · rw [join_modifyHead _ _ (splitFrom_ne_nil _ _ _), ih]
        rfl
    | succ skipped =>
      rw [splitFrom, ih]
      rfl

theorem join_split (hsep : sep ≠ []) (t : Text) : join sep (split sep t) = t := join_splitFrom hsep 0 t

/-- A joined text is split where it was joined, or nowhere that gives it back. -/
theorem split_join_of_split_join (hsep : sep ≠ []) {others : List Text} (h : split sep (join sep others) = parts) :
    split sep (join sep parts) = parts := by
  rw [← h, join_split hsep]

end Text
