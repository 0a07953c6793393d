import Lionagi.Library.PyLiteral

/-!
# Reserved keywords in call text

Before a call is parsed, reserved words in front of an equals sign get an underscore, wherever they stand in the text.
Between characters that are neither of words nor of whitespace the rewriting goes piece by piece; a string literal
becomes the literal of another string.
-/

namespace Lionagi.Lndl

open PyValue (reprChar reprBody reprStr reprQuote)
open PyJson (backslash openBrace closeBrace)

def reservedKeywords : List Text :=
  ["from", "import", "class", "def", "return", "yield", "async", "await"].map String.toList

section Rewrite

variable (py : CharTable)

/-- A word of the pattern at the start of the text with whitespace and an equals sign behind it, and how many
characters of the match follow its first. -/
def reservedAt (t : Text) : Option (Text × ℕ) :=
  reservedKeywords.findSome? fun word ↦ (Text.after word t).bind fun rest ↦
    if (rest.dropWhile py.isspace).head? = some '=' then
      some (word, word.length + (rest.takeWhile py.isspace).length)
    else none

/-- The substitution from a place on, behind a character of a word or not, and so many characters of a match. -/
def escapeFrom : Bool → ℕ → Text → Text
  | _, _, [] => []
  | _, skip + 1, _ :: t => escapeFrom false skip t
  | inWord, 0, c :: t =>
    match if inWord then none else reservedAt py (c :: t) with
    | some (word, skip) => word ++ "_=".toList ++ escapeFrom false skip t
    | none => c :: escapeFrom (py.isWord c) 0 t

/-- `_escape_reserved_keywords` -/
def escapeReservedKeywords (callStr : Text) : Text := escapeFrom py false 0 callStr

/-! ## Matches -/

variable {py} {t word : Text} {skip : ℕ} {c : Char}

/-- A check of the members one by one; an instance for all characters would be tried first. -/
theorem forall_mem_of_all {α : Type} {p : α → Prop} [DecidablePred p] {l : List α}
    (h : l.all (fun a ↦ decide (p a)) = true) : ∀ a ∈ l, p a := by
  intro a ha
  exact of_decide_eq_true (List.all_eq_true.1 h a ha)

theorem isLower_of_mem_reservedKeywords (hword : word ∈ reservedKeywords) : ∀ c ∈ word, c.isLower = true := by
  have hall : reservedKeywords.all (List.all · Char.isLower) = true := by decide
  exact List.all_eq_true.1 (List.all_eq_true.1 hall word hword)

theorem ne_nil_of_mem_reservedKeywords (hword : word ∈ reservedKeywords) : word ≠ [] := by
  revert word
  decide

theorem toNat_lt_of_isAlphanum (hc : c.isAlphanum = true) : c.toNat < 128 := by
  have hz : 'z'.val.toNat = 122 := rfl
  have hZ : 'Z'.val.toNat = 90 := rfl
  have h9 : '9'.val.toNat = 57 := rfl
  have hval : c.toNat = c.val.toNat := rfl
  have hranges : (decide (c.val ≥ 'A'.val ∧ c.val ≤ 'Z'.val) ||
      (decide (c.val ≥ 'a'.val) && decide (c.val ≤ 'z'.val)) ||
      (decide (c.val ≥ '0'.val) && decide (c.val ≤ '9'.val))) = true := hc
  simp only [Bool.or_eq_true, Bool.and_eq_true, decide_eq_true_eq, ge_iff_le, UInt32.le_iff_toNat_le] at hranges
  omega

theorem isAlpha_of_isLower (hc : c.isLower = true) : c.isAlpha = true :=
  Bool.or_eq_true_iff.2 (.inr hc)

theorem isAlphanum_of_isLower (hc : c.isLower = true) : c.isAlphanum = true :=
  Bool.or_eq_true_iff.2 (.inl (isAlpha_of_isLower hc))

theorem isWord_of_isAlphanum (hc : c.isAlphanum = true) : py.isWord c = true := by
  rw [CharTable.isWord, py.ascii_isalnum c (toNat_lt_of_isAlphanum hc), hc, Bool.true_or]

theorem isWord_of_isLower (hc : c.isLower = true) : py.isWord c = true :=
  isWord_of_isAlphanum (isAlphanum_of_isLower hc)

/-- A match is a reserved word, whitespace and an equals sign. -/
theorem eq_of_reservedAt (h : reservedAt py t = some (word, skip)) : word ∈ reservedKeywords ∧
    ∃ spaces rest, t = word ++ spaces ++ '=' :: rest ∧ (∀ c ∈ spaces, py.isspace c = true) ∧
      skip = word.length + spaces.length := by
  obtain ⟨word', hmem, hword⟩ := List.exists_of_findSome?_eq_some h
  obtain ⟨rest, hafter, hmatch⟩ := Option.bind_eq_some_iff.1 hword
  split at hmatch
  · next hequals =>
    cases hmatch
    obtain ⟨tail, htail⟩ := List.head?_eq_some_iff.1 hequals
    refine ⟨hmem, rest.takeWhile py.isspace, tail, ?_, fun c hc ↦ List.mem_takeWhile_imp hc, rfl⟩
    rw [Text.after_eq_some_iff.1 hafter, List.append_assoc, ← htail, List.takeWhile_append_dropWhile]
  · cases hmatch

def firstLetters : List Char := ['f', 'i', 'c', 'd', 'r', 'y', 'a']

theorem exists_of_mem_reservedKeywords (hword : word ∈ reservedKeywords) :
    ∃ first rest, word = first :: rest ∧ first ∈ firstLetters := by
  have hfirst : word.headD ' ' ∈ firstLetters := by
    revert word
    decide
  obtain ⟨first, rest, rfl⟩ := List.exists_cons_of_ne_nil (ne_nil_of_mem_reservedKeywords hword)
  exact ⟨first, rest, rfl, hfirst⟩

/-- No match starts at a character that no reserved word starts with. -/
theorem reservedAt_eq_none (hc : c ∉ firstLetters) (t : Text) : reservedAt py (c :: t) = none := by
  refine Option.eq_none_iff_forall_ne_some.2 fun found hfound ↦ ?_
  obtain ⟨hword, spaces, rest, heq, -⟩ := eq_of_reservedAt hfound
  obtain ⟨first, tail, hcons, hfirst⟩ := exists_of_mem_reservedKeywords hword
  rw [hcons, List.cons_append, List.cons_append] at heq
  exact hc ((List.cons.inj heq).1 ▸ hfirst)

/-- What may follow the backslash of an escape starts no match. -/
theorem notMem_firstLetters_of_mem_quoted {quote mark : Char} (hquote : quote = '\'' ∨ quote = '"')
    (hmark : mark ∈ [quote, backslash, 't', 'n']) : mark ∉ firstLetters := by
  obtain rfl | rfl := hquote
  · exact forall_mem_of_all (p := (· ∉ firstLetters)) (by decide) mark hmark
  · exact forall_mem_of_all (p := (· ∉ firstLetters)) (by decide) mark hmark

theorem notMem_firstLetters_of_mem_code {mark : Char} (hmark : mark ∈ ['x', 'u', 'U']) :
    mark ∉ firstLetters :=
  forall_mem_of_all (p := (· ∉ firstLetters)) (by decide) mark hmark

theorem notMem_firstLetters (hc : py.isWord c = false) : c ∉ firstLetters := by
  have hlower : ∀ c ∈ firstLetters, c.isLower = true := List.all_eq_true.1 (by decide)
  intro hmem
  rw [isWord_of_isLower (hlower c hmem)] at hc
  cases hc

theorem notMem_of_mem_reservedKeywords (hword : word ∈ reservedKeywords) (hc : py.isWord c = false) : c ∉ word := by
  intro hmem
  rw [isWord_of_isLower (isLower_of_mem_reservedKeywords hword c hmem)] at hc
  cases hc

/-- What is behind a word is not changed by what follows a character that the word does not hold. -/
theorem after_append_stop (hc : c ∉ word) (a b : Text) :
    Text.after word (a ++ c :: b) = (Text.after word a).map (· ++ c :: b) := by
  unfold Text.after
  by_cases hprefix : word <+: a
  · obtain ⟨rest, rfl⟩ := hprefix
    have hlong : word <+: word ++ rest ++ c :: b := List.append_assoc word rest _ ▸ List.prefix_append word _
    rw [if_pos (List.isPrefixOf_iff_prefix.2 hlong),
      if_pos (List.isPrefixOf_iff_prefix.2 (List.prefix_append word rest)), List.append_assoc, List.drop_left,
      List.drop_left, Option.map_some]
  · have hlong : ¬ word <+: a ++ c :: b := (Text.prefix_append_stop hc a b).not.2 hprefix
    rw [if_neg (List.isPrefixOf_iff_prefix.not.2 hlong), if_neg (List.isPrefixOf_iff_prefix.not.2 hprefix),
      Option.map_none]

theorem head?_dropWhile_append (hspace : py.isspace c = false) (a b : Text) :
    ((a ++ c :: b).dropWhile py.isspace).head? = some ((a.dropWhile py.isspace).headD c) := by
  induction a with
  | nil => simp [hspace]
  | cons x a ih =>
    rw [List.cons_append, List.dropWhile_cons, List.dropWhile_cons]
    split
    · exact ih
    · rfl

/-- The match at the start of a text depends on what comes up to a character neither of a word nor whitespace. -/
theorem reservedAt_append (hword : py.isWord c = false) (hspace : py.isspace c = false) (a b : Text) :
    reservedAt py (a ++ c :: b) = reservedKeywords.findSome? fun word ↦ (Text.after word a).bind fun rest ↦
      if (rest.dropWhile py.isspace).headD c = '=' then
        some (word, word.length + (rest.takeWhile py.isspace).length)
      else none := by
  have hmatch (word : Text) (hmem : word ∈ reservedKeywords) : ((Text.after word (a ++ c :: b)).bind fun rest ↦
        if (rest.dropWhile py.isspace).head? = some '=' then
          some (word, word.length + (rest.takeWhile py.isspace).length)
        else none) =
      (Text.after word a).bind fun rest ↦
        if (rest.dropWhile py.isspace).headD c = '=' then
          some (word, word.length + (rest.takeWhile py.isspace).length)
        else none := by
    rw [after_append_stop (notMem_of_mem_reservedKeywords hmem hword)]
    cases Text.after word a with
    | none => rfl
    | some rest =>
      simp only [Option.map_some, Option.bind_some, head?_dropWhile_append hspace, Option.some.injEq,
        Text.takeWhile_append_stop hspace]
  unfold reservedAt
  revert hmatch
  generalize reservedKeywords = words
  intro hmatch
  induction words with
  | nil => rfl
  | cons word words ih =>
    rw [List.findSome?_cons, List.findSome?_cons, hmatch word List.mem_cons_self,
      ih fun other hother ↦ hmatch other (List.mem_cons_of_mem word hother)]

/-- Up to a character that is no equals sign there is the match of the text before it. -/
theorem reservedAt_append_stop (hword : py.isWord c = false) (hspace : py.isspace c = false) (hc : c ≠ '=')
    (a b : Text) : reservedAt py (a ++ c :: b) = reservedAt py a := by
  rw [reservedAt_append hword hspace]
  unfold reservedAt
  congr 1
  funext word
  congr 1
  funext rest
  cases rest.dropWhile py.isspace with
  | nil => simp [hc]
  | cons x rest => simp

/-! ## Piece by piece -/

/-- The rewriting starts anew behind a character that is neither of a word nor whitespace. -/
theorem escapeFrom_append (hword : py.isWord c = false) (hspace : py.isspace c = false) (a b : Text) {inWord : Bool}
    (hskip : skip ≤ a.length + 1) :
    escapeFrom py inWord skip (a ++ c :: b) = escapeFrom py inWord skip (a ++ [c]) ++ escapeFrom py false 0 b := by
  induction a generalizing inWord skip with
  | nil =>
    cases skip with
    | zero =>
      have hnone (t : Text) : (if inWord then none else reservedAt py (c :: t)) = none := by
        split
        · rfl
        · exact reservedAt_eq_none (notMem_firstLetters hword) t
      rw [List.nil_append, List.nil_append, escapeFrom, hnone, escapeFrom, hnone, hword]
      rfl
    | succ skip =>
      have hzero : skip = 0 := Nat.le_zero.1 (Nat.le_of_succ_le_succ hskip)
      subst hzero
      rfl
  | cons x a ih =>
    cases skip with
    | zero =>
      have hsame : reservedAt py (x :: a ++ c :: b) = reservedAt py (x :: a ++ [c]) :=
        (reservedAt_append hword hspace (x :: a) b).trans (reservedAt_append hword hspace (x :: a) []).symm
      simp only [List.cons_append] at hsame
      rw [List.cons_append, List.cons_append, escapeFrom, escapeFrom, hsame]
      cases hmatch : (if inWord then none else reservedAt py (x :: (a ++ [c]))) with
      | none => rw [ih (Nat.zero_le _), List.cons_append]
      | some found =>
        obtain ⟨word, skip⟩ := found
        have hlength : skip ≤ a.length + 1 := by
          split at hmatch
          · cases hmatch
          · obtain ⟨-, spaces, rest, heq, -, rfl⟩ := eq_of_reservedAt hmatch
            have hlengths := congrArg List.length heq
            simp only [List.length_cons, List.length_append, List.length_nil] at hlengths
            omega
        dsimp only
        rw [ih hlength, ← List.append_assoc]
    | succ skip => exact ih (Nat.le_of_succ_le_succ hskip)

/-- A character neither of a word nor whitespace nor an equals sign is between two pieces. -/
theorem escapeFrom_append_stop (hword : py.isWord c = false) (hspace : py.isspace c = false) (hc : c ≠ '=') (a : Text)
    {inWord : Bool} (hskip : skip ≤ a.length) :
    escapeFrom py inWord skip (a ++ [c]) = escapeFrom py inWord skip a ++ [c] := by
  induction a generalizing inWord skip with
  | nil =>
    have hzero : skip = 0 := Nat.le_zero.1 hskip
    subst hzero
    have hnone : (if inWord then none else reservedAt py [c]) = none := by
      split
      · rfl
      · exact (reservedAt_append_stop hword hspace hc [] []).trans rfl
    rw [List.nil_append, escapeFrom, escapeFrom, hnone]
    rfl
  | cons x a ih =>
    cases skip with
    | zero =>
      have hsame : reservedAt py (x :: a ++ [c]) = reservedAt py (x :: a) :=
        reservedAt_append_stop hword hspace hc (x :: a) []
      rw [List.cons_append] at hsame
      rw [List.cons_append, escapeFrom, escapeFrom, hsame]
      cases hmatch : (if inWord then none else reservedAt py (x :: a)) with
      | none => rw [ih (Nat.zero_le _), List.cons_append]
      | some found =>
        obtain ⟨word, skip⟩ := found
        have hlength : skip ≤ a.length := by
          split at hmatch
          · cases hmatch
          · obtain ⟨-, spaces, rest, heq, -, rfl⟩ := eq_of_reservedAt hmatch
            have hlengths := congrArg List.length heq
            simp only [List.length_cons, List.length_append] at hlengths
            omega
        dsimp only
        rw [ih hlength, ← List.append_assoc]
    | succ skip => exact ih (Nat.le_of_succ_le_succ hskip)

/-- What stands between pieces of call text. -/
def Separates (py : CharTable) (c : Char) : Prop := py.isWord c = false ∧ py.isspace c = false ∧ c ≠ '='

theorem escape_append (hc : Separates py c) (a b : Text) : escapeReservedKeywords py (a ++ c :: b) =
    escapeReservedKeywords py a ++ c :: escapeReservedKeywords py b := by
  unfold escapeReservedKeywords
  rw [escapeFrom_append hc.1 hc.2.1 a b (Nat.zero_le _), escapeFrom_append_stop hc.1 hc.2.1 hc.2.2 a (Nat.zero_le _),
    List.append_assoc, List.singleton_append]

theorem escape_cons (hc : Separates py c) (b : Text) :
    escapeReservedKeywords py (c :: b) = c :: escapeReservedKeywords py b :=
  escape_append hc [] b

/-- Without an equals sign there is nothing to rewrite. -/
theorem escapeFrom_of_notMem (h : '=' ∉ t) (inWord : Bool) : escapeFrom py inWord 0 t = t := by
  induction t generalizing inWord with
  | nil => rfl
  | cons c t ih =>
    have hnone : (if inWord then none else reservedAt py (c :: t)) = none := by
      split
      · rfl
      · refine Option.eq_none_iff_forall_ne_some.2 fun found hfound ↦ h ?_
        obtain ⟨-, spaces, rest, heq, -⟩ := eq_of_reservedAt hfound
        rw [heq]
        exact List.mem_append_right _ List.mem_cons_self
    rw [escapeFrom, hnone]
    exact congrArg (c :: ·) (ih (fun hmem ↦ h (List.mem_cons_of_mem c hmem)) _)

/-- The rest of a match is skipped. -/
theorem escapeFrom_skip (a b : Text) : escapeFrom py false a.length (a ++ b) = escapeFrom py false 0 b := by
  induction a with
  | nil => rfl
  | cons x a ih => exact ih

/-! ## Names of keyword arguments -/

/-- The name that a keyword argument has after the rewriting. -/
def escapedName (py : CharTable) (name : Text) : Text := (escapeReservedKeywords py (name ++ ['='])).dropLast

theorem escapeFrom_name (hname : ∀ c ∈ t, py.isspace c = false ∧ c ≠ '=') (inWord : Bool) :
    escapeFrom py inWord 0 (t ++ ['=']) = t ++ ['='] ∨
      escapeFrom py inWord 0 (t ++ ['=']) = t ++ ['_', '='] := by
  induction t generalizing inWord with
  | nil =>
    left
    have hnone : (if inWord then none else reservedAt py ['=']) = none := by
      split
      · rfl
      · exact reservedAt_eq_none (by decide) []
    rw [List.nil_append, escapeFrom, hnone]
    rfl
  | cons c t ih =>
    rw [List.cons_append, escapeFrom]
    cases hmatch : (if inWord then none else reservedAt py (c :: (t ++ ['=']))) with
    | none =>
      have hrest := ih (fun d hd ↦ hname d (List.mem_cons_of_mem c hd)) (py.isWord c)
      exact hrest.imp (congrArg (c :: ·)) (congrArg (c :: ·))
    | some found =>
      obtain ⟨word, skip⟩ := found
      right
      split at hmatch
      · cases hmatch
      · obtain ⟨-, spaces, rest, heq, hspaces, rfl⟩ := eq_of_reservedAt hmatch
        have hequals : '=' ∉ c :: t := fun hmem ↦ (hname '=' hmem).2 rfl
        have hends := (List.append_cons_inj_of_notMem hequals List.not_mem_nil).1 heq
        have hnone : spaces = [] := List.eq_nil_iff_forall_not_mem.2 fun d hd ↦ by
          have hspace := (hname d (hends.1 ▸ List.mem_append_right word hd)).1
          rw [hspaces d hd] at hspace
          cases hspace
        subst hnone
        rw [List.append_nil] at hends
        have hrest : escapeFrom py false (t ++ ['=']).length (t ++ ['='] ++ []) = [] := escapeFrom_skip (t ++ ['=']) []
        rw [List.append_nil, List.length_append] at hrest
        have hlength : word.length + ([] : Text).length = t.length + ['='].length := congrArg List.length hends.1.symm
        dsimp only
        rw [hlength, hrest, ← hends.1]
        exact (List.append_nil _).trans (List.cons_append ..).symm

variable {name : Text}

theorem escapedName_cases (hname : ∀ c ∈ name, py.isspace c = false ∧ c ≠ '=') :
    escapeReservedKeywords py (name ++ ['=']) = escapedName py name ++ ['='] ∧
      (escapedName py name = name ∨ escapedName py name = name ++ ['_']) := by
  unfold escapedName escapeReservedKeywords
  obtain heq | heq := escapeFrom_name hname false
  · rw [heq, List.dropLast_concat]
    exact ⟨rfl, .inl rfl⟩
  · have hconcat : name ++ ['_', '='] = (name ++ ['_']) ++ ['='] := by simp
    rw [heq, hconcat, List.dropLast_concat]
    exact ⟨rfl, .inr rfl⟩

/-- The argument behind the equals sign is rewritten by itself. -/
theorem escape_keyword (hname : ∀ c ∈ name, py.isspace c = false ∧ c ≠ '=') (b : Text) :
    escapeReservedKeywords py (name ++ '=' :: b) = escapedName py name ++ '=' :: escapeReservedKeywords py b := by
  have hword : py.isWord '=' = false := by
    rw [CharTable.isWord, py.ascii_isalnum '=' (by decide)]
    decide
  have hspace : py.isspace '=' = false := by
    rw [py.ascii_isspace '=' (by decide)]
    decide
  have hself := (escapedName_cases hname).1
  unfold escapeReservedKeywords at hself ⊢
  rw [escapeFrom_append hword hspace name b (Nat.zero_le _), hself, List.append_assoc, List.singleton_append]

/-- A reserved word does not stay as it is. -/
theorem escapedName_ne_of_mem (hname : name ∈ reservedKeywords) : escapedName py name ≠ name := by
  have hlower := isLower_of_mem_reservedKeywords hname
  have hspace : py.isspace '=' = false := by
    rw [py.ascii_isspace '=' (by decide)]
    decide
  have hmatch : reservedAt py (name ++ ['=']) ≠ none := by
    intro hnone
    have hhere := List.findSome?_eq_none_iff.1 hnone name hname
    rw [Text.after_append, Option.bind_some, List.dropWhile_cons_of_neg (by rw [hspace]; exact Bool.false_ne_true),
      List.head?_cons, if_pos rfl] at hhere
    cases hhere
  obtain ⟨c, t, rfl⟩ := List.exists_cons_of_ne_nil (ne_nil_of_mem_reservedKeywords hname)
  intro heq
  rw [escapedName, escapeReservedKeywords, List.cons_append, escapeFrom, if_neg Bool.false_ne_true] at heq
  rw [List.cons_append] at hmatch
  obtain ⟨⟨word, skip⟩, hfound⟩ := Option.ne_none_iff_exists'.1 hmatch
  rw [hfound] at heq
  have hsplit (u : Text) : (word ++ "_=".toList ++ u).dropLast = (word ++ ['_']) ++ ('=' :: u).dropLast := by
    rw [← List.dropLast_append_of_ne_nil (List.cons_ne_nil '=' u), List.append_assoc, List.append_assoc]
    rfl
  dsimp only at heq
  rw [hsplit] at heq
  have hmem : '_' ∈ c :: t := heq ▸ List.mem_append_left _ (List.mem_append_right _ (List.mem_singleton_self '_'))
  cases hlower '_' hmem

end Rewrite

/-! ## Strings -/

section Strings

variable (py : PyTable)

/-- What the substitution inside of a literal makes of the string: a match starts at a character that is written as
itself, or at the `r` that a carriage return is written with. -/
def rewriteString (quote : Char) : Bool → ℕ → Text → Text
  | _, _, [] => []
  | _, skip + 1, _ :: t => rewriteString quote false skip t
  | inWord, 0, c :: t =>
    if reprChar py quote c = [c] then
      match if inWord then none else reservedAt py.toCharTable (c :: reprBody py quote t) with
      | some (word, skip) => word ++ "_=".toList ++ rewriteString quote false skip t
      | none => c :: rewriteString quote (py.isWord c) 0 t
    else
      match if c = '\r' then reservedAt py.toCharTable ('r' :: reprBody py quote t) else none with
      | some (word, skip) => c :: (word.tail ++ "_=".toList ++ rewriteString quote false skip t)
      | none => c :: rewriteString quote (py.isWord ((reprChar py quote c).getLastD c)) 0 t

variable {py} {quote : Char}
variable {escaped s t : Text}

theorem reprBody_eq_self (h : ∀ c ∈ t, reprChar py quote c = [c]) : reprBody py quote t = t := by
  induction t with
  | nil => rfl
  | cons c t ih =>
    rw [List.forall_mem_cons] at h
    rw [reprBody, List.flatMap_cons, h.1]
    exact congrArg (c :: ·) (ih h.2)

/-- Text without a backslash at the start of a literal is written as itself. -/
theorem exists_of_reprBody_eq {a u : Text} (h : reprBody py quote s = a ++ u) (ha : backslash ∉ a) :
    ∃ rest, s = a ++ rest ∧ reprBody py quote rest = u ∧ ∀ c ∈ a, reprChar py quote c = [c] := by
  induction a generalizing s with
  | nil => exact ⟨s, rfl, h, fun c hc ↦ absurd hc List.not_mem_nil⟩
  | cons x a ih =>
    cases s with
    | nil => cases h
    | cons c s =>
      rw [List.mem_cons, not_or] at ha
      rw [reprBody, List.flatMap_cons] at h
      obtain ⟨y, t, hyt⟩ := List.exists_cons_of_ne_nil (PyValue.reprChar_ne_nil py quote c)
      rw [hyt] at h
      have hxy : y = x := (List.cons.inj h).1
      obtain ⟨rfl, rfl⟩ := PyValue.reprChar_eq_of_ne py hyt (hxy ▸ Ne.symm ha.1)
      subst hxy
      obtain ⟨rest, rfl, hrest, hself⟩ := ih (List.cons.inj h).2 ha.2
      exact ⟨rest, rfl, hrest, List.forall_mem_cons.2 ⟨hyt, hself⟩⟩

/-- Characters of words behind one are not changed. -/
theorem escapeFrom_words {words : Text} (hwords : ∀ c ∈ words, py.isWord c = true) (u : Text) :
    escapeFrom py.toCharTable true 0 (words ++ u) = words ++ escapeFrom py.toCharTable true 0 u := by
  induction words with
  | nil => rfl
  | cons c words ih =>
    rw [List.forall_mem_cons] at hwords
    rw [List.cons_append, escapeFrom, if_pos rfl, hwords.1, ih hwords.2, List.cons_append]

theorem isWord_backslash (py : CharTable) : py.isWord backslash = false := by
  rw [CharTable.isWord, py.ascii_isalnum backslash (by decide)]
  decide

/-- A character that is written with a backslash and cannot start a match is passed over. -/
theorem escapeFrom_escaped {inWord : Bool} {c mark : Char} {digits : Text} (hmark : mark ∉ firstLetters)
    (hdigits : digits = [] ∨ py.isWord mark = true ∧ ∀ digit ∈ digits, py.isWord digit = true) (u : Text) :
    escapeFrom py.toCharTable inWord 0 (backslash :: mark :: digits ++ u) = backslash :: mark :: digits ++
      escapeFrom py.toCharTable (py.isWord ((backslash :: mark :: digits).getLastD c)) 0 u := by
  have hbackslash : (if inWord then none else reservedAt py.toCharTable (backslash :: mark :: digits ++ u)) = none := by
    split
    · rfl
    · exact reservedAt_eq_none (by decide) _
  have hnone : reservedAt py.toCharTable (mark :: (digits ++ u)) = none := reservedAt_eq_none hmark _
  rw [List.cons_append, List.cons_append] at hbackslash ⊢
  rw [escapeFrom, hbackslash, isWord_backslash]
  dsimp only
  rw [escapeFrom, if_neg Bool.false_ne_true, hnone]
  obtain rfl | ⟨hword, hdigits⟩ := hdigits
  · rfl
  · dsimp only
    rw [hword, escapeFrom_words hdigits, List.cons_append, List.cons_append]
    have hlast : py.isWord ((backslash :: mark :: digits).getLastD c) = true := by
      rw [List.getLastD_cons, List.getLastD_cons]
      obtain heq | hmem := List.mem_cons.1 (List.getLastD_mem_cons (l := digits) (a := mark))
      · rw [heq, hword]
      · exact hdigits _ hmem
    rw [hlast]

/-- A match inside of a literal: the rest of its word and what it covers of the string. -/
structure Matched (py : PyTable) (quote : Char) (tail matched : Text) : Prop where
  written : ∀ c ∈ tail ++ "_=".toList ++ matched, reprChar py quote c = [c]
  notMem : ∀ x ∈ ['\'', '"', '_'], x ∉ tail ++ matched

theorem exists_of_match (hquote : quote = '\'' ∨ quote = '"') {word : Text} {c : Char} {skip : ℕ}
    (h : reservedAt py.toCharTable (c :: reprBody py quote t) = some (word, skip)) :
    ∃ tail matched rest, word = c :: tail ∧ t = matched ++ rest ∧ matched.length = skip ∧
      Matched py quote tail matched := by
  obtain ⟨hword, spaces, u, heq, hspaces, rfl⟩ := eq_of_reservedAt h
  obtain ⟨first, tail, rfl, -⟩ := exists_of_mem_reservedKeywords hword
  have hlower := isLower_of_mem_reservedKeywords hword
  rw [List.cons_append, List.cons_append] at heq
  obtain ⟨rfl, htail⟩ := List.cons.inj heq
  have hbody : reprBody py quote t = (tail ++ spaces ++ ['=']) ++ u := by
    rw [htail]
    simp
  have hmatched : ∀ d ∈ tail ++ spaces ++ ['='], d.isLower = true ∨ py.isspace d = true ∨ d = '=' := by
    intro d hd
    rw [List.mem_append, List.mem_append, List.mem_singleton] at hd
    obtain (hd | hd) | hd := hd
    · exact .inl (hlower d (List.mem_cons_of_mem c hd))
    · exact .inr (.inl (hspaces d hd))
    · exact .inr (.inr hd)
  have hother : ∀ x ∈ [backslash, '\'', '"', '_'], x ∉ tail ++ spaces ++ ['='] := by
    have hclasses : ∀ x ∈ [backslash, '\'', '"', '_'], x.toNat < 128 ∧ x.isLower = false ∧
        ¬ (9 ≤ x.toNat ∧ x.toNat ≤ 13 ∨ 28 ≤ x.toNat ∧ x.toNat ≤ 32) ∧ x ≠ '=' :=
      forall_mem_of_all (by decide)
    intro x hx hmem
    obtain ⟨hascii, hcase, hspace, hequals⟩ := hclasses x hx
    obtain hmem | hmem | hmem := hmatched x hmem
    · rw [hcase] at hmem
      cases hmem
    · rw [py.ascii_isspace x hascii, decide_eq_true_eq] at hmem
      exact hspace hmem
    · exact hequals hmem
  obtain ⟨rest, ht, -, hself⟩ := exists_of_reprBody_eq hbody (hother backslash (by simp))
  refine ⟨tail, tail ++ spaces ++ ['='], rest, rfl, ht, by simp; omega, fun d hd ↦ ?_, fun x hx hmem ↦ ?_⟩
  · have hmem : d ∈ tail ∨ (d = '_' ∨ d = '=') ∨ d ∈ tail ++ spaces ++ ['='] := by simpa [or_assoc] using hd
    obtain hd | (rfl | rfl) | hd := hmem
    · exact hself d (List.mem_append_left _ (List.mem_append_left _ hd))
    · refine PyValue.reprChar_of_isprintable py ?_ ?_
      · rw [py.ascii_isprintable '_' (by decide)]
        decide
      · obtain rfl | rfl := hquote <;> decide
    · exact hself '=' (List.mem_append_right _ (List.mem_singleton_self '='))
    · exact hself d hd
  · refine hother x (List.mem_cons_of_mem _ hx) ?_
    obtain hmem | hmem := List.mem_append.1 hmem
    · exact List.mem_append_left _ (List.mem_append_left _ hmem)
    · exact hmem

/-- A literal's text became that of another string, with the same quotes in it, which is the same string or has more
underscores. -/
structure Rewrites (py : PyTable) (quote : Char) (escaped s s' : Text) : Prop where
  body : escaped = reprBody py quote s'
  quotes : ∀ x, x = '\'' ∨ x = '"' → (x ∈ s' ↔ x ∈ s)
  changed : s' = s ∨ s.count '_' < s'.count '_'

theorem Rewrites.cons {s' : Text} (h : Rewrites py quote escaped s s') (c : Char) :
    Rewrites py quote (reprChar py quote c ++ escaped) (c :: s) (c :: s') where
  body := by rw [h.body, reprBody, reprBody, List.flatMap_cons]
  quotes x hx := by rw [List.mem_cons, List.mem_cons, h.quotes x hx]
  changed := by
    obtain rfl | hmore := h.changed
    · exact .inl rfl
    · rw [List.count_cons, List.count_cons]
      exact .inr (Nat.add_lt_add_right hmore _)

theorem Rewrites.matched {s' tail matched : Text} (h : Rewrites py quote escaped s s')
    (hmatch : Matched py quote tail matched) (c : Char) :
    Rewrites py quote (reprChar py quote c ++ (tail ++ "_=".toList ++ escaped)) (c :: (matched ++ s))
      (c :: (tail ++ "_=".toList ++ s')) where
  body := by
    have hwritten : reprBody py quote (tail ++ "_=".toList) = tail ++ "_=".toList :=
      reprBody_eq_self fun d hd ↦ hmatch.written d (List.mem_append_left _ hd)
    calc
      _ = reprChar py quote c ++ (reprBody py quote (tail ++ "_=".toList) ++ reprBody py quote s') := by
        rw [h.body, hwritten]
      _ = reprChar py quote c ++ reprBody py quote (tail ++ "_=".toList ++ s') :=
        congrArg _ List.flatMap_append.symm
      _ = _ := List.flatMap_cons.symm
  quotes x hx := by
    have hquotes : ∀ x, x = '\'' ∨ x = '"' → x ∈ ['\'', '"', '_'] ∧ x ∉ "_=".toList := by
      intro x hx
      obtain rfl | rfl := hx <;> decide
    obtain ⟨hlist, hnew⟩ := hquotes x hx
    have hnone := hmatch.notMem x hlist
    rw [List.mem_append, not_or] at hnone
    simp only [List.mem_cons, List.mem_append, hnone.1, hnone.2, hnew, h.quotes x hx, false_or]
  changed := by
    have hnone := hmatch.notMem '_' (by simp)
    rw [List.mem_append, not_or] at hnone
    have hle : s.count '_' ≤ s'.count '_' := by
      obtain rfl | hmore := h.changed
      · exact Nat.le_refl _
      · exact Nat.le_of_lt hmore
    have htwo : "_=".toList.count '_' = 1 := by decide
    right
    rw [List.count_cons, List.count_cons, List.count_append, List.count_append, List.count_append,
      List.count_eq_zero_of_not_mem hnone.1, List.count_eq_zero_of_not_mem hnone.2, htwo]
    omega

theorem escapeFrom_reprBody (hquote : quote = '\'' ∨ quote = '"') {inWord : Bool} {skip : ℕ} (hskip : skip ≤ s.length)
    (hself : ∀ c ∈ s.take skip, reprChar py quote c = [c]) :
    Rewrites py quote (escapeFrom py.toCharTable inWord skip (reprBody py quote s)) (s.drop skip)
      (rewriteString py quote inWord skip s) := by
  induction s generalizing inWord skip with
  | nil =>
    rw [rewriteString, List.drop_nil]
    exact ⟨by cases skip <;> rfl, fun _ _ ↦ Iff.rfl, .inl rfl⟩
  | cons c t ih =>
    cases skip with
    | succ skip =>
      rw [List.take_succ_cons, List.forall_mem_cons] at hself
      rw [reprBody, List.flatMap_cons, hself.1]
      exact ih (Nat.le_of_succ_le_succ hskip) hself.2
    | zero =>
      have hnone (inWord : Bool) : Rewrites py quote
          (reprChar py quote c ++ escapeFrom py.toCharTable inWord 0 (reprBody py quote t)) (c :: t)
          (c :: rewriteString py quote inWord 0 t) := (ih (Nat.zero_le _) (by simp)).cons c
      have hsome {tail matched rest : Text} (ht : t = matched ++ rest) (hmatch : Matched py quote tail matched) :
          Rewrites py quote (reprChar py quote c ++ (tail ++ "_=".toList ++
              escapeFrom py.toCharTable false matched.length (reprBody py quote t))) (c :: t)
            (c :: (tail ++ "_=".toList ++ rewriteString py quote false matched.length t)) := by
        have htake : t.take matched.length = matched := by rw [ht, List.take_left]
        have hdrop : t = matched ++ t.drop matched.length := by rw [ht, List.drop_left]
        have hrest : Rewrites py quote (escapeFrom py.toCharTable false matched.length (reprBody py quote t))
            (t.drop matched.length) (rewriteString py quote false matched.length t) :=
          ih (by rw [ht, List.length_append]; exact Nat.le_add_right _ _)
            (fun d hd ↦ hmatch.written d (List.mem_append_right _ (htake ▸ hd)))
        have hmatched := hrest.matched hmatch c
        rwa [← hdrop] at hmatched
      have hbody : reprBody py quote (c :: t) = reprChar py quote c ++ reprBody py quote t := List.flatMap_cons
      rw [hbody, rewriteString, List.drop_zero]
      obtain hplain | ⟨rfl, hreturn⟩ | ⟨mark, digits, hmark, hkind⟩ := PyValue.reprChar_eq py quote c
      · rw [if_pos hplain]
        rw [hplain] at hnone hsome ⊢
        rw [List.singleton_append, escapeFrom]
        cases hmatch : (if inWord then none else reservedAt py.toCharTable (c :: reprBody py quote t)) with
        | none => exact hnone _
        | some found =>
          obtain ⟨word, skip⟩ := found
          split at hmatch
          · cases hmatch
          · obtain ⟨tail, matched, rest, rfl, ht, rfl, hmatched⟩ := exists_of_match hquote hmatch
            exact hsome ht hmatched
      · rw [if_neg (by rw [hreturn]; simp), if_pos rfl]
        rw [hreturn] at hnone hsome ⊢
        have hbackslash (u : Text) : (if inWord then none else reservedAt py.toCharTable (backslash :: u)) = none := by
          split
          · rfl
          · exact reservedAt_eq_none (by decide) u
        rw [List.cons_append, List.singleton_append, escapeFrom, hbackslash, isWord_backslash]
        dsimp only
        rw [escapeFrom, if_neg Bool.false_ne_true]
        cases hmatch : reservedAt py.toCharTable ('r' :: reprBody py quote t) with
        | none => exact hnone _
        | some found =>
          obtain ⟨word, skip⟩ := found
          obtain ⟨tail, matched, rest, rfl, ht, rfl, hmatched⟩ := exists_of_match hquote hmatch
          exact hsome ht hmatched
      · have hreturn : c ≠ '\r' := by
          rintro rfl
          have hwritten : reprChar py quote '\r' = [backslash, 'r'] := by
            obtain rfl | rfl := hquote <;> rfl
          rw [hwritten] at hmark
          cases hmark
          obtain rfl | rfl := hquote <;> simp [backslash] at hkind
        rw [if_neg (by rw [hmark]; simp), if_neg hreturn]
        rw [hmark] at hnone ⊢
        rw [escapeFrom_escaped (c := c)]
        · exact hnone _
        · obtain ⟨hkind, -⟩ | ⟨hkind, -⟩ := hkind
          · exact notMem_firstLetters_of_mem_quoted hquote hkind
          · exact notMem_firstLetters_of_mem_code hkind
        · obtain ⟨-, hdigits⟩ | ⟨hkind, hdigits⟩ := hkind
          · exact .inl hdigits
          · have hmarks : ∀ mark ∈ ['x', 'u', 'U'], mark.isAlphanum = true := List.all_eq_true.1 (by decide)
            exact .inr ⟨isWord_of_isAlphanum (hmarks mark hkind),
              fun digit hdigit ↦ isWord_of_isAlphanum (hdigits digit hdigit)⟩

variable (py)

/-- The string whose literal stands where that of a string stood. -/
def escapedString (s : Text) : Text := rewriteString py (reprQuote s) false 0 s

theorem reprQuote_cases (s : Text) : reprQuote s = '\'' ∨ reprQuote s = '"' := by
  unfold reprQuote
  split
  · exact .inr rfl
  · exact .inl rfl

theorem rewrites_escapedString (s : Text) :
    Rewrites py (reprQuote s) (escapeReservedKeywords py.toCharTable (reprBody py (reprQuote s) s)) s
      (escapedString py s) :=
  escapeFrom_reprBody (reprQuote_cases s) (Nat.zero_le _) (by simp)

theorem reprQuote_escapedString (s : Text) : reprQuote (escapedString py s) = reprQuote s := by
  have hquotes := (rewrites_escapedString py s).quotes
  rw [reprQuote]
  simp only [hquotes '\'' (.inl rfl), hquotes '"' (.inr rfl)]
  rfl

theorem separates {c : Char} (hc : c ∈ ['\'', '"', '[', ']', '(', ')', openBrace, closeBrace, ',', ':']) :
    Separates py.toCharTable c := by
  have hascii : ∀ c ∈ ['\'', '"', '[', ']', '(', ')', openBrace, closeBrace, ',', ':'], c.toNat < 128 ∧
      (c.isAlphanum || c == '_') = false ∧ ¬ (9 ≤ c.toNat ∧ c.toNat ≤ 13 ∨ 28 ≤ c.toNat ∧ c.toNat ≤ 32) ∧ c ≠ '=' :=
    forall_mem_of_all (by decide)
  obtain ⟨hsmall, hclass, hspace, hequals⟩ := hascii c hc
  exact ⟨by rw [CharTable.isWord, py.ascii_isalnum c hsmall, hclass],
    by rw [py.ascii_isspace c hsmall, decide_eq_false hspace], hequals⟩

/-- The literal of a string becomes the literal of another. -/
theorem escape_reprStr (s : Text) :
    escapeReservedKeywords py.toCharTable (reprStr py s) = reprStr py (escapedString py s) := by
  have hquote : Separates py.toCharTable (reprQuote s) := by
    refine separates py ?_
    obtain heq | heq := reprQuote_cases s <;> rw [heq] <;> simp
  rw [PyValue.reprStr, escape_cons hquote, escape_append hquote, PyValue.reprStr, reprQuote_escapedString,
    (rewrites_escapedString py s).body]
  rfl

/-- A string stays what it is exactly when its literal does. -/
theorem escapedString_eq_self_iff :
    escapedString py s = s ↔ escapeReservedKeywords py.toCharTable (reprStr py s) = reprStr py s := by
  rw [escape_reprStr]
  refine ⟨fun heq ↦ by rw [heq], fun heq ↦ ?_⟩
  obtain hsame | hmore := (rewrites_escapedString py s).changed
  · exact hsame
  · have hcount := congrArg (List.count '_') heq
    rw [PyValue.count_reprStr, PyValue.count_reprStr] at hcount
    omega

end Strings

/-! ## Values -/

section Values

open PyValue

variable (py : PyTable)

theorem escape_space (t : Text) :
    escapeReservedKeywords py.toCharTable (' ' :: t) = ' ' :: escapeReservedKeywords py.toCharTable t := by
  have hspace : py.isWord ' ' = false := by
    rw [CharTable.isWord, py.ascii_isalnum ' ' (by decide)]
    decide
  unfold escapeReservedKeywords
  rw [escapeFrom, if_neg Bool.false_ne_true, reservedAt_eq_none (by decide), hspace]

theorem escape_joined (ts : List Text) : escapeReservedKeywords py.toCharTable (joined ts) =
    joined (ts.map (escapeReservedKeywords py.toCharTable)) := by
  have hcomma : Separates py.toCharTable ',' := separates py (by simp)
  induction ts with
  | nil => rfl
  | cons t ts ih =>
    cases ts with
    | nil => rw [joined, List.intercalate_singleton, List.map_singleton, joined, List.intercalate_singleton]
    | cons u ts =>
      have hjoin (t u : Text) (ts : List Text) : joined (t :: u :: ts) = t ++ ',' :: ' ' :: joined (u :: ts) := by
        rw [joined, List.intercalate_cons_cons, List.append_assoc]
        rfl
      rw [hjoin, escape_append hcomma, escape_space, ih, List.map_cons, List.map_cons, List.map_cons, hjoin]

theorem escape_bracketed {opening closing : Char} (hopen : Separates py.toCharTable opening)
    (hclose : Separates py.toCharTable closing) (t : Text) :
    escapeReservedKeywords py.toCharTable (opening :: (t ++ [closing])) =
      opening :: (escapeReservedKeywords py.toCharTable t ++ [closing]) := by
  rw [escape_cons hopen, escape_append hclose]
  rfl

theorem notMem_dumpsInt (value : ℤ) : '=' ∉ PyJson.dumpsInt value := by
  have hdigits (n : ℕ) : '=' ∉ Nat.toDigits 10 n := by
    intro hmem
    have hdigit : '='.isDigit = true := Nat.isDigit_of_mem_toDigits (by decide) (by decide) hmem
    cases hdigit
  cases value with
  | ofNat n => exact hdigits n
  | negSucc n =>
    rw [PyJson.dumpsInt, List.mem_cons, not_or]
    exact ⟨by decide, hdigits (n + 1)⟩

/-- What a value is written as becomes what the value with other strings is written as. -/
theorem escape_repr (reprForeign : ℕ → Text) {v : PyValue} (hv : v.Plain) :
    escapeReservedKeywords py.toCharTable (PyValue.repr py reprForeign v) =
      PyValue.repr py reprForeign (v.mapStrings (escapedString py)) := by
  have hitems {items : List PyValue} (hplain : ∀ item ∈ items, item.Plain)
      (ih : ∀ item ∈ items, item.Plain → escapeReservedKeywords py.toCharTable (PyValue.repr py reprForeign item) =
        PyValue.repr py reprForeign (item.mapStrings (escapedString py))) :
      escapeReservedKeywords py.toCharTable (joined (reprItems py reprForeign items)) =
        joined (reprItems py reprForeign (mapStringsOfItems (escapedString py) items)) := by
    rw [escape_joined, reprItems_eq_map, reprItems_eq_map, mapStringsOfItems_eq_map, List.map_map, List.map_map]
    exact congrArg joined (List.map_congr_left fun item hitem ↦ ih item hitem (hplain item hitem))
  induction v using PyValue.ind with
  | hnone => exact escapeFrom_of_notMem (by simp [PyValue.repr]) false
  | hbool value => cases value <;> exact escapeFrom_of_notMem (by simp [PyValue.repr]) false
  | hint value => exact escapeFrom_of_notMem (notMem_dumpsInt value) false
  | hstr text => exact escape_reprStr py text
  | hlist items ih =>
    rw [PyValue.repr, mapStrings, PyValue.repr,
      escape_bracketed py (separates py (by simp)) (separates py (by simp)), hitems (plainItems_iff.1 hv) ih]
  | htuple items ih =>
    have hlength : (mapStringsOfItems (escapedString py) items).length = items.length := by
      rw [mapStringsOfItems_eq_map, List.length_map]
    rw [PyValue.repr, mapStrings, PyValue.repr,
      escape_bracketed py (separates py (by simp)) (separates py (by simp)), hlength]
    split
    · rw [escape_append (separates py (by simp)), hitems (plainItems_iff.1 hv) ih]
      rfl
    · rw [List.append_nil, List.append_nil, hitems (plainItems_iff.1 hv) ih]
  | hdict members ih =>
    rw [PyValue.repr, mapStrings, PyValue.repr,
      escape_bracketed py (separates py (by simp)) (separates py (by simp)), escape_joined, reprMembers_eq_map,
      reprMembers_eq_map, mapStringsOfMembers_eq_map, List.map_map, List.map_map]
    refine congrArg (fun ts ↦ openBrace :: (joined ts ++ [closeBrace])) (List.map_congr_left fun member hmember ↦ ?_)
    rw [Function.comp_apply, escape_append (separates py (by simp)), escape_space, escape_reprStr,
      ih member hmember (plainMembers_iff.1 hv.2 member hmember), Function.comp_apply]
  | hforeign id => exact False.elim hv

end Values

end Lionagi.Lndl
