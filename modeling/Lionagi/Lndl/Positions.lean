import Lionagi.Lndl.Lexer

/-!
# Positions of tokens

The line and the column of a token against the text before its first character. Lines are counted right. Columns
start at one on the first line and, as a newline sets the counter to zero, at zero on every other.
-/

namespace Lionagi.Lndl

/-- The line of what follows a text. -/
def lineAt (before : Text) : ℕ := 1 + before.count '\n'

/-- The one-based offset within its line of what follows a text. -/
def columnAt (before : Text) : ℕ := 1 + (before.reverse.takeWhile (· ≠ '\n')).length

/-- A token stands at the start of a text: a string at its quote, any other token as its value. -/
def Spells (token : Token) (rest : Text) : Prop :=
  if token.type = .str then rest.head? = some '"' ∨ rest.head? = some '\'' else token.value <+: rest

section Positioned

variable (py : CharTable)

/-- The tokens that the loop appends, each with the text before it. -/
def positioned : ℕ → Bool → Text → Lexer → List (Text × Token)
  | 0, _, _, _ => []
  | fuel + 1, inOutBlock, before, s =>
    match s.rest with
    | [] => []
    | char :: rest =>
      let turn := scan py inOutBlock s char rest
      let taken := s.rest.take (s.rest.length - turn.2.2.rest.length)
      turn.1.toList.map (before, ·) ++ positioned fuel turn.2.1 (before ++ taken) turn.2.2

def positions (text : Text) : List (Text × Token) := positioned py text.length false [] (.ofText text)

theorem map_snd_positioned (fuel : ℕ) (inOutBlock : Bool) (before : Text) (s : Lexer) :
    (positioned py fuel inOutBlock before s).map Prod.snd = (tokenizeLoop py fuel inOutBlock s).1 := by
  induction fuel generalizing inOutBlock before s with
  | zero => rfl
  | succ fuel ih =>
    cases hrest : s.rest with
    | nil => rw [positioned, tokenizeLoop, hrest, List.map_nil]
    | cons char rest =>
      rw [positioned, tokenizeLoop, hrest]
      simp only [List.map_append, List.map_map, ih]
      congr 1
      exact List.map_id _

/-! ## The counters -/

/-- The lexer stands behind the text: its line is right, and its column on the first line only. -/
structure Lexer.Behind (before : Text) (s : Lexer) : Prop where
  line : s.line = lineAt before
  column : s.column + (if '\n' ∈ before then 1 else 0) = columnAt before

variable {py} {before : Text} {s : Lexer}
variable {c : Char}

theorem columnAt_concat (hc : c ≠ '\n') : columnAt (before ++ [c]) = columnAt before + 1 := by
  unfold columnAt
  rw [List.reverse_append, List.reverse_singleton, List.singleton_append,
    List.takeWhile_cons_of_pos (by simpa using hc), List.length_cons]
  omega

theorem behind_ofText (text : Text) : (Lexer.ofText text).Behind [] := ⟨rfl, rfl⟩

variable {rest : Text}

/-- One character ahead. -/
theorem Lexer.Behind.advance (h : s.Behind before) (hrest : s.rest = c :: rest) : s.advance.Behind (before ++ [c]) := by
  unfold Lexer.advance
  rw [hrest]
  dsimp only
  split
  · next hnewline =>
    subst hnewline
    constructor
    · dsimp only
      rw [h.line, lineAt, lineAt, List.count_append, List.count_singleton_self]
      omega
    · have hmem : '\n' ∈ before ++ ['\n'] := List.mem_append_right _ List.mem_cons_self
      rw [if_pos hmem, columnAt, List.reverse_append, List.reverse_singleton, List.singleton_append,
        List.takeWhile_cons_of_neg (by simp)]
      rfl
  · next hother =>
    have hmem : '\n' ∈ before ++ [c] ↔ '\n' ∈ before := by
      rw [List.mem_append, List.mem_singleton]
      exact or_iff_left (Ne.symm hother)
    constructor
    · dsimp only
      rw [h.line, lineAt, lineAt, List.count_append, List.count_singleton, if_neg (by simpa using hother)]
      rfl
    · rw [columnAt_concat hother, ← h.column]
      simp only [hmem]
      omega

theorem Lexer.Behind.advances (h : s.Behind before) {n : ℕ} (hn : n ≤ s.rest.length) :
    (s.advances n).Behind (before ++ s.rest.take n) := by
  induction n with
  | zero =>
    rw [List.take_zero, List.append_nil]
    exact h
  | succ n ih =>
    have hsucc : s.advances (n + 1) = (s.advances n).advance := Function.iterate_succ_apply' Lexer.advance n s
    have hrest : (s.advances n).rest = s.rest[n] :: s.rest.drop (n + 1) := by
      rw [Lexer.rest_advances, List.drop_eq_getElem_cons hn]
    rw [hsucc, List.take_succ_eq_append_getElem hn, ← List.append_assoc]
    exact (ih (Nat.le_of_succ_le hn)).advance hrest

/-- A marker without a newline ahead. -/
theorem Lexer.Behind.jump (h : s.Behind before) {mark : Text} (hnewline : '\n' ∉ mark) :
    (s.jump mark.length).Behind (before ++ mark) := by
  have hbehind : ∀ (mark : Text), '\n' ∉ mark → lineAt (before ++ mark) = lineAt before ∧
      columnAt (before ++ mark) = columnAt before + mark.length := by
    intro mark
    induction mark using List.reverseRecOn with
    | nil => simp
    | append_singleton mark c ih =>
      intro hnewline
      rw [List.mem_append, List.mem_singleton, not_or] at hnewline
      obtain ⟨hline, hcolumn⟩ := ih hnewline.1
      rw [← List.append_assoc, columnAt_concat (Ne.symm hnewline.2), hcolumn, List.length_append,
        List.length_singleton]
      refine ⟨?_, by omega⟩
      have hcount : (before ++ mark ++ [c]).count '\n' = (before ++ mark).count '\n' := by
        rw [List.count_append, List.count_singleton, if_neg (by simpa using Ne.symm hnewline.2), Nat.add_zero]
      rw [← hline, lineAt, lineAt, hcount]
  obtain ⟨hline, hcolumn⟩ := hbehind mark hnewline
  have hmem : '\n' ∈ before ++ mark ↔ '\n' ∈ before := by
    rw [List.mem_append]
    exact or_iff_left hnewline
  constructor
  · exact h.line.trans hline.symm
  · rw [hcolumn, ← h.column]
    simp only [hmem, Lexer.jump]
    omega

/-! ## One turn of the loop -/

theorem prefix_readExponent (py : CharTable) (rest : Text) : readExponent py rest <+: rest := by
  unfold readExponent
  split
  · next e sign rest =>
    have htake := fun t : Text ↦ List.takeWhile_prefix (p := py.isdigit) (l := t)
    split_ifs
    · exact List.cons_prefix_cons.2 ⟨rfl, List.cons_prefix_cons.2 ⟨rfl, htake rest⟩⟩
    · exact List.nil_prefix
    · exact List.cons_prefix_cons.2 ⟨rfl, htake (sign :: rest)⟩
    · exact List.nil_prefix
    · exact List.nil_prefix
  · exact List.nil_prefix

theorem prefix_readNumber (py : CharTable) (rest : Text) : readNumber py rest <+: rest := by
  have hdigits := List.prefix_iff_eq_append.1
    (List.takeWhile_prefix (p := fun c ↦ py.isdigit c || c == '.') (l := rest))
  obtain ⟨left, hleft⟩ := prefix_readExponent py
    (rest.drop (rest.takeWhile fun c ↦ py.isdigit c || c == '.').length)
  refine ⟨left, ?_⟩
  rw [readNumber, List.append_assoc, hleft]
  exact hdigits

/-- A tag stands at the start of the text, has no newline, and is no string. -/
theorem tagAt_spec {value : Text} {type : TokenType} (h : tagAt rest = some (type, value)) :
    value <+: rest ∧ '\n' ∉ value ∧ type ≠ .str := by
  unfold tagAt at h
  split_ifs at h with h₁ h₂ h₃ h₄
  all_goals
    cases h
    exact ⟨List.isPrefixOf_iff_prefix.1 ‹_›, by decide, by decide⟩

theorem punctuation_ne_str {type : TokenType} (h : punctuation c = some type) : type ≠ .str := by
  unfold punctuation at h
  split_ifs at h
  all_goals
    cases h
    decide

theorem readString_le (quote : Char) (escaped : Bool) (b : Text) :
    (readString quote escaped b).2 ≤ b.length := by
  induction b generalizing escaped with
  | nil => cases escaped <;> exact Nat.le_refl _
  | cons c b ih =>
    cases escaped with
    | true => exact Nat.succ_le_succ (ih false)
    | false =>
      rw [readString]
      split_ifs
      · exact Nat.succ_pos _
      · exact Nat.succ_le_succ (ih true)
      · exact Nat.succ_le_succ (ih false)

variable {inOutBlock : Bool}

/-- A turn goes on behind what it takes, and its token starts where the turn does. -/
theorem scan_behind (py : CharTable) {char : Char} (hrest : s.rest = char :: rest) (h : s.Behind before) :
    ∃ n ≤ s.rest.length, (scan py inOutBlock s char rest).2.2.rest = s.rest.drop n ∧
      (scan py inOutBlock s char rest).2.2.Behind (before ++ s.rest.take n) ∧
      ∀ token ∈ (scan py inOutBlock s char rest).1, token.line = s.line ∧ token.column = s.column ∧
        Spells token s.rest := by
  have hlength : s.rest.length = rest.length + 1 := by rw [hrest, List.length_cons]
  have hone : s.advance.rest = s.rest.drop 1 ∧ s.advance.Behind (before ++ s.rest.take 1) := by
    refine ⟨s.rest_advance, ?_⟩
    have htake : s.rest.take 1 = [char] := by rw [hrest]; rfl
    rw [htake]
    exact h.advance hrest
  have hmany (n : ℕ) (hn : n ≤ s.rest.length) :
      (s.advances n).rest = s.rest.drop n ∧ (s.advances n).Behind (before ++ s.rest.take n) :=
    ⟨s.rest_advances n, h.advances hn⟩
  have hmark {mark : Text} (hpre : mark <+: s.rest) (hnewline : '\n' ∉ mark) :
      (s.jump mark.length).rest = s.rest.drop mark.length ∧
        (s.jump mark.length).Behind (before ++ s.rest.take mark.length) := by
    refine ⟨rfl, ?_⟩
    rw [← List.prefix_iff_eq_take.1 hpre]
    exact h.jump hnewline
  have hspells {type : TokenType} {value : Text} (htype : type ≠ .str) (hvalue : value <+: s.rest) :
      ∀ token ∈ some (s.token type value), token.line = s.line ∧ token.column = s.column ∧ Spells token s.rest := by
    intro token htoken
    rw [Option.mem_some_iff] at htoken
    subst htoken
    have hsame : Spells (s.token type value) s.rest = (value <+: s.rest) := if_neg htype
    exact ⟨rfl, rfl, hsame ▸ hvalue⟩
  have hsilent : ∀ token ∈ (none : Option Token), token.line = s.line ∧ token.column = s.column ∧
      Spells token s.rest := fun token htoken ↦ by cases htoken
  have hchar : [char] <+: s.rest := by
    rw [hrest]
    exact List.cons_prefix_cons.2 ⟨rfl, List.nil_prefix⟩
  unfold scan
  split_ifs with hblank hnewline hopen hout halpha hminus hdigit hquote
  · have hpre : skipWhitespace s.rest <+: s.rest := List.takeWhile_prefix _
    obtain ⟨hnext, hbehind⟩ := hmany _ hpre.length_le
    exact ⟨_, hpre.length_le, hnext, hbehind, hsilent⟩
  · exact ⟨1, by omega, hone.1, hone.2, hspells (by decide) hchar⟩
  · split
    · next type value htag =>
      obtain ⟨hpre, hclean, htype⟩ := tagAt_spec htag
      obtain ⟨hnext, hbehind⟩ := hmark hpre hclean
      exact ⟨value.length, hpre.length_le, hnext, hbehind, hspells htype hpre⟩
    · exact ⟨1, by omega, hone.1, hone.2, hsilent⟩
  · have hpre := List.isPrefixOf_iff_prefix.1 hout
    obtain ⟨hnext, hbehind⟩ := hmark hpre (by decide)
    exact ⟨4, hpre.length_le, hnext, hbehind, hspells (by decide) hpre⟩
  · have hpre : readIdentifier py s.rest <+: s.rest := List.takeWhile_prefix _
    obtain ⟨hnext, hbehind⟩ := hmany _ hpre.length_le
    exact ⟨_, hpre.length_le, hnext, hbehind, hspells (by decide) hpre⟩
  · have hpre : '-' :: readNumber py rest <+: s.rest := by
      rw [hrest, hminus.1]
      exact List.cons_prefix_cons.2 ⟨rfl, prefix_readNumber py rest⟩
    obtain ⟨hnext, hbehind⟩ := hmany _ hpre.length_le
    exact ⟨_, hpre.length_le, hnext, hbehind, hspells (by decide) hpre⟩
  · have hpre := prefix_readNumber py s.rest
    obtain ⟨hnext, hbehind⟩ := hmany _ hpre.length_le
    exact ⟨_, hpre.length_le, hnext, hbehind, hspells (by decide) hpre⟩
  · have hle : (readString char false rest).2 + 1 ≤ s.rest.length := by
      rw [hlength]
      exact Nat.succ_le_succ (readString_le char false rest)
    obtain ⟨hnext, hbehind⟩ := hmany _ hle
    refine ⟨_, hle, hnext, hbehind, fun token htoken ↦ ?_⟩
    rw [Option.mem_some_iff] at htoken
    subst htoken
    have hsame : Spells (s.token .str (readString char false rest).1) s.rest =
        (s.rest.head? = some '"' ∨ s.rest.head? = some '\'') := if_pos rfl
    refine ⟨rfl, rfl, hsame ▸ ?_⟩
    rw [hrest, List.head?_cons]
    simpa using hquote.1
  · refine ⟨1, by omega, hone.1, hone.2, fun token htoken ↦ ?_⟩
    obtain ⟨type, htype, rfl⟩ := Option.map_eq_some_iff.1 htoken
    exact hspells (punctuation_ne_str htype) hchar _ (Option.mem_some_self _)

/-- Each token of the loop is positioned by the text before it. -/
theorem positioned_spec (py : CharTable) {fuel : ℕ} (h : s.Behind before) {entry : Text × Token}
    (hentry : entry ∈ positioned py fuel inOutBlock before s) :
    ∃ rest, before ++ s.rest = entry.1 ++ rest ∧ Spells entry.2 rest ∧ entry.2.line = lineAt entry.1 ∧
      entry.2.column + (if '\n' ∈ entry.1 then 1 else 0) = columnAt entry.1 := by
  induction fuel generalizing inOutBlock before s with
  | zero => exact absurd hentry List.not_mem_nil
  | succ fuel ih =>
    cases hrest : s.rest with
    | nil =>
      rw [positioned, hrest] at hentry
      exact absurd hentry List.not_mem_nil
    | cons char rest =>
      obtain ⟨n, hn, hnext, hbehind, htoken⟩ := scan_behind py hrest h
      have htaken : s.rest.take (s.rest.length - (scan py inOutBlock s char rest).2.2.rest.length) =
          s.rest.take n := by
        rw [hnext, List.length_drop, Nat.sub_sub_self hn]
      rw [← hrest]
      rw [positioned, hrest] at hentry
      simp only [← hrest] at hentry
      rw [List.mem_append, htaken] at hentry
      obtain hnow | hlater := hentry
      · obtain ⟨token, hmem, rfl⟩ := List.mem_map.1 hnow
        obtain ⟨hline, hcolumn, hspells⟩ := htoken token (Option.mem_toList.1 hmem)
        refine ⟨s.rest, rfl, hspells, hline.trans h.line, ?_⟩
        dsimp only
        rw [hcolumn]
        exact h.column
      · obtain ⟨left, hsplit, hspec⟩ := ih hbehind hlater
        refine ⟨left, ?_, hspec⟩
        rw [← hsplit, hnext, List.append_assoc, List.take_append_drop]

end Positioned

/-- For every text and every token before the end, with the text before its first character: the line is right,
and the column is right if and only if the token is on the first line. -/
theorem column_eq_iff (py : CharTable) (text : Text) :
    (positions py text).map Prod.snd = (tokenize py text).before ∧
      ∀ entry ∈ positions py text, ∃ rest, text = entry.1 ++ rest ∧ Spells entry.2 rest ∧
        entry.2.line = lineAt entry.1 ∧ (entry.2.column = columnAt entry.1 ↔ '\n' ∉ entry.1) := by
  refine ⟨map_snd_positioned py _ _ _ _, fun entry hentry ↦ ?_⟩
  obtain ⟨rest, hsplit, hspells, hline, hcolumn⟩ := positioned_spec py (behind_ofText text) hentry
  refine ⟨rest, hsplit, hspells, hline, ?_⟩
  by_cases hnewline : '\n' ∈ entry.1
  · rw [if_pos hnewline] at hcolumn
    exact iff_of_false (by omega) (not_not.2 hnewline)
  · rw [if_neg hnewline] at hcolumn
    exact iff_of_true (by omega) hnewline

/-- The identifier on the second line starts its line, and has the column zero. -/
theorem not_column_eq : ¬ ∀ (py : CharTable) (text : Text), ∀ entry ∈ positions py text,
    entry.2.line = lineAt entry.1 ∧ entry.2.column = columnAt entry.1 := by
  intro h
  have hentry := h .ascii ['a', '\n', 'b'] (['a', '\n'], ⟨.id, ['b'], 2, 0⟩) (by decide)
  exact absurd hentry.2 (by decide)

end Lionagi.Lndl
