import Lionagi.Library.PyText

/-!
# The LNDL lexer

A single pass over the text. Quotes open string literals only inside an `OUT{` block, and any `OUT{`
that starts a token turns that mode on until the next closing brace, wherever it stands.
-/

namespace Lionagi.Lndl

inductive TokenType where
  | lvarOpen
  | lvarClose
  | lactOpen
  | lactClose
  | outOpen
  | outClose
  | id
  | num
  | str
  | dot
  | comma
  | colon
  | lbracket
  | rbracket
  | lparen
  | rparen
  | gt
  | newline
  | eof
  deriving DecidableEq, Repr

structure Token where
  type : TokenType
  value : Text
  line : ℕ
  column : ℕ
  deriving DecidableEq, Repr

/-- The text from the position on, and the line and column there. -/
@[ext]
structure Lexer where
  rest : Text
  line : ℕ
  column : ℕ
  deriving DecidableEq, Repr

namespace Lexer

def ofText (text : Text) : Lexer := ⟨text, 1, 1⟩

variable (s : Lexer)

def advance : Lexer :=
  match s.rest with
  | [] => ⟨[], s.line, s.column + 1⟩
  | char :: rest => if char = '\n' then ⟨rest, s.line + 1, 0⟩ else ⟨rest, s.line, s.column + 1⟩

/-- Advance over a number of characters. -/
def advances (n : ℕ) : Lexer := advance^[n] s

/-- Skip a marker, in which there is no newline. -/
def jump (n : ℕ) : Lexer := ⟨s.rest.drop n, s.line, s.column + n⟩

def token (type : TokenType) (value : Text) : Token := ⟨type, value, s.line, s.column⟩

end Lexer

/-! ## Reading one token -/

section Read

variable (py : CharTable)

def skipWhitespace (rest : Text) : Text := rest.takeWhile (· ∈ [' ', '\t', '\r'])

def readIdentifier (rest : Text) : Text := rest.takeWhile py.isWord

/-- An exponent is consumed only when it is valid. -/
def readExponent : Text → Text
  | e :: sign :: rest =>
    if e ∈ ['e', 'E'] then
      if sign ∈ ['+', '-'] then
        if (rest.head?.any py.isdigit) then e :: sign :: rest.takeWhile py.isdigit else []
      else if py.isdigit sign then e :: (sign :: rest).takeWhile py.isdigit
      else []
    else []
  | _ => []

def readNumber (rest : Text) : Text :=
  let digits := rest.takeWhile fun c ↦ py.isdigit c || c == '.'
  digits ++ readExponent py (rest.drop digits.length)

def unescape (c : Char) : Char :=
  if c = 'n' then '\n' else if c = 't' then '\t' else if c = 'r' then '\r' else c

/-- The value of a string from behind its opening quote on, or from behind a backslash in it, and how
many characters it takes. -/
def readString (quote : Char) : Bool → Text → Text × ℕ
  | _, [] => ([], 0)
  | true, escape :: rest =>
    (unescape escape :: (readString quote false rest).1, (readString quote false rest).2 + 1)
  | false, c :: rest =>
    if c = quote then ([], 1)
    else if c = '\\' then ((readString quote true rest).1, (readString quote true rest).2 + 1)
    else (c :: (readString quote false rest).1, (readString quote false rest).2 + 1)

/-- The markers that start with `<`. -/
def tagAt (rest : Text) : Option (TokenType × Text) :=
  if "</lvar>".toList.isPrefixOf rest then some (.lvarClose, "</lvar>".toList)
  else if "</lact>".toList.isPrefixOf rest then some (.lactClose, "</lact>".toList)
  else if "<lvar".toList.isPrefixOf rest then some (.lvarOpen, "<lvar".toList)
  else if "<lact".toList.isPrefixOf rest then some (.lactOpen, "<lact".toList)
  else none

def punctuation (c : Char) : Option TokenType :=
  if c = '.' then some .dot
  else if c = ',' then some .comma
  else if c = ':' then some .colon
  else if c = '[' then some .lbracket
  else if c = ']' then some .rbracket
  else if c = '(' then some .lparen
  else if c = ')' then some .rparen
  else if c = '}' then some .outClose
  else if c = '>' then some .gt
  else none

/-- One turn of the loop of `tokenize` at a character: the token it appends, the mode and the position
behind it. -/
def scan (inOutBlock : Bool) (s : Lexer) (char : Char) (rest : Text) : Option Token × Bool × Lexer :=
  if char ∈ [' ', '\t', '\r'] then (none, inOutBlock, s.advances (skipWhitespace s.rest).length)
  else if char = '\n' then (some (s.token .newline [char]), inOutBlock, s.advance)
  else if char = '<' then
    match tagAt s.rest with
    | some (type, value) => (some (s.token type value), inOutBlock, s.jump value.length)
    | none => (none, inOutBlock, s.advance)
  else if "OUT\x7b".toList.isPrefixOf s.rest then (some (s.token .outOpen "OUT\x7b".toList), true, s.jump 4)
  else if py.isalpha char ∨ char = '_' then
    (some (s.token .id (readIdentifier py s.rest)), inOutBlock,
      s.advances (readIdentifier py s.rest).length)
  else if char = '-' ∧ inOutBlock ∧ rest.head?.any py.isdigit then
    (some (s.token .num ('-' :: readNumber py rest)), inOutBlock,
      s.advances ((readNumber py rest).length + 1))
  else if py.isdigit char then
    (some (s.token .num (readNumber py s.rest)), inOutBlock, s.advances (readNumber py s.rest).length)
  else if char ∈ ['"', '\''] ∧ inOutBlock then
    (some (s.token .str (readString char false rest).1), inOutBlock,
      s.advances ((readString char false rest).2 + 1))
  else (punctuation char |>.map fun type ↦ s.token type [char], inOutBlock && char != '}', s.advance)

/-- The loop of `tokenize`; every turn takes at least one character. -/
def tokenizeLoop : ℕ → Bool → Lexer → List Token × Bool × Lexer
  | 0, inOutBlock, s => ([], inOutBlock, s)
  | fuel + 1, inOutBlock, s =>
    match s.rest with
    | [] => ([], inOutBlock, s)
    | char :: rest =>
      let turn := scan py inOutBlock s char rest
      let more := tokenizeLoop fuel turn.2.1 turn.2.2
      (turn.1.toList ++ more.1, more.2)

/-- The tokens before the end of the text, and the token that marks the end. -/
structure Tokens where
  before : List Token
  eof : Token
  deriving DecidableEq, Repr

def tokenize (text : Text) : Tokens :=
  let loop := tokenizeLoop py text.length false (.ofText text)
  ⟨loop.1, loop.2.2.token .eof []⟩

end Read

/-! ## Progress -/

section Progress

variable {s : Lexer} {n : ℕ}

theorem Lexer.rest_advance (s : Lexer) : s.advance.rest = s.rest.drop 1 := by
  unfold Lexer.advance
  split
  · next h => rw [h, List.drop_nil]
  · next h =>
    rw [h, List.drop_one, List.tail_cons]
    split <;> rfl

@[simp] theorem Lexer.rest_advances (s : Lexer) (n : ℕ) : (s.advances n).rest = s.rest.drop n := by
  induction n with
  | zero => rfl
  | succ n ih =>
    rw [Lexer.advances, Function.iterate_succ_apply', Lexer.rest_advance]
    change (s.advances n).rest.drop 1 = _
    rw [ih, List.drop_drop]

variable (py : CharTable)
variable {char : Char} {rest : Text}

theorem readIdentifier_pos (h : py.isWord char = true) : 0 < (readIdentifier py (char :: rest)).length := by
  rw [readIdentifier, List.takeWhile_cons_of_pos h]
  exact Nat.succ_pos _

theorem readNumber_pos (h : py.isdigit char = true) : 0 < (readNumber py (char :: rest)).length := by
  rw [readNumber, List.takeWhile_cons_of_pos (by rw [h, Bool.true_or])]
  exact Nat.succ_pos _

theorem tagAt_pos {value : Text} {type : TokenType} (h : tagAt rest = some (type, value)) : 0 < value.length := by
  unfold tagAt at h
  split_ifs at h <;> cases h <;> decide

theorem isWord_of_isalpha (h : py.isalpha char = true ∨ char = '_') : py.isWord char = true := by
  obtain halpha | rfl := h
  · rw [CharTable.isWord, py.isalnum_of_isalpha char halpha, Bool.true_or]
  · rw [CharTable.isWord, beq_self_eq_true, Bool.or_true]

variable (inOutBlock : Bool)

/-- A turn of the loop takes some characters and leaves the others. -/
theorem rest_scan (hrest : s.rest = char :: rest) :
    ∃ n, 0 < n ∧ (scan py inOutBlock s char rest).2.2.rest = s.rest.drop n := by
  unfold scan
  split_ifs with hblank hnewline hopen hout halpha hminus hdigit hquote
  · refine ⟨_, ?_, s.rest_advances _⟩
    rw [hrest, skipWhitespace, List.takeWhile_cons_of_pos (by simpa using hblank)]
    exact Nat.succ_pos _
  · exact ⟨1, Nat.one_pos, s.rest_advance⟩
  · split
    · next type value htag => exact ⟨value.length, tagAt_pos htag, rfl⟩
    · exact ⟨1, Nat.one_pos, s.rest_advance⟩
  · exact ⟨4, by decide, rfl⟩
  · exact ⟨_, hrest ▸ readIdentifier_pos py (isWord_of_isalpha py halpha), s.rest_advances _⟩
  · exact ⟨_, Nat.succ_pos _, s.rest_advances _⟩
  · exact ⟨_, hrest ▸ readNumber_pos py hdigit, s.rest_advances _⟩
  · exact ⟨_, Nat.succ_pos _, s.rest_advances _⟩
  · exact ⟨1, Nat.one_pos, s.rest_advance⟩

theorem length_scan_lt (hrest : s.rest = char :: rest) :
    (scan py inOutBlock s char rest).2.2.rest.length < s.rest.length := by
  obtain ⟨n, hn, hdrop⟩ := rest_scan py inOutBlock hrest
  rw [hdrop, List.length_drop, hrest, List.length_cons]
  omega

/-- The length of the text is fuel enough. -/
theorem tokenizeLoop_fuel {fuel fuel' : ℕ} {inOutBlock : Bool} (h : s.rest.length ≤ fuel)
    (h' : s.rest.length ≤ fuel') :
    tokenizeLoop py fuel inOutBlock s = tokenizeLoop py fuel' inOutBlock s := by
  induction fuel generalizing fuel' inOutBlock s with
  | zero =>
    have hrest : s.rest = [] := List.eq_nil_of_length_eq_zero (Nat.le_zero.1 h)
    cases fuel' with
    | zero => rfl
    | succ fuel' => rw [tokenizeLoop, tokenizeLoop, hrest]
  | succ fuel ih =>
    cases hrest : s.rest with
    | nil =>
      cases fuel' with
      | zero => rw [tokenizeLoop, tokenizeLoop, hrest]
      | succ fuel' => rw [tokenizeLoop, tokenizeLoop, hrest]
    | cons char rest =>
      rw [hrest, List.length_cons] at h'
      cases fuel' with
      | zero => exact absurd h' (Nat.not_succ_le_zero _)
      | succ fuel' =>
        have hlt := length_scan_lt py inOutBlock hrest
        rw [hrest, List.length_cons] at h hlt
        rw [tokenizeLoop, tokenizeLoop, hrest]
        simp only
        rw [ih (by omega) (by omega : _ ≤ fuel')]

end Progress

end Lionagi.Lndl
