import Lionagi.Library.Checks
import Lionagi.Library.WhileLoop
import Lionagi.Lndl.Parser

/-!
# Totality of the LNDL front end

The loops of the lexer and the parser as loops that run until they break, given a number of rounds. With more
rounds than there are characters or tokens none of them is left unfinished: each round leaves the loop or takes
something. What is raised is a parse error, and the aliases of a program are distinct.
-/

namespace Lionagi.Lndl

open WhileLoop

/-! ## The loops in rounds -/

section Rounds

variable (py : CharTable) {Num : Type} (number : Text → Option Num) (sourceText : Text) (eof : Token) (rounds : ℕ)

/-- A round of `tokenize`: the tokens so far, the mode and the position. -/
def tokenizeRound (state : List Token × Bool × Lexer) : Except (Stop Empty) ((List Token × Bool × Lexer) ⊕ Tokens) :=
  match state.2.2.rest with
  | [] => .ok (.inr ⟨state.1, state.2.2.token .eof []⟩)
  | char :: rest =>
    let turn := scan py state.2.1 state.2.2 char rest
    .ok (.inl (state.1 ++ turn.1.toList, turn.2.1, turn.2.2))

def tokenizeIn (text : Text) : Except (Stop Empty) Tokens :=
  run .unfinished (tokenizeRound py) rounds ([], false, .ofText text)

/-- A round of `_parse_out_list`: the items so far and the tokens left. A nested list is parsed by `list`. -/
def outItemsRound (list : List Token → Except (Stop ParseError) (List (OutValue Num) × List Token))
    (state : List (OutValue Num) × List Token) :
    Except (Stop ParseError) ((List (OutValue Num) × List Token) ⊕ (List (OutValue Num) × List Token)) := do
  let ts := skipNewlines state.2
  if currentType ts = .rbracket ∨ currentType ts = .eof then .ok (.inr (state.1, ts))
  else if currentType ts = .lbracket then
    let nested ← list ts
    .ok (.inl (state.1 ++ [.list nested.1], skipComma (skipNewlines nested.2)))
  else if currentType ts = .id then
    let name := dotted (currentToken eof ts).value ts.tail
    .ok (.inl (state.1 ++ [.str name.1], skipComma (skipNewlines name.2)))
  else if currentType ts = .str then
    .ok (.inl (state.1 ++ [.str (currentToken eof ts).value], skipComma (skipNewlines ts.tail)))
  else if currentType ts = .num then
    let value ← statement (coerceNumToken number (currentToken eof ts))
    .ok (.inl (state.1 ++ [.num value], skipComma (skipNewlines ts.tail)))
  else .ok (.inl (state.1, skipComma (skipNewlines ts.tail)))

/-- `_parse_out_list` with so many levels left. -/
def parseOutListIn : ℕ → List Token → Except (Stop ParseError) (List (OutValue Num) × List Token)
  | 0, ts => statement (.error (.nestingTooDeep (currentToken eof ts)))
  | levels + 1, ts => do
    let opened ← statement (expect eof .lbracket ts)
    let parsed ← run .unfinished (outItemsRound number eof (parseOutListIn levels)) rounds ([], skipNewlines opened.2)
    .ok (parsed.1, if currentType parsed.2 = .rbracket then parsed.2.tail else parsed.2)

/-- The value behind a colon. -/
def outValueIn (ts : List Token) : Except (Stop ParseError) (Option (OutValue Num) × List Token) := do
  if currentType ts = .lbracket then
    let parsed ← parseOutListIn number eof rounds maxOutNestingDepth ts
    .ok (some (.list parsed.1), parsed.2)
  else statement (outValue eof number ts)

variable (lvars : List Lvar) (lacts : List Lact)

/-- A round of `parse_out_block`: the fields so far and the tokens left. -/
def outFieldsRound (state : OrderedDict Text (OutValue Num) × List Token) :
    Except (Stop ParseError) ((OrderedDict Text (OutValue Num) × List Token) ⊕ OrderedDict Text (OutValue Num)) := do
  let ts := skipNewlines state.2
  if currentType ts = .outClose ∨ currentType ts = .eof then .ok (.inr state.1)
  else if currentType ts = .lbracket then
    let group ← parseOutListIn number eof rounds maxOutNestingDepth ts
    let fields := match groupSpec lvars lacts group.1 with
      | some spec => appendGroup state.1 spec (.list group.1)
      | none => state.1
    .ok (.inl (fields, skipComma (skipNewlines group.2)))
  else if currentType ts = .id then
    let name := dotted (currentToken eof ts).value ts.tail
    let rest := skipNewlines name.2
    if currentType rest = .colon then
      let value ← outValueIn number eof rounds (skipNewlines rest.tail)
      let fields := match value.1 with
        | some value => state.1.set name.1 value
        | none => state.1
      .ok (.inl (fields, skipComma (skipNewlines value.2)))
    else
      .ok (.inl (appendTo state.1 (bareSpec lvars lacts name.1) (.str name.1), skipComma (skipNewlines rest)))
  else .ok (.inl (state.1, ts.tail))

def parseOutBlockIn (ts : List Token) : Except (Stop ParseError) (OrderedDict Text (OutValue Num)) := do
  let opened ← statement (expect eof .outOpen ts)
  run .unfinished (outFieldsRound number eof rounds lvars lacts) rounds (.empty, opened.2)

/-- What the loop of `parse` keeps. -/
structure Parsing where
  lvars : List Lvar
  lacts : List Lact
  aliases : List Text
  tokens : List Token

/-- A round of `parse`. -/
def parseRound (state : Parsing) : Except (Stop ParseError) (Parsing ⊕ Program Num) := do
  let ts := skipNewlines state.tokens
  if currentType ts = .eof then .ok (.inr ⟨state.lvars, state.lacts, none⟩)
  else if currentType ts = .lvarOpen then
    let lvar ← statement (parseLvar eof py sourceText ts)
    if lvar.1.aliasName ∈ state.aliases then
      statement (.error (.duplicateAlias lvar.1.aliasName (currentToken eof lvar.2)))
    else
      .ok (.inl ⟨state.lvars ++ [lvar.1], state.lacts, state.aliases ++ [lvar.1.aliasName], lvar.2⟩)
  else if currentType ts = .lactOpen then
    let lact ← statement (parseLact eof py sourceText ts)
    if lact.1.aliasName ∈ state.aliases then
      statement (.error (.duplicateAlias lact.1.aliasName (currentToken eof lact.2)))
    else
      .ok (.inl ⟨state.lvars, state.lacts ++ [lact.1], state.aliases ++ [lact.1.aliasName], lact.2⟩)
  else if currentType ts = .outOpen then
    let outBlock ← parseOutBlockIn number eof rounds state.lvars state.lacts ts
    .ok (.inr ⟨state.lvars, state.lacts, some outBlock⟩)
  else .ok (.inl ⟨state.lvars, state.lacts, state.aliases, ts.tail⟩)

/-- `parse` with so many rounds for each of its loops. -/
def parseIn (tokens : Tokens) : Except (Stop ParseError) (Program Num) :=
  run .unfinished (parseRound py number sourceText tokens.eof rounds) rounds ⟨[], [], [], tokens.before⟩

end Rounds

/-! ## The lexer -/

section Lexer

variable (py : CharTable)

/-- With more rounds than characters the loop of the lexer ends. -/
theorem tokenizeIn_eq (text : Text) {rounds : ℕ} (hrounds : text.length < rounds) :
    tokenizeIn py rounds text = .ok (tokenize py text) := by
  -- the tokens of the text are what the loop has and what it will append
  let I (state : List Token × Bool × Lexer) : Prop :=
    ∀ fuel, state.2.2.rest.length ≤ fuel → tokenize py text =
      ⟨state.1 ++ (tokenizeLoop py fuel state.2.1 state.2.2).1,
        (tokenizeLoop py fuel state.2.1 state.2.2).2.2.token .eof []⟩
  refine run_of_measure (Q := fun result ↦ result = .ok (tokenize py text)) (I := I)
    (fun state ↦ state.2.2.rest.length) (fun state e _ hround ↦ ?_) (fun state state' hstate hround ↦ ?_)
    (fun state tokens hstate hround ↦ ?_) (fun fuel hfuel ↦ ?_) hrounds
  · unfold tokenizeRound at hround
    split at hround <;> cases hround
  · unfold tokenizeRound at hround
    split at hround
    · cases hround
    · next char rest hrest =>
      cases hround
      have hlt := length_scan_lt py state.2.1 hrest
      refine ⟨fun fuel hfuel ↦ ?_, hlt⟩
      have hmore := hstate (fuel + state.2.2.rest.length + 1) (by omega)
      rw [tokenizeLoop, hrest] at hmore
      rw [hmore]
      dsimp only at hfuel ⊢
      have hlonger : (scan py state.2.1 state.2.2 char rest).2.2.rest.length ≤ fuel + (char :: rest).length :=
        Nat.le_add_right_of_le hfuel
      rw [List.append_assoc, tokenizeLoop_fuel py hlonger hfuel]
  · unfold tokenizeRound at hround
    split at hround
    · next hrest =>
      cases hround
      have hmore := hstate 0 (by rw [hrest]; exact Nat.le_refl 0)
      rw [hmore, tokenizeLoop, List.append_nil]
    · cases hround
  · have hlong : (Lexer.ofText text).rest.length ≤ text.length := Nat.le_refl text.length
    rw [tokenize, tokenizeLoop_fuel py hlong hfuel]
    rfl

theorem tagAt_type_ne_eof {rest value : Text} {type : TokenType} (h : tagAt rest = some (type, value)) :
    type ≠ .eof := by
  unfold tagAt at h
  split_ifs at h
  all_goals
    cases h
    decide

theorem punctuation_ne_eof {c : Char} {type : TokenType} (h : punctuation c = some type) : type ≠ .eof := by
  unfold punctuation at h
  split_ifs at h
  all_goals
    cases h
    decide

theorem scan_type_ne_eof {inOutBlock : Bool} {s : Lexer} {char : Char} {rest : Text} {token : Token}
    (h : (scan py inOutBlock s char rest).1 = some token) : token.type ≠ .eof := by
  have hof {type : TokenType} {value : Text} (htype : type ≠ .eof) (h : some (s.token type value) = some token) :
      token.type ≠ .eof := Option.some.inj h ▸ htype
  unfold scan at h
  split_ifs at h with hblank hnewline hopen hout halpha hminus hdigit hquote
  · exact hof (by decide) h
  · split at h
    · next type value htag => exact hof (tagAt_type_ne_eof htag) h
    · cases h
  · exact hof (by decide) h
  · exact hof (by decide) h
  · exact hof (by decide) h
  · exact hof (by decide) h
  · exact hof (by decide) h
  · obtain ⟨type, htype, htoken⟩ := Option.map_eq_some_iff.1 h
    exact htoken ▸ punctuation_ne_eof htype

/-- No token before the last marks the end. -/
theorem type_ne_eof_of_mem (fuel : ℕ) (inOutBlock : Bool) (s : Lexer) {token : Token}
    (h : token ∈ (tokenizeLoop py fuel inOutBlock s).1) : token.type ≠ .eof := by
  induction fuel generalizing inOutBlock s with
  | zero => exact absurd h List.not_mem_nil
  | succ fuel ih =>
    rw [tokenizeLoop] at h
    split at h
    · exact absurd h List.not_mem_nil
    · next char rest hrest =>
      obtain hnow | hlater := List.mem_append.1 h
      · exact scan_type_ne_eof py (Option.mem_toList.1 hnow)
      · exact ih _ _ hlater

/-- There are no more tokens than characters. -/
theorem length_tokenizeLoop_le (fuel : ℕ) (inOutBlock : Bool) (s : Lexer) :
    (tokenizeLoop py fuel inOutBlock s).1.length ≤ s.rest.length := by
  induction fuel generalizing inOutBlock s with
  | zero => exact Nat.zero_le _
  | succ fuel ih =>
    rw [tokenizeLoop]
    split
    · exact Nat.zero_le _
    · next char rest hrest =>
      have hlt := length_scan_lt py inOutBlock hrest
      have hmore := ih (scan py inOutBlock s char rest).2.1 (scan py inOutBlock s char rest).2.2
      have hone : (scan py inOutBlock s char rest).1.toList.length ≤ 1 := Option.length_toList_le
      dsimp only
      rw [List.length_append]
      omega

end Lexer

/-! ## Tokens left -/

section Left

variable (eof : Token) {ts : List Token}

theorem length_tail_lt (h : currentType ts ≠ .eof) : ts.tail.length < ts.length := by
  cases ts with
  | nil => exact absurd rfl h
  | cons t ts => exact Nat.lt_succ_self _

theorem length_skipNewlines_le (ts : List Token) : (skipNewlines ts).length ≤ ts.length := by
  induction ts with
  | nil => exact Nat.le_refl _
  | cons t ts ih =>
    rw [skipNewlines]
    split
    · exact Nat.le_succ_of_le ih
    · exact Nat.le_refl _

theorem length_skipComma_le (ts : List Token) : (skipComma ts).length ≤ ts.length := by
  unfold skipComma
  split
  · exact List.length_tail ▸ Nat.sub_le _ _
  · exact Nat.le_refl _

/-- Behind an item and its comma. -/
theorem length_behind_le (ts : List Token) : (skipComma (skipNewlines ts)).length ≤ ts.length :=
  (length_skipComma_le _).trans (length_skipNewlines_le ts)

theorem length_dotted_le (name : Text) (ts : List Token) : (dotted name ts).2.length ≤ ts.length := by
  induction name, ts using dotted.induct with
  | case1 name => exact Nat.le_refl _
  | case2 name t ht =>
    rw [dotted, if_pos ht]
    exact Nat.zero_le _
  | case3 name t ht => rw [dotted, if_neg ht]
  | case4 name t u ts ht hu ih =>
    rw [dotted, if_pos ht, if_pos hu]
    exact ih.trans (Nat.le_add_right _ 2)
  | case5 name t u ts ht hu =>
    rw [dotted, if_pos ht, if_neg hu]
    exact Nat.le_succ _
  | case6 name t u ts ht => rw [dotted, if_neg ht]

theorem length_lt_of_expect {type : TokenType} {opened : Token × List Token} (hopen : type ≠ .eof)
    (h : expect eof type ts = .ok opened) : opened.2.length < ts.length := by
  unfold expect at h
  split at h
  · next htype =>
    cases h
    exact length_tail_lt (htype.symm ▸ hopen)
  · cases h

variable {Num : Type} (number : Text → Option Num)
variable {parsed : List (OutValue Num) × List Token}

theorem length_lt_of_parseOutListWith {items : List Token → Except ParseError (List (OutValue Num) × List Token)}
    (hitems : ∀ ts parsed, items ts = .ok parsed → parsed.2.length ≤ ts.length) {depth : ℕ}
    (h : parseOutListWith eof items depth ts = .ok parsed) : parsed.2.length < ts.length := by
  unfold parseOutListWith at h
  split at h
  · cases h
  · obtain ⟨opened, hopened, h⟩ := Checks.bind_eq_ok_iff.1 h
    obtain ⟨found, hfound, h⟩ := Checks.bind_eq_ok_iff.1 h
    cases h
    have hless := length_lt_of_expect eof (by decide) hopened
    have hfewer := (hitems _ _ hfound).trans (length_skipNewlines_le _)
    have htail : found.2.tail.length ≤ found.2.length := List.length_tail ▸ Nat.sub_le _ _
    dsimp only
    split <;> omega

theorem length_le_of_outItems {fuel depth : ℕ} {items : List (OutValue Num)}
    (h : outItems eof number fuel depth items ts = .ok parsed) : parsed.2.length ≤ ts.length := by
  induction fuel generalizing depth items ts parsed with
  | zero =>
    cases h
    exact Nat.le_refl _
  | succ fuel ih =>
    rw [outItems] at h
    have hskip := length_skipNewlines_le ts
    have htail : (skipNewlines ts).tail.length ≤ (skipNewlines ts).length := List.length_tail ▸ Nat.sub_le _ _
    dsimp only at h
    split_ifs at h with hend hlist hid hstr hnum
    · cases h
      exact hskip
    · obtain ⟨nested, hnested, h⟩ := Checks.bind_eq_ok_iff.1 h
      have hless := length_lt_of_parseOutListWith eof (fun _ _ ↦ ih) hnested
      have hmore := (ih h).trans (length_behind_le _)
      omega
    · have hmore := (ih h).trans (length_behind_le _)
      have hdotted := length_dotted_le (currentToken eof (skipNewlines ts)).value (skipNewlines ts).tail
      omega
    · have hmore := (ih h).trans (length_behind_le _)
      omega
    · obtain ⟨value, _, h⟩ := Checks.bind_eq_ok_iff.1 h
      have hmore := (ih h).trans (length_behind_le _)
      omega
    · have hmore := (ih h).trans (length_behind_le _)
      omega

theorem length_lt_of_parseOutList (h : parseOutList eof number ts = .ok parsed) : parsed.2.length < ts.length :=
  length_lt_of_parseOutListWith eof (fun _ _ ↦ length_le_of_outItems eof number) h

theorem length_le_of_outValue {value : Option (OutValue Num) × List Token} (h : outValue eof number ts = .ok value) :
    value.2.length ≤ ts.length := by
  have htail : ts.tail.length ≤ ts.length := List.length_tail ▸ Nat.sub_le _ _
  unfold outValue at h
  dsimp only at h
  split_ifs at h
  · obtain ⟨parsed, hparsed, h⟩ := Checks.bind_eq_ok_iff.1 h
    cases h
    exact Nat.le_of_lt (length_lt_of_parseOutList eof number hparsed)
  · cases h
    exact htail
  · obtain ⟨number, _, h⟩ := Checks.bind_eq_ok_iff.1 h
    cases h
    exact htail
  · cases h
    exact htail
  · cases h
    exact htail
  · cases h
    exact (length_dotted_le _ _).trans htail
  · cases h
    exact htail

end Left

/-! ## The `OUT{` block -/

section OutBlock

variable (eof : Token) {Num : Type} (number : Text → Option Num)
variable {fuel n : ℕ}

/-- The loop over the items of a list, where lists in it are parsed in rounds with the same result. -/
theorem run_outItemsRound {rounds depth : ℕ}
    {list : List Token → Except (Stop ParseError) (List (OutValue Num) × List Token)}
    (hlist : ∀ fuel ts, ts.length < rounds → ts.length ≤ fuel + 1 →
      list ts = statement (parseOutListWith eof (outItems eof number fuel (depth + 1) []) (depth + 1) ts))
    {ts : List Token} (hfuel : ts.length ≤ fuel) (hts : ts.length < rounds) (hn : ts.length < n)
    (items : List (OutValue Num)) :
    run .unfinished (outItemsRound number eof list) n (items, ts) =
      statement (outItems eof number fuel depth items ts) := by
  induction fuel generalizing ts n items with
  | zero =>
    have hnil : ts = [] := List.eq_nil_of_length_eq_zero (Nat.le_zero.1 hfuel)
    subst hnil
    cases n with
    | zero => exact absurd hn (Nat.lt_irrefl _)
    | succ n => rfl
  | succ fuel ih =>
    cases n with
    | zero => exact absurd hn (Nat.not_lt_zero _)
    | succ n =>
      have hskip := length_skipNewlines_le ts
      rw [run, outItemsRound, outItems]
      generalize skipNewlines ts = ts' at *
      have hmore {rest : List Token} (hless : rest.length < ts'.length) (items : List (OutValue Num)) :
          run .unfinished (outItemsRound number eof list) n (items, skipComma (skipNewlines rest)) =
            statement (outItems eof number fuel depth items (skipComma (skipNewlines rest))) := by
        have hle := length_behind_le rest
        exact ih (by omega) (by omega) (by omega) items
      dsimp only
      split_ifs with hend hopen hid hstr hnum
      · rfl
      · rw [hlist fuel ts' (by omega) (by omega)]
        cases hnested : parseOutListWith eof (outItems eof number fuel (depth + 1) []) (depth + 1) ts' with
        | error e => rfl
        | ok nested =>
          exact hmore (length_lt_of_parseOutListWith eof (fun _ _ ↦ length_le_of_outItems eof number) hnested) _
      · have hdotted := length_dotted_le (currentToken eof ts').value ts'.tail
        exact hmore (hdotted.trans_lt (length_tail_lt (by rw [hid]; decide))) _
      · exact hmore (length_tail_lt (by rw [hstr]; decide)) _
      · cases hvalue : coerceNumToken number (currentToken eof ts') with
        | error e => rfl
        | ok value => exact hmore (length_tail_lt (by rw [hnum]; decide)) _
      · exact hmore (length_tail_lt fun heq ↦ hend (.inr heq)) _

/-- A list in rounds, by the levels left. -/
theorem parseOutListIn_eq {levels depth rounds : ℕ} (hdepth : depth + levels = maxOutNestingDepth) {ts : List Token}
    (hts : ts.length < rounds) (hfuel : ts.length ≤ fuel + 1) :
    parseOutListIn number eof rounds levels ts =
      statement (parseOutListWith eof (outItems eof number fuel depth []) depth ts) := by
  induction levels generalizing depth fuel ts with
  | zero =>
    have hdeep : maxOutNestingDepth ≤ depth := Nat.le_of_eq hdepth.symm
    rw [parseOutListIn, parseOutListWith, if_pos hdeep]
  | succ levels ih =>
    rw [parseOutListIn, parseOutListWith, if_neg (by omega)]
    cases hopened : expect eof .lbracket ts with
    | error e => rfl
    | ok opened =>
      have hless := length_lt_of_expect eof (by decide) hopened
      have hskip := length_skipNewlines_le opened.2
      have hitems : run .unfinished (outItemsRound number eof (parseOutListIn number eof rounds levels)) rounds
            ([], skipNewlines opened.2) =
          statement (outItems eof number fuel depth [] (skipNewlines opened.2)) :=
        run_outItemsRound eof number (fun fuel ts hts hfuel ↦ ih (by omega) hts hfuel) (by omega) (by omega)
          (by omega) []
      let closed (parsed : List (OutValue Num) × List Token) : List (OutValue Num) × List Token :=
        (parsed.1, if currentType parsed.2 = .rbracket then parsed.2.tail else parsed.2)
      calc
        _ = run Stop.unfinished (outItemsRound number eof (parseOutListIn number eof rounds levels)) rounds
              ([], skipNewlines opened.2) >>= fun parsed ↦ .ok (closed parsed) := rfl
        _ = statement (outItems eof number fuel depth [] (skipNewlines opened.2) >>= fun parsed ↦ .ok (closed parsed))
              := by
            rw [hitems, statement_bind]
            rfl
        _ = _ := rfl

variable {rounds : ℕ} {ts : List Token}

theorem parseOutListIn_eq_parseOutList (hts : ts.length < rounds) :
    parseOutListIn number eof rounds maxOutNestingDepth ts = statement (parseOutList eof number ts) :=
  parseOutListIn_eq eof number (Nat.zero_add _) hts (Nat.le_succ _)

theorem outValueIn_eq (hts : ts.length < rounds) :
    outValueIn number eof rounds ts = statement (outValue eof number ts) := by
  unfold outValueIn
  split
  · next hlist =>
    rw [parseOutListIn_eq_parseOutList eof number hts, outValue, if_pos hlist, statement_bind]
    rfl
  · rfl

variable (lvars : List Lvar) (lacts : List Lact)

/-- The loop over the fields. -/
theorem run_outFieldsRound (hfuel : ts.length ≤ fuel) (hts : ts.length < rounds) (hn : ts.length < n)
    (fields : OrderedDict Text (OutValue Num)) :
    run .unfinished (outFieldsRound number eof rounds lvars lacts) n (fields, ts) =
      statement (outFields eof number lvars lacts fuel fields ts) := by
  induction fuel generalizing ts n fields with
  | zero =>
    have hnil : ts = [] := List.eq_nil_of_length_eq_zero (Nat.le_zero.1 hfuel)
    subst hnil
    cases n with
    | zero => exact absurd hn (Nat.lt_irrefl _)
    | succ n => rfl
  | succ fuel ih =>
    cases n with
    | zero => exact absurd hn (Nat.not_lt_zero _)
    | succ n =>
      have hskip := length_skipNewlines_le ts
      rw [run, outFieldsRound, outFields]
      generalize skipNewlines ts = ts' at *
      have hmore {rest : List Token} (hless : rest.length < ts'.length) (fields : OrderedDict Text (OutValue Num)) :
          run .unfinished (outFieldsRound number eof rounds lvars lacts) n (fields, rest) =
            statement (outFields eof number lvars lacts fuel fields rest) :=
        ih (by omega) (by omega) (by omega) fields
      have hbehind {rest : List Token} (hless : rest.length < ts'.length) :=
        hmore ((length_behind_le rest).trans_lt hless)
      dsimp only
      split_ifs with hend hopen hid hcolon
      · rfl
      · rw [parseOutListIn_eq_parseOutList eof number (by omega)]
        cases hgroup : parseOutList eof number ts' with
        | error e => rfl
        | ok group => exact hbehind (length_lt_of_parseOutList eof number hgroup) _
      · have htail : ts'.tail.length < ts'.length := length_tail_lt (by rw [hid]; decide)
        have hdotted := length_dotted_le (currentToken eof ts').value ts'.tail
        have hrest := length_skipNewlines_le (dotted (currentToken eof ts').value ts'.tail).2
        have hcolon : (skipNewlines (dotted (currentToken eof ts').value ts'.tail).2).tail.length <
            (skipNewlines (dotted (currentToken eof ts').value ts'.tail).2).length :=
          length_tail_lt (by rw [hcolon]; decide)
        have hvalue := length_skipNewlines_le (skipNewlines (dotted (currentToken eof ts').value ts'.tail).2).tail
        rw [outValueIn_eq eof number (by omega)]
        cases hread : outValue eof number
          (skipNewlines (skipNewlines (dotted (currentToken eof ts').value ts'.tail).2).tail) with
        | error e => rfl
        | ok value =>
          have hless := length_le_of_outValue eof number hread
          exact hbehind (by omega) _
      · have htail : ts'.tail.length < ts'.length := length_tail_lt (by rw [hid]; decide)
        have hdotted := length_dotted_le (currentToken eof ts').value ts'.tail
        have hrest := length_skipNewlines_le (dotted (currentToken eof ts').value ts'.tail).2
        exact hbehind (by omega) _
      · exact hmore (length_tail_lt fun heq ↦ hend (.inr heq)) _

theorem parseOutBlockIn_eq (hts : ts.length < rounds) :
    parseOutBlockIn number eof rounds lvars lacts ts = statement (parseOutBlock eof number lvars lacts ts) := by
  unfold parseOutBlockIn parseOutBlock
  cases hopened : expect eof .outOpen ts with
  | error e => rfl
  | ok opened =>
    have hless := length_lt_of_expect eof (by decide) hopened
    exact run_outFieldsRound eof number lvars lacts (by omega) (by omega) (by omega) .empty

end OutBlock

/-! ## The program -/

section Parse

variable (py : CharTable) {Num : Type} (number : Text → Option Num) (sourceText : Text) (eof : Token)
  {ts : List Token}

theorem length_le_of_parseHeader {header : Header × List Token} (h : parseHeader eof ts = .ok header) :
    header.2.length ≤ ts.length := by
  unfold parseHeader at h
  obtain ⟨first, hfirst, h⟩ := Checks.bind_eq_ok_iff.1 h
  have hless := length_lt_of_expect eof (by decide) hfirst
  have htail : first.2.tail.length ≤ first.2.length := List.length_tail ▸ Nat.sub_le _ _
  split_ifs at h
  · obtain ⟨field, hfield, h⟩ := Checks.bind_eq_ok_iff.1 h
    have hfewer := length_lt_of_expect eof (by decide) hfield
    have hrest : field.2.tail.length ≤ field.2.length := List.length_tail ▸ Nat.sub_le _ _
    split_ifs at h
    all_goals
      cases h
      dsimp only
      omega
  · cases h
    dsimp only
    omega
  · cases h
    exact Nat.le_of_lt hless

theorem length_le_of_skipToClose {tag : Tag} {rest : List Token} (h : skipToClose eof tag ts = .ok rest) :
    rest.length ≤ ts.length := by
  induction ts with
  | nil => cases h
  | cons t ts ih =>
    rw [skipToClose] at h
    split at h
    · cases h
      exact Nat.le_succ _
    · exact Nat.le_succ_of_le (ih h)

theorem length_lt_of_parseElement {tag : Tag} {element : (Header × Text) × List Token}
    (h : parseElement eof py sourceText tag ts = .ok element) : element.2.length < ts.length := by
  unfold parseElement at h
  obtain ⟨opened, hopened, h⟩ := Checks.bind_eq_ok_iff.1 h
  obtain ⟨header, hheader, h⟩ := Checks.bind_eq_ok_iff.1 h
  obtain ⟨gt, hgt, h⟩ := Checks.bind_eq_ok_iff.1 h
  obtain ⟨content, _, h⟩ := Checks.bind_eq_ok_iff.1 h
  obtain ⟨rest, hrest, h⟩ := Checks.bind_eq_ok_iff.1 h
  cases h
  have htype : tag.openType ≠ .eof := by cases tag <;> decide
  calc rest.length ≤ (skipNewlines gt.2).length := length_le_of_skipToClose eof hrest
    _ ≤ gt.2.length := length_skipNewlines_le _
    _ ≤ header.2.length := Nat.le_of_lt (length_lt_of_expect eof (by decide) hgt)
    _ ≤ (skipNewlines opened.2).length := length_le_of_parseHeader eof hheader
    _ ≤ opened.2.length := length_skipNewlines_le _
    _ < ts.length := length_lt_of_expect eof htype hopened

theorem length_lt_of_parseLvar {lvar : Lvar × List Token} (h : parseLvar eof py sourceText ts = .ok lvar) :
    lvar.2.length < ts.length := by
  obtain ⟨element, helement, rfl⟩ := Checks.map_eq_ok_iff.1 h
  exact length_lt_of_parseElement py sourceText eof helement

theorem length_lt_of_parseLact {lact : Lact × List Token} (h : parseLact eof py sourceText ts = .ok lact) :
    lact.2.length < ts.length := by
  obtain ⟨element, helement, rfl⟩ := Checks.map_eq_ok_iff.1 h
  exact length_lt_of_parseElement py sourceText eof helement

variable {rounds : ℕ}

theorem run_parseRound {fuel : ℕ} (hfuel : ts.length < fuel) (hts : ts.length < rounds) {n : ℕ} (hn : ts.length < n)
    (lvars : List Lvar) (lacts : List Lact) (aliases : List Text) :
    run .unfinished (parseRound py number sourceText eof rounds) n ⟨lvars, lacts, aliases, ts⟩ =
      statement (parseLoop py number sourceText eof fuel lvars lacts aliases ts) := by
  induction fuel generalizing ts n lvars lacts aliases with
  | zero => exact absurd hfuel (Nat.not_lt_zero _)
  | succ fuel ih =>
    cases n with
    | zero => exact absurd hn (Nat.not_lt_zero _)
    | succ n =>
      have hskip := length_skipNewlines_le ts
      rw [run, parseRound, parseLoop]
      dsimp only
      generalize skipNewlines ts = ts' at *
      have hmore {rest : List Token} (hless : rest.length < ts'.length) (lvars : List Lvar) (lacts : List Lact)
          (aliases : List Text) :
          run .unfinished (parseRound py number sourceText eof rounds) n ⟨lvars, lacts, aliases, rest⟩ =
            statement (parseLoop py number sourceText eof fuel lvars lacts aliases rest) :=
        ih (by omega) (by omega) (by omega) lvars lacts aliases
      split_ifs with hend hlvar hlact hout
      · rfl
      · cases hparsed : parseLvar eof py sourceText ts' with
        | error e => rfl
        | ok lvar =>
          have hless := length_lt_of_parseLvar py sourceText eof hparsed
          by_cases hknown : lvar.1.aliasName ∈ aliases
          · simp [hknown, bind, Except.bind]
          · simp only [statement_ok, bind, Except.bind, if_neg hknown]
            exact hmore hless _ _ _
      · cases hparsed : parseLact eof py sourceText ts' with
        | error e => rfl
        | ok lact =>
          have hless := length_lt_of_parseLact py sourceText eof hparsed
          by_cases hknown : lact.1.aliasName ∈ aliases
          · simp [hknown, bind, Except.bind]
          · simp only [statement_ok, bind, Except.bind, if_neg hknown]
            exact hmore hless _ _ _
      · rw [parseOutBlockIn_eq eof number lvars lacts (by omega)]
        cases parseOutBlock eof number lvars lacts ts' <;> rfl
      · exact hmore (length_tail_lt hend) _ _ _

/-- With more rounds than tokens no loop of the parser is left unfinished. -/
theorem parseIn_eq {tokens : Tokens} (hrounds : tokens.before.length < rounds) :
    parseIn py number sourceText rounds tokens = statement (parse py number sourceText tokens) :=
  run_parseRound py number sourceText tokens.eof (Nat.lt_succ_self _) hrounds hrounds [] [] []

variable {program : Program Num}

/-- The aliases of a program, and how many of each there are. -/
theorem aliases_of_parseLoop {fuel : ℕ} {lvars : List Lvar} {lacts : List Lact} {aliases : List Text}
    (hperm : aliases.Perm (lvars.map Lvar.aliasName ++ lacts.map Lact.aliasName)) (hnodup : aliases.Nodup)
    (h : parseLoop py number sourceText eof fuel lvars lacts aliases ts = .ok program) :
    (program.lvars.map Lvar.aliasName ++ program.lacts.map Lact.aliasName).Nodup := by
  induction fuel generalizing lvars lacts aliases ts with
  | zero =>
    cases h
    exact hperm.nodup_iff.1 hnodup
  | succ fuel ih =>
    rw [parseLoop] at h
    split_ifs at h
    · cases h
      exact hperm.nodup_iff.1 hnodup
    · obtain ⟨lvar, _, h⟩ := Checks.bind_eq_ok_iff.1 h
      split at h
      · cases h
      · next hnew =>
        refine ih ?_ ((List.concat_eq_append ▸ hnodup.concat hnew)) h
        have hlast := hperm.append_right [lvar.1.aliasName]
        rw [List.append_assoc] at hlast
        rw [List.map_append, List.map_singleton, List.append_assoc]
        exact hlast.trans (List.perm_append_comm.append_left _)
    · obtain ⟨lact, _, h⟩ := Checks.bind_eq_ok_iff.1 h
      split at h
      · cases h
      · next hnew =>
        refine ih ?_ ((List.concat_eq_append ▸ hnodup.concat hnew)) h
        rw [List.map_append, List.map_singleton, ← List.append_assoc]
        exact hperm.append_right _
    · obtain ⟨outBlock, _, h⟩ := Checks.bind_eq_ok_iff.1 h
      cases h
      exact hperm.nodup_iff.1 hnodup
    · exact ih hperm hnodup h

theorem nodup_aliases_of_parse {tokens : Tokens} (h : parse py number sourceText tokens = .ok program) :
    (program.lvars.map Lvar.aliasName ++ program.lacts.map Lact.aliasName).Nodup :=
  aliases_of_parseLoop py number sourceText tokens.eof (List.Perm.refl []) List.nodup_nil h

/-- With more rounds for each loop than characters the lexer returns tokens of which only the last marks the end,
and the parser returns a program with distinct aliases or raises a parse error. -/
theorem frontEnd_total (text : Text) {rounds : ℕ} (hrounds : text.length < rounds) :
    ∃ tokens, tokenizeIn py rounds text = .ok tokens ∧
      tokens.eof.type = .eof ∧ (∀ token ∈ tokens.before, token.type ≠ .eof) ∧
      ((∃ program : Program Num, parseIn py number sourceText rounds tokens = .ok program ∧
          (program.lvars.map Lvar.aliasName ++ program.lacts.map Lact.aliasName).Nodup) ∨
        ∃ e : ParseError, parseIn py number sourceText rounds tokens = .error (.raised e)) := by
  have hfew := (length_tokenizeLoop_le py text.length false (.ofText text)).trans_lt hrounds
  refine ⟨tokenize py text, tokenizeIn_eq py text hrounds, rfl, fun token ↦ type_ne_eof_of_mem py _ _ _, ?_⟩
  rw [parseIn_eq py number sourceText hfew]
  cases hparse : parse py number sourceText (tokenize py text) with
  | error e => exact .inr ⟨e, rfl⟩
  | ok program => exact .inl ⟨program, rfl, nodup_aliases_of_parse py number sourceText hparse⟩

theorem frontEnd_total_unclosed :
    ∃ tokens, tokenizeIn .ascii 16 "OUT\x7b[['a, [-1..".toList = .ok tokens ∧
      tokens.eof.type = .eof ∧ (∀ token ∈ tokens.before, token.type ≠ .eof) ∧
      ((∃ program : Program ℕ, parseIn .ascii (fun _ ↦ none) [] 16 tokens = .ok program ∧
          (program.lvars.map Lvar.aliasName ++ program.lacts.map Lact.aliasName).Nodup) ∨
        ∃ e : ParseError,
          (parseIn .ascii (fun _ ↦ none) [] 16 tokens : Except _ (Program ℕ)) = .error (.raised e)) :=
  frontEnd_total .ascii (fun _ ↦ none) [] "OUT\x7b[['a, [-1..".toList (by decide)

end Parse

end Lionagi.Lndl
