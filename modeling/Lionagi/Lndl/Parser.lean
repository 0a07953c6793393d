import Lionagi.Library.OrderedDict
import Lionagi.Lndl.Lexer

/-!
# The LNDL parser

Recursive descent over the tokens for the tags and the `OUT{` block. The content of a tag is not taken
from the tokens: it is searched in the source by a pattern made of the tag's header.
-/

namespace Lionagi.Lndl

/-! ## Nodes -/

inductive Lvar where
  | lvar (model field aliasName content : Text)
  | rlvar (aliasName content : Text) (extraId : Option Text)
  deriving DecidableEq, Repr

structure Lact where
  model : Option Text
  field : Option Text
  aliasName : Text
  call : Text
  extraId : Option Text
  deriving DecidableEq, Repr

/-- A value in an `OUT{` block; a reference is a string as a literal is. -/
inductive OutValue (Num : Type) where
  | str (value : Text)
  | num (value : Num)
  | bool (value : Bool)
  | list (items : List (OutValue Num))

structure Program (Num : Type) where
  lvars : List Lvar
  lacts : List Lact
  outBlock : Option (OrderedDict Text (OutValue Num))

namespace Lvar

def aliasName : Lvar → Text
  | lvar _ _ aliasName _ => aliasName
  | rlvar aliasName _ _ => aliasName

/-- What an alias implies as its spec: the field, or the hint of the form with two identifiers. -/
def spec : Lvar → Option Text
  | lvar _ field _ _ => some field
  | rlvar _ _ extraId => extraId

end Lvar

def Lact.spec (lact : Lact) : Option Text := (lact.field.or lact.model).or lact.extraId

/-! ## Tags and headers -/

inductive Tag where
  | lvar
  | lact
  deriving DecidableEq, Repr

namespace Tag

def openType : Tag → TokenType
  | lvar => .lvarOpen
  | lact => .lactOpen

def closeType : Tag → TokenType
  | lvar => .lvarClose
  | lact => .lactClose

def openMark : Tag → Text
  | lvar => "<lvar".toList
  | lact => "<lact".toList

def closeMark : Tag → Text
  | lvar => "</lvar>".toList
  | lact => "</lact>".toList

end Tag

/-- The forms of a header: an alias, a hint and an alias, and a field with and without an alias. -/
inductive Header where
  | raw (aliasName : Text)
  | hinted (hint aliasName : Text)
  | field (model fieldName : Text)
  | named (model fieldName aliasName : Text)
  deriving DecidableEq, Repr

namespace Header

/-- The words of the header between whitespace. -/
def words : Header → List Text
  | raw aliasName => [aliasName]
  | hinted hint aliasName => [hint, aliasName]
  | field model fieldName => [model ++ '.' :: fieldName]
  | named model fieldName aliasName => [model ++ '.' :: fieldName, aliasName]

def lvar (content : Text) : Header → Lvar
  | raw aliasName => .rlvar aliasName content none
  | hinted hint aliasName => .rlvar aliasName content (some hint)
  | field model fieldName => .lvar model fieldName fieldName content
  | named model fieldName aliasName => .lvar model fieldName aliasName content

def lact (call : Text) : Header → Lact
  | raw aliasName => ⟨none, none, aliasName, call, none⟩
  | hinted hint aliasName => ⟨none, none, aliasName, call, some hint⟩
  | field model fieldName => ⟨some model, some fieldName, fieldName, call, none⟩
  | named model fieldName aliasName => ⟨some model, some fieldName, aliasName, call, none⟩

end Header

inductive ParseError where
  | expected (type : TokenType) (token : Token)
  | duplicateAlias (aliasName : Text) (token : Token)
  | requiresSource (token : Token)
  | unclosed (tag : Tag) (token : Token)
  | notExtracted (tag : Tag) (header : Header) (token : Token)
  | nestingTooDeep (token : Token)
  | invalidNumber (literal : Text) (token : Token)
  deriving DecidableEq, Repr

/-! ## Content from the source -/

section Content

variable (py : CharTable)

/-- `\s+` and a word for each word, then `\s*>`. -/
def matchWords : List Text → Text → Option Text
  | [], t => Text.after ['>'] (t.dropWhile py.isspace)
  | word :: words, t =>
    if t.head?.any py.isspace then (Text.after word (t.dropWhile py.isspace)).bind (matchWords words)
    else none

/-- What follows an opening tag with the header at the start of the text. -/
def matchOpening (tag : Tag) (header : Header) (t : Text) : Option Text :=
  (Text.after tag.openMark t).bind (matchWords py header.words)

/-- `re.search` of the header's pattern: the content of the leftmost match. -/
def search (tag : Tag) (header : Header) : Text → Option Text
  | [] => none
  | c :: t =>
    match (matchOpening py tag header (c :: t)).bind (Text.before tag.closeMark) with
    | some content => some content
    | none => search tag header t

end Content

/-! ## Tokens -/

section Tokens

-- `eof` marks the end, and the parser does not advance at it.
variable (eof : Token)

def currentToken (ts : List Token) : Token := ts.headD eof

def currentType (ts : List Token) : TokenType := (ts.head?.map Token.type).getD .eof

def expect (type : TokenType) (ts : List Token) : Except ParseError (Token × List Token) :=
  if currentType ts = type then .ok (currentToken eof ts, ts.tail)
  else .error (.expected type (currentToken eof ts))

def skipNewlines : List Token → List Token
  | t :: ts => if t.type = .newline then skipNewlines ts else t :: ts
  | [] => []

/-- Skip one comma. -/
def skipComma (ts : List Token) : List Token := if currentType ts = .comma then ts.tail else ts

/-- The continuations of a name by dots. -/
def dotted (name : Text) : List Token → Text × List Token
  | [] => (name, [])
  | [t] => if t.type = .dot then (name, []) else (name, [t])
  | t :: u :: ts =>
    if t.type = .dot then
      if u.type = .id then dotted (name ++ '.' :: u.value) ts else (name, u :: ts)
    else (name, t :: u :: ts)

/-! ## Tagged elements -/

def parseHeader (ts : List Token) : Except ParseError (Header × List Token) := do
  let first ← expect eof .id ts
  if currentType first.2 = .dot then
    let field ← expect eof .id first.2.tail
    if currentType field.2 = .id then
      .ok (.named first.1.value field.1.value (currentToken eof field.2).value, field.2.tail)
    else .ok (.field first.1.value field.1.value, field.2)
  else if currentType first.2 = .id then
    .ok (.hinted first.1.value (currentToken eof first.2).value, first.2.tail)
  else .ok (.raw first.1.value, first.2)

/-- Advance to the closing tag and behind it. -/
def skipToClose (tag : Tag) : List Token → Except ParseError (List Token)
  | [] => .error (.unclosed tag eof)
  | t :: ts => if t.type = tag.closeType then .ok ts else skipToClose tag ts

variable (py : CharTable) (sourceText : Text)

/-- The content that the source has for a header. -/
def extract (tag : Tag) (header : Header) (ts : List Token) : Except ParseError Text :=
  if sourceText = [] then .error (.requiresSource (currentToken eof ts))
  else
    match search py tag header sourceText with
    | some content => .ok (py.strip content)
    | none =>
      if (Text.before tag.closeMark sourceText).isSome then
        .error (.notExtracted tag header (currentToken eof ts))
      else .error (.unclosed tag (currentToken eof ts))

/-- `parse_lvar` and `parse_lact` up to the node they build. -/
def parseElement (tag : Tag) (ts : List Token) :
    Except ParseError ((Header × Text) × List Token) := do
  let opened ← expect eof tag.openType ts
  let header ← parseHeader eof (skipNewlines opened.2)
  let gt ← expect eof .gt header.2
  let content ← extract eof py sourceText tag header.1 (skipNewlines gt.2)
  let rest ← skipToClose eof tag (skipNewlines gt.2)
  .ok ((header.1, content), rest)

def parseLvar (ts : List Token) : Except ParseError (Lvar × List Token) :=
  (parseElement eof py sourceText .lvar ts).map fun parsed ↦ (parsed.1.1.lvar parsed.1.2, parsed.2)

def parseLact (ts : List Token) : Except ParseError (Lact × List Token) :=
  (parseElement eof py sourceText .lact ts).map fun parsed ↦ (parsed.1.1.lact parsed.1.2, parsed.2)

end Tokens

/-! ## The `OUT{` block -/

section OutBlock

variable {Num : Type} (eof : Token)

-- `number` is the `int` or the finite `float` of a literal.
variable (number : Text → Option Num)

def maxOutNestingDepth : ℕ := 32

def coerceNumToken (token : Token) : Except ParseError Num :=
  match number token.value with
  | some value => .ok value
  | none => .error (.invalidNumber token.value token)

/-- `_parse_out_list` around its loop. -/
def parseOutListWith (items : List Token → Except ParseError (List (OutValue Num) × List Token))
    (depth : ℕ) (ts : List Token) : Except ParseError (List (OutValue Num) × List Token) := do
  if maxOutNestingDepth ≤ depth then
    .error (.nestingTooDeep (currentToken eof ts))
  else
    let opened ← expect eof .lbracket ts
    let parsed ← items (skipNewlines opened.2)
    .ok (parsed.1, if currentType parsed.2 = .rbracket then parsed.2.tail else parsed.2)

/-- The loop of `_parse_out_list`; every turn takes at least one token. -/
def outItems : ℕ → ℕ → List (OutValue Num) → List Token →
    Except ParseError (List (OutValue Num) × List Token)
  | 0, _, items, ts => .ok (items, ts)
  | fuel + 1, depth, items, ts => do
    let ts := skipNewlines ts
    if currentType ts = .rbracket ∨ currentType ts = .eof then .ok (items, ts)
    else if currentType ts = .lbracket then
      let nested ← parseOutListWith eof (outItems fuel (depth + 1) []) (depth + 1) ts
      outItems fuel depth (items ++ [.list nested.1]) (skipComma (skipNewlines nested.2))
    else if currentType ts = .id then
      let name := dotted (currentToken eof ts).value ts.tail
      outItems fuel depth (items ++ [.str name.1]) (skipComma (skipNewlines name.2))
    else if currentType ts = .str then
      outItems fuel depth (items ++ [.str (currentToken eof ts).value])
        (skipComma (skipNewlines ts.tail))
    else if currentType ts = .num then
      let value ← coerceNumToken number (currentToken eof ts)
      outItems fuel depth (items ++ [.num value]) (skipComma (skipNewlines ts.tail))
    else outItems fuel depth items (skipComma (skipNewlines ts.tail))

def parseOutList (ts : List Token) : Except ParseError (List (OutValue Num) × List Token) :=
  parseOutListWith eof (outItems eof number ts.length 0 []) 0 ts

variable (lvars : List Lvar) (lacts : List Lact)

/-- The spec that an alias implies, if it is declared with one. -/
def resolveAliasToSpec (aliasName : Text) : Option Text :=
  match lacts.find? fun lact ↦ lact.aliasName = aliasName with
  | some lact => lact.spec
  | none => (lvars.find? fun lvar ↦ lvar.aliasName = aliasName).bind Lvar.spec

/-- The spec of an anonymous group: that of its first alias. -/
def groupSpec : List (OutValue Num) → Option Text
  | .str aliasName :: _ => resolveAliasToSpec lvars lacts aliasName
  | .list (.str aliasName :: _) :: _ => resolveAliasToSpec lvars lacts aliasName
  | _ => none

/-- The spec of a bare name: the one its alias implies, else the head of a dotted name, else itself. -/
def bareSpec (name : Text) : Text :=
  (resolveAliasToSpec lvars lacts name).getD (name.takeWhile (· ≠ '.'))

/-- Append an item to the list under a spec, unless something else stands there. -/
def appendTo (fields : OrderedDict Text (OutValue Num)) (spec : Text) (item : OutValue Num) :
    OrderedDict Text (OutValue Num) :=
  match fields.get? spec with
  | some (.list items) => fields.set spec (.list (items ++ [item]))
  | some _ => fields
  | none => fields.set spec (.list [item])

/-- An anonymous group replaces what is no list. -/
def appendGroup (fields : OrderedDict Text (OutValue Num)) (spec : Text) (group : OutValue Num) :
    OrderedDict Text (OutValue Num) :=
  match fields.get? spec with
  | some (.list items) => fields.set spec (.list (items ++ [group]))
  | _ => fields.set spec (.list [group])

/-- The value behind the colon, if there is one. -/
def outValue (ts : List Token) : Except ParseError (Option (OutValue Num) × List Token) := do
  if currentType ts = .lbracket then
    let parsed ← parseOutList eof number ts
    .ok (some (.list parsed.1), parsed.2)
  else if currentType ts = .str then .ok (some (.str (currentToken eof ts).value), ts.tail)
  else if currentType ts = .num then
    let value ← coerceNumToken number (currentToken eof ts)
    .ok (some (.num value), ts.tail)
  else if currentType ts = .id then
    let lowered := (currentToken eof ts).value.map Char.toLower
    if lowered = "true".toList then .ok (some (.bool true), ts.tail)
    else if lowered = "false".toList then .ok (some (.bool false), ts.tail)
    else
      let value := dotted (currentToken eof ts).value ts.tail
      .ok (some (.list [.str value.1]), value.2)
  else .ok (none, ts.tail)

/-- The loop of `parse_out_block`; every turn takes at least one token. -/
def outFields : ℕ → OrderedDict Text (OutValue Num) → List Token →
    Except ParseError (OrderedDict Text (OutValue Num))
  | 0, fields, _ => .ok fields
  | fuel + 1, fields, ts => do
    let ts := skipNewlines ts
    if currentType ts = .outClose ∨ currentType ts = .eof then .ok fields
    else if currentType ts = .lbracket then
      let group ← parseOutList eof number ts
      let fields := match groupSpec lvars lacts group.1 with
        | some spec => appendGroup fields spec (.list group.1)
        | none => fields
      outFields fuel fields (skipComma (skipNewlines group.2))
    else if currentType ts = .id then
      let name := dotted (currentToken eof ts).value ts.tail
      let rest := skipNewlines name.2
      if currentType rest = .colon then
        let value ← outValue eof number (skipNewlines rest.tail)
        let fields := match value.1 with
          | some value => fields.set name.1 value
          | none => fields
        outFields fuel fields (skipComma (skipNewlines value.2))
      else
        outFields fuel (appendTo fields (bareSpec lvars lacts name.1) (.str name.1))
          (skipComma (skipNewlines rest))
    else outFields fuel fields ts.tail

def parseOutBlock (ts : List Token) : Except ParseError (OrderedDict Text (OutValue Num)) := do
  let opened ← expect eof .outOpen ts
  outFields eof number lvars lacts ts.length .empty opened.2

end OutBlock

/-! ## The program -/

section Parse

variable {Num : Type} (py : CharTable) (number : Text → Option Num) (sourceText : Text) (eof : Token)

/-- The loop of `parse`; every turn takes at least one token. -/
def parseLoop : ℕ → List Lvar → List Lact → List Text → List Token → Except ParseError (Program Num)
  | 0, lvars, lacts, _, _ => .ok ⟨lvars, lacts, none⟩
  | fuel + 1, lvars, lacts, aliases, ts => do
    let ts := skipNewlines ts
    if currentType ts = .eof then .ok ⟨lvars, lacts, none⟩
    else if currentType ts = .lvarOpen then
      let lvar ← parseLvar eof py sourceText ts
      if lvar.1.aliasName ∈ aliases then
        .error (.duplicateAlias lvar.1.aliasName (currentToken eof lvar.2))
      else parseLoop fuel (lvars ++ [lvar.1]) lacts (aliases ++ [lvar.1.aliasName]) lvar.2
    else if currentType ts = .lactOpen then
      let lact ← parseLact eof py sourceText ts
      if lact.1.aliasName ∈ aliases then
        .error (.duplicateAlias lact.1.aliasName (currentToken eof lact.2))
      else parseLoop fuel lvars (lacts ++ [lact.1]) (aliases ++ [lact.1.aliasName]) lact.2
    else if currentType ts = .outOpen then
      let outBlock ← parseOutBlock eof number lvars lacts ts
      .ok ⟨lvars, lacts, some outBlock⟩
    else parseLoop fuel lvars lacts aliases ts.tail

/-- `Parser(tokens, source_text).parse()`. -/
def parse (tokens : Tokens) : Except ParseError (Program Num) :=
  parseLoop py number sourceText tokens.eof (tokens.before.length + 1) [] [] [] tokens.before

end Parse

end Lionagi.Lndl
