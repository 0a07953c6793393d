import Lionagi.Library.Checks
import Lionagi.Lndl.ReservedKeywords

/-!
# Function calls

The body of a `<lact>` tag is parsed by the parser of the language after reserved words in front of equals signs got
an underscore. The parser itself is a parameter: what it makes of the text of a call is its syntax tree.
-/

namespace Lionagi.Lndl

open PyValue (joined reprStr)

/-! ## Syntax trees -/

/-- The nodes that the converter distinguishes; `absent` is the key of a `**` entry. -/
inductive Expr where
  | name (id : Text)
  | attribute (value : Expr) (attr : Text)
  | constant (value : PyValue)
  | negative (operand : Expr)
  | list (elts : List Expr)
  | tuple (elts : List Expr)
  | dict (entries : List (Expr × Expr))
  | call (func : Expr) (args : List Expr) (keywords : List (Option Text × Expr))
  | absent
  | other (id : ℕ)

/-- The parts of the language that the converter uses. -/
structure Python extends PyTable where
  reprForeign : ℕ → Text
  /-- The form in which the parser keeps names. -/
  nfkc : Text → Text
  /-- `ast.parse(text, mode="eval").body`, unless it is a syntax error. -/
  astParse : Text → Option Expr
  /-- `ast.literal_eval` of a node that is no display, unless it is a value error. -/
  literalEval : Expr → Option PyValue
  /-- A dictionary with a key that is no string, unless a key cannot be hashed. -/
  dictDisplay : List (PyValue × PyValue) → Option PyValue

inductive CallError where
  | valueError
  | typeError
  deriving DecidableEq, Repr

section Convert

variable (py : Python)

/-- The value of a node that has no case of its own. -/
def literal (node : Expr) : Except CallError PyValue :=
  match py.literalEval node with
  | some value => .ok value
  | none => .error .valueError

def strKeys : List (PyValue × PyValue) → Option (List (Text × PyValue))
  | [] => some []
  | (.str key, value) :: entries => (strKeys entries).map ((key, value) :: ·)
  | _ => none

/-- A dictionary display: the last value of a key counts. -/
def dictOf (entries : List (PyValue × PyValue)) : Except CallError PyValue :=
  match strKeys entries with
  | some members => .ok (.dict (OrderedDict.ofList members).entries)
  | none =>
    match py.dictDisplay entries with
    | some value => .ok value
    | none => .error .typeError

mutual

/-- `_ast_to_value` -/
def astToValue : Expr → Except CallError PyValue
  | .name id =>
    if id = "true".toList then .ok (.bool true)
    else if id = "false".toList then .ok (.bool false)
    else if id = "null".toList then .ok .none
    else .error .valueError
  | .dict entries => do dictOf py (← astToEntries entries)
  | .list elts => do .ok (.list (← astToValues elts))
  | .tuple elts => do .ok (.tuple (← astToValues elts))
  | .constant value => .ok value
  | .negative operand =>
    match operand with
    | .constant (.int value) => .ok (.int (-value))
    | _ => literal py (.negative operand)
  | .absent => .error .valueError
  | node => literal py node

def astToValues : List Expr → Except CallError (List PyValue)
  | [] => .ok []
  | elt :: elts => do
    let value ← astToValue elt
    .ok (value :: (← astToValues elts))

def astToEntries : List (Expr × Expr) → Except CallError (List (PyValue × PyValue))
  | [] => .ok []
  | (key, value) :: entries => do
    let key ← astToValue key
    let value ← astToValue value
    .ok ((key, value) :: (← astToEntries entries))

end

/-! ## Calls -/

structure ParsedCall where
  action : Text
  service : Option Text
  arguments : OrderedDict Text PyValue

/-- The service and the action of what is called. -/
def functionName : Expr → Except CallError (Option Text × Text)
  | .name id => .ok (none, id)
  | .attribute value attr =>
    match value with
    | .name id => .ok (some id, attr)
    | .attribute _ mid => .ok (some mid, attr)
    | _ => .ok (none, attr)
  | _ => .error .valueError

/-- The key of a positional argument. -/
def posName (i : ℕ) : Text := "_pos_".toList ++ Nat.toDigits 10 i

def setPositional : ℕ → List Expr → OrderedDict Text PyValue → Except CallError (OrderedDict Text PyValue)
  | _, [], arguments => .ok arguments
  | i, arg :: args, arguments => do
    let value ← astToValue py arg
    setPositional (i + 1) args (arguments.set (posName i) value)

def setKeywords : List (Option Text × Expr) → OrderedDict Text PyValue →
    Except CallError (OrderedDict Text PyValue)
  | [], arguments => .ok arguments
  | (none, _) :: _, _ => .error .valueError
  | (some name, value) :: keywords, arguments => do
    let value ← astToValue py value
    setKeywords keywords (arguments.set name value)

def parseFunctionCall (callStr : Text) : Except CallError ParsedCall :=
  match py.astParse (escapeReservedKeywords py.toCharTable callStr) with
  | some (.call func args keywords) => do
    let name ← functionName func
    let arguments ← setPositional py 0 args .empty
    let arguments ← setKeywords py keywords arguments
    .ok ⟨name.2, name.1.filter (· ≠ []), arguments⟩
  | _ => .error .valueError

/-- The name of the tool in the registry. -/
def qualifiedName (parsed : ParsedCall) : Text :=
  match parsed.service with
  | some service => service ++ '.' :: parsed.action
  | none => parsed.action

end Convert

/-! ## The trees of literals -/

section Literals

mutual

/-- The node of a literal: there is a sign only in front of what is negative. -/
def ofValue : PyValue → Expr
  | .int value => if value < 0 then .negative (.constant (.int (-value))) else .constant (.int value)
  | .list items => .list (ofValues items)
  | .tuple items => .tuple (ofValues items)
  | .dict members => .dict (ofMembers members)
  | value => .constant value

def ofValues : List PyValue → List Expr
  | [] => []
  | item :: items => ofValue item :: ofValues items

def ofMembers : List (Text × PyValue) → List (Expr × Expr)
  | [] => []
  | (key, value) :: members => (.constant (.str key), ofValue value) :: ofMembers members

end

theorem ofValues_eq_map (items : List PyValue) : ofValues items = items.map ofValue := by
  induction items with
  | nil => rfl
  | cons item items ih => rw [ofValues, ih, List.map_cons]

variable (py : Python)

theorem astToValue_int (value : ℤ) : astToValue py (ofValue (.int value)) = .ok (.int value) := by
  rw [ofValue]
  split
  · rw [astToValue, Int.neg_neg]
  · rfl

variable {items : List PyValue}

theorem astToValues_ofValues (h : ∀ item ∈ items, astToValue py (ofValue item) = .ok item) :
    astToValues py (ofValues items) = .ok items := by
  induction items with
  | nil => rfl
  | cons item items ih =>
    rw [List.forall_mem_cons] at h
    rw [ofValues, astToValues, h.1, ih h.2]
    rfl

variable {members : List (Text × PyValue)}

theorem astToEntries_ofMembers (h : ∀ member ∈ members, astToValue py (ofValue member.2) = .ok member.2) :
    astToEntries py (ofMembers members) = .ok (members.map fun member ↦ (.str member.1, member.2)) := by
  induction members with
  | nil => rfl
  | cons member members ih =>
    rw [List.forall_mem_cons] at h
    rw [ofMembers, astToEntries, h.1, ih h.2]
    rfl

theorem strKeys_map (members : List (Text × PyValue)) :
    strKeys (members.map fun member ↦ (.str member.1, member.2)) = some members := by
  induction members with
  | nil => rfl
  | cons member members ih =>
    rw [List.map_cons, strKeys, ih]
    rfl

/-- A literal is read back. -/
theorem astToValue_ofValue {v : PyValue} (hv : v.Plain) : astToValue py (ofValue v) = .ok v := by
  induction v using PyValue.ind with
  | hnone => rfl
  | hbool value => rfl
  | hint value => exact astToValue_int py value
  | hstr text => rfl
  | hlist items ih =>
    have hplain := PyValue.plainItems_iff.1 hv
    rw [ofValue, astToValue, astToValues_ofValues py fun item hitem ↦ ih item hitem (hplain item hitem)]
    rfl
  | htuple items ih =>
    have hplain := PyValue.plainItems_iff.1 hv
    rw [ofValue, astToValue, astToValues_ofValues py fun item hitem ↦ ih item hitem (hplain item hitem)]
    rfl
  | hdict members ih =>
    rw [ofValue, astToValue, astToEntries_ofMembers py fun member hmember ↦
      ih member hmember (PyValue.plainMembers_iff.1 hv.2 member hmember)]
    change dictOf py (members.map fun member ↦ (.str member.1, member.2)) = _
    rw [dictOf, strKeys_map]
    dsimp only
    rw [OrderedDict.entries_ofList hv.1]
  | hforeign id => exact False.elim hv

theorem forall₂_of_astToValues {nodes : List Expr} {values : List PyValue} (h : astToValues py nodes = .ok values) :
    List.Forall₂ (fun node value ↦ astToValue py node = .ok value) nodes values := by
  induction nodes generalizing values with
  | nil =>
    cases h
    exact .nil
  | cons node nodes ih =>
    obtain ⟨value, hvalue, h⟩ := Checks.bind_eq_ok_iff.1 h
    obtain ⟨rest, hrest, h⟩ := Checks.bind_eq_ok_iff.1 h
    cases h
    exact .cons hvalue (ih hrest)

theorem exists_of_astToEntries {entries : List (PyValue × PyValue)}
    (h : astToEntries py (ofMembers members) = .ok entries) :
    ∃ read : List (Text × PyValue), entries = read.map (fun member ↦ (.str member.1, member.2)) ∧
      List.Forall₂ (fun member member' ↦ member'.1 = member.1 ∧ astToValue py (ofValue member.2) = .ok member'.2)
        members read := by
  induction members generalizing entries with
  | nil =>
    cases h
    exact ⟨[], rfl, .nil⟩
  | cons member members ih =>
    obtain ⟨key, hkey, h⟩ := Checks.bind_eq_ok_iff.1 h
    cases hkey
    obtain ⟨value, hvalue, h⟩ := Checks.bind_eq_ok_iff.1 h
    obtain ⟨rest, hrest, h⟩ := Checks.bind_eq_ok_iff.1 h
    cases h
    obtain ⟨read, rfl, hread⟩ := ih hrest
    exact ⟨(member.1, value) :: read, rfl, .cons ⟨rfl, hvalue⟩ hread⟩

variable {f : Text → Text}

theorem map_mapStrings_eq_self_of_astToValues
    (ih : ∀ item ∈ items, astToValue py (ofValue (item.mapStrings f)) = .ok item → item.mapStrings f = item)
    (h : astToValues py (ofValues (PyValue.mapStringsOfItems f items)) = .ok items) :
    PyValue.mapStringsOfItems f items = items := by
  rw [PyValue.mapStringsOfItems_eq_map] at h ⊢
  rw [ofValues_eq_map, List.map_map] at h
  have hread := forall₂_of_astToValues py h
  rw [List.forall₂_map_left_iff, List.forall₂_same] at hread
  exact PyValue.map_eq_self_iff.2 fun item hitem ↦ ih item hitem (hread item hitem)

/-- What is read back from the literal of a value with other strings is the value only if they are its own. -/
theorem mapStrings_eq_self_of_astToValue {v : PyValue} (h : astToValue py (ofValue (v.mapStrings f)) = .ok v) :
    v.mapStrings f = v := by
  induction v using PyValue.ind with
  | hnone => rfl
  | hbool value => rfl
  | hint value => rfl
  | hstr text =>
    rw [PyValue.mapStrings, ofValue, astToValue] at h
    · exact Except.ok.inj h
    all_goals simp
  | hlist items ih =>
    rw [PyValue.mapStrings, ofValue, astToValue] at h
    obtain ⟨values, hvalues, h⟩ := Checks.bind_eq_ok_iff.1 h
    cases h
    rw [PyValue.mapStrings, map_mapStrings_eq_self_of_astToValues py ih hvalues]
  | htuple items ih =>
    rw [PyValue.mapStrings, ofValue, astToValue] at h
    obtain ⟨values, hvalues, h⟩ := Checks.bind_eq_ok_iff.1 h
    cases h
    rw [PyValue.mapStrings, map_mapStrings_eq_self_of_astToValues py ih hvalues]
  | hdict members ih =>
    rw [PyValue.mapStrings, ofValue, astToValue] at h
    obtain ⟨entries, hentries, h⟩ := Checks.bind_eq_ok_iff.1 h
    obtain ⟨read, rfl, hread⟩ := exists_of_astToEntries py hentries
    rw [dictOf, strKeys_map] at h
    have hmembers : (OrderedDict.ofList read).entries = members := PyValue.dict.inj (Except.ok.inj h)
    have hlength : read.length = members.length := by
      rw [← hread.length_eq, PyValue.mapStringsOfMembers_eq_map, List.length_map]
    -- no key was there twice, so that what was read are the members
    have hkept := OrderedDict.entries_ofList
      (OrderedDict.nodup_of_length_ofList (l := read) (by rw [hmembers, hlength]))
    rw [hmembers] at hkept
    subst hkept
    rw [PyValue.mapStrings, PyValue.mapStringsOfMembers_eq_map]
    rw [PyValue.mapStringsOfMembers_eq_map, List.forall₂_map_left_iff, List.forall₂_same] at hread
    refine congrArg PyValue.dict (PyValue.map_eq_self_iff.2 fun member hmember ↦ ?_)
    obtain ⟨hkey, hvalue⟩ := hread member hmember
    exact Prod.ext hkey.symm (ih member hmember hvalue)
  | hforeign id => rfl

end Literals

/-! ## The text of a call -/

structure Call where
  service : Option Text
  function : Text
  args : List PyValue
  kwargs : List (Text × PyValue)

namespace Call

section Text

variable (py : Python) (call : Call)

def values : List PyValue := call.args ++ call.kwargs.map Prod.snd

def strings : List Text := call.values.flatMap PyValue.strings

def funcText : Text :=
  match call.service with
  | some service => service ++ '.' :: call.function
  | none => call.function

/-- The call as it is written: arguments as their literals, a name and an equals sign before those by keyword. -/
def render : Text :=
  call.funcText ++ '(' :: (joined (call.args.map (PyValue.repr py.toPyTable py.reprForeign) ++
    call.kwargs.map fun kwarg ↦ kwarg.1 ++ '=' :: PyValue.repr py.toPyTable py.reprForeign kwarg.2) ++ [')'])

def func : Expr :=
  match call.service with
  | some service => .attribute (.name (py.nfkc service)) (py.nfkc call.function)
  | none => .name (py.nfkc call.function)

/-- The syntax tree of the call. -/
def expr : Expr :=
  .call (call.func py) (call.args.map ofValue) (call.kwargs.map fun kwarg ↦ (some (py.nfkc kwarg.1), ofValue kwarg.2))

/-- The call whose text the parser is given. -/
def escaped : Call where
  service := call.service
  function := call.function
  args := call.args.map (PyValue.mapStrings (escapedString py.toPyTable))
  kwargs := call.kwargs.map fun kwarg ↦
    (escapedName py.toCharTable kwarg.1, kwarg.2.mapStrings (escapedString py.toPyTable))

/-- The names are identifiers, those of keyword arguments possibly reserved, and every value has a literal. -/
structure WellFormed : Prop where
  function : py.isIdentifier call.function = true
  service : ∀ service ∈ call.service, py.isIdentifier service = true
  names : ∀ kwarg ∈ call.kwargs, py.isIdentifier kwarg.1 = true ∨ kwarg.1 ∈ reservedKeywords
  values : ∀ value ∈ call.values, value.Plain

/-- The parser reads the text of the call as the call, if its names are identifiers. -/
def ReadsBack : Prop :=
  py.isIdentifier call.function = true → (∀ service ∈ call.service, py.isIdentifier service = true) →
    (∀ kwarg ∈ call.kwargs, py.isIdentifier kwarg.1 = true) → py.astParse (call.render py) = some (call.expr py)

/-- The keys under which the arguments are stored. -/
def argumentNames : List Text :=
  (List.range call.args.length).map posName ++
    call.kwargs.map fun kwarg ↦ py.nfkc (escapedName py.toCharTable kwarg.1)

/-- Exactly the values of the arguments come back. -/
def Survives : Prop :=
  ∃ parsed, parseFunctionCall py (call.render py) = .ok parsed ∧ parsed.arguments.values = call.values

end Text

/-! ## What the parser is given -/

section Escaped

variable {py : Python} {call : Call}
variable {name : Text}

theorem isIdContinue_of_mem (h : py.isIdentifier name = true ∨ name ∈ reservedKeywords) :
    ∀ c ∈ name, py.isIdContinue c = true := by
  intro c hc
  obtain hname | hname := h
  · cases name with
    | nil => cases hc
    | cons first rest =>
      rw [PyTable.isIdentifier, Bool.and_eq_true, Bool.and_eq_true] at hname
      obtain rfl | hc := List.mem_cons.1 hc
      · exact py.isIdContinue_of_isIdStart c hname.1.1
      · exact List.all_eq_true.1 hname.1.2 c hc
  · have hlower := isLower_of_mem_reservedKeywords hname c hc
    have halnum := isAlphanum_of_isLower hlower
    rw [py.ascii_isIdContinue c (toNat_lt_of_isAlphanum halnum), halnum, Bool.true_or]

theorem notMem_of_name (h : py.isIdentifier name = true ∨ name ∈ reservedKeywords) :
    ∀ c ∈ name, py.isspace c = false ∧ c ≠ '=' := by
  intro c hc
  have hcontinue := isIdContinue_of_mem h c hc
  refine ⟨py.isspace_of_isIdContinue c hcontinue, ?_⟩
  rintro rfl
  rw [py.ascii_isIdContinue '=' (by decide)] at hcontinue
  cases hcontinue

/-- Every name is an identifier after the rewriting. -/
theorem isIdentifier_escapedName (h : py.isIdentifier name = true ∨ name ∈ reservedKeywords) :
    py.isIdentifier (escapedName py.toCharTable name) = true := by
  have hchars := isIdContinue_of_mem h
  obtain hsame | hsuffixed := (escapedName_cases (notMem_of_name h)).2
  · rw [hsame]
    exact h.resolve_right fun hreserved ↦ escapedName_ne_of_mem hreserved hsame
  · have hstart : ∃ c t, name = c :: t ∧ py.isIdStart c = true := by
      obtain hname | hname := h
      · cases name with
        | nil => cases hname
        | cons c t =>
          rw [PyTable.isIdentifier, Bool.and_eq_true, Bool.and_eq_true] at hname
          exact ⟨c, t, rfl, hname.1.1⟩
      · obtain ⟨c, t, rfl⟩ := List.exists_cons_of_ne_nil (ne_nil_of_mem_reservedKeywords hname)
        have hlower := isLower_of_mem_reservedKeywords hname c List.mem_cons_self
        refine ⟨c, t, rfl, ?_⟩
        rw [py.ascii_isIdStart c (toNat_lt_of_isAlphanum (isAlphanum_of_isLower hlower)),
          isAlpha_of_isLower hlower, Bool.true_or]
    obtain ⟨c, t, rfl, hc⟩ := hstart
    have hkeyword : c :: (t ++ ['_']) ∉ PyTable.keywords := by
      have hlast : ∀ keyword ∈ PyTable.keywords, keyword.getLast? ≠ some '_' := by decide
      refine fun hmem ↦ hlast _ hmem ?_
      rw [← List.cons_append, List.getLast?_concat]
    have hunderscore : py.isIdContinue '_' = true := by
      rw [py.ascii_isIdContinue '_' (by decide)]
      decide
    rw [hsuffixed, List.cons_append, PyTable.isIdentifier, hc, List.all_append,
      List.all_eq_true.2 fun d hd ↦ hchars d (List.mem_cons_of_mem c hd)]
    simp [hunderscore, hkeyword]

/-- The text that the parser is given is that of a call. -/
theorem escape_render (h : call.WellFormed py) :
    escapeReservedKeywords py.toCharTable (call.render py) = (call.escaped py).render py := by
  have hfunc : escapeReservedKeywords py.toCharTable call.funcText = call.funcText := by
    refine escapeFrom_of_notMem (fun hmem ↦ ?_) false
    have hfunction : '=' ∉ call.function := fun hmem ↦ (notMem_of_name (.inl h.function) '=' hmem).2 rfl
    unfold funcText at hmem
    cases hservice : call.service with
    | none =>
      rw [hservice] at hmem
      exact hfunction hmem
    | some service =>
      rw [hservice] at hmem
      obtain hmem | hmem := List.mem_append.1 hmem
      · exact (notMem_of_name (.inl (h.service service hservice)) '=' hmem).2 rfl
      · obtain heq | hmem := List.mem_cons.1 hmem
        · cases heq
        · exact hfunction hmem
  have hargs : (call.args.map (PyValue.repr py.toPyTable py.reprForeign)).map (escapeReservedKeywords py.toCharTable) =
      (call.escaped py).args.map (PyValue.repr py.toPyTable py.reprForeign) := by
    rw [escaped, List.map_map, List.map_map]
    exact List.map_congr_left fun value hvalue ↦
      escape_repr py.toPyTable py.reprForeign (h.values value (List.mem_append_left _ hvalue))
  have hkwargs : (call.kwargs.map fun kwarg ↦ kwarg.1 ++ '=' :: PyValue.repr py.toPyTable py.reprForeign kwarg.2).map
      (escapeReservedKeywords py.toCharTable) = (call.escaped py).kwargs.map fun kwarg ↦
        kwarg.1 ++ '=' :: PyValue.repr py.toPyTable py.reprForeign kwarg.2 := by
    rw [escaped, List.map_map, List.map_map]
    refine List.map_congr_left fun kwarg hkwarg ↦ ?_
    rw [Function.comp_apply, escape_keyword (notMem_of_name (h.names kwarg hkwarg)),
      escape_repr py.toPyTable py.reprForeign (h.values kwarg.2 (List.mem_append_right _ (List.mem_map_of_mem hkwarg)))]
    rfl
  rw [render, escape_append (separates py.toPyTable (by simp)), hfunc,
    escape_append (separates py.toPyTable (by simp)), escape_joined, List.map_append, hargs, hkwargs]
  rfl

end Escaped

/-! ## The arguments -/

section Arguments

variable (py : Python)

/-- Positional arguments from a place on, each with its key. -/
def positionals : ℕ → List PyValue → List (Text × PyValue)
  | _, [] => []
  | i, value :: values => (posName i, value) :: positionals (i + 1) values

variable (i : ℕ)

theorem map_fst_positionals (values : List PyValue) :
    (positionals i values).map Prod.fst = (List.range' i values.length).map posName := by
  induction values generalizing i with
  | nil => rfl
  | cons value values ih => rw [positionals, List.map_cons, ih, List.length_cons, List.range'_succ, List.map_cons]

theorem map_snd_positionals (values : List PyValue) : (positionals i values).map Prod.snd = values := by
  induction values generalizing i with
  | nil => rfl
  | cons value values ih => rw [positionals, List.map_cons, ih]

theorem setPositional_eq (args : List Expr) (d : OrderedDict Text PyValue) : setPositional py i args d =
    (astToValues py args).map fun values ↦
      (positionals i values).foldl (fun acc entry ↦ acc.set entry.1 entry.2) d := by
  induction args generalizing i d with
  | nil => rfl
  | cons arg args ih =>
    rw [setPositional, astToValues]
    cases astToValue py arg with
    | error e => rfl
    | ok value =>
      refine (ih (i + 1) (d.set (posName i) value)).trans ?_
      cases hrest : astToValues py args with
      | error e => rfl
      | ok values => rfl

theorem setKeywords_eq (names : List Text) (nodes : List Expr) (hlength : names.length = nodes.length)
    (d : OrderedDict Text PyValue) : setKeywords py ((names.map some).zip nodes) d =
      (astToValues py nodes).map fun values ↦
        (names.zip values).foldl (fun acc entry ↦ acc.set entry.1 entry.2) d := by
  induction nodes generalizing names d with
  | nil =>
    cases names with
    | nil => rfl
    | cons name names => cases hlength
  | cons node nodes ih =>
    cases names with
    | nil => cases hlength
    | cons name names =>
      rw [List.map_cons, List.zip_cons_cons, setKeywords, astToValues]
      cases astToValue py node with
      | error e => rfl
      | ok value =>
        refine (ih names (Nat.succ.inj hlength) (d.set name value)).trans ?_
        cases hrest : astToValues py nodes with
        | error e => rfl
        | ok values => rfl

end Arguments

/-! ## What comes back -/

section Survives

variable {py : Python} {call : Call}

/-- What the escaped call is parsed to. -/
theorem parseFunctionCall_render (h : call.WellFormed py) (hparse : (call.escaped py).ReadsBack py) :
    ∃ name : Option Text × Text, parseFunctionCall py (call.render py) = (do
      let values ← astToValues py ((call.escaped py).args.map ofValue)
      let named ← astToValues py ((call.escaped py).kwargs.map fun kwarg ↦ ofValue kwarg.2)
      .ok ⟨name.2, name.1.filter (· ≠ []), .ofList (positionals 0 values ++
        (((call.escaped py).kwargs.map fun kwarg ↦ py.nfkc kwarg.1).zip named))⟩) := by
  have hnames : ∀ kwarg ∈ (call.escaped py).kwargs, py.isIdentifier kwarg.1 = true := by
    intro kwarg hkwarg
    obtain ⟨original, horiginal, rfl⟩ := List.mem_map.1 hkwarg
    exact isIdentifier_escapedName (h.names original horiginal)
  have htree := hparse h.function h.service hnames
  rw [← escape_render h] at htree
  have hname : ∃ name, functionName ((call.escaped py).func py) = .ok name := by
    unfold func
    split
    · exact ⟨_, rfl⟩
    · exact ⟨_, rfl⟩
  obtain ⟨name, hname⟩ := hname
  refine ⟨name, ?_⟩
  have hzip : ((call.escaped py).kwargs.map fun kwarg ↦ (some (py.nfkc kwarg.1), ofValue kwarg.2)) =
      (((call.escaped py).kwargs.map fun kwarg ↦ py.nfkc kwarg.1).map some).zip
        ((call.escaped py).kwargs.map fun kwarg ↦ ofValue kwarg.2) := by
    rw [List.map_map, List.zip_map']
    rfl
  rw [parseFunctionCall, htree, expr]
  dsimp only
  rw [hname, hzip]
  change (setPositional py 0 _ .empty >>= fun arguments ↦ setKeywords py _ arguments >>= fun arguments ↦ _) = _
  rw [setPositional_eq]
  cases astToValues py ((call.escaped py).args.map ofValue) with
  | error e => rfl
  | ok values =>
    change (setKeywords py _ _ >>= fun arguments ↦ _) = _
    rw [setKeywords_eq py _ _ (by rw [List.length_map, List.length_map])]
    cases astToValues py ((call.escaped py).kwargs.map fun kwarg ↦ ofValue kwarg.2) with
    | error e => rfl
    | ok named =>
      change Except.ok _ = Except.ok _
      rw [OrderedDict.ofList, List.foldl_append]

variable (py call) in
theorem escaped_names : (call.escaped py).kwargs.map (fun kwarg ↦ py.nfkc kwarg.1) =
    call.kwargs.map fun kwarg ↦ py.nfkc (escapedName py.toCharTable kwarg.1) := by
  rw [escaped, List.map_map]
  rfl

variable (py) in
theorem map_fst_arguments {values named : List PyValue} (hvalues : values.length = call.args.length)
    (hnamed : named.length = call.kwargs.length) :
    (positionals 0 values ++ ((call.escaped py).kwargs.map fun kwarg ↦ py.nfkc kwarg.1).zip named).map Prod.fst =
      call.argumentNames py := by
  rw [List.map_append, map_fst_positionals, hvalues, ← List.range_eq_range', escaped_names, List.map_fst_zip,
    argumentNames]
  rw [List.length_map, hnamed]

variable (py) in
theorem map_snd_arguments (values : List PyValue) {named : List PyValue} (hnamed : named.length = call.kwargs.length) :
    (positionals 0 values ++ ((call.escaped py).kwargs.map fun kwarg ↦ py.nfkc kwarg.1).zip named).map Prod.snd =
      values ++ named := by
  rw [List.map_append, map_snd_positionals, escaped_names, List.map_snd_zip]
  rw [List.length_map, hnamed]

/-- What comes back of a call whose values survive: each value is read back from its own literal. -/
theorem read_of_survives (h : call.WellFormed py) (hparse : (call.escaped py).ReadsBack py)
    (hsurvives : call.Survives py) : (call.argumentNames py).Nodup ∧
      ∀ value ∈ call.values, astToValue py (ofValue (value.mapStrings (escapedString py.toPyTable))) = .ok value := by
  obtain ⟨parsed, hparsed, hvalues⟩ := hsurvives
  obtain ⟨name, hname⟩ := parseFunctionCall_render h hparse
  rw [hname] at hparsed
  obtain ⟨values, hargs, hparsed⟩ := Checks.bind_eq_ok_iff.1 hparsed
  obtain ⟨named, hkwargs, hparsed⟩ := Checks.bind_eq_ok_iff.1 hparsed
  cases hparsed
  have hargs := forall₂_of_astToValues py hargs
  have hkwargs := forall₂_of_astToValues py hkwargs
  have hargsLength : values.length = call.args.length := by
    rw [← hargs.length_eq, escaped, List.length_map, List.length_map]
  have hkwargsLength : named.length = call.kwargs.length := by
    rw [← hkwargs.length_eq, escaped, List.length_map, List.length_map]
  have hsnd := map_snd_arguments py values hkwargsLength
  have hfst := map_fst_arguments py hargsLength hkwargsLength
  generalize (positionals 0 values ++ ((call.escaped py).kwargs.map fun kwarg ↦ py.nfkc kwarg.1).zip named) =
    entries at *
  have hlength : (OrderedDict.ofList entries).entries.length = entries.length := by
    have hcount := congrArg List.length hvalues
    have hentries := congrArg List.length hsnd
    rw [OrderedDict.values, List.length_map] at hcount
    rw [List.length_map, List.length_append] at hentries
    rw [hcount, hentries, Call.values, List.length_append, List.length_map, hargsLength, hkwargsLength]
  have hnodup := OrderedDict.nodup_of_length_ofList hlength
  refine ⟨hfst ▸ hnodup, ?_⟩
  rw [OrderedDict.values, OrderedDict.entries_ofList hnodup, hsnd, Call.values] at hvalues
  obtain ⟨rfl, rfl⟩ := List.append_inj hvalues hargsLength
  intro value hvalue
  obtain hvalue | hvalue := List.mem_append.1 hvalue
  · rw [escaped, List.map_map, List.forall₂_map_left_iff, List.forall₂_same] at hargs
    exact hargs value hvalue
  · rw [escaped, List.map_map, List.forall₂_map_left_iff, List.forall₂_map_right_iff, List.forall₂_same] at hkwargs
    obtain ⟨kwarg, hkwarg, rfl⟩ := List.mem_map.1 hvalue
    exact hkwargs kwarg hkwarg

/-- The literals of the strings of a call whose values survive stay what they are. -/
theorem escape_of_survives (h : call.WellFormed py) (hparse : (call.escaped py).ReadsBack py)
    (hsurvives : call.Survives py) :
    ∀ text ∈ call.strings,
      escapeReservedKeywords py.toCharTable (reprStr py.toPyTable text) = reprStr py.toPyTable text := by
  intro text htext
  obtain ⟨value, hvalue, htext⟩ := List.mem_flatMap.1 htext
  have hread := (read_of_survives h hparse hsurvives).2 value hvalue
  exact (escapedString_eq_self_iff py.toPyTable).1
    (PyValue.mapStrings_eq_self_iff.1 (mapStrings_eq_self_of_astToValue py hread) text htext)

/-- Arguments under distinct names whose strings are not rewritten come back. -/
theorem survives_of_escape (h : call.WellFormed py) (hparse : (call.escaped py).ReadsBack py)
    (hstrings : ∀ text ∈ call.strings,
      escapeReservedKeywords py.toCharTable (reprStr py.toPyTable text) = reprStr py.toPyTable text)
    (hnames : (call.argumentNames py).Nodup) : call.Survives py := by
  have hsame : ∀ value ∈ call.values, value.mapStrings (escapedString py.toPyTable) = value := fun value hvalue ↦
    PyValue.mapStrings_eq_self_iff.2 fun text htext ↦
      (escapedString_eq_self_iff py.toPyTable).2 (hstrings text (List.mem_flatMap.2 ⟨value, hvalue, htext⟩))
  have hread (values : List PyValue) (hvalues : ∀ value ∈ values, value ∈ call.values) :
      astToValues py (values.map fun value ↦ ofValue (value.mapStrings (escapedString py.toPyTable))) = .ok values := by
    have hmap : (values.map fun value ↦ ofValue (value.mapStrings (escapedString py.toPyTable))) = ofValues values := by
      rw [ofValues_eq_map]
      exact List.map_congr_left fun value hvalue ↦ congrArg ofValue (hsame value (hvalues value hvalue))
    rw [hmap]
    exact astToValues_ofValues py fun value hvalue ↦ astToValue_ofValue py (h.values value (hvalues value hvalue))
  obtain ⟨name, hname⟩ := parseFunctionCall_render h hparse
  have hargs : astToValues py ((call.escaped py).args.map ofValue) = .ok call.args := by
    rw [escaped, List.map_map]
    exact hread call.args fun value hvalue ↦ List.mem_append_left _ hvalue
  have hkwargs : astToValues py ((call.escaped py).kwargs.map fun kwarg ↦ ofValue kwarg.2) =
      .ok (call.kwargs.map Prod.snd) := by
    have hmap := hread (call.kwargs.map Prod.snd) fun value hvalue ↦ List.mem_append_right _ hvalue
    rw [List.map_map] at hmap
    rw [escaped, List.map_map]
    exact hmap
  rw [hargs, hkwargs] at hname
  refine ⟨_, hname, ?_⟩
  have hlength : (call.kwargs.map Prod.snd).length = call.kwargs.length := List.length_map _
  have hfst := map_fst_arguments py (Eq.refl call.args.length) hlength
  change (OrderedDict.ofList _).values = _
  rw [OrderedDict.values, OrderedDict.entries_ofList (hfst ▸ hnames), map_snd_arguments py call.args hlength,
    Call.values]

/-- The arguments of a call come back exactly when no literal of a string in them holds a reserved word in front of an
equals sign and the names that they are stored under are distinct. -/
theorem survives_iff (h : call.WellFormed py) (hparse : (call.escaped py).ReadsBack py) : call.Survives py ↔
    (∀ text ∈ call.strings,
      escapeReservedKeywords py.toCharTable (reprStr py.toPyTable text) = reprStr py.toPyTable text) ∧
    (call.argumentNames py).Nodup :=
  ⟨fun hsurvives ↦ ⟨escape_of_survives h hparse hsurvives, (read_of_survives h hparse hsurvives).1⟩,
    fun hboth ↦ survives_of_escape h hparse hboth.1 hboth.2⟩

/-- A parser that knows one text. -/
def reading (text : Text) (tree : Expr) : Python where
  toPyTable := .ascii
  reprForeign _ := []
  nfkc name := name
  astParse t := if t = text then some tree else none
  literalEval _ := none
  dictDisplay _ := none

def sendCall : Call :=
  ⟨some "mail".toList, "send".toList, [.int (-1)],
    [("from".toList, .str "a=b".toList), ("to".toList, .list [.none])]⟩

def sendPython : Python :=
  reading "mail.send(-1, from_='a=b', to=[None])".toList
    (.call (.attribute (.name "mail".toList) "send".toList) [.negative (.constant (.int 1))]
      [(some "from_".toList, .constant (.str "a=b".toList)), (some "to".toList, .list [.constant .none])])

theorem survives_iff_send : sendCall.Survives sendPython :=
  (survives_iff ⟨by decide, by decide, by decide, by simp [values, sendCall, PyValue.Plain, PyValue.PlainItems]⟩
    (fun _ _ _ ↦ by rfl)).2 ⟨by decide +kernel, by decide +kernel⟩

def logCall : Call := ⟨none, "log".toList, [.str "from =".toList], []⟩

def logPython : Python :=
  reading "log('from_=')".toList (.call (.name "log".toList) [.constant (.str "from_=".toList)] [])

/-- A string that reads like a reserved argument name does not come back. -/
theorem not_survives : ¬ ∀ (py : Python) (call : Call), call.WellFormed py → (call.escaped py).ReadsBack py →
    call.Survives py := by
  intro h
  have hcall : logCall.WellFormed logPython :=
    ⟨by decide, by decide, by decide, by simp [values, logCall, PyValue.Plain]⟩
  have hparse : (logCall.escaped logPython).ReadsBack logPython := fun _ _ _ ↦ by rfl
  have hsame := escape_of_survives hcall hparse (h logPython logCall hcall hparse) "from =".toList (by decide)
  revert hsame
  decide +kernel

end Survives

end Call

end Lionagi.Lndl
