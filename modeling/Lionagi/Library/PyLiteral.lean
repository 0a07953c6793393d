import Lionagi.Library.OrderedDict
import Lionagi.Library.PyJson

/-!
# Python literals

The values that a literal denotes, with `repr` for them, and the identifiers. What characters are printable and which
an identifier may hold is a table, as the classes of characters are.
-/

/-! ## Tables -/

/-- The classes that `repr` and the tokenizer of the language ask for, known on ASCII. -/
structure PyTable extends CharTable where
  isprintable : Char → Bool
  isIdStart : Char → Bool
  isIdContinue : Char → Bool
  eq_space_of_isprintable : ∀ c, isprintable c = true → isspace c = true → c = ' '
  isIdContinue_of_isIdStart : ∀ c, isIdStart c = true → isIdContinue c = true
  isspace_of_isIdContinue : ∀ c, isIdContinue c = true → isspace c = false
  ascii_isprintable : ∀ c : Char, c.toNat < 128 → isprintable c = decide (32 ≤ c.toNat ∧ c.toNat < 127)
  ascii_isIdStart : ∀ c : Char, c.toNat < 128 → isIdStart c = (c.isAlpha || c == '_')
  ascii_isIdContinue : ∀ c : Char, c.toNat < 128 → isIdContinue c = (c.isAlphanum || c == '_')

namespace PyTable

/-- The table that knows no other characters. -/
def ascii : PyTable where
  toCharTable := .ascii
  isprintable c := decide (32 ≤ c.toNat ∧ c.toNat < 127)
  isIdStart c := c.isAlpha || c == '_'
  isIdContinue c := c.isAlphanum || c == '_'
  eq_space_of_isprintable c hprintable hspace := by
    have hc : 9 ≤ c.toNat ∧ c.toNat ≤ 13 ∨ 28 ≤ c.toNat ∧ c.toNat ≤ 32 := of_decide_eq_true hspace
    rw [decide_eq_true_eq] at hprintable
    have heq : c.toNat = ' '.toNat := by
      change c.toNat = 32
      omega
    rw [← Char.ofNat_toNat c, heq]
    rfl
  isIdContinue_of_isIdStart c h := by
    rw [Bool.or_eq_true] at h ⊢
    exact h.imp_left fun halpha ↦ by rw [Char.isAlphanum, halpha, Bool.true_or]
  isspace_of_isIdContinue c h := by
    rw [Bool.or_eq_true, beq_iff_eq] at h
    obtain halnum | rfl := h
    · exact CharTable.ascii.isspace_of_isalnum c halnum
    · decide
  ascii_isprintable _ _ := rfl
  ascii_isIdStart _ _ := rfl
  ascii_isIdContinue _ _ := rfl

variable (py : PyTable)

def keywords : List Text :=
  ["False", "None", "True", "and", "as", "assert", "async", "await", "break", "class", "continue", "def", "del",
    "elif", "else", "except", "finally", "for", "from", "global", "if", "import", "in", "is", "lambda", "nonlocal",
    "not", "or", "pass", "raise", "return", "try", "while", "with", "yield"].map String.toList

/-- A name that is no keyword. -/
def isIdentifier : Text → Bool
  | [] => false
  | c :: t => py.isIdStart c && t.all py.isIdContinue && !keywords.contains (c :: t)

end PyTable

/-! ## Values -/

/-- What a literal denotes; `foreign` stands for any other object. -/
inductive PyValue where
  | none
  | bool (value : Bool)
  | int (value : ℤ)
  | str (text : Text)
  | list (items : List PyValue)
  | tuple (items : List PyValue)
  | dict (members : List (Text × PyValue))
  | foreign (id : ℕ)

namespace PyValue

section Induction

variable {motive : PyValue → Prop} (hnone : motive .none) (hbool : ∀ value, motive (.bool value))
  (hint : ∀ value, motive (.int value)) (hstr : ∀ text, motive (.str text))
  (hlist : ∀ items, (∀ item ∈ items, motive item) → motive (.list items))
  (htuple : ∀ items, (∀ item ∈ items, motive item) → motive (.tuple items))
  (hdict : ∀ members, (∀ member ∈ members, motive member.2) → motive (.dict members))
  (hforeign : ∀ id, motive (.foreign id))

include hnone hbool hint hstr hlist htuple hdict hforeign

/-- Induction with a hypothesis for each item and each member. -/
@[elab_as_elim]
theorem ind (v : PyValue) : motive v :=
  @PyValue.rec motive (fun items ↦ ∀ item ∈ items, motive item) (fun members ↦ ∀ member ∈ members, motive member.2)
    (fun member ↦ motive member.2) hnone hbool hint hstr hlist htuple hdict hforeign
    (fun _ h ↦ absurd h List.not_mem_nil)
    (fun _ _ hitem hitems other hother ↦ (List.mem_cons.1 hother).elim (· ▸ hitem) (hitems other))
    (fun _ h ↦ absurd h List.not_mem_nil)
    (fun _ _ hmember hmembers other hother ↦ (List.mem_cons.1 hother).elim (· ▸ hmember) (hmembers other))
    (fun _ _ hvalue ↦ hvalue) v

end Induction

/-! ## `repr` -/

section Repr

open PyJson

variable (py : PyTable) (reprForeign : ℕ → Text)

/-- Two quotes are used for a string with one quote in it and no two. -/
def reprQuote (t : Text) : Char := if '\'' ∈ t ∧ '"' ∉ t then '"' else '\''

/-- So many hexadecimal digits. -/
def hexDigits : ℕ → ℕ → Text
  | 0, _ => []
  | digits + 1, n => hexDigits digits (n / 16) ++ [hexDigit (n % 16)]

/-- A character inside of quotes. -/
def reprChar (quote c : Char) : Text :=
  if c = quote ∨ c = backslash then [backslash, c]
  else if c = '\t' then [backslash, 't']
  else if c = '\n' then [backslash, 'n']
  else if c = '\r' then [backslash, 'r']
  else if py.isprintable c then [c]
  else if c.toNat < 256 then backslash :: 'x' :: hexDigits 2 c.toNat
  else if c.toNat < 65536 then backslash :: 'u' :: hexDigits 4 c.toNat
  else backslash :: 'U' :: hexDigits 8 c.toNat

variable {c quote : Char}

theorem isAlphanum_of_mem_hexDigits {digits n : ℕ} (hc : c ∈ hexDigits digits n) : c.isAlphanum = true := by
  have hdigit : ∀ n < 16, (hexDigit n).isAlphanum = true := by decide
  induction digits generalizing n with
  | zero => exact absurd hc List.not_mem_nil
  | succ digits ih =>
    rw [hexDigits, List.mem_append, List.mem_singleton] at hc
    obtain hc | rfl := hc
    · exact ih hc
    · exact hdigit _ (Nat.mod_lt _ (by decide))

/-- A character is written as itself, or as a backslash, a mark and hexadecimal digits. -/
theorem reprChar_eq (quote c : Char) : reprChar py quote c = [c] ∨
    (c = '\r' ∧ reprChar py quote c = [backslash, 'r']) ∨
    ∃ mark digits, reprChar py quote c = backslash :: mark :: digits ∧
      (mark ∈ [quote, backslash, 't', 'n'] ∧ digits = [] ∨
        mark ∈ ['x', 'u', 'U'] ∧ ∀ digit ∈ digits, digit.isAlphanum = true) := by
  unfold reprChar
  split_ifs with hquote htab hnewline hreturn hprintable hbyte hshort
  · refine .inr (.inr ⟨c, [], rfl, .inl ⟨?_, rfl⟩⟩)
    obtain rfl | rfl := hquote <;> simp
  · exact .inr (.inr ⟨'t', [], rfl, .inl ⟨by simp, rfl⟩⟩)
  · exact .inr (.inr ⟨'n', [], rfl, .inl ⟨by simp, rfl⟩⟩)
  · exact .inr (.inl ⟨hreturn, rfl⟩)
  · exact .inl rfl
  · exact .inr (.inr ⟨'x', _, rfl, .inr ⟨by simp, fun _ ↦ isAlphanum_of_mem_hexDigits⟩⟩)
  · exact .inr (.inr ⟨'u', _, rfl, .inr ⟨by simp, fun _ ↦ isAlphanum_of_mem_hexDigits⟩⟩)
  · exact .inr (.inr ⟨'U', _, rfl, .inr ⟨by simp, fun _ ↦ isAlphanum_of_mem_hexDigits⟩⟩)

theorem reprChar_ne_nil (quote c : Char) : reprChar py quote c ≠ [] := by
  obtain hself | ⟨-, hreturn⟩ | ⟨mark, digits, hmark, -⟩ := reprChar_eq py quote c
  · exact hself ▸ List.cons_ne_nil _ _
  · exact hreturn ▸ List.cons_ne_nil _ _
  · exact hmark ▸ List.cons_ne_nil _ _

/-- What starts without a backslash is written as itself. -/
theorem reprChar_eq_of_ne {x : Char} {t : Text} (h : reprChar py quote c = x :: t) (hx : x ≠ backslash) :
    x = c ∧ t = [] := by
  obtain hself | ⟨-, hreturn⟩ | ⟨mark, digits, hmark, -⟩ := reprChar_eq py quote c
  · rw [hself] at h
    exact ⟨(List.cons.inj h).1.symm, (List.cons.inj h).2.symm⟩
  · rw [hreturn] at h
    exact absurd (List.cons.inj h).1.symm hx
  · rw [hmark] at h
    exact absurd (List.cons.inj h).1.symm hx

theorem reprChar_of_isprintable (hprintable : py.isprintable c = true) (hc : c ∉ [quote, backslash, '\t', '\n', '\r']) :
    reprChar py quote c = [c] := by
  simp only [List.mem_cons, List.not_mem_nil, or_false, not_or] at hc
  obtain ⟨hquote, hbackslash, htab, hnewline, hreturn⟩ := hc
  simp [reprChar, hquote, hbackslash, htab, hnewline, hreturn, hprintable]

/-- What stands between the quotes. -/
def reprBody (quote : Char) (t : Text) : Text := t.flatMap (reprChar py quote)

def reprStr (t : Text) : Text := reprQuote t :: (reprBody py (reprQuote t) t ++ [reprQuote t])

theorem count_reprChar (hquote : quote ≠ '_') (c : Char) : (reprChar py quote c).count '_' = [c].count '_' := by
  obtain hself | ⟨rfl, hreturn⟩ | ⟨mark, digits, hmark, hkind⟩ := reprChar_eq py quote c
  · rw [hself]
  · rw [hreturn]
    decide
  · have hc : c ≠ '_' := by
      rintro rfl
      have hself : reprChar py quote '_' = ['_'] := by
        refine reprChar_of_isprintable py ?_ (by simpa [backslash] using Ne.symm hquote)
        rw [py.ascii_isprintable '_' (by decide)]
        decide
      rw [hself] at hmark
      exact List.cons_ne_nil _ _ (List.cons.inj hmark).2.symm
    have hnone : '_' ∉ reprChar py quote c := by
      rw [hmark, List.mem_cons, List.mem_cons, not_or, not_or]
      obtain ⟨hkind, rfl⟩ | ⟨hkind, hdigits⟩ := hkind
      · refine ⟨by decide, ?_, List.not_mem_nil⟩
        rintro rfl
        simp [backslash, Ne.symm hquote] at hkind
      · refine ⟨by decide, ?_, fun hmem ↦ ?_⟩
        · rintro rfl
          simp at hkind
        · have halnum := hdigits '_' hmem
          cases halnum
    rw [List.count_eq_zero_of_not_mem hnone, List.count_singleton, if_neg (by simpa using hc)]

/-- A literal has the underscores of its string. -/
theorem count_reprStr (t : Text) : (reprStr py t).count '_' = t.count '_' := by
  have hquote : reprQuote t ≠ '_' := by
    unfold reprQuote
    split <;> decide
  have hbody (s : Text) : (reprBody py (reprQuote t) s).count '_' = s.count '_' := by
    induction s with
    | nil => rfl
    | cons c s ih =>
      calc
        _ = (reprChar py (reprQuote t) c ++ reprBody py (reprQuote t) s).count '_' := by
          rw [reprBody, List.flatMap_cons, reprBody]
        _ = [c].count '_' + s.count '_' := by rw [List.count_append, count_reprChar py hquote, ih]
        _ = ([c] ++ s).count '_' := List.count_append.symm
  rw [reprStr, List.count_cons_of_ne hquote, List.count_append, hbody, List.count_singleton,
    if_neg (by simpa using hquote), Nat.add_zero]

def joined (ts : List Text) : Text := List.intercalate ", ".toList ts

mutual

def repr : PyValue → Text
  | .none => "None".toList
  | .bool true => "True".toList
  | .bool false => "False".toList
  | .int value => dumpsInt value
  | .str text => reprStr py text
  | .list items => '[' :: (joined (reprItems items) ++ [']'])
  | .tuple items => '(' :: (joined (reprItems items) ++ (if items.length = 1 then [','] else []) ++ [')'])
  | .dict members => openBrace :: (joined (reprMembers members) ++ [closeBrace])
  | .foreign id => reprForeign id

def reprItems : List PyValue → List Text
  | [] => []
  | item :: items => repr item :: reprItems items

def reprMembers : List (Text × PyValue) → List Text
  | [] => []
  | (key, value) :: members => (reprStr py key ++ ':' :: ' ' :: repr value) :: reprMembers members

end

theorem reprItems_eq_map (items : List PyValue) : reprItems py reprForeign items = items.map (repr py reprForeign) := by
  induction items with
  | nil => rfl
  | cons item items ih => rw [reprItems, ih, List.map_cons]

theorem reprMembers_eq_map (members : List (Text × PyValue)) : reprMembers py reprForeign members =
    members.map fun member ↦ reprStr py member.1 ++ ':' :: ' ' :: repr py reprForeign member.2 := by
  induction members with
  | nil => rfl
  | cons member members ih => rw [reprMembers, ih, List.map_cons]

end Repr

/-! ## Strings in a value -/

mutual

/-- The strings of a value, those of keys with them. -/
def strings : PyValue → List Text
  | .str text => [text]
  | .list items => stringsOfItems items
  | .tuple items => stringsOfItems items
  | .dict members => stringsOfMembers members
  | _ => []

def stringsOfItems : List PyValue → List Text
  | [] => []
  | item :: items => strings item ++ stringsOfItems items

def stringsOfMembers : List (Text × PyValue) → List Text
  | [] => []
  | (key, value) :: members => key :: (strings value ++ stringsOfMembers members)

end

mutual

/-- Change every string. -/
def mapStrings (f : Text → Text) : PyValue → PyValue
  | .none => .none
  | .bool value => .bool value
  | .int value => .int value
  | .str text => .str (f text)
  | .list items => .list (mapStringsOfItems f items)
  | .tuple items => .tuple (mapStringsOfItems f items)
  | .dict members => .dict (mapStringsOfMembers f members)
  | .foreign id => .foreign id

def mapStringsOfItems (f : Text → Text) : List PyValue → List PyValue
  | [] => []
  | item :: items => mapStrings f item :: mapStringsOfItems f items

def mapStringsOfMembers (f : Text → Text) : List (Text × PyValue) → List (Text × PyValue)
  | [] => []
  | (key, value) :: members => (f key, mapStrings f value) :: mapStringsOfMembers f members

end

theorem stringsOfItems_eq_flatMap (items : List PyValue) : stringsOfItems items = items.flatMap strings := by
  induction items with
  | nil => rfl
  | cons item items ih => rw [stringsOfItems, ih, List.flatMap_cons]

theorem stringsOfMembers_eq_flatMap (members : List (Text × PyValue)) :
    stringsOfMembers members = members.flatMap fun member ↦ member.1 :: strings member.2 := by
  induction members with
  | nil => rfl
  | cons member members ih => rw [stringsOfMembers, ih, List.flatMap_cons, List.cons_append]

variable (f : Text → Text)

theorem mapStringsOfItems_eq_map (items : List PyValue) : mapStringsOfItems f items = items.map (mapStrings f) := by
  induction items with
  | nil => rfl
  | cons item items ih => rw [mapStringsOfItems, ih, List.map_cons]

theorem mapStringsOfMembers_eq_map (members : List (Text × PyValue)) :
    mapStringsOfMembers f members = members.map fun member ↦ (f member.1, mapStrings f member.2) := by
  induction members with
  | nil => rfl
  | cons member members ih => rw [mapStringsOfMembers, ih, List.map_cons]

theorem map_eq_self_iff {α : Type} {f : α → α} {l : List α} : l.map f = l ↔ ∀ a ∈ l, f a = a := by
  induction l with
  | nil => simp
  | cons a l ih => rw [List.map_cons, List.cons.injEq, ih, List.forall_mem_cons]

variable {items : List PyValue}

theorem map_mapStrings_eq_self_iff {f : Text → Text}
    (h : ∀ item ∈ items, item.mapStrings f = item ↔ ∀ text ∈ item.strings, f text = text) :
    items.map (mapStrings f) = items ↔ ∀ text ∈ items.flatMap strings, f text = text := by
  rw [map_eq_self_iff, List.forall_mem_flatMap]
  exact forall₂_congr h

/-- A value is not changed exactly when none of its strings is. -/
theorem mapStrings_eq_self_iff {f : Text → Text} {v : PyValue} :
    v.mapStrings f = v ↔ ∀ text ∈ v.strings, f text = text := by
  induction v using ind with
  | hnone => simp [mapStrings, strings]
  | hbool value => simp [mapStrings, strings]
  | hint value => simp [mapStrings, strings]
  | hstr text => rw [mapStrings, strings, PyValue.str.injEq, List.forall_mem_singleton]
  | hlist items ih =>
    rw [mapStrings, strings, PyValue.list.injEq, mapStringsOfItems_eq_map, stringsOfItems_eq_flatMap]
    exact map_mapStrings_eq_self_iff ih
  | htuple items ih =>
    rw [mapStrings, strings, PyValue.tuple.injEq, mapStringsOfItems_eq_map, stringsOfItems_eq_flatMap]
    exact map_mapStrings_eq_self_iff ih
  | hdict members ih =>
    rw [mapStrings, strings, PyValue.dict.injEq, mapStringsOfMembers_eq_map, stringsOfMembers_eq_flatMap,
      map_eq_self_iff, List.forall_mem_flatMap]
    refine forall₂_congr fun member hmember ↦ ?_
    rw [Prod.ext_iff, List.forall_mem_cons, ih member hmember]
  | hforeign id => simp [mapStrings, strings]

mutual

/-- A value that has a literal: no foreign object is in it, and no key of a dictionary is there twice. -/
def Plain : PyValue → Prop
  | .list items => PlainItems items
  | .tuple items => PlainItems items
  | .dict members => (members.map Prod.fst).Nodup ∧ PlainMembers members
  | .foreign _ => False
  | _ => True

def PlainItems : List PyValue → Prop
  | [] => True
  | item :: items => Plain item ∧ PlainItems items

def PlainMembers : List (Text × PyValue) → Prop
  | [] => True
  | (_, value) :: members => Plain value ∧ PlainMembers members

end

theorem plainItems_iff : PlainItems items ↔ ∀ item ∈ items, Plain item := by
  induction items with
  | nil => simp [PlainItems]
  | cons item items ih => rw [PlainItems, ih, List.forall_mem_cons]

theorem plainMembers_iff {members : List (Text × PyValue)} :
    PlainMembers members ↔ ∀ member ∈ members, Plain member.2 := by
  induction members with
  | nil => simp [PlainMembers]
  | cons member members ih => rw [PlainMembers, ih, List.forall_mem_cons]

end PyValue
