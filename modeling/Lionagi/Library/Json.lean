import Mathlib.Data.Finset.Dedup
import Mathlib.Data.Rat.Defs
import Mathlib.Data.Set.Finite.Basic

/-!
# JSON values

Objects are lists of members. Two values are the same up to the order of the members. A string occurs at a key
path of a value through objects by their keys and through arrays at any place.
-/

inductive Json where
  | null
  | bool (value : Bool)
  | num (value : ℚ)
  | str (value : String)
  | arr (items : List Json)
  | obj (members : List (String × Json))

namespace Json

/-- The members of an object; nothing else has any. -/
def members : Json → List (String × Json)
  | .obj members => members
  | _ => []

/-- The items of an array. -/
def items : Json → List Json
  | .arr items => items
  | _ => []

def lookup (key : String) (value : Json) : Option Json :=
  (value.members.find? fun member ↦ member.1 == key).map Prod.snd

def hasKey (key : String) (value : Json) : Bool := value.members.any fun member ↦ member.1 == key

theorem mem_members_of_lookup {key : String} {value found : Json} (h : value.lookup key = some found) :
    (key, found) ∈ value.members := by
  obtain ⟨member, hmember, rfl⟩ := Option.map_eq_some_iff.1 h
  have hkey : member.1 = key := by simpa using List.find?_some hmember
  rw [← hkey]
  exact List.mem_of_find?_eq_some hmember

theorem hasKey_iff {key : String} {value : Json} :
    value.hasKey key = true ↔ ∃ found, (key, found) ∈ value.members := by
  unfold hasKey
  rw [List.any_eq_true]
  constructor
  · rintro ⟨⟨name, found⟩, hmember, hkey⟩
    cases beq_iff_eq.1 hkey
    exact ⟨found, hmember⟩
  · rintro ⟨found, hmember⟩
    exact ⟨(key, found), hmember, beq_self_eq_true key⟩

theorem lookup_isSome {key : String} {value : Json} : (value.lookup key).isSome = value.hasKey key := by
  unfold lookup hasKey
  rw [Option.isSome_map, Bool.eq_iff_iff, List.find?_isSome, List.any_eq_true]

theorem lookup_eq_none {key : String} {value : Json} (h : value.hasKey key = false) : value.lookup key = none := by
  rw [← lookup_isSome] at h
  exact Option.not_isSome_iff_eq_none.1 (by rw [h]; exact Bool.false_ne_true)

mutual

/-- Equality up to the order of the members. -/
def same : Json → Json → Bool
  | .null, .null => true
  | .bool value, .bool other => value == other
  | .num value, .num other => value == other
  | .str value, .str other => value == other
  | .arr items, .arr others => sameItems items others
  | .obj members, .obj others => members.length == others.length && sameMembers members others
  | _, _ => false

def sameItems : List Json → List Json → Bool
  | [], [] => true
  | item :: items, other :: others => same item other && sameItems items others
  | _, _ => false

def sameMembers : List (String × Json) → List (String × Json) → Bool
  | [], _ => true
  | (key, value) :: members, others =>
    (match others.find? fun member ↦ member.1 == key with
      | some (_, other) => same value other
      | none => false) && sameMembers members others

end

variable {item value : Json}

theorem exists_same_of_sameItems {items others : List Json} (h : sameItems items others = true) (hitem : item ∈ items) :
    ∃ other ∈ others, same item other = true := by
  induction items generalizing others with
  | nil => exact absurd hitem List.not_mem_nil
  | cons first items ih =>
    cases others with
    | nil => exact absurd h Bool.false_ne_true
    | cons other others =>
      rw [sameItems, Bool.and_eq_true] at h
      rcases List.mem_cons.1 hitem with rfl | hrest
      · exact ⟨other, List.mem_cons_self, h.1⟩
      · obtain ⟨found, hfound, hsame⟩ := ih h.2 hrest
        exact ⟨found, List.mem_cons_of_mem _ hfound, hsame⟩

variable {key string : String} {members : List (String × Json)}

theorem exists_same_of_sameMembers {others : List (String × Json)} (h : sameMembers members others = true)
    (hmember : (key, value) ∈ members) : ∃ other, (key, other) ∈ others ∧ same value other = true := by
  induction members with
  | nil => exact absurd hmember List.not_mem_nil
  | cons first members ih =>
    obtain ⟨name, found⟩ := first
    rw [sameMembers, Bool.and_eq_true] at h
    rcases List.mem_cons.1 hmember with heq | hrest
    · cases heq
      have hfirst := h.1
      split at hfirst
      · next name other hfind =>
        have hname : name = key := by simpa using List.find?_some hfind
        exact ⟨other, hname ▸ List.mem_of_find?_eq_some hfind, hfirst⟩
      · exact absurd hfirst Bool.false_ne_true
    · exact ih h.2 hrest

/-! ## Strings -/

/-- A string stands at a key path, through arrays at any place. -/
inductive Occurs (string : String) : List String → Json → Prop where
  | here : Occurs string [] (.str string)
  | item {path : List String} {items : List Json} {item : Json} :
      item ∈ items → Occurs string path item → Occurs string path (.arr items)
  | member {key : String} {path : List String} {members : List (String × Json)} {value : Json} :
      (key, value) ∈ members → Occurs string path value → Occurs string (key :: path) (.obj members)

variable {path : List String}

/-- Values that are the same hold the same strings at the same places. -/
theorem Occurs.of_same {other : Json} (h : Occurs string path value) (hsame : same value other = true) :
    Occurs string path other := by
  induction h generalizing other with
  | here =>
    cases other with
    | str found =>
      rw [same, beq_iff_eq] at hsame
      exact hsame ▸ .here
    | _ => exact absurd hsame Bool.false_ne_true
  | item hitem _ ih =>
    cases other with
    | arr others =>
      rw [same] at hsame
      obtain ⟨found, hfound, hfoundSame⟩ := exists_same_of_sameItems hsame hitem
      exact .item hfound (ih hfoundSame)
    | _ => exact absurd hsame Bool.false_ne_true
  | member hmember _ ih =>
    cases other with
    | obj others =>
      rw [same, Bool.and_eq_true] at hsame
      obtain ⟨found, hfound, hfoundSame⟩ := exists_same_of_sameMembers hsame.2 hmember
      exact .member hfound (ih hfoundSame)
    | _ => exact absurd hsame Bool.false_ne_true

mutual

/-- The strings of a value, wherever they stand. -/
def strings : Json → List String
  | .str value => [value]
  | .arr items => stringsOfItems items
  | .obj members => stringsOfMembers members
  | _ => []

def stringsOfItems : List Json → List String
  | [] => []
  | item :: items => strings item ++ stringsOfItems items

def stringsOfMembers : List (String × Json) → List String
  | [] => []
  | (_, value) :: members => strings value ++ stringsOfMembers members

end

theorem strings_subset_of_mem_items {items : List Json} (h : item ∈ items) : strings item ⊆ stringsOfItems items := by
  induction items with
  | nil => exact absurd h List.not_mem_nil
  | cons first items ih =>
    intro string hstring
    rw [stringsOfItems]
    rcases List.mem_cons.1 h with rfl | hrest
    · exact List.mem_append_left _ hstring
    · exact List.mem_append_right _ (ih hrest hstring)

theorem strings_subset_of_mem_members (h : (key, value) ∈ members) : strings value ⊆ stringsOfMembers members := by
  induction members with
  | nil => exact absurd h List.not_mem_nil
  | cons first members ih =>
    obtain ⟨name, found⟩ := first
    intro string hstring
    rw [stringsOfMembers]
    rcases List.mem_cons.1 h with heq | hrest
    · cases heq
      exact List.mem_append_left _ hstring
    · exact List.mem_append_right _ (ih hrest hstring)

theorem Occurs.mem_strings (h : Occurs string path value) : string ∈ value.strings := by
  induction h with
  | here => exact List.mem_singleton_self string
  | item hitem _ ih => exact strings_subset_of_mem_items hitem ih
  | member hmember _ ih => exact strings_subset_of_mem_members hmember ih

/-- The strings that stand at a key path of some of the values. -/
def stringsAt (path : List String) (values : Set Json) : Set String :=
  {string | ∃ value ∈ values, Occurs string path value}

/-- Values that are each the same as one of finitely many hold finitely many strings. -/
theorem finite_stringsAt_of_same {values : Set Json} (literals : List Json)
    (h : ∀ value ∈ values, ∃ literal ∈ literals, same value literal = true) (path : List String) :
    (stringsAt path values).Finite := by
  apply (literals.flatMap strings).finite_toSet.subset
  rintro string ⟨value, hvalue, hoccurs⟩
  obtain ⟨literal, hliteral, hsame⟩ := h value hvalue
  exact List.mem_flatMap.2 ⟨literal, hliteral, (hoccurs.of_same hsame).mem_strings⟩

theorem stringsAt_mono {values others : Set Json} (h : values ⊆ others) :
    stringsAt path values ⊆ stringsAt path others :=
  fun _ ⟨value, hvalue, hoccurs⟩ ↦ ⟨value, h hvalue, hoccurs⟩

end Json
