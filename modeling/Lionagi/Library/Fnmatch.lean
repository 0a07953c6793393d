import Lionagi.Library.PyText

/-!
# Shell patterns

A pattern is read into a list of parts: any text, any character, one character, or one of a set. A text matches when
the parts take it up from end to end.
-/

namespace Fnmatch

inductive Glob where
  | star
  | one
  | char (c : Char)
  /-- A set as ranges, a single character being a range of itself. A reversed range holds nothing. -/
  | set (negated : Bool) (ranges : List (Char × Char))
  deriving DecidableEq

/-- The ranges between two brackets. A hyphen with nothing before it or nothing after it stands for itself. -/
def ranges : Text → List (Char × Char)
  | [] => []
  | [c] => [(c, c)]
  | [c, x] => [(c, c), (x, x)]
  | c :: x :: d :: rest => if x = '-' then (c, d) :: ranges rest else (c, c) :: ranges (x :: d :: rest)

/-- The text up to a closing bracket, and what follows it. -/
def splitClose : Text → Option (Text × Text)
  | [] => none
  | c :: rest => if c = ']' then some ([], rest) else (splitClose rest).map fun split ↦ (c :: split.1, split.2)

/-- What stands after an opening bracket. A closing bracket at its very start belongs to the set. -/
def bracket (rest : Text) : Option (Glob × Text) :=
  let negated := rest.head? = some '!'
  let body := if negated then rest.tail else rest
  let split : Option (Text × Text) := match body with
    | ']' :: body => (splitClose body).map fun split ↦ (']' :: split.1, split.2)
    | body => splitClose body
  split.map fun split ↦ (.set negated (ranges split.1), split.2)

/-- `fnmatch.translate`, with a bound on the number of parts. -/
def translateWithin : ℕ → Text → List Glob
  | 0, _ => []
  | _, [] => []
  | fuel + 1, c :: rest =>
    if c = '*' then .star :: translateWithin fuel rest
    else if c = '?' then .one :: translateWithin fuel rest
    else if c = '[' then
      match bracket rest with
      | some (part, rest) => part :: translateWithin fuel rest
      | none => .char c :: translateWithin fuel rest
    else .char c :: translateWithin fuel rest

def translate (pattern : Text) : List Glob := translateWithin pattern.length pattern

/-- Whether a part other than `star` takes up a character. -/
def Glob.takes : Glob → Char → Bool
  | .star, _ => false
  | .one, _ => true
  | .char c, x => c == x
  | .set negated ranges, x => negated != ranges.any fun range ↦ range.1 ≤ x && x ≤ range.2

def fullmatch : List Glob → Text → Bool
  | [], t => t.isEmpty
  | .star :: parts, t => t.tails.any (fullmatch parts)
  | _ :: _, [] => false
  | part :: parts, x :: t => part.takes x && fullmatch parts t

/-- `fnmatch.fnmatch` where file names keep their case. -/
def fnmatch (text pattern : Text) : Bool := fullmatch (translate pattern) text

example : fnmatch "rm -rf x".toList "rm *".toList = true ∧ fnmatch "b-".toList "[!a-c][]-]".toList = false := by
  decide +kernel

end Fnmatch
