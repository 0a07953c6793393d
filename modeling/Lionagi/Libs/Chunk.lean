import Mathlib.Algebra.Order.Floor.Semiring
import Mathlib.Data.List.ModifyLast
import Mathlib.Data.Rat.Floor
import Lionagi.Library.PySequence
import Lionagi.Library.PyText
import Lionagi.Library.Spans

/-!
# Chunks of a text

A text is cut into chunks of its characters, and a list of tokens into chunks of tokens. Inner chunks reach
over both of their ends by the overlap. A short tail is merged into the chunk before it, which the two
implementations do differently.
-/

namespace Lionagi.Libs

variable {α : Type}

/-- `xs[start:stop]`. -/
def sliced (xs : List α) (start stop : Option ℤ) : List α :=
  (PySequence.getSlice xs ⟨start, stop, none⟩).getD []

/-- Half of the smallest positive float is this part of one. -/
def underflow : ℕ := 2 ^ 1075

/-- `math.ceil(len(xs) / chunk_size)`. Below 2 ^ 53 elements the rounded quotient has the ceiling of the
exact one, unless it is so small that it is rounded to zero. -/
def chunkCount (len chunkSize : ℕ) : ℕ :=
  if len * underflow ≤ chunkSize then 0 else (len + chunkSize - 1) / chunkSize

/-- `chunk_size * overlap`, with the overlap a fraction: the product is rounded, and `none` when a number is
too large for a float. A size below 2 ^ 53 is a float, so a fraction of it is not rounded above it. -/
structure FloatProduct where
  mul : ℕ → ℚ → Option ℚ
  mul_le : ∀ {size : ℕ} {overlap p : ℚ}, size < 2 ^ 53 → 0 ≤ overlap → overlap ≤ 1 →
    mul size overlap = some p → p ≤ size
  mul_le_two : ∀ {size : ℕ} {overlap p : ℚ}, 0 ≤ overlap → overlap ≤ 1 → mul size overlap = some p →
    p ≤ 2 * size

/-- `int(chunk_size * overlap / 2)`. -/
def FloatProduct.overlapSize (float : FloatProduct) (chunkSize : ℕ) (overlap : ℚ) : Option ℕ :=
  (float.mul chunkSize overlap).map fun p ↦ ⌊p / 2⌋₊

/-- What is raised inside comes out as a `ValueError`. -/
inductive ChunkError where
  | zeroDivision
  | overflow
deriving DecidableEq

/-- The chunks before the last one, each from its start minus the overlap to its end plus the overlap. -/
def innerChunks (xs : List α) (chunkSize overlapSize nChunks : ℕ) : List (List α) :=
  sliced xs none (some (chunkSize + overlapSize)) :: (List.range' 1 (nChunks - 2)).map fun (i : ℕ) ↦
    sliced xs (some (chunkSize * i - overlapSize)) (some (chunkSize * (i + 1) + overlapSize))

/-! ## Characters -/

def chunkTwoParts (text : Text) (chunkSize overlapSize threshold : ℕ) : List Text :=
  if (threshold : ℤ) < text.length - chunkSize then
    [sliced text none (some (chunkSize + overlapSize)), sliced text (some (chunkSize - overlapSize)) none]
  else [text]

def chunkMultipleParts (text : Text) (chunkSize overlapSize nChunks threshold : ℕ) : List Text :=
  let chunks := innerChunks text chunkSize overlapSize nChunks
  let lastChunkStart : ℤ := chunkSize * (nChunks - 1) - overlapSize
  if threshold < text.length - lastChunkStart then chunks ++ [sliced text (some lastChunkStart) none]
  else chunks.modifyLast (· ++ sliced text (some (chunkSize * (nChunks - 1) + overlapSize)) none)

def chunkByChars (float : FloatProduct) (text : Text) (chunkSize : ℕ) (overlap : ℚ) (threshold : ℕ) :
    Except ChunkError (List Text) :=
  if chunkSize = 0 then .error .zeroDivision
  else
    match float.overlapSize chunkSize overlap with
    | none => .error .overflow
    | some overlapSize =>
      match chunkCount text.length chunkSize with
      | 1 => .ok [text]
      | 2 => .ok (chunkTwoParts text chunkSize overlapSize threshold)
      | nChunks => .ok (chunkMultipleParts text chunkSize overlapSize nChunks threshold)

/-! ## Tokens -/

section Tokens

variable (py : CharTable)

/-- `" ".join(tokens).strip()`. -/
def joined (tokens : List Text) : Text := py.strip ([' '].intercalate tokens)

def processSingleChunk (tokens : List Text) (returnTokens : Bool) : List (Text ⊕ List Text) :=
  if returnTokens then [.inr tokens] else [.inl (joined py tokens)]

def formatChunks (chunks : List (List Text)) (returnTokens : Bool) : List (Text ⊕ List Text) :=
  if returnTokens then chunks.map .inr else chunks.map fun chunk ↦ .inl (joined py chunk)

def chunkTokenTwoParts (tokens : List Text) (chunkSize overlapSize threshold residue : ℕ)
    (returnTokens : Bool) : List (Text ⊕ List Text) :=
  if residue = 0 ∨ threshold < residue then
    formatChunks py [sliced tokens none (some (chunkSize + overlapSize)),
      sliced tokens (some (chunkSize - overlapSize)) none] returnTokens
  else processSingleChunk py tokens returnTokens

/-- A short tail is taken from the end by its length. -/
def chunkTokenMultipleParts (tokens : List Text) (chunkSize overlapSize nChunks threshold residue : ℕ)
    (returnTokens : Bool) : List (Text ⊕ List Text) :=
  let chunks := innerChunks tokens chunkSize overlapSize nChunks
  let lastChunkStart : ℤ := chunkSize * (nChunks - 1) - overlapSize
  if threshold < tokens.length - lastChunkStart then
    formatChunks py (chunks ++ [sliced tokens (some lastChunkStart) none]) returnTokens
  else formatChunks py (chunks.modifyLast (· ++ sliced tokens (some (-residue)) none)) returnTokens

def chunkByTokens (float : FloatProduct) (tokens : List Text) (chunkSize : ℕ) (overlap : ℚ) (threshold : ℕ)
    (returnTokens : Bool) : Except ChunkError (List (Text ⊕ List Text)) :=
  if chunkSize = 0 then .error .zeroDivision
  else
    match float.overlapSize chunkSize overlap with
    | none => .error .overflow
    | some overlapSize =>
      let residue := tokens.length % chunkSize
      match chunkCount tokens.length chunkSize with
      | 1 => .ok (processSingleChunk py tokens returnTokens)
      | 2 => .ok (chunkTokenTwoParts py tokens chunkSize overlapSize threshold residue returnTokens)
      | nChunks =>
        .ok (chunkTokenMultipleParts py tokens chunkSize overlapSize nChunks threshold residue returnTokens)

end Tokens

end Lionagi.Libs
