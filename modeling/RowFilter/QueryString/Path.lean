/-!
The path that the name of a parameter spells. Text before the first bracket is the root, and each
bracketed segment behind it is a step: a key, an index, or an append when the brackets are empty.
-/

set_option autoImplicit false

namespace RowFilter.QueryString

/-- One step down from a container. -/
inductive Step where
  | key (name : String)
  | index (i : Nat)
  | append
deriving DecidableEq, Repr

/-- A place in the decoded value, below its root name. -/
structure Path where
  root : String
  steps : List Step
deriving DecidableEq, Repr

/-- How many bracketed segments of a name are read. -/
def maxSegments : Nat := 5

/-- The largest number that a segment can name as an index. -/
def maxIndex : Nat := 20

/-- The index that a segment writes, in the one form in which it is printed. -/
def index? (segment : String) : Option Nat :=
  (List.range (maxIndex + 1)).find? fun i ↦ toString i = segment

def Step.ofSegment (segment : String) : Step :=
  if segment = "" then .append
  else match index? segment with
    | some i => .index i
    | none => .key segment

def isBracket (c : Char) : Bool := c = '[' || c = ']'

/-- A bracketed segment at the start: its inside, which holds no bracket, and what follows it. -/
def segment? : List Char → Option (List Char × List Char)
  | '[' :: text =>
    match text.dropWhile fun c ↦ !isBracket c with
    | ']' :: rest => some (text.takeWhile fun c ↦ !isBracket c, rest)
    | _ => none
  | _ => none

/-- A segment and what follows it are the whole text. -/
theorem eq_of_segment? {text inside rest : List Char} (h : segment? text = some (inside, rest)) :
    text = '[' :: inside ++ ']' :: rest := by
  unfold segment? at h
  split at h
  · split at h
    · rename_i r heq
      cases h
      simp [← heq]
    · cases h
  · cases h

/-- The bracketed segments at the start, at most `bound` of them, and what follows them. -/
def segments : Nat → List Char → List String × List Char
  | 0, text => ([], text)
  | bound + 1, text =>
    match segment? text with
    | none => ([], text)
    | some (inside, rest) =>
      let (more, tail) := segments bound rest
      (String.ofList inside :: more, tail)

namespace Path

/-- What is left of a name behind its segments is one more key. -/
def tailSteps (tail : List Char) : List Step :=
  if tail.isEmpty then [] else [.key (String.ofList tail)]

/-- The path of a parameter name. A name without a segment is a root as a whole; without a text
before its brackets, the first segment is the root. -/
def ofName (name : String) : Path :=
  let before := name.toList.takeWhile (· != '[')
  let (inner, tail) := segments maxSegments (name.toList.dropWhile (· != '['))
  match before, inner with
  | _, [] => ⟨name, []⟩
  | [], first :: rest => ⟨first, rest.map Step.ofSegment ++ tailSteps tail⟩
  | root, inner => ⟨String.ofList root, inner.map Step.ofSegment ++ tailSteps tail⟩

end Path

end RowFilter.QueryString
