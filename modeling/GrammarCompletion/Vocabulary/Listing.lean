/-
# Token listings

A listing gives one token on each line, as a name, an equals sign and an id:

    SELECT=12
    '('=1

The name may itself hold equals signs, so a line is cut at its last one.  Lines that are blank are
passed over, and blanks at the end of a line do not count.
-/
import GrammarCompletion.Text
import GrammarCompletion.Vocabulary.Basic

namespace GrammarCompletion.Vocabulary

/-- Why a listing is refused. -/
inductive ListingError where
  /-- A line, numbered from one and shown without its trailing blanks, is not a name, an equals
  sign and an id. -/
  | invalidLine (number : Nat) (text : String)
deriving DecidableEq

/-- What is reported for a listing that is refused. -/
def ListingError.message : ListingError → String
  | .invalidLine number text => s!"invalid token definition on line {number}: `{text}`"

/-- Cuts a line at its last equals sign. -/
def cutLine? (line : List Char) : Option (List Char × List Char) :=
  match line.reverse.dropWhile (· ≠ '=') with
  | [] => none
  | _ :: name => some (name.reverse, (line.reverse.takeWhile (· ≠ '=')).reverse)

/-- The name and the id that a line defines. -/
def readLine? (line : List Char) : Option (String × TokenId) := do
  let (name, id) ← cutLine? line
  if name.isEmpty then none
  else do
    let id ← TokenId.read? (Text.trim id)
    some (String.ofList name, id)

/-- The definitions on the lines of a listing, the first of which has the given number. -/
def readLines (number : Nat) : List (List Char) → Except ListingError (List (String × TokenId))
  | [] => .ok []
  | line :: rest =>
    let line := Text.trimEnd line
    if line.isEmpty then readLines (number + 1) rest
    else
      match readLine? line with
      | none => .error (.invalidLine number (String.ofList line))
      | some entry => (readLines (number + 1) rest).map (entry :: ·)

/-- The vocabulary that a listing describes; the end of the input is always registered. -/
def read (text : String) : Except ListingError Vocabulary :=
  (readLines 1 (Text.lines text.toList)).map initial.insertAll

end GrammarCompletion.Vocabulary
