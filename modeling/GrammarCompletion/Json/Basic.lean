/-
# JSON values

The values that a JSON text denotes.  Members of an object stand in the order of the text, and a
name that occurs twice has two members: what a repeated name means is for the reader of the value
to decide.

A text may break off or break the grammar.  What was read of it up to there is a value as well, in
which the break is marked: a value that was not completed is `broken`, and an array or object that
was not closed is cut.  Whoever makes use of a value goes through it in the order of the text and
reports the first thing that is wrong, be it a break or a value that does not fit.
-/
import GrammarCompletion.Json.Number

namespace GrammarCompletion

/-- Why a JSON text does not give the data that was asked for. -/
inductive Json.Fault where
  /-- The text ends too early. -/
  | unfinished
  /-- The text does not follow the grammar of JSON. -/
  | malformed
  /-- The value is of the wrong type, or a field is missing, unknown or given twice. -/
  | mismatched
deriving DecidableEq

/-- A JSON value, as far as it was read. -/
inductive Json where
  /-- The null value. -/
  | null
  /-- A truth value. -/
  | bool (b : Bool)
  /-- A number. -/
  | number (n : Json.Number)
  /-- A string. -/
  | string (s : String)
  /-- An array; if it was cut, the reason. -/
  | array (items : List Json) (cut : Option Json.Fault)
  /-- An object; if it was cut, the reason. -/
  | object (members : List (String × Json)) (cut : Option Json.Fault)
  /-- A value that was not completed. -/
  | broken (fault : Json.Fault)

namespace Json

instance : Inhabited Json := ⟨null⟩

mutual

/-- The first break in a value. -/
def fault? : Json → Option Fault
  | array items cut => (faultOfItems? items).or cut
  | object members cut => (faultOfMembers? members).or cut
  | broken f => some f
  | null | bool _ | number _ | string _ => none

/-- The first break in the items of an array. -/
def faultOfItems? : List Json → Option Fault
  | [] => none
  | v :: rest => v.fault?.or (faultOfItems? rest)

/-- The first break in the members of an object. -/
def faultOfMembers? : List (String × Json) → Option Fault
  | [] => none
  | (_, v) :: rest => v.fault?.or (faultOfMembers? rest)

end

/-- Goes on, unless there is a fault. -/
def demandNone : Option Fault → Except Fault Unit
  | none => .ok ()
  | some f => .error f

/-- Takes a field that was not given before. -/
def once {α : Type} (a : Except Fault α) : Option α → Except Fault (Option α)
  | some _ => .error .mismatched
  | none => a.map some

/-- The value of a field that has to be given. -/
def given {α : Type} : Option α → Except Fault α
  | some a => .ok a
  | none => .error .mismatched

/-- The characters of a string value. -/
def asString : Json → Except Fault String
  | string s => .ok s
  | broken f => .error f
  | _ => .error .mismatched

/-- The items of an array of strings. -/
def asStrings : Json → Except Fault (List String)
  | array items cut => do
    let l ← items.mapM asString
    demandNone cut
    return l
  | broken f => .error f
  | _ => .error .mismatched

/-- The item of an array at a place, which has to be there. -/
def itemAt (items : List Json) (cut : Option Fault) (i : Nat) : Except Fault Json :=
  match items[i]? with
  | some v => .ok v
  | none => .error (cut.getD .mismatched)

/-- A JSON text that was read: the value in it, and what is wrong with the text. -/
structure Document where
  /-- The value, as far as it was read. -/
  value : Json
  /-- What is wrong with the text. -/
  fault : Option Fault

/-- What a text gives whose value is made use of in a certain way.  What is wrong with the value
comes before what follows it. -/
def Document.decode {α : Type} (d : Document) (use : Json → Except Fault α) : Except Fault α := do
  let a ← use d.value
  demandNone d.fault
  return a

end Json

end GrammarCompletion
