/-
# Grammars as JSON

The interchange form of a grammar is a JSON object with its name, its imports and its rules.  The
rules are an object of their own, from names to blocks; a block is an array of alternatives, and an
alternative an array of elements.  Members of a grammar with other names are passed over.

An element is an object with a member `type`, its tag, and the fields that belong to the tag, or an
array of the tag and exactly those fields.  `Tag` lists the tags; `Tag.fields` says which fields
each has.  Within an element, a tag may also be given by its index.
-/
import GrammarCompletion.Grammar.Basic
import GrammarCompletion.Json.Reader

namespace GrammarCompletion

namespace Element

/-- The kinds of elements that the interchange form tells apart. -/
inductive Tag where
  /-- A token by name. -/
  | token
  /-- A quoted literal. -/
  | literal
  /-- A character set. -/
  | charSet
  /-- A rule by name. -/
  | rule
  /-- A block with an operator. -/
  | group (cardinality : Cardinality)
  /-- A labelled element. -/
  | label (op : LabelOp)
  /-- A predicate that decides whether to go on. -/
  | semPred
  /-- A predicate on the input that follows. -/
  | synPred
  /-- Embedded code. -/
  | action
  /-- The empty sequence. -/
  | epsilon
  /-- Any token. -/
  | wildcard
deriving DecidableEq

namespace Tag

/-- All tags with their names, in the order of their indices. -/
def table : List (String × Tag) :=
  [("TOKEN_REF", token), ("STRING_LITERAL", literal), ("CHAR_SET", charSet), ("RULE_REF", rule),
    ("OPTIONAL", group .optional), ("CLOSURE", group .zeroOrMore),
    ("POSITIVE_CLOSURE", group .oneOrMore), ("BLOCK", group .one), ("ASSIGN", label .assign),
    ("PLUS_ASSIGN", label .append), ("SEMPRED", semPred), ("SYNPRED", synPred),
    ("ACTION", action), ("EPSILON", epsilon), ("WILDCARD", wildcard)]

/-- The names of the fields that belong to a tag, in order. -/
def fields : Tag → List String
  | token | rule => ["name"]
  | literal | charSet => ["value"]
  | group _ => ["alternatives"]
  | label _ => ["label", "target"]
  | semPred | synPred | action => ["code"]
  | epsilon | wildcard => []

/-- The tag that a JSON value names, or counts where the element is part of another one. -/
def ofJson (nested : Bool) : Json → Except Json.Fault Tag
  | .string s =>
    match table.lookup s with
    | some tag => .ok tag
    | none => .error .mismatched
  | .number n =>
    match if nested then n.natural?.bind (table[·]?) else none with
    | some e => .ok e.2
    | none => .error .mismatched
  | .broken f => .error f
  | _ => .error .mismatched

/-- The tag among members of an object, given the tag among those before them.  The value of a tag
is checked as soon as it is met, and every other value has to be whole. -/
def ofMembers (nested : Bool) (found : Option Tag) : List (String × Json) →
    Except Json.Fault (Option Tag)
  | [] => .ok found
  | (name, v) :: rest => do
    let found ←
      if name = "type" then Json.once (ofJson nested v) found
      else do
        Json.demandNone v.fault?
        pure found
    ofMembers nested found rest

end Tag

/-- What a JSON value gives where a field of an element is due. -/
structure Reading where
  /-- Its reading as a text. -/
  text : Except Json.Fault String
  /-- Its reading as a block. -/
  block : Except Json.Fault Block
  /-- Its reading as an element. -/
  element : Except Json.Fault Element

/-- The values of the fields of an element, as far as they were given. -/
structure Fields where
  /-- The text of an element that has one. -/
  text : Option String := none
  /-- The label of a labelled element. -/
  label : Option String := none
  /-- The block of a group. -/
  block : Option Block := none
  /-- The labelled element. -/
  target : Option Element := none

namespace Fields

/-- Sets the field with the given name, or nothing if it does not belong to the tag. -/
def set (tag : Tag) (f : Fields) (name : String) (r : Reading) : Except Json.Fault Fields :=
  if tag.fields.contains name then
    if name = "alternatives" then do return { f with block := ← Json.once r.block f.block }
    else if name = "target" then do return { f with target := ← Json.once r.element f.target }
    else if name = "label" then do return { f with label := ← Json.once r.text f.label }
    else do return { f with text := ← Json.once r.text f.text }
  else .ok f

/-- The fields that belong to a tag, among values with names. -/
def ofReadings (tag : Tag) (l : List (String × Reading)) : Except Json.Fault Fields :=
  l.foldlM (fun f e => set tag f e.1 e.2) {}

/-- The element with a tag whose fields have the given values. -/
def assemble (f : Fields) : Tag → Except Json.Fault Element
  | .token => token <$> Json.given f.text
  | .literal => literal <$> Json.given f.text
  | .charSet => charSet <$> Json.given f.text
  | .rule => rule <$> Json.given f.text
  | .group c => group c <$> Json.given f.block
  | .label op => do return Element.label (← Json.given f.label) op (← Json.given f.target)
  | .semPred => semPred <$> Json.given f.text
  | .synPred => synPred <$> Json.given f.text
  | .action => action <$> Json.given f.text
  | .epsilon => .ok epsilon
  | .wildcard => .ok wildcard

end Fields

mutual

/-- The element that a JSON value describes. -/
def ofJson (nested : Bool) : Json → Except Json.Fault Element
  | .object members cut => do
    let found ← Tag.ofMembers nested none members
    Json.demandNone cut
    let tag ← Json.given found
    (← Fields.ofReadings tag (readMembers members)).assemble tag
  | .array (v :: items) cut => do
    let tag ← Tag.ofJson nested v
    Json.demandNone ((Json.faultOfItems? items).or cut)
    if items.length = tag.fields.length then
      (← Fields.ofReadings tag (tag.fields.zip (readItems items))).assemble tag
    else throw .mismatched
  | .array [] cut => .error (cut.getD .mismatched)
  | .broken f => .error f
  | _ => .error .mismatched

/-- The readings of the members of an object, with their names. -/
def readMembers : List (String × Json) → List (String × Reading)
  | [] => []
  | (name, v) :: rest => (name, ⟨v.asString, blockOfJson true v, ofJson true v⟩) :: readMembers rest

/-- The readings of the items of an array. -/
def readItems : List Json → List Reading
  | [] => []
  | v :: rest => ⟨v.asString, blockOfJson true v, ofJson true v⟩ :: readItems rest

/-- The block that a JSON value describes. -/
def blockOfJson (nested : Bool) : Json → Except Json.Fault Block
  | .array items cut => do
    let block ← alternativesOfJson nested items
    Json.demandNone cut
    return block
  | .broken f => .error f
  | _ => .error .mismatched

/-- The alternatives that a list of JSON values describes. -/
def alternativesOfJson (nested : Bool) : List Json → Except Json.Fault (List Alternative)
  | [] => .ok []
  | v :: rest => do return (← alternativeOfJson nested v) :: (← alternativesOfJson nested rest)

/-- The alternative that a JSON value describes. -/
def alternativeOfJson (nested : Bool) : Json → Except Json.Fault Alternative
  | .array items cut => do
    let alternative ← elementsOfJson nested items
    Json.demandNone cut
    return alternative
  | .broken f => .error f
  | _ => .error .mismatched

/-- The elements that a list of JSON values describes. -/
def elementsOfJson (nested : Bool) : List Json → Except Json.Fault (List Element)
  | [] => .ok []
  | v :: rest => do return (← ofJson nested v) :: (← elementsOfJson nested rest)

end

end Element

namespace Grammar

/-- The rules that a JSON value describes.  A name that is given again keeps its place and takes
the later block. -/
def rulesOfJson : Json → Except Json.Fault (List Rule)
  | .object members cut => do
    let blocks ← members.mapM fun m => do return (m.1, ← Element.blockOfJson false m.2)
    Json.demandNone cut
    return (OrderedMap.ofList blocks).entries.map fun e => ⟨e.1, e.2⟩
  | .broken f => .error f
  | _ => .error .mismatched

/-- The parts of a grammar, as far as they were given. -/
structure Parts where
  /-- The name. -/
  name : Option String := none
  /-- The imports. -/
  imports : Option (List String) := none
  /-- The rules. -/
  rules : Option (List Rule) := none

/-- The names of the members that are parts of a grammar. -/
def partNames : List String := ["name", "imports", "rules"]

/-- Takes in one more member of an object. -/
def Parts.set (p : Parts) (name : String) (v : Json) : Except Json.Fault Parts :=
  if name = "name" then do return { p with name := ← Json.once v.asString p.name }
  else if name = "imports" then do return { p with imports := ← Json.once v.asStrings p.imports }
  else if name = "rules" then do return { p with rules := ← Json.once (rulesOfJson v) p.rules }
  else .ok p

/-- The grammar with the given parts, of which only the imports may be left out. -/
def Parts.assemble (p : Parts) : Except Json.Fault Grammar := do
  let name ← Json.given p.name
  let rules ← Json.given p.rules
  return { name, imports := p.imports.getD [], rules }

/-- The grammar that a JSON value describes.  An array holds exactly the name, the imports and the
rules; what goes on after them is not part of the value. -/
def ofJson : Json → Except Json.Fault Grammar
  | .object members cut => do
    let parts ← members.foldlM (fun p m => p.set m.1 m.2) ({} : Parts)
    Json.demandNone cut
    parts.assemble
  | .array items cut => do
    let name ← (← Json.itemAt items cut 0).asString
    let imports ← (← Json.itemAt items cut 1).asStrings
    let rules ← rulesOfJson (← Json.itemAt items cut 2)
    if 3 < items.length then throw .malformed
    Json.demandNone cut
    return { name, imports, rules }
  | .broken f => .error f
  | _ => .error .mismatched

/-- Reads a grammar from a JSON text. -/
def read (text : String) : Except Json.Fault Grammar :=
  (Json.read partNames.contains text).decode ofJson

end Grammar

end GrammarCompletion
