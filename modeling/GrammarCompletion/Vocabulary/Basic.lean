/-
# Vocabularies

A vocabulary relates the names of tokens and their ids.  An id may have several names: a symbolic
name such as `SELECT`, a quoted literal such as `'('`, and an implicit name such as `T__0`.  All of
them resolve to the id, and the most readable one is shown for it.
-/
import GrammarCompletion.Basic
import GrammarCompletion.OrderedMap

namespace GrammarCompletion

/-- The names of the tokens of one lexer. -/
structure Vocabulary where
  /-- The id of every name. -/
  ids : OrderedMap String TokenId
  /-- The name that is shown for every id. -/
  displayNames : OrderedMap TokenId String
deriving DecidableEq

namespace Vocabulary

/-- The rank of a name among the names of one id; the least rank is shown.  Symbolic names come
before quoted literals, and those before implicit names. -/
def rank (name : String) : Nat :=
  if "'".toList.isPrefixOf name.toList then 1
  else if "T__".toList.isPrefixOf name.toList then 2
  else 0

/-- The display names after `name` was registered for `id`: a name of strictly lower rank takes the
place of the one shown before. -/
def offerDisplayName (shown : OrderedMap TokenId String) (name : String) (id : TokenId) :
    OrderedMap TokenId String :=
  match shown.get? id with
  | some current => if rank name < rank current then shown.insert id name else shown
  | none => shown.insert id name

/-- Registers `name` for `id`.  A later registration of a name replaces its id. -/
def insert (v : Vocabulary) (name : String) (id : TokenId) : Vocabulary where
  ids := v.ids.insert name id
  displayNames := offerDisplayName v.displayNames name id

/-- Registers names one after the other. -/
def insertAll (v : Vocabulary) (l : List (String × TokenId)) : Vocabulary :=
  l.foldl (fun v e => v.insert e.1 e.2) v

/-- The vocabulary that knows only the end of the input. -/
def initial : Vocabulary :=
  insert ⟨∅, ∅⟩ "EOF" .eof

instance : Inhabited Vocabulary := ⟨initial⟩

/-- The id of a name. -/
def get? (v : Vocabulary) (name : String) : Option TokenId :=
  v.ids.get? name

/-- The name under which a quoted literal is registered. -/
def quoted (text : String) : String :=
  "'" ++ text ++ "'"

/-- The id of a literal that is given without its quotes. -/
def getLiteral? (v : Vocabulary) (text : String) : Option TokenId :=
  v.get? (quoted text)

/-- The name that is shown for an id. -/
def displayName? (v : Vocabulary) (id : TokenId) : Option String :=
  v.displayNames.get? id

/-- The number of registered names. -/
def size (v : Vocabulary) : Nat :=
  v.ids.size

/-- Whether no name is registered. -/
def isEmpty (v : Vocabulary) : Bool :=
  v.ids.isEmpty

variable {v : Vocabulary} {name other : String} {id : TokenId}

/-- The last registration of a name wins. -/
theorem get?_insert : (v.insert name id).get? other = if other = name then some id else v.get? other :=
  OrderedMap.get?_insert

@[simp] theorem get?_insert_self : (v.insert name id).get? name = some id := by
  simp [get?_insert]

@[simp] theorem get?_initial : initial.get? "EOF" = some .eof := by
  simp [initial]

end Vocabulary

end GrammarCompletion
