/-
# Loading imported grammars

An import directive names a grammar, and a loader finds it: in a collection of grammars that are at
hand, or in a file of its own below a directory.  The file of a grammar is its name with `.json`
behind it, as a path from that directory.
-/
import GrammarCompletion.FileTree
import GrammarCompletion.Grammar.Interchange

namespace GrammarCompletion

/-- Why a grammar cannot be loaded. -/
inductive LoadError where
  /-- There is no grammar of that name. -/
  | notFound (name : String)
  /-- The file at a path cannot be read as text. -/
  | unreadable (path : String)
  /-- The file at a path does not hold a grammar. -/
  | undecodable (path : String) (fault : Json.Fault)
deriving DecidableEq

/-- What is reported for a grammar that is not found. -/
def LoadError.notFoundMessage (name : String) : String :=
  s!"grammar `{name}` not found"

/-- A place from which grammars are imported. -/
inductive Loader where
  /-- Grammars at hand, by name. -/
  | memory (grammars : OrderedMap String Grammar)
  /-- The files below a directory of a file tree. -/
  | directory (files : FileTree) (base : Location)

namespace Loader

/-- The path of the file of a grammar. -/
def pathOf (name : String) : String := name ++ ".json"

/-- The grammar in the bytes of a file. -/
def decodeFile (path : String) (bytes : Binary.Bytes) : Except LoadError Grammar :=
  match String.fromUTF8? ⟨bytes.toArray⟩ with
  | none => .error (.unreadable (FileTree.tidy path))
  | some text => (Grammar.read text).mapError (.undecodable (FileTree.tidy path))

/-- Loads the grammar of a name. -/
def load : Loader → String → Except LoadError Grammar
  | memory grammars, name =>
    match grammars.get? name with
    | some g => .ok g
    | none => .error (.notFound name)
  | directory files base, name =>
    match files.read base (pathOf name) with
    | .ok bytes => decodeFile (pathOf name) bytes
    | .error .missing => .error (.notFound name)
    | .error .unreadable => .error (.unreadable (FileTree.tidy (pathOf name)))

/-- The grammars that can be loaded at all. -/
def grammars : Loader → List Grammar
  | memory grammars => grammars.values
  | directory files _ => files.files.filterMap fun bytes => (decodeFile "" bytes).toOption

end Loader

end GrammarCompletion
