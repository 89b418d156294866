/-
# The order of imported grammars

The grammars that a grammar imports, directly or through others, are put into one list: each of them
once, after the grammars that it imports itself, and in the order of the import directives
otherwise.  The importing grammar comes last.

Following the directives may fail, and then the grammars that were complete before are still known.
The names on the way from the first grammar to the current one are kept, so that an import of one
of them is noticed.
-/
import GrammarCompletion.Import.Loader

namespace GrammarCompletion

/-- Why the imports of a grammar cannot be followed. -/
inductive ImportError where
  /-- A grammar has imports, and there is no loader. -/
  | noLoader (grammar : String)
  /-- An imported grammar cannot be loaded. -/
  | loadFailed (grammar : String) (source : LoadError)
  /-- A grammar imports itself, directly or through others. -/
  | cycle (grammar : String)
deriving DecidableEq

/-- What is reported for imports that cannot be followed. -/
def ImportError.message : ImportError → String
  | noLoader grammar => s!"grammar `{grammar}` has imports but no import loader is configured"
  | loadFailed grammar _ => s!"cannot import grammar `{grammar}`"
  | cycle grammar => s!"import cycle through grammar `{grammar}`"

/-- How far the imports of a grammar were followed. -/
structure Traversal where
  /-- The names that were imported. -/
  imported : List String := []
  /-- The grammars whose own imports are complete, in their order. -/
  finished : List Grammar := []

namespace Traversal

/-- Follows imports: the traversal goes on, or stops with an error and stays as it is. -/
abbrev Follow := EStateM ImportError Traversal

/-- Loads an imported grammar. -/
def fetch (loader : Option Loader) (importer name : String) : Follow Grammar :=
  match loader with
  | none => throw (.noLoader importer)
  | some l =>
    match l.load name with
    | .ok g => pure g
    | .error e => throw (.loadFailed name e)

/-- Follows the imports of a grammar, of which at most `budget` may lie inside each other, and adds
it to the finished ones.  The budget is the number of all import directives.  More imports inside
each other would have to repeat a name, so a lack of budget is a cycle. -/
def visit (loader : Option Loader) : (budget : Nat) → (path : List String) → Grammar → Follow Unit
  | budget, path, g => do
    g.imports.forM fun name => do
      if name ∈ path then throw (.cycle name)
      if name ∉ (← get).imported then
        modify fun t => { t with imported := name :: t.imported }
        let imported ← fetch loader g.name name
        match budget with
        | 0 => throw (.cycle name)
        | budget + 1 => visit loader budget (name :: path) imported
    modify fun t => { t with finished := t.finished ++ [g] }

/-- The number of import directives in a grammar and in all grammars that can be loaded. -/
def directiveCount (loader : Option Loader) (g : Grammar) : Nat :=
  ((g :: loader.elim [] Loader.grammars).flatMap fun g => g.imports).length

/-- Follows the imports of a grammar: the grammars in their order, as far as they are complete, and
what stopped it if it was stopped. -/
def run (loader : Option Loader) (g : Grammar) : List Grammar × Option ImportError :=
  match (visit loader (directiveCount loader g) [g.name] g).run {} with
  | .ok _ t => (t.finished, none)
  | .error e t => (t.finished, some e)

end Traversal

end GrammarCompletion
