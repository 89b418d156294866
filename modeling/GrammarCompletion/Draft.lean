/-
# Drafts of rules

The first half of a compilation turns the block of a rule into a draft, a rule body that still
refers to rules by name.  A block in parentheses that is more than one token or one rule becomes a
rule of its own, named for its place: `equation_alt0_block1` is the block that is element `1` of
alternative `0` of `equation`.  Drafts are listed with every rule before the rules for the blocks in
it, and these in the order of the text.

Labels do not matter, predicates are kept only at the start of an alternative, and embedded code is
refused.  The reasons why a grammar has no model are listed first (`CompileError`); a model is never
produced beside one.
-/
import GrammarCompletion.Import.Order
import GrammarCompletion.Model.Body

namespace GrammarCompletion

/-! ## Compile errors -/

/-- Why a grammar has no model. -/
inductive CompileError where
  /-- A rule refers to a token that the vocabulary does not have. -/
  | unknownToken (rule name : String)
  /-- A rule has a construct that completion cannot follow. -/
  | unsupportedConstruct (rule construct : String)
  /-- A rule has a block without alternatives. -/
  | emptyBlock (rule : String)
  /-- The imports of the grammar cannot be followed. -/
  | imports (source : ImportError)
  /-- A rule refers to a rule that does not exist. -/
  | undefinedRule (rule name : String)
  /-- A policy names a rule that does not exist. -/
  | unknownPolicyRule (name : String)
  /-- A policy names a token that the vocabulary does not have. -/
  | unknownPolicyToken (name : String)
  /-- There is no rule that belongs to the parser. -/
  | noParserRules
deriving DecidableEq

/-- What is reported for a grammar that has no model. -/
def CompileError.message : CompileError → String
  | unknownToken rule name => s!"rule `{rule}` references unknown token `{name}`"
  | unsupportedConstruct rule construct =>
    s!"rule `{rule}` uses an unsupported construct: {construct}"
  | emptyBlock rule => s!"rule `{rule}` has an empty block"
  | imports source => source.message
  | undefinedRule rule name => s!"rule `{rule}` references undefined rule `{name}`"
  | unknownPolicyRule name => s!"configured rule `{name}` is not defined by the grammar"
  | unknownPolicyToken name => s!"configured token `{name}` is not in the vocabulary"
  | noParserRules => "grammar defines no parser rules"

/-! ## Drafts -/

/-- A rule body that refers to rules by name. -/
abbrev Draft := RuleBody String

/-- Drafts with the names of their rules. -/
abbrev Definitions := List (String × Draft)

/-- An element that occurs as a single node. -/
inductive Atom where
  /-- A token, by its name in the vocabulary. -/
  | terminal (name : String)
  /-- A rule, by name. -/
  | rule (name : String)
  /-- Any token. -/
  | wildcard
deriving DecidableEq

/-- The atom that an element is, apart from its labels. -/
def Element.atom? : Element → Option Atom
  | token name => some (.terminal name)
  | literal text => some (.terminal (Vocabulary.quoted text))
  | charSet text => some (.terminal text)
  | rule name => some (.rule name)
  | wildcard => some .wildcard
  | label _ _ target => target.atom?
  | group _ _ | semPred _ | synPred _ | action _ | epsilon => none

/-- The predicate at the start of an alternative. -/
def Alternative.predicate? : Alternative → Option String
  | .semPred code :: _ | .synPred code :: _ => some code
  | _ => none

/-- The names of the terminals of a block whose alternatives are single terminals. -/
def Block.terminals? (block : Block) : Option (List String) :=
  block.mapM fun
    | [e] => e.terminalName?
    | _ => none

namespace Draft

/-- The token that a rule refers to by name. -/
def tokenId (v : Vocabulary) (owner name : String) : Except CompileError TokenId :=
  match v.get? name with
  | some id => .ok id
  | none => .error (.unknownToken owner name)

/-- The node for an atom. -/
def atomNode (v : Vocabulary) (owner : String) (c : Cardinality) :
    Atom → Except CompileError (Node String)
  | .terminal name => return .token (← tokenId v owner name) c
  | .rule name => return .rule name c
  | .wildcard => return .wildcard c

/-- The name of the place of an alternative in a rule. -/
def alternativeName (rule : String) (i : Nat) : String := rule ++ "_alt" ++ toString i

/-- The name of the rule for a block, given the place of its alternative. -/
def blockName (place : String) (i : Nat) : String := place ++ "_block" ++ toString i

mutual

/-- The draft of a block as a rule of the given name, and the drafts of the blocks in it.  The owner
is the rule of the grammar that all of them are part of. -/
def ofBlock (v : Vocabulary) (owner name : String) : List Alternative → Except CompileError Definitions
  | [] => .error (.emptyBlock owner)
  | a :: rest =>
    match Block.terminals? (a :: rest) with
    | some names => do
      return [(name, .tokenSet (.ofList (← names.mapM (tokenId v owner))))]
    | none => do
      let (nodes, inner) ← ofElements v owner (alternativeName name 0) 0 a
      let (sequences, others) ← ofAlternatives v owner name 1 rest
      return (name, .sequences (⟨nodes, Alternative.predicate? a⟩ :: sequences)) :: (inner ++ others)

/-- The sequences for alternatives of a rule, the first of which has index `i`, and the drafts of
the blocks in them. -/
def ofAlternatives (v : Vocabulary) (owner name : String) (i : Nat) :
    List Alternative → Except CompileError (List (Sequence String) × Definitions)
  | [] => .ok ([], [])
  | a :: rest => do
    let (nodes, inner) ← ofElements v owner (alternativeName name i) 0 a
    let (sequences, others) ← ofAlternatives v owner name (i + 1) rest
    return (⟨nodes, Alternative.predicate? a⟩ :: sequences, inner ++ others)

/-- The nodes for elements at a place, the first of which has index `i`, and the drafts of the blocks
in them. -/
def ofElements (v : Vocabulary) (owner place : String) (i : Nat) :
    List Element → Except CompileError (List (Node String) × Definitions)
  | [] => .ok ([], [])
  | e :: rest => do
    let (node, inner) ← ofElement v owner place i e
    let (nodes, others) ← ofElements v owner place (i + 1) rest
    return (node.toList ++ nodes, inner ++ others)

/-- The node for an element, none if the element matches nothing, and the drafts of the blocks
in it. -/
def ofElement (v : Vocabulary) (owner place : String) (i : Nat) :
    Element → Except CompileError (Option (Node String) × Definitions)
  | .token name => do return (← atomNode v owner .one (.terminal name), [])
  | .literal text => do return (← atomNode v owner .one (.terminal (Vocabulary.quoted text)), [])
  | .charSet text => do return (← atomNode v owner .one (.terminal text), [])
  | .rule name => do return (← atomNode v owner .one (.rule name), [])
  | .wildcard => do return (← atomNode v owner .one .wildcard, [])
  | .label _ _ target => ofElement v owner place i target
  | .group c block =>
    match (Block.single? block).bind Element.atom? with
    | some atom => do return (← atomNode v owner c atom, [])
    | none => do
      let name := blockName place i
      return (some (.rule name c), ← ofBlock v owner name block)
  | .action code => .error (.unsupportedConstruct owner (Element.action code).constructName)
  | .semPred _ | .synPred _ | .epsilon => .ok (none, [])

end

end Draft

/-- The drafts of the parser rules of a grammar, in the order of the rules. -/
def Grammar.drafts (v : Vocabulary) (g : Grammar) : Except CompileError Definitions := do
  return (← g.parserRules.mapM fun r => Draft.ofBlock v r.name r.name r.block).flatten

end GrammarCompletion
