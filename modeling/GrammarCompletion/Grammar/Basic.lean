/-
# Grammars

A grammar is a list of rules.  The body of a rule is a block of alternatives, an alternative is a
sequence of elements, and an element may hold a block of its own, so that blocks nest.  Rules whose
name starts with a capital letter describe the lexer and have no part in completion.

Blocks and alternatives are plain lists; functions on elements recurse through both.
-/
import GrammarCompletion.Basic
import GrammarCompletion.Vocabulary.Basic

namespace GrammarCompletion

/-- How a label is bound to its element. -/
inductive LabelOp where
  /-- The label names the element. -/
  | assign
  /-- The label names the list of all elements with it. -/
  | append
deriving DecidableEq

/-- An element of a grammar. -/
inductive Element where
  /-- A token of the lexer, by name. -/
  | token (name : String)
  /-- A quoted literal, without its quotes. -/
  | literal (text : String)
  /-- A set of characters, verbatim. -/
  | charSet (text : String)
  /-- A rule of the parser, by name. -/
  | rule (name : String)
  /-- A block in parentheses, with the operator after it. -/
  | group (cardinality : Cardinality) (block : List (List Element))
  /-- An element with a label. -/
  | label (name : String) (op : LabelOp) (target : Element)
  /-- A predicate that decides whether to go on. -/
  | semPred (code : String)
  /-- A predicate on the input that follows. -/
  | synPred (code : String)
  /-- Code that runs when it is reached. -/
  | action (code : String)
  /-- The empty sequence. -/
  | epsilon
  /-- Any token but the end of the input. -/
  | wildcard

/-- A sequence of elements. -/
abbrev Alternative := List Element

/-- A choice between alternatives. -/
abbrev Block := List Alternative

namespace Element

instance : Inhabited Element := ⟨epsilon⟩

/-- The name under which a vocabulary knows a terminal element: that of a token, the quoted text of
a literal, the verbatim text of a character set.  The other elements are not terminals. -/
def terminalName? : Element → Option String
  | token name => some name
  | literal text => some (Vocabulary.quoted text)
  | charSet text => some text
  | _ => none

/-- Whether the element stands for one token of the vocabulary. -/
def isTerminal (e : Element) : Bool :=
  e.terminalName?.isSome

/-- What the kind of an element is called in messages. -/
def constructName : Element → String
  | token _ => "token reference"
  | literal _ => "string literal"
  | charSet _ => "character set"
  | rule _ => "rule reference"
  | group ⟨false, false⟩ _ => "optional block"
  | group ⟨true, false⟩ _ => "closure"
  | group ⟨true, true⟩ _ => "positive closure"
  | group ⟨false, true⟩ _ => "block"
  | label _ _ _ => "label assignment"
  | semPred _ => "semantic predicate"
  | synPred _ => "syntactic predicate"
  | action _ => "action"
  | epsilon => "epsilon"
  | wildcard => "wildcard"

/-- The element, or nothing. -/
def optional (e : Element) : Element := group .optional [[e]]

/-- Any number of repetitions of the element. -/
def closure (e : Element) : Element := group .zeroOrMore [[e]]

/-- At least one repetition of the element. -/
def positiveClosure (e : Element) : Element := group .oneOrMore [[e]]

end Element

namespace Alternative

/-- The alternative that matches nothing. -/
def epsilon : Alternative := [.epsilon]

end Alternative

namespace Block

/-- The block with one alternative for each element. -/
def choice (elements : List Element) : Block := elements.map fun e => [e]

/-- The block whose only alternative is a sequence of elements. -/
def sequence (elements : List Element) : Block := [elements]

/-- The only element of the only alternative of a block. -/
def single? : Block → Option Element
  | [[e]] => some e
  | _ => none

end Block

/-- A named rule of a grammar. -/
structure Grammar.Rule where
  /-- The name. -/
  name : String
  /-- The body. -/
  block : Block

/-- A named list of rules, with the names of the grammars that it imports. -/
structure Grammar where
  /-- The name. -/
  name : String
  /-- The imported grammars in the order of the directives. -/
  imports : List String := []
  /-- The rules in the order of their definitions. -/
  rules : List Grammar.Rule := []

namespace Grammar

instance : Inhabited Grammar := ⟨{ name := "" }⟩

/-- Whether a rule belongs to the lexer. -/
def Rule.isLexer (r : Rule) : Bool :=
  match r.name.toList with
  | c :: _ => c.isUpper
  | [] => false

/-- The rules that belong to the parser. -/
def parserRules (g : Grammar) : List Rule :=
  g.rules.filter fun r => !r.isLexer

/-- The first rule with a name. -/
def rule? (g : Grammar) (name : String) : Option Rule :=
  g.rules.find? fun r => r.name = name

/-- The grammar with one more import. -/
def addImport (g : Grammar) (name : String) : Grammar :=
  { g with imports := g.imports ++ [name] }

/-- The grammar with one more rule. -/
def addRule (g : Grammar) (name : String) (block : Block) : Grammar :=
  { g with rules := g.rules ++ [⟨name, block⟩] }

end Grammar

end GrammarCompletion
