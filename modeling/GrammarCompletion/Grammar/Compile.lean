/-
# Compiling grammars

A grammar is compiled with the names of its tokens, a policy, and a place from which the grammars
that it imports are loaded.  Imported grammars come before the grammars that import them, so a rule
of the importing grammar takes the place of an imported rule of the same name.

The first half of a compilation makes drafts (`Draft`).  The second half puts the drafts of all
grammars into one table, in which a later draft takes the place of an earlier one of the same name,
and replaces the names of rules by their places in the table.  The names that a policy holds are
looked up last.
-/
import GrammarCompletion.Draft
import GrammarCompletion.Model.Basic
import GrammarCompletion.Policy

namespace GrammarCompletion

/-! ## Linking drafts -/

/-- The drafts by the names of their rules. -/
abbrev DraftTable := OrderedMap String Draft

namespace DraftTable

/-- The id of the rule with a given name. -/
def ruleId? (t : DraftTable) (name : String) : Option RuleId :=
  (t.indexOf? name).map RuleId.mk

/-- Replaces the name that a node of a rule refers to. -/
def linkNode (t : DraftTable) (owner : String) (n : Node String) :
    Except CompileError (Node RuleId) :=
  match n.symbol with
  | .token id => .ok ⟨.token id, n.cardinality, n.any⟩
  | .rule name =>
    match t.ruleId? name with
    | some id => .ok ⟨.rule id, n.cardinality, n.any⟩
    | none => .error (.undefinedRule owner name)

/-- Replaces the names in a sequence of a rule. -/
def linkSequence (t : DraftTable) (owner : String) (s : Sequence String) :
    Except CompileError (Sequence RuleId) := do
  return ⟨← s.nodes.mapM (t.linkNode owner), s.predicate⟩

/-- Replaces the names in the body of a rule. -/
def linkBody (t : DraftTable) (owner : String) : Draft → Except CompileError (RuleBody RuleId)
  | .tokenSet tokens => .ok (.tokenSet tokens)
  | .sequences list => do return .sequences (← list.mapM (t.linkSequence owner))

/-- The entries of the table with ids in place of names. -/
def linkEntries (t : DraftTable) : Except CompileError (List (String × RuleBody RuleId)) :=
  t.entries.mapM fun e => do return (e.1, ← t.linkBody e.1 e.2)

/-- The ids of the rules that a policy names. -/
def policyRules (t : DraftTable) (names : List String) : Except CompileError (List RuleId) :=
  names.mapM fun name =>
    match t.ruleId? name with
    | some id => .ok id
    | none => .error (.unknownPolicyRule name)

/-- The ids of the tokens that a policy names. -/
def policyTokens (v : Vocabulary) (names : List String) : Except CompileError (List TokenId) :=
  names.mapM fun name =>
    match v.get? name with
    | some id => .ok id
    | none => .error (.unknownPolicyToken name)

/-- The model of the drafts in a table. -/
def link (t : DraftTable) (v : Vocabulary) (p : Policy) : Except CompileError Model := do
  if t.isEmpty then throw .noParserRules
  let rules ← t.linkEntries
  let special ← t.policyRules p.specialRules
  let ignored ← t.policyRules p.ignoredRules
  let tokens ← policyTokens v p.ignoredTokens
  let m : Model := { rules := .ofList rules, tokenNames := v.displayNames }
  return ((m.addSpecialRules special).addIgnoredRules ignored).addIgnoredTokens tokens

end DraftTable

/-! ## Compiling -/

/-- The model of a grammar.  Drafts are made in the order of the grammars, so an error in a grammar is
reported before an error in following the imports that come after it. -/
def Grammar.compile (g : Grammar) (v : Vocabulary) (p : Policy) (loader : Option Loader) :
    Except CompileError Model := do
  let (grammars, fault) := Traversal.run loader g
  let drafts ← grammars.mapM (Grammar.drafts v)
  match fault with
  | some e => throw (.imports e)
  | none => DraftTable.link (.ofList drafts.flatten) v p

end GrammarCompletion
