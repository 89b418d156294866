/-
# Dumps of models

A dump shows a model as text, one entry for each rule in the order of their ids:

    equation =
      | NUMBER operator NUMBER
    operator = {PLUS, MINUS}

Operators follow the elements they belong to, the wildcard is a point and an empty sequence is `ε`.
Special and ignored rules are marked, and a last line names the tokens that are never offered.
-/
import GrammarCompletion.Model.Basic

namespace GrammarCompletion.Model

/-- A node with its operator. -/
def dumpNode (m : Model) (n : Node RuleId) : Except Defect String := do
  let name ← match n.symbol with
    | .token id => pure (if n.any then "." else m.tokenName id)
    | .rule id => m.ruleName id
  return name ++ n.cardinality.suffix

/-- A sequence: its predicate, then its nodes. -/
def dumpSequence (m : Model) (s : Sequence RuleId) : Except Defect String := do
  let predicate := s.predicate.toList.map fun code => "\x7b" ++ code ++ "\x7d?"
  let nodes ← s.nodes.mapM m.dumpNode
  let nodes := if s.nodes.isEmpty then ["ε"] else nodes
  return " ".intercalate (predicate ++ nodes)

/-- The lines of a rule, the first of which starts with the given heading. -/
def dumpBody (m : Model) (heading : String) : RuleBody RuleId → Except Defect (List String)
  | .tokenSet tokens =>
    .ok [heading ++ " = \x7b" ++ ", ".intercalate (tokens.toList.map m.tokenName) ++ "\x7d"]
  | .sequences list => do
    let lines ← list.mapM fun s => do return "  | " ++ (← m.dumpSequence s)
    return (heading ++ " =") :: lines

/-- The lines of the rule with a given id. -/
def dumpRule (m : Model) (id : RuleId) (name : String) (body : RuleBody RuleId) :
    Except Defect (List String) :=
  let special := if m.isSpecial id then " [special]" else ""
  let ignored := if m.isIgnored id then " [ignored]" else ""
  m.dumpBody (name ++ special ++ ignored) body

/-- The line that names the tokens that are never offered, apart from the wildcard. -/
def dumpIgnoredTokens (m : Model) : List String :=
  let ids := m.ignoredTokens.toList.filter (· ≠ .wildcard)
  if ids.isEmpty then [] else ["ignored tokens: " ++ ", ".intercalate (ids.map m.tokenName)]

/-- The lines of the model. -/
def dumpLines (m : Model) : Except Defect (List String) := do
  let rules ← m.ruleList.mapM fun e => m.dumpRule e.1 e.2.1 e.2.2
  return rules.flatten ++ m.dumpIgnoredTokens

/-- The model as text.  Every line ends in a line feed. -/
def dump (m : Model) : Except Defect String := do
  return String.join ((← m.dumpLines).map (· ++ "\n"))

end GrammarCompletion.Model
