/-
# Models

A model is a compiled grammar, ready to be walked: a table of rules, in which the place of a rule is
its id, the rules and tokens that are treated specially, and the names under which tokens are shown.
-/
import GrammarCompletion.Model.Body
import GrammarCompletion.OrderedMap

namespace GrammarCompletion

/-- A compiled grammar. -/
structure Model where
  /-- The bodies of the rules by name; the place of a rule is its id. -/
  rules : OrderedMap String (RuleBody RuleId)
  /-- The rules that are offered under their own name. -/
  specialRules : OrderedSet RuleId := ∅
  /-- The rules that are never entered in search of candidates. -/
  ignoredRules : OrderedSet RuleId := ∅
  /-- The tokens that are never offered, the wildcard among them. -/
  ignoredTokens : OrderedSet TokenId := .singleton .wildcard
  /-- The names under which tokens are shown. -/
  tokenNames : OrderedMap TokenId String
deriving DecidableEq

namespace Model

/-- The model with further special rules. -/
def addSpecialRules (m : Model) (ids : List RuleId) : Model :=
  { m with specialRules := m.specialRules.insertAll ids }

/-- The model with further ignored rules. -/
def addIgnoredRules (m : Model) (ids : List RuleId) : Model :=
  { m with ignoredRules := m.ignoredRules.insertAll ids }

/-- The model with further ignored tokens. -/
def addIgnoredTokens (m : Model) (ids : List TokenId) : Model :=
  { m with ignoredTokens := m.ignoredTokens.insertAll ids }

/-- The number of rules. -/
def ruleCount (m : Model) : Nat := m.rules.size

/-- The id of a rule by name. -/
def ruleId? (m : Model) (name : String) : Option RuleId :=
  (m.rules.indexOf? name).map RuleId.mk

/-- The body of a rule by name. -/
def bodyOf? (m : Model) (name : String) : Option (RuleBody RuleId) :=
  m.rules.get? name

/-- The name and the body of a rule. -/
def rule (m : Model) (id : RuleId) : Except Defect (String × RuleBody RuleId) :=
  match m.rules.entry? id.index with
  | some e => .ok e
  | none => .error (.danglingRule id)

/-- The name of a rule. -/
def ruleName (m : Model) (id : RuleId) : Except Defect String :=
  (m.rule id).map Prod.fst

/-- The body of a rule. -/
def body (m : Model) (id : RuleId) : Except Defect (RuleBody RuleId) :=
  (m.rule id).map Prod.snd

/-- The rules with their ids. -/
def ruleList (m : Model) : List (RuleId × String × RuleBody RuleId) :=
  m.rules.entries.zipIdx.map fun e => (⟨e.2⟩, e.1)

/-- Whether a rule is offered under its own name. -/
def isSpecial (m : Model) (id : RuleId) : Bool := id ∈ m.specialRules

/-- Whether a rule is never entered in search of candidates. -/
def isIgnored (m : Model) (id : RuleId) : Bool := id ∈ m.ignoredRules

/-- Whether a token is never offered. -/
def isIgnoredToken (m : Model) (id : TokenId) : Bool := id ∈ m.ignoredTokens

/-- The name under which a token is shown.  A token without a name is shown as a point if it is the
wildcard, as `EOF` if it is the end of the input, and else by its number in angle brackets. -/
def tokenName (m : Model) (id : TokenId) : String :=
  match m.tokenNames.get? id with
  | some name => name
  | none =>
    if id = .wildcard then "."
    else if id = .eof then "EOF"
    else "<" ++ toString id ++ ">"

end Model

end GrammarCompletion
