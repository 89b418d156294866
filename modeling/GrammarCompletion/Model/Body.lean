/-
# Rule bodies

A compiled rule body has one of two shapes.  A body whose alternatives are all single tokens is
kept as the set of these tokens; every other body is a list of sequences of nodes.  A node refers to
a token or to a rule.  References to rules are of any type `ρ`: they are names while a grammar is
being compiled and `RuleId`s in a finished model.

Bodies that come from a compilation are not empty: a token set has a token and a list of sequences
has a sequence, which may itself be empty.  `RuleBody.ofTokens` and `RuleBody.ofSequences` refuse the
others.  An empty rule body is a defect, a value that breaks what a model promises; so is a rule id
that does not belong to the model.  Compilation produces no defects.  They come from models that were
put together by hand or read from a file, and from ids that are used with the wrong model.
-/
import GrammarCompletion.Basic
import GrammarCompletion.OrderedSet

namespace GrammarCompletion

/-! ## Rule ids and defects -/

/-- The place of a rule in its model. -/
structure RuleId where
  /-- The number of rules before it. -/
  index : Nat
deriving DecidableEq

/-- A broken promise about a model. -/
inductive Defect where
  /-- A token set without tokens. -/
  | emptyTokenSet
  /-- A list of sequences without sequences. -/
  | noAlternatives
  /-- A rule id that the model has no rule for. -/
  | danglingRule (id : RuleId)
  /-- An index that does not fit into a rule id. -/
  | tooManyRules
deriving DecidableEq

/-- What is reported for a defect. -/
def Defect.message : Defect → String
  | .emptyTokenSet => "optimized rule needs at least one token"
  | .noAlternatives => "rule needs at least one alternative"
  | .danglingRule id =>
    s!"GrammarModel: rule id {id.index} not found (rule ids must come from the same model)"
  | .tooManyRules => "rule count exceeds u32: TryFromIntError(PosOverflow)"

namespace RuleId

instance : Inhabited RuleId := ⟨⟨0⟩⟩

/-- The number of different rule ids. -/
def bound : Nat := Nat.pow 2 32

/-- The rule id for an index. -/
def ofIndex (i : Nat) : Except Defect RuleId :=
  if i < bound then .ok ⟨i⟩ else .error .tooManyRules

end RuleId

/-! ## Nodes, sequences and bodies -/

/-- What a node refers to. -/
inductive Symbol (ρ : Type) where
  /-- A token. -/
  | token (id : TokenId)
  /-- A rule. -/
  | rule (ref : ρ)
deriving DecidableEq

/-- A step of a sequence. -/
structure Node (ρ : Type) where
  /-- What has to occur. -/
  symbol : Symbol ρ
  /-- How often it may occur in a row. -/
  cardinality : Cardinality
  /-- Whether the node matches any token but the end of the input, in place of its own token. -/
  any : Bool
deriving DecidableEq

namespace Node

variable {ρ : Type}

/-- The node for a token. -/
def token (id : TokenId) (c : Cardinality) : Node ρ := ⟨.token id, c, false⟩

/-- The node for a rule. -/
def rule (ref : ρ) (c : Cardinality) : Node ρ := ⟨.rule ref, c, false⟩

/-- The node for any token but the end of the input. -/
def wildcard (c : Cardinality) : Node ρ := ⟨.token .wildcard, c, true⟩

/-- Whether the node has to occur at least once. -/
def isRequired (n : Node ρ) : Bool := n.cardinality.required

/-- Whether the node may occur more than once. -/
def isMultiple (n : Node ρ) : Bool := n.cardinality.multiple

/-- The token that the node refers to. -/
def tokenId? (n : Node ρ) : Option TokenId :=
  match n.symbol with
  | .token id => some id
  | .rule _ => none

/-- The rule that the node refers to. -/
def ruleRef? (n : Node ρ) : Option ρ :=
  match n.symbol with
  | .token _ => none
  | .rule ref => some ref

/-- Whether the node refers to a token. -/
def isTerminal (n : Node ρ) : Bool := n.tokenId?.isSome

end Node

/-- An alternative of a rule: its nodes in order, and a predicate that guards it.  The predicate is
kept but not evaluated. -/
structure Sequence (ρ : Type) where
  /-- The nodes in order. -/
  nodes : List (Node ρ)
  /-- The predicate at the start of the alternative. -/
  predicate : Option String := none
deriving DecidableEq

/-- Nodes are skippable when none of them has to occur. -/
def skippable {ρ : Type} (nodes : List (Node ρ)) : Bool :=
  nodes.all fun n => !n.isRequired

/-- Whether a sequence is complete once the node at `i` has occurred: no later node is required. -/
def Sequence.satisfiedAfter {ρ : Type} (s : Sequence ρ) (i : Nat) : Bool :=
  skippable (s.nodes.drop (i + 1))

/-- The compiled body of a rule. -/
inductive RuleBody (ρ : Type) where
  /-- Exactly one of a set of tokens. -/
  | tokenSet (tokens : OrderedSet TokenId)
  /-- One of a list of sequences. -/
  | sequences (list : List (Sequence ρ))
deriving DecidableEq

namespace RuleBody

variable {ρ : Type}

/-- The body of a rule whose alternatives are single tokens. -/
def ofTokens (tokens : OrderedSet TokenId) : Except Defect (RuleBody ρ) :=
  if tokens.isEmpty then .error .emptyTokenSet else .ok (tokenSet tokens)

/-- The body of a rule with the given alternatives. -/
def ofSequences (list : List (Sequence ρ)) : Except Defect (RuleBody ρ) :=
  if list.isEmpty then .error .noAlternatives else .ok (sequences list)

/-- The tokens of a token set. -/
def tokens? : RuleBody ρ → Option (OrderedSet TokenId)
  | tokenSet tokens => some tokens
  | sequences _ => none

/-- The sequences of a body; a token set has none. -/
def sequenceList : RuleBody ρ → List (Sequence ρ)
  | tokenSet _ => []
  | sequences list => list

end RuleBody

end GrammarCompletion
