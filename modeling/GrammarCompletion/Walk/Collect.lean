/-
# Collecting candidates

From the caret on, no input is consumed: a walk gathers every token that can come next.  It descends
into rules and goes on along a sequence until a required node closes the way.  When a way reaches
the end of its sequence, the phase is `pending`, and whoever asked has to go on collecting behind it.

How far rules may lie inside each other is counted down in `depth`, on which `collectRule` recurses.
-/
import GrammarCompletion.Walk.Basic

namespace GrammarCompletion

/-- The phase after two ways: one of them is enough to keep collecting behind both. -/
def Phase.or : Phase → Phase → Phase
  | .matching, p => p
  | .pending, _ => .pending

@[simp] theorem Phase.or_eq_pending {p q : Phase} :
    p.or q = .pending ↔ p = .pending ∨ q = .pending := by
  cases p <;> simp [Phase.or]

/-- The leading tokens of nodes that have to come next, one of each and in this order. -/
def Model.mandatoryTokens (m : Model) : List (Node RuleId) → List TokenId
  | [] => []
  | n :: rest =>
    match n.symbol with
    | .token id =>
      if n.isRequired && !n.isMultiple && !n.any && id ≠ .eof && !m.isIgnoredToken id then
        id :: m.mandatoryTokens rest
      else []
    | .rule _ => []

/-- The tokens that have to follow a node, given the nodes behind it. -/
def Model.continuation (m : Model) (n : Node RuleId) (rest : List (Node RuleId)) : List TokenId :=
  if n.isRequired && !n.isMultiple then m.mandatoryTokens rest else []

namespace Session

variable (s : Session)

/-- Offers a token, unless it is never offered. -/
def offer (lead : TokenId) (continuation : List TokenId) : Walk Unit := do
  if !s.model.isIgnoredToken lead then
    Walk.emit (.offerToken lead continuation)
    modify fun r => { r with candidates := r.candidates.offerToken lead continuation }

/-- Offers a rule. -/
def offerRule (rule : RuleId) : Walk Unit := do
  Walk.emit (.offerRule rule)
  modify fun r => { r with candidates := r.candidates.offerRule rule }

/-- Collects from nodes in a row, given how to collect from a rule. -/
def collectNodes (collect : RuleId → Walk Phase) : List (Node RuleId) → Walk Phase
  | [] => return .pending
  | n :: rest =>
    match n.symbol with
    | .token id =>
      if id = .eof then return .matching
      else do
        if !n.any then s.offer id (s.model.continuation n rest)
        if n.isRequired then return .matching else collectNodes collect rest
    | .rule id => do
      let phase ← collect id
      if n.isRequired && phase = .matching then return .matching else collectNodes collect rest

/-- Collects from the alternatives of a rule, given how to collect from a rule. -/
def collectSequences (collect : RuleId → Walk Phase) : List (Sequence RuleId) → Walk Phase
  | [] => return .matching
  | q :: rest => do
    let phase ← s.collectNodes collect q.nodes
    let others ← collectSequences collect rest
    return phase.or others

/-- Collects from the tokens of a token set. -/
def collectTokens : List TokenId → Walk Phase
  | [] => return .matching
  | id :: rest => do
    s.offer id []
    collectTokens rest

/-- Collects from a rule, inside which at most `depth` rules may lie inside each other.  A special
rule is offered itself.  An ignored rule, and a rule that is being collected from, add nothing. -/
def collectRule : (depth : Nat) → RuleId → Walk Phase
  | depth, rule => do
    Walk.burn s.limits.fuel
    Walk.emit (.collect rule)
    if s.model.isSpecial rule then
      offerRule rule
      return .matching
    else if s.model.isIgnored rule || rule ∈ (← get).collecting then
      return .matching
    else
      match ← Walk.ofExcept (s.model.body rule) with
      | .tokenSet tokens => s.collectTokens tokens.toList
      | .sequences list =>
        match depth with
        | 0 => throw (.recursionLimit s.limits.depth)
        | depth + 1 =>
          modify fun r => { r with collecting := rule :: r.collecting }
          let phase ← s.collectSequences (collectRule depth) list
          modify fun r => { r with collecting := r.collecting.tail }
          return phase

end Session

end GrammarCompletion
