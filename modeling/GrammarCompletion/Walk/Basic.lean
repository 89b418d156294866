/-
# Walks

A walk goes over a model along a token stream.  It matches input up to the caret and then collects
the tokens that may come next.  This file holds what a walk starts from (`Session`) and what it
keeps while it goes (`Run`): the fuel that is left, the rules it is in, the results that can be used
again, the candidates and the events so far.

A walk that ends with an error leaves its run as it was when the error arose, so that the events up
to then can still be seen.
-/
import GrammarCompletion.Candidates
import GrammarCompletion.TokenStream
import GrammarCompletion.Trace
import Std.Data.TreeMap

namespace GrammarCompletion

/-- The limits of a walk. -/
structure Limits where
  /-- How many rules may be visited, in matching and in collecting. -/
  fuel : Nat := 1000000
  /-- How many rules may be active inside each other. -/
  depth : Nat := 1024
deriving DecidableEq

instance : Inhabited Limits := ⟨{}⟩

/-- Why a walk has no result. -/
inductive CompletionError where
  /-- The rule to start from is not in the model. -/
  | unknownRule (name : String)
  /-- More rules were visited than allowed. -/
  | fuelExhausted (limit : Nat)
  /-- More rules were active inside each other than allowed. -/
  | recursionLimit (limit : Nat)
  /-- The model breaks a promise. -/
  | defect (d : Defect)
deriving DecidableEq

/-- What is reported for a walk without a result. -/
def CompletionError.message : CompletionError → String
  | unknownRule name => s!"unknown rule `{name}`"
  | fuelExhausted limit => s!"completion step limit of {limit} exceeded"
  | recursionLimit limit => s!"completion recursion limit of {limit} exceeded"
  | defect d => d.message

/-- What a walk starts from. -/
structure Session where
  /-- The grammar. -/
  model : Model
  /-- The input. -/
  stream : TokenStream
  /-- The place for which a completion is asked. -/
  caret : Caret
  /-- The limits. -/
  limits : Limits := {}

/-- A rule at a position. -/
structure Spot where
  /-- The rule. -/
  rule : RuleId
  /-- The position. -/
  start : Nat
deriving DecidableEq

namespace Spot

/-- Spots are in the order of their rules, those with the same rule in the order of their
positions. -/
instance : Ord Spot where
  compare := compareLex (compareOn fun a => a.rule.index) (compareOn fun a => a.start)

instance : Std.TransOrd Spot :=
  inferInstanceAs
    (Std.TransCmp (compareLex (compareOn fun a : Spot => a.rule.index) (compareOn fun a => a.start)))

instance : Std.LawfulEqOrd Spot where
  eq_of_compare {a b} h := by
    have h := compareLex_eq_eq.1 h
    obtain ⟨⟨i⟩, p⟩ := a
    obtain ⟨⟨j⟩, q⟩ := b
    simp only [compareOn, Nat.compare_eq_eq] at h
    simp [h.1, h.2]

end Spot

/-- The result of matching a rule, an alternative or a node. -/
structure Outcome where
  /-- Whether it matched. -/
  matched : Bool
  /-- The position after it. -/
  stop : Nat
  /-- Whether what follows has to be collected. -/
  phase : Phase
deriving DecidableEq

/-- Whether an outcome counts when the alternatives of a rule are compared. -/
def Outcome.isUsable (o : Outcome) : Bool :=
  o.matched || o.phase ≠ .matching

/-- A result that can be used again. -/
structure Memo where
  /-- The result. -/
  outcome : Outcome
  /-- Whether the rule is still being matched, and a longer result may follow. -/
  growing : Bool
deriving DecidableEq

/-- A rule that is being matched. -/
structure Frame where
  /-- The rule and the position. -/
  spot : Spot
  /-- Whether the rule was entered again at the same position. -/
  recursed : Bool := false
  /-- Whether the result depends on an unfinished result further out, so that it must not be used
  again. -/
  tainted : Bool := false
deriving DecidableEq

/-- What a walk keeps while it goes. -/
structure Run where
  /-- How many more rules may be visited. -/
  fuel : Nat
  /-- The rules that are being matched, the innermost one first. -/
  frames : List Frame := []
  /-- The rules that are being collected from, the innermost one first. -/
  collecting : List RuleId := []
  /-- The results that can be used again. -/
  memo : Std.TreeMap Spot Memo := ∅
  /-- The candidates so far. -/
  candidates : Candidates := ∅
  /-- The events so far, the newest first. -/
  events : List Event := []

/-- A part of a walk. -/
abbrev Walk := EStateM CompletionError Run

namespace Walk

/-- Records an event. -/
def emit (e : Event) : Walk Unit :=
  modify fun r => { r with events := e :: r.events }

/-- Uses up fuel for one more rule, given the fuel that the walk started with. -/
def burn (limit : Nat) : Walk Unit := do
  match (← get).fuel with
  | 0 => throw (.fuelExhausted limit)
  | n + 1 => modify fun r => { r with fuel := n }

/-- A value that a defect of the model may prevent. -/
def ofExcept {α : Type} : Except Defect α → Walk α
  | .ok a => pure a
  | .error d => throw (.defect d)

end Walk

/-- The run before the first step. -/
def Session.start (s : Session) : Run := { fuel := s.limits.fuel }

end GrammarCompletion
