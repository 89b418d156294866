/-
# Completions

A completion says what may be typed at the caret: the candidates, whether the input before the caret
is a whole text of the grammar already, and which part of the token at the caret is typed.
-/
import GrammarCompletion.Trace
import GrammarCompletion.Walk.Match

namespace GrammarCompletion

/-- The answer to a request for completion. -/
structure Completion where
  /-- The texts that may come next, in order and without repetition. -/
  candidates : List String
  /-- Whether the tokens before the caret are a whole text of the grammar. -/
  fullyParsed : Bool
  /-- The part of the token at the caret that is typed already. -/
  typedPart : Option String
  /-- The position in the token stream at which the walk ended. -/
  position : Nat
deriving DecidableEq

namespace Session

variable (s : Session)

/-- Walks over a rule from the first token that is not hidden. -/
def walk (rule : RuleId) : EStateM.Result CompletionError Run Outcome :=
  (s.matchRule s.limits.depth rule (s.stream.skipHidden 0)).run s.start

/-- The completion that a walk leads to. -/
def completion (o : Outcome) (c : Candidates) : Except CompletionError Completion := do
  let candidates ← (c.render s.model).mapError .defect
  return {
    candidates
    fullyParsed := o.matched && s.reached o.stop
    typedPart := s.stream.typedPart? s.caret
    position := o.stop }

/-- The completion for a rule as the root of the text, and the events of the walk in their order. -/
def completeTraced (root : String) : Except CompletionError Completion × List Event :=
  match s.model.ruleId? root with
  | none => (.error (.unknownRule root), [])
  | some rule =>
    match s.walk rule with
    | .ok o r => (s.completion o r.candidates, r.events.reverse)
    | .error e r => (.error e, r.events.reverse)

/-- The completion for a rule as the root of the text. -/
def complete (root : String) : Except CompletionError Completion :=
  (s.completeTraced root).1

/-- The completion for a rule as the root of the text, with a log of the walk.  Naming a rule that
the model does not have is a defect, also when the walk got past it. -/
def completeLogged (v : Verbosity) (root : String) : Except CompletionError Completion × Log :=
  let (result, events) := s.completeTraced root
  match Log.ofEvents s.model v events with
  | .ok log => (result, log)
  | .error d => (.error (.defect d), {})

end Session

end GrammarCompletion
