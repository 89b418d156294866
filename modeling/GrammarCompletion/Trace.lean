/-
# Events and logs

A walk over a model records what it does as a list of events.  Positions are positions in the token
stream.  A log shows events as indented lines of text, with the names of rules and tokens in place of
their ids:

    > equation @0
      caret @2
      + PLUS
    < equation failed @0

A verbose log shows every event.  Otherwise the results of single alternatives, reused results and
the rules that are collected from are left out.  An event with a dangling rule has no line and is
reported as a defect; if it ends a rule, the lines after it are indented less all the same.
-/
import GrammarCompletion.Candidates
import GrammarCompletion.Model.Body

namespace GrammarCompletion

/-- Whether a walk still matches input. -/
inductive Phase where
  /-- Input is matched, or all candidates on the way were found. -/
  | matching
  /-- Candidates were collected up to the end of a rule, and what follows the rule has to be
  collected as well. -/
  | pending
deriving DecidableEq

/-- A step of a walk. -/
inductive Event where
  /-- Matching of a rule starts. -/
  | enter (rule : RuleId) (position : Nat)
  /-- Matching of a rule ends. -/
  | exit (rule : RuleId) (matched : Bool) (position : Nat) (phase : Phase)
  /-- An alternative of the innermost rule was tried. -/
  | alternative (index : Nat) (matched : Bool) (position : Nat)
  /-- A rule was matched at the position before, and the result is used again. -/
  | memoHit (rule : RuleId) (position : Nat)
  /-- A rule is being matched at the position already. -/
  | leftRecursion (rule : RuleId) (position : Nat)
  /-- The caret is reached. -/
  | caret (position : Nat)
  /-- Candidates are collected from a rule. -/
  | collect (rule : RuleId)
  /-- A token is offered, with the tokens that have to follow it. -/
  | offerToken (lead : TokenId) (continuation : List TokenId)
  /-- A rule is offered. -/
  | offerRule (rule : RuleId)
deriving DecidableEq

/-! ## Logs -/

/-- How much of a walk a log shows. -/
inductive Verbosity where
  /-- The rules, the caret, left recursion and the candidates. -/
  | brief
  /-- All events. -/
  | verbose
deriving DecidableEq

/-- A text that is shown only in verbose logs. -/
def Verbosity.ifVerbose (v : Verbosity) (line : Except Defect String) :
    Except Defect (Option String) :=
  match v with
  | .brief => .ok none
  | .verbose => line.map some

namespace Event

/-- Whether the event starts a rule. -/
def isEnter : Event → Bool
  | enter _ _ => true
  | _ => false

/-- Whether the event ends a rule. -/
def isExit : Event → Bool
  | exit _ _ _ _ => true
  | _ => false

/-- How a result is shown. -/
def resultText (matched : Bool) : String := if matched then "matched" else "failed"

/-- The mark for a rule that ended while candidates were collected. -/
def phaseText : Phase → String
  | .matching => ""
  | .pending => " (collection pending)"

/-- The line of an event without its indentation, if the event is shown. -/
def line (m : Model) (v : Verbosity) : Event → Except Defect (Option String)
  | enter rule p => do return some s!"> {← m.ruleName rule} @{p}"
  | exit rule matched p phase => do
    return some s!"< {← m.ruleName rule} {resultText matched} @{p}{phaseText phase}"
  | alternative i matched p => v.ifVerbose (.ok s!"alt {i} {resultText matched} @{p}")
  | memoHit rule p => v.ifVerbose do return s!"memo {← m.ruleName rule} @{p}"
  | leftRecursion rule p => do return some s!"left recursion {← m.ruleName rule} @{p}"
  | caret p => .ok (some s!"caret @{p}")
  | collect rule => v.ifVerbose do return s!"collect {← m.ruleName rule}"
  | offerToken lead continuation =>
    .ok (some ("+ " ++ Candidates.phraseText m lead continuation))
  | offerRule rule => do return some s!"+ {← m.ruleName rule} (rule)"

end Event

/-- The lines for the events so far. -/
structure Log where
  /-- The lines, the newest first. -/
  newestFirst : List String := []
  /-- The number of rules that were started and not ended. -/
  depth : Nat := 0
deriving DecidableEq

namespace Log

instance : Inhabited Log := ⟨{}⟩

/-- The lines in the order of the events. -/
def lines (log : Log) : List String := log.newestFirst.reverse

/-- The log as one text. -/
def output (log : Log) : String := "\n".intercalate log.lines

/-- The log with one more line, at the current indentation. -/
def push (log : Log) (line : String) : Log :=
  { log with newestFirst := (String.join (List.replicate log.depth "  ") ++ line) :: log.newestFirst }

/-- The log after the indentation that an event ends. -/
def dedent (log : Log) (e : Event) : Log :=
  if e.isExit then { log with depth := log.depth - 1 } else log

/-- The log after the indentation that an event starts. -/
def indent (log : Log) (e : Event) : Log :=
  if e.isEnter then { log with depth := log.depth + 1 } else log

/-- The log after an event, and what is wrong with the event. -/
def record (m : Model) (v : Verbosity) (log : Log) (e : Event) : Log × Option Defect :=
  let log := log.dedent e
  match e.line m v with
  | .ok (some line) => ((log.push line).indent e, none)
  | .ok none => (log, none)
  | .error d => (log, some d)

/-- The log of a list of events, or the first defect in it. -/
def ofEvents (m : Model) (v : Verbosity) (events : List Event) : Except Defect Log :=
  events.foldlM
    (fun log e =>
      match log.record m v e with
      | (log, none) => .ok log
      | (_, some d) => .error d)
    {}

end Log

end GrammarCompletion
