/-
# Matching input

Up to the caret a walk matches input.  A rule tries all its alternatives from the same position, and
the one that gets furthest wins; an alternative repeats a repeatable node as often as it can.  Where
the caret is reached, matching turns into collecting (`Walk/Collect`).

A rule that is entered again at the position where it is being matched fails there.  Afterwards it
is matched again and again, each time with the last result in place of the inner one, as long as the
result gets longer; that is how left recursion is followed.  What was matched on the way, with an
unfinished result inside it, is not kept for later use.

`matchRule` recurses on the number of rules that may still lie inside each other, the repetition of
a node on the number of tokens that are left, and so does the growth of a left-recursive rule.
-/
import GrammarCompletion.Walk.Collect

namespace GrammarCompletion

/-- Marks the innermost frame at a spot as left-recursive and the frames inside it as dependent on
its unfinished result. -/
def Frame.mark (spot : Spot) : List Frame → Option (List Frame)
  | [] => none
  | f :: rest =>
    if f.spot = spot then some ({ f with recursed := true } :: rest)
    else (mark spot rest).map ({ f with tainted := true } :: ·)

/-- A mark says something about frames and leaves their spots alone. -/
theorem Frame.map_spot_mark {spot : Spot} {l l' : List Frame} (h : mark spot l = some l') :
    l'.map Frame.spot = l.map Frame.spot := by
  induction l generalizing l' with
  | nil => simp [mark] at h
  | cons f rest ih =>
    rw [mark] at h
    split at h
    · obtain rfl := Option.some.inj h
      rfl
    · obtain ⟨marked, hm, rfl⟩ := Option.map_eq_some_iff.1 h
      simp [ih hm]

/-- The comparison of the alternatives of a rule. -/
structure Tally where
  /-- Whether an alternative matched. -/
  matched : Bool := false
  /-- Where the alternative that got furthest ended, and in which phase; of several the first. -/
  best : Option (Nat × Phase) := none
deriving DecidableEq

namespace Tally

/-- The comparison with one more alternative. -/
def add (t : Tally) (o : Outcome) : Tally where
  matched := t.matched || o.matched
  best :=
    if o.isUsable && t.best.all fun b => b.1 < o.stop then some (o.stop, o.phase) else t.best

/-- The outcome of a rule that was tried at a position. -/
def outcome (t : Tally) (start : Nat) : Outcome :=
  match t.best with
  | some (stop, phase) => ⟨t.matched, stop, phase⟩
  | none => ⟨t.matched, start, .matching⟩

end Tally

/-- How a sequence goes on after the repetitions of a node. -/
inductive Continuation where
  /-- The caret was reached, and this is the outcome of the sequence. -/
  | finished (o : Outcome)
  /-- The next node is tried at a position. -/
  | next (position : Nat)
deriving DecidableEq

namespace Session

variable (s : Session)

/-- Whether input must not be consumed from a position on. -/
def reached (p : Nat) : Bool := s.stream.reached s.caret p

/-- Matches the token of a node. -/
def matchToken (any : Bool) (id : TokenId) (p : Nat) : Outcome :=
  if if any then !s.stream.atEnd p else s.stream.kind p = id then ⟨true, s.stream.advance p, .matching⟩
  else ⟨false, p, .matching⟩

/-- Matches one occurrence of a node, given how to match a rule. -/
def matchNode (matchRule : RuleId → Nat → Walk Outcome) (n : Node RuleId) (p : Nat) :
    Walk Outcome :=
  match n.symbol with
  | .token id => return s.matchToken n.any id p
  | .rule id => matchRule id p

/-- Collects after an occurrence of a node that may be repeated: one more occurrence, or what
follows. -/
def collectAfterRepeat (collect : RuleId → Walk Phase) (n : Node RuleId)
    (rest : List (Node RuleId)) : Walk Phase := do
  let phase ← s.collectNodes collect (n :: rest)
  if n.isRequired then s.collectNodes collect rest else return phase

/-- Collects after a node inside which candidates were collected up to its end. -/
def collectBehind (collect : RuleId → Walk Phase) (n : Node RuleId) (rest : List (Node RuleId)) :
    Walk Phase := do
  if n.isMultiple then discard (s.collectNodes collect (n :: rest))
  s.collectNodes collect rest

/-- Collects after a node that matched up to the caret. -/
def collectAtCaret (collect : RuleId → Walk Phase) (n : Node RuleId) (rest : List (Node RuleId))
    (p : Nat) : Walk Phase := do
  Walk.emit (.caret p)
  if n.isMultiple then s.collectAfterRepeat collect n rest else s.collectNodes collect rest

/-- Matches further occurrences of a node from a position on, at most `count` of them. -/
def matchRepeats (matchRule : RuleId → Nat → Walk Outcome) (collect : RuleId → Walk Phase)
    (n : Node RuleId) (rest : List (Node RuleId)) : (count : Nat) → (p : Nat) → Walk Continuation
  | 0, p => return .next p
  | count + 1, p =>
    if s.stream.atEnd p then return .next p
    else do
      let o ← s.matchNode matchRule n p
      if o.phase = .pending then
        let phase ← s.collectBehind collect n rest
        return .finished ⟨skippable rest, o.stop, phase⟩
      else if !o.matched then return .next o.stop
      else if n.isTerminal && s.reached o.stop then
        let phase ← s.collectAtCaret collect n rest o.stop
        return .finished ⟨skippable rest, o.stop, phase⟩
      else if o.stop = p then return .next p
      else matchRepeats matchRule collect n rest count o.stop

/-- Matches nodes in a row from a position on. -/
def matchNodes (matchRule : RuleId → Nat → Walk Outcome) (collect : RuleId → Walk Phase) :
    List (Node RuleId) → (p : Nat) → Walk Outcome
  | [], p => return ⟨true, p, .matching⟩
  | n :: rest, p => do
    let o ← s.matchNode matchRule n p
    if o.phase = .pending then
      let phase ← s.collectBehind collect n rest
      return ⟨o.matched && skippable rest, o.stop, phase⟩
    else if !o.matched then
      if n.isRequired then return ⟨false, o.stop, .matching⟩
      else matchNodes matchRule collect rest o.stop
    else if s.reached o.stop then
      let phase ← s.collectAtCaret collect n rest o.stop
      return ⟨skippable rest, o.stop, phase⟩
    else if n.isMultiple then
      match ← s.matchRepeats matchRule collect n rest (s.stream.size - o.stop) o.stop with
      | .finished o => return o
      | .next p => matchNodes matchRule collect rest p
    else matchNodes matchRule collect rest o.stop

/-- Tries the alternatives of a rule, the first of which has index `i`, from a position on. -/
def matchSequences (matchRule : RuleId → Nat → Walk Outcome) (collect : RuleId → Walk Phase)
    (start : Nat) : (i : Nat) → Tally → List (Sequence RuleId) → Walk Tally
  | _, t, [] => return t
  | i, t, q :: rest => do
    let o ← s.matchNodes matchRule collect q.nodes start
    Walk.emit (.alternative i o.matched o.stop)
    matchSequences matchRule collect start (i + 1) (t.add o) rest

/-- Matches one of a set of tokens. -/
def matchTokenSet (tokens : OrderedSet TokenId) (start : Nat) : Outcome :=
  if s.stream.kind start ∈ tokens then
    let stop := s.stream.advance start
    ⟨true, stop, if s.reached stop then .pending else .matching⟩
  else ⟨false, start, .matching⟩

/-- Matches the body of a rule at a spot. -/
def matchBody (matchRule : RuleId → Nat → Walk Outcome) (collect : RuleId → Walk Phase)
    (spot : Spot) : Walk Outcome := do
  match ← Walk.ofExcept (s.model.body spot.rule) with
  | .tokenSet tokens => return s.matchTokenSet tokens spot.start
  | .sequences list =>
    let t ← s.matchSequences matchRule collect spot.start 0 {} list
    return t.outcome spot.start

/-- Matches the body of a left-recursive rule again, with the best result so far in place of the
inner one, while the result gets longer, and at most `count` times. -/
def grow (body : Walk Outcome) (spot : Spot) : (count : Nat) → (best : Outcome) → Walk Outcome
  | 0, best => return best
  | count + 1, best => do
    modify fun r => { r with memo := r.memo.insert spot ⟨best, true⟩ }
    let o ← body
    if o.isUsable && best.stop < o.stop then grow body spot count o else return best

/-- Marks the active frame at a spot as left-recursive. -/
def markRecursion (spot : Spot) : Walk Unit :=
  modify fun r => { r with frames := (Frame.mark spot r.frames).getD r.frames }

/-- Takes the innermost frame away and keeps the result of its rule, unless the result depends on an
unfinished one. -/
def leave (spot : Spot) (o : Outcome) : Walk Unit :=
  modify fun r =>
    { r with
      frames := r.frames.tail
      memo := if r.frames.head?.any Frame.tainted then r.memo.erase spot
        else r.memo.insert spot ⟨o, false⟩ }

/-- Matches a rule in a frame of its own. -/
def matchInFrame (matchRule : RuleId → Nat → Walk Outcome) (collect : RuleId → Walk Phase)
    (spot : Spot) : Walk Outcome := do
  Walk.emit (.enter spot.rule spot.start)
  modify fun r => { r with frames := { spot } :: r.frames }
  let seed ← s.matchBody matchRule collect spot
  let o ←
    if (← get).frames.head?.any Frame.recursed then
      grow (s.matchBody matchRule collect spot) spot (s.stream.size + 1 - seed.stop) seed
    else pure seed
  leave spot o
  Walk.emit (.exit spot.rule o.matched o.stop o.phase)
  return o

/-- Matches a rule at a position, inside which at most `depth` rules may lie inside each other.
Where the caret is reached already, candidates are collected from the rule instead. -/
def matchRule : (depth : Nat) → RuleId → (start : Nat) → Walk Outcome
  | depth, rule, start => do
    Walk.burn s.limits.fuel
    if s.reached start then
      Walk.emit (.caret start)
      let phase ← s.collectRule depth rule
      return ⟨false, start, phase⟩
    else
      let r ← get
      match r.memo[(⟨rule, start⟩ : Spot)]? with
      | some memo =>
        Walk.emit (.memoHit rule start)
        if memo.growing then markRecursion ⟨rule, start⟩
        return memo.outcome
      | none =>
        if r.frames.any fun f => f.spot = ⟨rule, start⟩ then
          Walk.emit (.leftRecursion rule start)
          markRecursion ⟨rule, start⟩
          return ⟨false, start, .matching⟩
        else
          match depth with
          | 0 => throw (.recursionLimit s.limits.depth)
          | depth + 1 => s.matchInFrame (matchRule depth) (s.collectRule depth) ⟨rule, start⟩

end Session

end GrammarCompletion
