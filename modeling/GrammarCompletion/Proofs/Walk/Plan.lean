/-
# Plans

What a walk does inside the body of a rule depends on its surroundings in two ways only: rules are
matched, and candidates are collected from rules.  A *plan* is the tree of these requests.  It goes
on as the answers say, and it knows nothing of runs.

`Plan.run` carries a plan out, given how to match and how to collect.  Each part of a walk is the run
of a plan of the same name (`matchBody_eq_run`, `collectSequences_eq_run`), so that what is proved by
induction on plans, with one case for each kind of request, is true of all parts at once.
-/
import GrammarCompletion.Walk.Match
import Mathlib.Tactic.Common

namespace GrammarCompletion

/-- What a walk does inside a body. -/
inductive Plan (α : Type) where
  /-- There is a result. -/
  | done (a : α)
  /-- A rule is matched at a position. -/
  | visit (rule : RuleId) (position : Nat) (next : Outcome → Plan α)
  /-- Candidates are collected from a rule. -/
  | gather (rule : RuleId) (next : Phase → Plan α)
  /-- A token is offered, with the tokens that have to follow it. -/
  | offer (lead : TokenId) (continuation : List TokenId) (next : Plan α)
  /-- An event is recorded. -/
  | note (e : Event) (next : Plan α)

namespace Plan

variable {α β : Type}

/-- One plan after the other. -/
def bind (f : α → Plan β) : Plan α → Plan β
  | done a => f a
  | visit rule p next => visit rule p fun o => bind f (next o)
  | gather rule next => gather rule fun ph => bind f (next ph)
  | offer t c next => offer t c (bind f next)
  | note e next => note e (bind f next)

instance : Monad Plan where
  pure := done
  bind x f := bind f x

variable (matchRule : RuleId → Nat → Walk Outcome) (collect : RuleId → Walk Phase)

/-- Carries a plan out. -/
def run : Plan α → Walk α
  | done a => pure a
  | visit rule p next => do
    let o ← matchRule rule p
    (next o).run
  | gather rule next => do
    let ph ← collect rule
    (next ph).run
  | offer t c next => do
    Walk.emit (.offerToken t c)
    modify fun r => { r with candidates := r.candidates.offerToken t c }
    next.run
  | note e next => do
    Walk.emit e
    next.run

variable {matchRule collect}

@[simp] lemma run_pure (a : α) : (pure a : Plan α).run matchRule collect = pure a := rfl

@[simp] lemma run_bind (x : Plan α) (f : α → Plan β) :
    (x >>= f).run matchRule collect = x.run matchRule collect >>= fun a =>
      (f a).run matchRule collect := by
  change (bind f x).run matchRule collect = _
  induction x with
  | done a => simp [bind, run]
  | visit rule p next ih => simp only [bind, run, bind_assoc, ih]
  | gather rule next ih => simp only [bind, run, bind_assoc, ih]
  | offer t c next ih => simp only [bind, run, bind_assoc, ih]
  | note e next ih => simp only [bind, run, bind_assoc, ih]

@[simp] lemma run_ite {p : Prop} [Decidable p] (x y : Plan α) :
    (if p then x else y).run matchRule collect =
      if p then x.run matchRule collect else y.run matchRule collect :=
  apply_ite _ p x y

variable (s : Session)

/-! ## The plans of the parts of a walk -/

/-- Offers a token, unless it is never offered. -/
def offerUnlessIgnored (lead : TokenId) (continuation : List TokenId) : Plan Unit :=
  if !s.model.isIgnoredToken lead then offer lead continuation (done ()) else done ()

/-- Collects from nodes in a row. -/
def collectNodes : List (Node RuleId) → Plan Phase
  | [] => return .pending
  | n :: rest =>
    match n.symbol with
    | .token id =>
      if id = .eof then return .matching
      else do
        if !n.any then offerUnlessIgnored s id (s.model.continuation n rest)
        if n.isRequired then return .matching else collectNodes rest
    | .rule id =>
      gather id fun phase =>
        if n.isRequired && phase = .matching then return .matching else collectNodes rest

/-- Collects from the alternatives of a rule. -/
def collectSequences : List (Sequence RuleId) → Plan Phase
  | [] => return .matching
  | q :: rest => do
    let phase ← collectNodes s q.nodes
    let others ← collectSequences rest
    return phase.or others

/-- Collects from the tokens of a token set. -/
def collectTokens : List TokenId → Plan Phase
  | [] => return .matching
  | id :: rest => do
    offerUnlessIgnored s id []
    collectTokens rest

/-- Matches one occurrence of a node. -/
def matchNode (n : Node RuleId) (p : Nat) : Plan Outcome :=
  match n.symbol with
  | .token id => return s.matchToken n.any id p
  | .rule id => visit id p done

/-- Collects after an occurrence of a node that may be repeated. -/
def collectAfterRepeat (n : Node RuleId) (rest : List (Node RuleId)) : Plan Phase := do
  let phase ← collectNodes s (n :: rest)
  if n.isRequired then collectNodes s rest else return phase

/-- Collects after a node inside which candidates were collected up to its end. -/
def collectBehind (n : Node RuleId) (rest : List (Node RuleId)) : Plan Phase := do
  if n.isMultiple then
    let _ ← collectNodes s (n :: rest)
  collectNodes s rest

/-- Collects after a node that matched up to the caret. -/
def collectAtCaret (n : Node RuleId) (rest : List (Node RuleId)) (p : Nat) : Plan Phase :=
  note (.caret p) <|
    if n.isMultiple then collectAfterRepeat s n rest else collectNodes s rest

/-- Matches further occurrences of a node. -/
def matchRepeats (n : Node RuleId) (rest : List (Node RuleId)) : (count : Nat) → (p : Nat) →
    Plan Continuation
  | 0, p => return .next p
  | count + 1, p =>
    if s.stream.atEnd p then return .next p
    else do
      let o ← matchNode s n p
      if o.phase = .pending then
        let phase ← collectBehind s n rest
        return .finished ⟨skippable rest, o.stop, phase⟩
      else if !o.matched then return .next o.stop
      else if n.isTerminal && s.reached o.stop then
        let phase ← collectAtCaret s n rest o.stop
        return .finished ⟨skippable rest, o.stop, phase⟩
      else if o.stop = p then return .next p
      else matchRepeats n rest count o.stop

/-- Matches nodes in a row. -/
def matchNodes : List (Node RuleId) → (p : Nat) → Plan Outcome
  | [], p => return ⟨true, p, .matching⟩
  | n :: rest, p => do
    let o ← matchNode s n p
    if o.phase = .pending then
      let phase ← collectBehind s n rest
      return ⟨o.matched && skippable rest, o.stop, phase⟩
    else if !o.matched then
      if n.isRequired then return ⟨false, o.stop, .matching⟩
      else matchNodes rest o.stop
    else if s.reached o.stop then
      let phase ← collectAtCaret s n rest o.stop
      return ⟨skippable rest, o.stop, phase⟩
    else if n.isMultiple then
      let k ← matchRepeats s n rest (s.stream.size - o.stop) o.stop
      match k with
      | .finished o => return o
      | .next p => matchNodes rest p
    else matchNodes rest o.stop

/-- Tries the alternatives of a rule. -/
def matchSequences (start : Nat) : (i : Nat) → Tally → List (Sequence RuleId) → Plan Tally
  | _, t, [] => return t
  | i, t, q :: rest => do
    let o ← matchNodes s q.nodes start
    note (.alternative i o.matched o.stop) (matchSequences start (i + 1) (t.add o) rest)

/-- Matches a body. -/
def matchBody (start : Nat) : RuleBody RuleId → Plan Outcome
  | .tokenSet tokens => return s.matchTokenSet tokens start
  | .sequences list => do
    let t ← matchSequences s start 0 {} list
    return t.outcome start

end Plan

namespace Session

variable {s : Session} {matchRule : RuleId → Nat → Walk Outcome} {collect : RuleId → Walk Phase}

/-! ## Parts of a walk as runs of their plans -/

lemma offer_eq_run (t : TokenId) (c : List TokenId) :
    s.offer t c = (Plan.offerUnlessIgnored s t c).run matchRule collect := by
  simp only [offer, Plan.offerUnlessIgnored, Plan.run_ite, Plan.run, bind_pure_unit]

lemma collectNodes_eq_run (nodes : List (Node RuleId)) :
    s.collectNodes collect nodes = (Plan.collectNodes s nodes).run matchRule collect := by
  induction nodes with
  | nil => rfl
  | cons n rest ih =>
    cases hn : n.symbol with
    | token t =>
      simp only [collectNodes, Plan.collectNodes, hn, Plan.run_ite, Plan.run_bind, Plan.run_pure,
        ← offer_eq_run, ← ih]
    | rule id =>
      simp only [collectNodes, Plan.collectNodes, hn, Plan.run, Plan.run_ite, Plan.run_pure, ← ih]

lemma collectSequences_eq_run (list : List (Sequence RuleId)) :
    s.collectSequences collect list = (Plan.collectSequences s list).run matchRule collect := by
  induction list with
  | nil => rfl
  | cons q rest ih =>
    simp only [collectSequences, Plan.collectSequences, Plan.run_bind, Plan.run_pure,
      ← collectNodes_eq_run, ← ih]

lemma collectTokens_eq_run (list : List TokenId) :
    s.collectTokens list = (Plan.collectTokens s list).run matchRule collect := by
  induction list with
  | nil => rfl
  | cons t rest ih =>
    simp only [collectTokens, Plan.collectTokens, Plan.run_bind, ← offer_eq_run, ← ih]

lemma matchNode_eq_run (n : Node RuleId) (p : Nat) :
    s.matchNode matchRule n p = (Plan.matchNode s n p).run matchRule collect := by
  cases hn : n.symbol with
  | token t => simp only [matchNode, Plan.matchNode, hn, Plan.run_pure]
  | rule id => simp only [matchNode, Plan.matchNode, hn, Plan.run, bind_pure]

lemma collectBehind_eq_run (n : Node RuleId) (rest : List (Node RuleId)) :
    s.collectBehind collect n rest = (Plan.collectBehind s n rest).run matchRule collect := by
  have hdiscard : ∀ x : Walk Phase, discard x = x >>= fun _ => pure () := fun x => by
    funext r
    simp only [discard, Functor.mapConst, Function.comp_apply, EStateM.map, Bind.bind,
      EStateM.bind, Pure.pure, EStateM.pure]
  simp only [collectBehind, Plan.collectBehind, Plan.run_ite, Plan.run_bind,
    ← collectNodes_eq_run, hdiscard, bind_assoc, pure_bind]

lemma collectAtCaret_eq_run (n : Node RuleId) (rest : List (Node RuleId)) (p : Nat) :
    s.collectAtCaret collect n rest p =
      (Plan.collectAtCaret s n rest p).run matchRule collect := by
  simp only [collectAtCaret, collectAfterRepeat, Plan.collectAtCaret, Plan.collectAfterRepeat,
    Plan.run, Plan.run_ite, Plan.run_bind, Plan.run_pure, ← collectNodes_eq_run]

lemma matchRepeats_eq_run (n : Node RuleId) (rest : List (Node RuleId)) (count p : Nat) :
    s.matchRepeats matchRule collect n rest count p =
      (Plan.matchRepeats s n rest count p).run matchRule collect := by
  induction count generalizing p with
  | zero => rfl
  | succ count ih =>
    simp only [matchRepeats, Plan.matchRepeats, Plan.run_ite, Plan.run_bind, Plan.run_pure,
      ← matchNode_eq_run, ← collectBehind_eq_run, ← collectAtCaret_eq_run, ← ih]

lemma matchNodes_eq_run (nodes : List (Node RuleId)) (p : Nat) :
    s.matchNodes matchRule collect nodes p =
      (Plan.matchNodes s nodes p).run matchRule collect := by
  induction nodes generalizing p with
  | nil => rfl
  | cons n rest ih =>
    rw [matchNodes, Plan.matchNodes, Plan.run_bind, ← matchNode_eq_run]
    refine bind_congr fun o => ?_
    simp only [Plan.run_ite, Plan.run_bind, Plan.run_pure, ← collectBehind_eq_run,
      ← collectAtCaret_eq_run, ← matchRepeats_eq_run, ← ih]
    -- the two still differ in what comes after the repetitions of the node
    refine ite_congr rfl (fun _ => rfl) fun _ => ite_congr rfl (fun _ => rfl) fun _ => ?_
    refine ite_congr rfl (fun _ => rfl) fun _ => ite_congr rfl (fun _ => ?_) fun _ => rfl
    refine bind_congr fun k => ?_
    cases k with
    | finished o => rfl
    | next q => exact ih q

lemma matchSequences_eq_run (start i : Nat) (t : Tally) (list : List (Sequence RuleId)) :
    s.matchSequences matchRule collect start i t list =
      (Plan.matchSequences s start i t list).run matchRule collect := by
  induction list generalizing i t with
  | nil => rfl
  | cons q rest ih =>
    simp only [matchSequences, Plan.matchSequences, Plan.run, Plan.run_bind,
      ← matchNodes_eq_run, ← ih]

/-- Matching the body of a rule carries out the plan of the body. -/
lemma matchBody_eq_run (a : Spot) {body : RuleBody RuleId} (hb : s.model.body a.rule = .ok body) :
    s.matchBody matchRule collect a = (Plan.matchBody s a.start body).run matchRule collect := by
  cases body with
  | tokenSet tokens =>
    simp only [matchBody, hb, Walk.ofExcept, pure_bind, Plan.matchBody, Plan.run_pure]
  | sequences list =>
    simp only [matchBody, hb, Walk.ofExcept, pure_bind, Plan.matchBody, Plan.run_bind,
      Plan.run_pure, ← matchSequences_eq_run]

end Session

end GrammarCompletion
