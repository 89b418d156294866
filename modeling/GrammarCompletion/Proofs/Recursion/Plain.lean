/-
# Matching without memory

What a rule matches at a position, computed without a run: no result is kept for later, there is no
stack of frames and there are no limits.  Only direct left recursion is followed.  A rule that
refers to itself at its own position finds a *seed* there, which is first a failure and then the
result so far, as long as the result gets longer.

`Session.plainRule` is cut off at a depth.  The outcome that it has at every depth from some point
on is the one to which the rule *settles* at the position (`Session.Settles`); there is at most one
(`Settles.unique`).  If the outcomes on which a body was matched are those to which the rules
settle, and the seed at its own spot, then the outcome of the body is that of the plain recursion
from some depth on (`BodyMatches.plainRound`).
-/
import GrammarCompletion.Proofs.Walk.Matches

namespace GrammarCompletion

open Filter

namespace Session

variable (s : Session) (w : Spot → Outcome) (leaves : RuleId → Phase)

/-- The outcome of an occurrence of a node, given the outcomes of rules. -/
def plainNode (n : Node RuleId) (p : Nat) : Outcome :=
  match n.symbol with
  | .token id => s.matchToken n.any id p
  | .rule id => w ⟨id, p⟩

/-- The continuation after further occurrences of a node. -/
def plainRepeats (n : Node RuleId) (rest : List (Node RuleId)) : (count : Nat) → (p : Nat) →
    Continuation
  | 0, p => .next p
  | count + 1, p =>
    if s.stream.atEnd p then .next p
    else
      let o := s.plainNode w n p
      if o.phase = .pending then .finished ⟨skippable rest, o.stop, phaseNodes leaves rest⟩
      else if !o.matched then .next o.stop
      else if n.isTerminal && s.reached o.stop then
        .finished ⟨skippable rest, o.stop, phaseNodes leaves (n.behind rest)⟩
      else if o.stop = p then .next p
      else plainRepeats n rest count o.stop

/-- The outcome of nodes in a row. -/
def plainNodes : List (Node RuleId) → (p : Nat) → Outcome
  | [], p => ⟨true, p, .matching⟩
  | n :: rest, p =>
    let o := s.plainNode w n p
    if o.phase = .pending then ⟨o.matched && skippable rest, o.stop, phaseNodes leaves rest⟩
    else if !o.matched then
      if n.isRequired then ⟨false, o.stop, .matching⟩ else plainNodes rest o.stop
    else if s.reached o.stop then ⟨skippable rest, o.stop, phaseNodes leaves (n.behind rest)⟩
    else if n.isMultiple then
      match s.plainRepeats w leaves n rest (s.stream.size - o.stop) o.stop with
      | .finished o => o
      | .next p => plainNodes rest p
    else plainNodes rest o.stop

/-- The comparison of the outcomes of sequences. -/
def plainSequences (start : Nat) : Tally → List (Sequence RuleId) → Tally
  | t, [] => t
  | t, q :: rest => plainSequences start (t.add (s.plainNodes w leaves q.nodes start)) rest

/-- The outcome of the body of a rule. -/
def plainBody (a : Spot) : Outcome :=
  match s.model.body a.rule with
  | .error _ => ⟨false, a.start, .matching⟩
  | .ok (.tokenSet tokens) => s.matchTokenSet tokens a.start
  | .ok (.sequences list) => (s.plainSequences w leaves a.start {} list).outcome a.start

/-- The best outcome of a body that is matched again and again, as long as it gets longer. -/
def plainGrow (body : Outcome → Outcome) : (count : Nat) → (best : Outcome) → Outcome
  | 0, best => best
  | count + 1, best =>
    let o := body best
    if o.isUsable && best.stop < o.stop then plainGrow body count o else best

/-- The outcome of the body of a rule with a seed for the rule itself. -/
def plainSeeded (a : Spot) (seed : Outcome) : Outcome :=
  s.plainBody (fun b => if b = a then seed else w b) leaves a

/-- The outcome of a rule at a spot, to a depth. -/
def plainRule : (depth : Nat) → Spot → Outcome
  | 0, a => ⟨false, a.start, .matching⟩
  | depth + 1, a =>
    if s.reached a.start then ⟨false, a.start, s.model.phaseRule depth [] a.rule⟩
    else
      let body := s.plainSeeded (plainRule depth) (s.model.phaseRule depth []) a
      let first := body ⟨false, a.start, .matching⟩
      plainGrow body (s.stream.size + 1 - first.stop) first

/-- The outcome of the body of a rule with a seed, to a depth. -/
def plainRound (depth : Nat) (a : Spot) (seed : Outcome) : Outcome :=
  s.plainSeeded (s.plainRule depth) (s.model.phaseRule depth []) a seed

/-- The outcome of a rule at a spot, at every depth from some point on. -/
def Settles (a : Spot) (o : Outcome) : Prop :=
  ∀ᶠ depth in atTop, s.plainRule depth a = o

variable {s} {a : Spot} {o o' : Outcome}

/-- A rule settles to one outcome. -/
lemma Settles.unique (h : s.Settles a o) (h' : s.Settles a o') : o = o' := by
  obtain ⟨depth, hd, hd'⟩ := (h.and h').exists
  exact hd.symm.trans hd'

lemma Settles.of_succ (h : ∀ᶠ depth in atTop, s.plainRule (depth + 1) a = o) : s.Settles a o := by
  obtain ⟨d, hd⟩ := eventually_atTop.1 h
  refine eventually_atTop.2 ⟨d + 1, fun e he => ?_⟩
  obtain ⟨e, rfl⟩ := Nat.exists_eq_add_of_le' (Nat.le_of_add_left_le he)
  exact hd e (by omega)

/-- Where the caret is reached, a rule settles to the phase of the rule. -/
lemma settles_reached {ph : Phase} (ha : s.reached a.start = true)
    (hph : s.model.RuleLeaves [] a.rule ph) : s.Settles a ⟨false, a.start, ph⟩ := by
  refine .of_succ ?_
  filter_upwards [hph] with depth hd
  rw [plainRule, if_pos ha, hd]

/-- Elsewhere a rule settles to what its body grows to. -/
lemma settles_grown {first : Outcome} (ha : s.reached a.start = false)
    (hfirst : ∀ᶠ depth in atTop, s.plainRound depth a ⟨false, a.start, .matching⟩ = first)
    (ho : ∀ᶠ depth in atTop,
      plainGrow (s.plainRound depth a) (s.stream.size + 1 - first.stop) first = o) :
    s.Settles a o := by
  -- at such a depth the first round and the growth are those of one step of the recursion
  refine .of_succ ?_
  filter_upwards [hfirst, ho] with depth hf ho
  rw [plainRule, if_neg (by simp [ha])]
  change plainGrow (s.plainRound depth a) (s.stream.size + 1 - (s.plainRound depth a _).stop)
    (s.plainRound depth a _) = o
  rw [hf, ho]

/-- A body that ignores its seed does not grow. -/
lemma plainGrow_eq {body : Outcome → Outcome} {count : Nat} {best : Outcome}
    (h : body best = best) : plainGrow body count best = best := by
  cases count with
  | zero => rfl
  | succ count => simp [plainGrow, h]

/-! ## Outcomes that are those of the plain recursion from some depth on -/

variable {V : Spot → Outcome → Prop} {f : Nat → Spot → Outcome} {n : Node RuleId}
  {rest nodes : List (Node RuleId)} {p : Nat}

lemma NodeMatches.plain (hV : ∀ a o, V a o → ∀ᶠ depth in atTop, f depth a = o)
    (h : s.NodeMatches V n p o) : ∀ᶠ depth in atTop, s.plainNode (f depth) n p = o := by
  unfold NodeMatches at h
  unfold plainNode
  cases hn : n.symbol with
  | token id =>
    rw [hn] at h
    exact Eventually.of_forall fun _ => h.symm
  | rule id =>
    rw [hn] at h
    exact hV _ _ h

lemma Repeats.plain (hV : ∀ a o, V a o → ∀ᶠ depth in atTop, f depth a = o) {count : Nat}
    {k : Continuation} (h : s.Repeats V n rest count p k) :
    ∀ᶠ depth in atTop,
      s.plainRepeats (f depth) (s.model.phaseRule depth []) n rest count p = k := by
  induction h with
  | spent => exact Eventually.of_forall fun _ => rfl
  | atEnd hp => exact Eventually.of_forall fun _ => by simp [plainRepeats, hp]
  | pending hp hn hl =>
    filter_upwards [hn.plain hV, hl] with depth ho hph
    simp [plainRepeats, hp, ho, hph]
  | failed hp hn =>
    filter_upwards [hn.plain hV] with depth ho
    simp [plainRepeats, hp, ho]
  | atCaret hp hn ht hq hl =>
    filter_upwards [hn.plain hV, hl] with depth ho hph
    simp [plainRepeats, hp, ho, ht, hq, hph]
  | idle hp hn hc =>
    filter_upwards [hn.plain hV] with depth ho
    simp [plainRepeats, hp, ho, hc]
  | more hp hn hc hpq _ ih =>
    filter_upwards [hn.plain hV, ih] with depth ho hk
    simp [plainRepeats, hp, ho, hc, hpq, hk]

lemma Matches.plain (hV : ∀ a o, V a o → ∀ᶠ depth in atTop, f depth a = o)
    (h : s.Matches V nodes p o) :
    ∀ᶠ depth in atTop,
      s.plainNodes (f depth) (s.model.phaseRule depth []) nodes p = o := by
  induction h with
  | nil => exact Eventually.of_forall fun _ => rfl
  | pending hn hl =>
    filter_upwards [hn.plain hV, hl] with depth ho hph
    simp [plainNodes, ho, hph]
  | failed hr hn =>
    filter_upwards [hn.plain hV] with depth ho
    simp [plainNodes, ho, hr]
  | skipped hr hn _ ih =>
    filter_upwards [hn.plain hV, ih] with depth ho h
    simp [plainNodes, ho, hr, h]
  | atCaret hn hq hl =>
    filter_upwards [hn.plain hV, hl] with depth ho hph
    simp [plainNodes, ho, hq, hph]
  | once hn hq hm _ ih =>
    filter_upwards [hn.plain hV, ih] with depth ho h
    simp [plainNodes, ho, hq, hm, h]
  | finished hn hq hm hk =>
    filter_upwards [hn.plain hV, hk.plain hV] with depth ho hk
    simp [plainNodes, ho, hq, hm, hk]
  | repeated hn hq hm hk _ ih =>
    filter_upwards [hn.plain hV, hk.plain hV, ih] with depth ho hk h
    simp [plainNodes, ho, hq, hm, hk, h]

lemma Tallies.plain (hV : ∀ a o, V a o → ∀ᶠ depth in atTop, f depth a = o) {t t' : Tally}
    {list : List (Sequence RuleId)} (h : s.Tallies V p t list t') :
    ∀ᶠ depth in atTop,
      s.plainSequences (f depth) (s.model.phaseRule depth []) p t list = t' := by
  induction h with
  | nil => exact Eventually.of_forall fun _ => rfl
  | cons hq _ ih =>
    filter_upwards [hq.plain hV, ih] with depth ho h
    rw [plainSequences, ho, h]

lemma BodyMatches.plain (hV : ∀ a o, V a o → ∀ᶠ depth in atTop, f depth a = o)
    (h : s.BodyMatches V a o) :
    ∀ᶠ depth in atTop, s.plainBody (f depth) (s.model.phaseRule depth []) a = o := by
  cases h with
  | tokenSet hb => exact Eventually.of_forall fun _ => by simp only [plainBody, hb]
  | sequences hb h =>
    filter_upwards [h.plain hV] with depth ht
    simp only [plainBody, hb, ht]

/-- **A body that was matched on settled outcomes and a seed has the outcome of the plain
recursion** from some depth on. -/
theorem BodyMatches.plainRound {seed : Outcome}
    (h : s.BodyMatches (fun b o => b = a ∧ o = seed ∨ b ≠ a ∧ s.Settles b o) a o) :
    ∀ᶠ depth in atTop, s.plainRound depth a seed = o := by
  refine h.plain (f := fun depth b => if b = a then seed else s.plainRule depth b) ?_
  rintro b o (⟨rfl, rfl⟩ | ⟨hb, ho⟩)
  · exact Eventually.of_forall fun _ => if_pos rfl
  · filter_upwards [ho] with depth hd
    rw [if_neg hb, hd]

end Session

end GrammarCompletion
