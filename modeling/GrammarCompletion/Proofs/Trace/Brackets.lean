/-
# Brackets in a trace

The events of a walk are a word in which the entry of a rule opens a bracket and its exit closes it.
`openRules` reads such a word and keeps the rules that are open; it fails at an exit that does not
name the innermost of them.  A word is *bracketed* if it can be read and leaves no rule open, and
the words that can be read are the beginnings of the bracketed ones (`exists_bracketed`).

The depth to which a log indents its lines is the number of the open rules (`Log.depth_extend`), so
that it is never taken below zero (`Log.depth_lt_of_exit`).
-/
import GrammarCompletion.Trace
import Mathlib.Tactic.Common

namespace GrammarCompletion

/-! ## Words of events -/

/-- The rules that are open after an event, the innermost one first.  The rule that is left has to be
the innermost one. -/
def Event.openAfter (inside : List RuleId) : Event → Option (List RuleId)
  | enter r _ => some (r :: inside)
  | exit r _ _ _ => if inside.head? = some r then some inside.tail else none
  | _ => some inside

/-- The rules that are open after a list of events. -/
def openRules (inside : List RuleId) (events : List Event) : Option (List RuleId) :=
  events.foldlM Event.openAfter inside

/-- Every rule that is entered is left again, the innermost one first. -/
def Bracketed (events : List Event) : Prop :=
  openRules [] events = some []

instance (events : List Event) : Decidable (Bracketed events) :=
  inferInstanceAs (Decidable (openRules [] events = some []))

variable {u w : List Event} {l l' : List RuleId} {e : Event} {r : RuleId}

@[simp] lemma openRules_nil : openRules l [] = some l := rfl

lemma openRules_cons : openRules l (e :: w) = (e.openAfter l).bind fun k => openRules k w := by
  rw [openRules, List.foldlM_cons]
  rfl

lemma openRules_append : openRules l (u ++ w) = (openRules l u).bind fun k => openRules k w := by
  rw [openRules, List.foldlM_append]
  rfl

lemma openRules_concat : openRules l (w ++ [e]) = (openRules l w).bind e.openAfter := by
  rw [openRules_append]
  simp [openRules_cons]

@[simp] lemma Event.openAfter_enter {p : Nat} : (enter r p).openAfter l = some (r :: l) := rfl

@[simp] lemma Event.openAfter_exit {matched : Bool} {p : Nat} {phase : Phase} :
    (exit r matched p phase).openAfter (r :: l) = some l := by
  simp [openAfter]

/-- The open rules can be left one after the other. -/
lemma openRules_exits (l : List RuleId) :
    openRules l (l.map fun r => .exit r false 0 .matching) = some [] := by
  induction l with
  | nil => rfl
  | cons r l ih => rwa [List.map_cons, openRules_cons, Event.openAfter_exit]

/-- What can be read is the beginning of a bracketed word. -/
lemma exists_bracketed (h : openRules [] u = some l) : ∃ rest, Bracketed (u ++ rest) := by
  refine ⟨l.map fun r => .exit r false 0 .matching, ?_⟩
  rw [Bracketed, openRules_append, h]
  exact openRules_exits l

example : Bracketed [.enter ⟨0⟩ 0, .enter ⟨1⟩ 0, .exit ⟨1⟩ true 1 .matching,
    .exit ⟨0⟩ true 1 .matching] := by
  decide

example : ¬ Bracketed [.enter ⟨0⟩ 0, .enter ⟨1⟩ 0, .exit ⟨0⟩ true 1 .matching,
    .exit ⟨1⟩ true 1 .matching] := by
  decide

/-! ## Indentation -/

namespace Log

variable {m : Model} {v : Verbosity} {log : Log} {base : Nat}

/-- The log after further events, what is wrong with single events being left aside. -/
def extend (m : Model) (v : Verbosity) (log : Log) (events : List Event) : Log :=
  events.foldl (fun log e => (log.record m v e).1) log

lemma extend_cons : log.extend m v (e :: w) = (log.record m v e).1.extend m v w := rfl

/-- A log can be written if every event has a line. -/
lemma ofEvents_eq_extend (h : ∀ e ∈ w, ∃ text, e.line m v = .ok text) :
    Log.ofEvents m v w = .ok (({} : Log).extend m v w) := by
  rw [ofEvents, extend]
  generalize ({} : Log) = log
  induction w generalizing log with
  | nil => rfl
  | cons e w ih =>
    obtain ⟨⟨text, htext⟩, hw⟩ := List.forall_mem_cons.1 h
    have hrecord : log.record m v e = ((log.record m v e).1, none) := by
      cases text <;> simp [record, htext]
    rw [List.foldlM_cons, List.foldl_cons, hrecord]
    exact ih hw _

lemma depth_dedent : (log.dedent e).depth = if e.isExit then log.depth - 1 else log.depth := by
  rw [dedent]
  split <;> rfl

/-- An entry indents the lines after it, and an exit takes that back. -/
lemma depth_record (h : ∃ text, e.line m v = .ok text) : (log.record m v e).1.depth =
    if e.isEnter then log.depth + 1 else if e.isExit then log.depth - 1 else log.depth := by
  obtain ⟨text, htext⟩ := h
  cases text with
  | some line =>
    have hpush : ((log.dedent e).push line).depth = (log.dedent e).depth := rfl
    simp only [record, htext]
    rw [indent]
    split
    · next he =>
      have hexit : e.isExit = false := by cases e <;> first | rfl | cases he
      simp [hpush, depth_dedent, hexit]
    · rw [hpush, depth_dedent]
  | none =>
    -- an entry is shown in every log
    have he : e.isEnter = false := by
      cases e with
      | enter r p => cases hr : m.ruleName r <;> simp [Event.line, hr, bind, Except.bind, pure,
          Except.pure] at htext
      | _ => rfl
    simp [record, htext, he, depth_dedent]

/-- **The lines of a log are indented by the number of the open rules.** -/
lemma depth_extend (hlines : ∀ e ∈ w, ∃ text, e.line m v = .ok text)
    (hdepth : log.depth = base + l.length) (h : openRules l w = some l') :
    (log.extend m v w).depth = base + l'.length := by
  induction w generalizing log l with
  | nil =>
    obtain rfl : l = l' := by simpa using h
    exact hdepth
  | cons e w ih =>
    obtain ⟨he, hw⟩ := List.forall_mem_cons.1 hlines
    rw [openRules_cons] at h
    obtain ⟨k, hk, hopen⟩ := Option.bind_eq_some_iff.1 h
    rw [extend_cons]
    refine ih hw ?_ hopen
    rw [depth_record he]
    cases e with
    | enter r p =>
      obtain rfl : r :: l = k := by simpa using hk
      simp [Event.isEnter, hdepth, Nat.add_assoc]
    | exit r matched p phase =>
      -- the rule that is left is among the open ones
      cases l with
      | nil => simp [Event.openAfter] at hk
      | cons r' l =>
        obtain ⟨-, rfl⟩ : r' = r ∧ l = k := by simpa [Event.openAfter] using hk
        simp [Event.isEnter, Event.isExit, hdepth, Nat.add_sub_assoc]
    | _ =>
      obtain rfl : l = k := by simpa [Event.openAfter] using hk
      simpa [Event.isEnter, Event.isExit] using hdepth

/-- In front of an exit the lines are indented. -/
lemma depth_lt_of_exit (hlines : ∀ e' ∈ u ++ e :: w, ∃ text, e'.line m v = .ok text)
    (h : openRules [] (u ++ e :: w) = some l) (he : e.isExit = true) :
    log.depth < (log.extend m v u).depth := by
  rw [openRules_append] at h
  obtain ⟨k, hk, hrest⟩ := Option.bind_eq_some_iff.1 h
  have hdepth : (log.extend m v u).depth = log.depth + k.length :=
    depth_extend (fun e' he' => hlines e' (List.mem_append_left _ he')) rfl hk
  have hlength : 0 < k.length := by
    cases k with
    | nil => cases e <;> simp [openRules_cons, Event.openAfter, Event.isExit] at hrest he
    | cons r k => exact Nat.succ_pos _
  omega

end Log

end GrammarCompletion
