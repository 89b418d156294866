/-
# Plans that stay within a session

A session has a model with some number of rules and a stream with some number of tokens.  A plan
stays within it if it asks for rules of the model only, at positions of the stream, and notes events
of that kind, as long as the answers that it gets are positions of the stream (`Plan.Safe`).

The plans of the parts of a walk do, if the nodes they go along refer to rules of the model.
-/
import GrammarCompletion.Proofs.Recursion.Memo
import GrammarCompletion.Proofs.Walk.Plan

namespace GrammarCompletion

/-- An event names rules of the model and positions of the stream; the position behind the last
token is that of the closing one. -/
def Event.Valid (s : Session) : Event → Prop
  | .enter rule p => rule.index < s.model.ruleCount ∧ p ≤ s.stream.size
  | .exit rule _ p _ => rule.index < s.model.ruleCount ∧ p ≤ s.stream.size
  | .alternative _ _ p => p ≤ s.stream.size
  | .memoHit rule p => rule.index < s.model.ruleCount ∧ p ≤ s.stream.size
  | .leftRecursion rule p => rule.index < s.model.ruleCount ∧ p ≤ s.stream.size
  | .caret p => p ≤ s.stream.size
  | .collect rule => rule.index < s.model.ruleCount
  | .offerToken _ _ => True
  | .offerRule rule => rule.index < s.model.ruleCount

/-- A plan stays within a session, and its results are as `A` says. -/
inductive Plan.Safe (s : Session) {α : Type} (A : α → Prop) : Plan α → Prop
  | done {a : α} (h : A a) : Safe s A (.done a)
  | visit {rule : RuleId} {p : Nat} {next : Outcome → Plan α}
      (hrule : rule.index < s.model.ruleCount) (hp : p ≤ s.stream.size)
      (h : ∀ o, o.stop ≤ s.stream.size → Safe s A (next o)) : Safe s A (.visit rule p next)
  | gather {rule : RuleId} {next : Phase → Plan α} (hrule : rule.index < s.model.ruleCount)
      (h : ∀ ph, Safe s A (next ph)) : Safe s A (.gather rule next)
  | offer {t : TokenId} {c : List TokenId} {next : Plan α} (h : Safe s A next) :
      Safe s A (.offer t c next)
  | note {e : Event} {next : Plan α} (he : e.Valid s) (h : Safe s A next) : Safe s A (.note e next)

/-- The position at which a continuation goes on is one of the stream. -/
def Continuation.Valid (s : Session) : Continuation → Prop
  | .finished o => o.stop ≤ s.stream.size
  | .next p => p ≤ s.stream.size

namespace Plan.Safe

variable {s : Session} {α β : Type} {A : α → Prop} {B : β → Prop} {x : Plan α}

lemma pure {a : α} (h : A a) : Safe s A (Pure.pure a) := .done h

lemma bind {f : α → Plan β} (h : Safe s A x) (hf : ∀ a, A a → Safe s B (f a)) :
    Safe s B (x >>= f) := by
  induction h with
  | done h => exact hf _ h
  | visit hrule hp _ ih => exact .visit hrule hp ih
  | gather hrule _ ih => exact .gather hrule ih
  | offer _ ih => exact .offer ih
  | note he _ ih => exact .note he ih

lemma ite {c : Prop} [Decidable c] {y : Plan α} (hx : c → Safe s A x) (hy : ¬ c → Safe s A y) :
    Safe s A (if c then x else y) := by
  split
  · next hc => exact hx hc
  · next hc => exact hy hc

/-! ## Collecting -/

variable {n : Node RuleId} {rest nodes : List (Node RuleId)} {list : List (Sequence RuleId)}
  {p : Nat}

lemma offerUnlessIgnored (t : TokenId) (c : List TokenId) :
    Safe s (fun _ => True) (Plan.offerUnlessIgnored s t c) :=
  .ite (fun _ => .offer (.done trivial)) fun _ => .done trivial

lemma collectNodes (h : s.model.ValidNodes nodes) :
    Safe s (fun _ => True) (Plan.collectNodes s nodes) := by
  induction nodes with
  | nil => exact .pure trivial
  | cons n rest ih =>
    obtain ⟨hn, hrest⟩ := List.forall_mem_cons.1 h
    cases hsymbol : n.symbol with
    | token t =>
      simp only [Plan.collectNodes, hsymbol]
      have hnext : Safe s (fun _ => True)
          (if n.isRequired = true then Pure.pure .matching else Plan.collectNodes s rest) :=
        .ite (fun _ => .pure trivial) fun _ => ih hrest
      refine .ite (fun _ => .pure trivial) fun _ => ?_
      exact .ite (fun _ => (offerUnlessIgnored _ _).bind fun _ _ => hnext) fun _ => hnext
    | rule id =>
      simp only [Plan.collectNodes, hsymbol]
      exact .gather (hn id hsymbol) fun _ => .ite (fun _ => .pure trivial) fun _ => ih hrest

lemma collectSequences (h : ∀ q ∈ list, s.model.ValidNodes q.nodes) :
    Safe s (fun _ => True) (Plan.collectSequences s list) := by
  induction list with
  | nil => exact .pure trivial
  | cons q rest ih =>
    obtain ⟨hq, hrest⟩ := List.forall_mem_cons.1 h
    exact (collectNodes hq).bind fun _ _ => (ih hrest).bind fun _ _ => .pure trivial

lemma collectTokens (tokens : List TokenId) :
    Safe s (fun _ => True) (Plan.collectTokens s tokens) := by
  induction tokens with
  | nil => exact .pure trivial
  | cons t rest ih => exact (offerUnlessIgnored t []).bind fun _ _ => ih

lemma collectBehind (h : s.model.ValidNodes (n :: rest)) :
    Safe s (fun _ => True) (Plan.collectBehind s n rest) := by
  have hrest := collectNodes (List.forall_mem_cons.1 h).2
  exact .ite (fun _ => (collectNodes h).bind fun _ _ => hrest) fun _ => hrest

lemma collectAtCaret (h : s.model.ValidNodes (n :: rest)) (hp : p ≤ s.stream.size) :
    Safe s (fun _ => True) (Plan.collectAtCaret s n rest p) := by
  have hrest := collectNodes (List.forall_mem_cons.1 h).2
  refine .note hp (.ite (fun _ => (collectNodes h).bind fun _ _ => ?_) fun _ => hrest)
  exact .ite (fun _ => hrest) fun _ => .pure trivial

/-! ## Matching -/

lemma matchNode (hn : ∀ id, n.symbol = .rule id → id.index < s.model.ruleCount)
    (hp : p ≤ s.stream.size) :
    Safe s (fun o => o.stop ≤ s.stream.size) (Plan.matchNode s n p) := by
  cases hsymbol : n.symbol with
  | token t =>
    simp only [Plan.matchNode, hsymbol]
    exact .pure (Session.stop_matchToken_le hp)
  | rule id =>
    simp only [Plan.matchNode, hsymbol]
    exact .visit (hn id hsymbol) hp fun _ ho => .done ho

lemma matchRepeats (h : s.model.ValidNodes (n :: rest)) (count : Nat) (hp : p ≤ s.stream.size) :
    Safe s (Continuation.Valid s) (Plan.matchRepeats s n rest count p) := by
  induction count generalizing p with
  | zero => exact .pure hp
  | succ count ih =>
    refine .ite (fun _ => .pure hp) fun _ => ?_
    refine (matchNode (List.forall_mem_cons.1 h).1 hp).bind fun o ho => ?_
    refine .ite (fun _ => (collectBehind h).bind fun _ _ => .pure ho) fun _ => ?_
    refine .ite (fun _ => .pure ho) fun _ => ?_
    refine .ite (fun _ => (collectAtCaret h ho).bind fun _ _ => .pure ho) fun _ => ?_
    exact .ite (fun _ => .pure hp) fun _ => ih ho

lemma matchNodes (h : s.model.ValidNodes nodes) (hp : p ≤ s.stream.size) :
    Safe s (fun o => o.stop ≤ s.stream.size) (Plan.matchNodes s nodes p) := by
  induction nodes generalizing p with
  | nil => exact .pure hp
  | cons n rest ih =>
    obtain ⟨hn, hrest⟩ := List.forall_mem_cons.1 h
    refine (matchNode hn hp).bind fun o ho => ?_
    refine .ite (fun _ => (collectBehind h).bind fun _ _ => .pure ho) fun _ => ?_
    refine .ite (fun _ => .ite (fun _ => .pure ho) fun _ => ih hrest ho) fun _ => ?_
    refine .ite (fun _ => (collectAtCaret h ho).bind fun _ _ => .pure ho) fun _ => ?_
    refine .ite (fun _ => (matchRepeats h _ ho).bind ?_) fun _ => ih hrest ho
    rintro (o | q) hk
    · exact .pure hk
    · exact ih hrest hk

lemma matchSequences (h : ∀ q ∈ list, s.model.ValidNodes q.nodes) (hp : p ≤ s.stream.size) (i : Nat)
    {t : Tally} (ht : t.BestHas fun o => o.stop ≤ s.stream.size) :
    Safe s (Tally.BestHas fun o => o.stop ≤ s.stream.size) (Plan.matchSequences s p i t list) := by
  induction list generalizing i t with
  | nil => exact .pure ht
  | cons q rest ih =>
    obtain ⟨hq, hrest⟩ := List.forall_mem_cons.1 h
    refine (matchNodes hq hp).bind fun o ho => .note ho ?_
    exact ih hrest (i + 1) (ht.add (fun _ _ hstop _ _ => hstop) ho)

/-- **The plan of a body stays within the session.** -/
theorem matchBody {body : RuleBody RuleId} (hp : p ≤ s.stream.size)
    (h : ∀ q ∈ body.sequenceList, s.model.ValidNodes q.nodes) :
    Safe s (fun o => o.stop ≤ s.stream.size) (Plan.matchBody s p body) := by
  cases body with
  | tokenSet tokens => exact .pure (Session.stop_matchTokenSet_le hp)
  | sequences list =>
    refine (matchSequences (t := {}) h hp 0 rfl).bind fun t ht => .pure ?_
    rcases ht.outcome p with ⟨-, hstop⟩ | hstop
    · exact hstop
    · rw [hstop]
      exact hp

end Plan.Safe

end GrammarCompletion
