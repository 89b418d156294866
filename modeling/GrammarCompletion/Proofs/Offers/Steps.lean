/-
# Steps of matching and collecting

What the plans of bodies yield, step by step.  Matching nodes is matching the first one and going on
as its outcome says; there is one equation for each way to go on (`Plan.matchOn_pending` and those
after it).  For collecting, one equivalence for each kind of node says what is yielded.
-/
import GrammarCompletion.Proofs.Offers.Tallies
import GrammarCompletion.Proofs.Offers.Yields

namespace GrammarCompletion

namespace Plan

variable {V : Visit} {C : Gather} {α : Type} {a : α} {L : Set Event}

/-! ## Requests -/

lemma yields_gather {rule : RuleId} {next : Phase → Plan α} :
    (gather rule next).Yields V C a L ↔
      ∃ ph L₁ L₂, C rule ph L₁ ∧ (next ph).Yields V C a L₂ ∧ L = L₁ ∪ L₂ := by
  constructor
  · intro h
    cases h with
    | gather hc h => exact ⟨_, _, _, hc, h, rfl⟩
  · rintro ⟨ph, L₁, L₂, hc, h, rfl⟩
    exact .gather hc h

lemma yields_visit {rule : RuleId} {p : Nat} {next : Outcome → Plan α} :
    (visit rule p next).Yields V C a L ↔
      ∃ o L₁ L₂, V ⟨rule, p⟩ o L₁ ∧ (next o).Yields V C a L₂ ∧ L = L₁ ∪ L₂ := by
  constructor
  · intro h
    cases h with
    | visit hv h => exact ⟨_, _, _, hv, h, rfl⟩
  · rintro ⟨o, L₁, L₂, hv, h, rfl⟩
    exact .visit hv h

lemma yields_offer {t : TokenId} {c : List TokenId} {next : Plan α} :
    (offer t c next).Yields V C a L ↔
      ∃ L', next.Yields V C a L' ∧ L = {.offerToken t c} ∪ L' := by
  constructor
  · intro h
    cases h with
    | offer h => exact ⟨_, h, rfl⟩
  · rintro ⟨L', h, rfl⟩
    exact .offer h

variable {s : Session} {n : Node RuleId} {rest : List (Node RuleId)} {p q count : Nat} {b : Bool}
  {ph : Phase} {t : TokenId} {id : RuleId} {o : Outcome}

/-! ## Collecting -/

/-- What the offer of a token adds. -/
def offered (s : Session) (t : TokenId) (c : List TokenId) : Set Event :=
  if s.model.isIgnoredToken t then ∅ else {.offerToken t c}

lemma yields_offerUnlessIgnored {c : List TokenId} :
    (offerUnlessIgnored s t c).Yields V C () L ↔ L = offered s t c := by
  unfold offerUnlessIgnored offered
  cases s.model.isIgnoredToken t with
  | true =>
    rw [Bool.not_true, if_neg Bool.false_ne_true, if_pos rfl]
    exact yields_pure.trans (and_iff_right rfl)
  | false =>
    rw [Bool.not_false, if_pos rfl, if_neg Bool.false_ne_true, yields_offer]
    constructor
    · rintro ⟨L', h, rfl⟩
      obtain ⟨-, rfl⟩ := yields_pure.1 h
      exact Set.union_empty _
    · rintro rfl
      exact ⟨∅, .done, (Set.union_empty _).symm⟩

lemma yields_collectNodes_nil : (collectNodes s []).Yields V C ph L ↔ ph = .pending ∧ L = ∅ :=
  yields_pure

/-- Nothing is offered at the end of the input. -/
lemma yields_collectNodes_eof (hn : n.symbol = .token .eof) :
    (collectNodes s (n :: rest)).Yields V C ph L ↔ ph = .matching ∧ L = ∅ := by
  simp only [collectNodes, hn, if_pos]
  exact yields_pure

/-- A token is offered, and the nodes behind it are collected from unless it is required. -/
lemma yields_collectNodes_token (hn : n.symbol = .token t) (ht : t ≠ .eof) :
    (collectNodes s (n :: rest)).Yields V C ph L ↔ ∃ L',
      (if n.isRequired = true then ph = .matching ∧ L' = ∅
        else (collectNodes s rest).Yields V C ph L') ∧
      L = (if n.any = true then ∅ else offered s t (s.model.continuation n rest)) ∪ L' := by
  have hrest : ∀ L', (if n.isRequired = true then (pure .matching : Plan Phase)
      else collectNodes s rest).Yields V C ph L' ↔
      if n.isRequired = true then ph = .matching ∧ L' = ∅
        else (collectNodes s rest).Yields V C ph L' := by
    intro L'
    rw [yields_ite, yields_pure]
  simp only [collectNodes, hn, if_neg ht]
  cases n.any with
  | true =>
    simp only [Bool.not_true, Bool.false_eq_true, if_false, if_true, hrest, Set.empty_union]
    constructor
    · exact fun h => ⟨L, h, rfl⟩
    · rintro ⟨L', h, rfl⟩
      exact h
  | false =>
    simp only [Bool.not_false, Bool.false_eq_true, if_false, if_true, yields_bind, hrest]
    constructor
    · rintro ⟨⟨⟩, L₁, L₂, hoffer, h, rfl⟩
      exact ⟨L₂, h, by rw [yields_offerUnlessIgnored.1 hoffer]⟩
    · rintro ⟨L', h, rfl⟩
      exact ⟨(), _, L', yields_offerUnlessIgnored.2 rfl, h, rfl⟩

/-- A rule is collected from, and the nodes behind it unless it is required and not empty. -/
lemma yields_collectNodes_rule (hn : n.symbol = .rule id) :
    (collectNodes s (n :: rest)).Yields V C ph L ↔ ∃ k L₁ L₂, C id k L₁ ∧
      (if n.isRequired = true ∧ k = .matching then ph = .matching ∧ L₂ = ∅
        else (collectNodes s rest).Yields V C ph L₂) ∧ L = L₁ ∪ L₂ := by
  simp only [collectNodes, hn, yields_gather, yields_ite, yields_pure, Bool.and_eq_true,
    decide_eq_true_eq]

lemma yields_collectSequences_nil :
    (collectSequences s []).Yields V C ph L ↔ ph = .matching ∧ L = ∅ :=
  yields_pure

lemma yields_collectSequences_cons {k : Sequence RuleId} {list : List (Sequence RuleId)} :
    (collectSequences s (k :: list)).Yields V C ph L ↔ ∃ ph₁ ph₂ L₁ L₂,
      (collectNodes s k.nodes).Yields V C ph₁ L₁ ∧
        (collectSequences s list).Yields V C ph₂ L₂ ∧ ph = ph₁.or ph₂ ∧ L = L₁ ∪ L₂ := by
  simp only [collectSequences, yields_bind, yields_pure]
  constructor
  · rintro ⟨ph₁, L₁, L', h₁, ⟨ph₂, L₂, L₃, h₂, ⟨rfl, rfl⟩, rfl⟩, rfl⟩
    exact ⟨ph₁, ph₂, L₁, L₂, h₁, h₂, rfl, by rw [Set.union_empty]⟩
  · rintro ⟨ph₁, ph₂, L₁, L₂, h₁, h₂, rfl, rfl⟩
    exact ⟨ph₁, L₁, L₂, h₁, ⟨ph₂, L₂, ∅, h₂, ⟨rfl, rfl⟩, (Set.union_empty _).symm⟩, rfl⟩

lemma yields_collectTokens_cons {l : List TokenId} :
    (collectTokens s (t :: l)).Yields V C ph L ↔
      ∃ L', (collectTokens s l).Yields V C ph L' ∧ L = offered s t [] ∪ L' := by
  rw [collectTokens, yields_bind]
  constructor
  · rintro ⟨⟨⟩, L₁, L₂, hoffer, h, rfl⟩
    exact ⟨L₂, h, by rw [yields_offerUnlessIgnored.1 hoffer]⟩
  · rintro ⟨L', h, rfl⟩
    exact ⟨(), _, L', yields_offerUnlessIgnored.2 rfl, h, rfl⟩

lemma collectBehind_once (hm : n.isMultiple = false) :
    collectBehind s n rest = collectNodes s rest := by
  rw [collectBehind, if_neg (ne_true_of_eq_false hm)]

lemma collectBehind_multiple (hm : n.isMultiple = true) :
    collectBehind s n rest = collectNodes s (n :: rest) >>= fun _ => collectNodes s rest := by
  rw [collectBehind, if_pos hm]

lemma yields_collectAtCaret_once (hm : n.isMultiple = false) :
    (collectAtCaret s n rest p).Yields V C ph L ↔ (collectNodes s rest).Yields V C ph L := by
  rw [collectAtCaret, yields_note, if_neg (ne_true_of_eq_false hm)]

lemma yields_collectAtCaret_required (hm : n.isMultiple = true) (hr : n.isRequired = true) :
    (collectAtCaret s n rest p).Yields V C ph L ↔
      (collectNodes s (n :: rest) >>= fun _ => collectNodes s rest).Yields V C ph L := by
  rw [collectAtCaret, yields_note, if_pos hm, collectAfterRepeat]
  simp only [hr, if_true]

lemma yields_collectAtCaret_optional (hm : n.isMultiple = true) (hr : n.isRequired = false) :
    (collectAtCaret s n rest p).Yields V C ph L ↔
      (collectNodes s (n :: rest)).Yields V C ph L := by
  rw [collectAtCaret, yields_note, if_pos hm, collectAfterRepeat]
  simp only [hr, Bool.false_eq_true, if_false]
  constructor
  · intro h
    obtain ⟨k, L₁, L₂, h₁, h₂, rfl⟩ := yields_bind.1 h
    obtain ⟨rfl, rfl⟩ := yields_pure.1 h₂
    rwa [Set.union_empty]
  · intro h
    exact yields_bind.2 ⟨ph, L, ∅, h, .done, (Set.union_empty L).symm⟩

/-! ## Matching -/

lemma yields_matchNode_token (hn : n.symbol = .token t) :
    (matchNode s n p).Yields V C o L ↔ o = s.matchToken n.any t p ∧ L = ∅ := by
  simp only [matchNode, hn]
  exact yields_pure

lemma yields_matchNode_rule (hn : n.symbol = .rule id) :
    (matchNode s n p).Yields V C o L ↔ V ⟨id, p⟩ o L := by
  simp only [matchNode, hn, yields_visit]
  constructor
  · rintro ⟨o', L₁, L₂, hv, h, rfl⟩
    obtain ⟨rfl, rfl⟩ := yields_pure.1 h
    rwa [Set.union_empty]
  · intro hv
    exact ⟨o, L, ∅, hv, .done, (Set.union_empty L).symm⟩

/-- How matching goes on after the repetitions of a node. -/
def resume (s : Session) (rest : List (Node RuleId)) : Continuation → Plan Outcome
  | .finished o => pure o
  | .next p => matchNodes s rest p

/-- Collecting says in which phase matching ends. -/
lemma yields_bind_pure {x : Plan Phase} :
    (x >>= fun ph => pure ⟨b, q, ph⟩).Yields V C o L ↔ ∃ ph, x.Yields V C ph L ∧ o = ⟨b, q, ph⟩ := by
  rw [yields_bind]
  constructor
  · rintro ⟨ph, L₁, L₂, hx, h, rfl⟩
    obtain ⟨rfl, rfl⟩ := yields_pure.1 h
    exact ⟨ph, by rwa [Set.union_empty], rfl⟩
  · rintro ⟨ph, hx, rfl⟩
    exact ⟨ph, L, ∅, hx, .done, (Set.union_empty L).symm⟩

lemma yields_finished {x : Plan Phase} :
    ((x >>= fun ph => pure (Continuation.finished ⟨b, q, ph⟩)) >>= resume s rest).Yields V C o L ↔
      ∃ ph, x.Yields V C ph L ∧ o = ⟨b, q, ph⟩ := by
  rw [yields_bind]
  constructor
  · rintro ⟨k, L₁, L₂, h, hresume, rfl⟩
    obtain ⟨ph, L₃, L₄, hx, hend, rfl⟩ := yields_bind.1 h
    obtain ⟨rfl, rfl⟩ := yields_pure.1 hend
    obtain ⟨rfl, rfl⟩ := yields_pure.1 hresume
    exact ⟨ph, by rwa [Set.union_empty, Set.union_empty], rfl⟩
  · rintro ⟨ph, hx, rfl⟩
    refine ⟨.finished ⟨b, q, ph⟩, L, ∅, ?_, .done, (Set.union_empty L).symm⟩
    exact yields_bind.2 ⟨ph, L, ∅, hx, .done, (Set.union_empty L).symm⟩

/-- How matching goes on after the first of several nodes. -/
def matchOn (s : Session) (n : Node RuleId) (rest : List (Node RuleId)) (o : Outcome) :
    Plan Outcome :=
  if o.phase = .pending then do
    let phase ← collectBehind s n rest
    return ⟨o.matched && skippable rest, o.stop, phase⟩
  else if !o.matched then
    if n.isRequired then return ⟨false, o.stop, .matching⟩
    else matchNodes s rest o.stop
  else if s.reached o.stop then do
    let phase ← collectAtCaret s n rest o.stop
    return ⟨skippable rest, o.stop, phase⟩
  else if n.isMultiple then
    matchRepeats s n rest (s.stream.size - o.stop) o.stop >>= resume s rest
  else matchNodes s rest o.stop

lemma matchNodes_cons : matchNodes s (n :: rest) p = matchNode s n p >>= matchOn s n rest := by
  rw [matchNodes]
  rfl

lemma matchOn_pending : matchOn s n rest ⟨b, q, .pending⟩ =
    collectBehind s n rest >>= fun ph => pure ⟨b && skippable rest, q, ph⟩ := by
  rw [matchOn, if_pos rfl]

lemma matchOn_failed (hr : n.isRequired = true) :
    matchOn s n rest ⟨false, q, .matching⟩ = pure ⟨false, q, .matching⟩ := by
  simp only [matchOn, reduceCtorEq, if_false, Bool.not_false, if_true, hr]

lemma matchOn_skipped (hr : n.isRequired = false) :
    matchOn s n rest ⟨false, q, .matching⟩ = matchNodes s rest q := by
  simp only [matchOn, reduceCtorEq, if_false, Bool.not_false, if_true, hr, Bool.false_eq_true]

lemma matchOn_atCaret (hq : s.reached q = true) : matchOn s n rest ⟨true, q, .matching⟩ =
    collectAtCaret s n rest q >>= fun ph => pure ⟨skippable rest, q, ph⟩ := by
  simp only [matchOn, reduceCtorEq, if_false, Bool.not_true, Bool.false_eq_true, hq, if_true]

lemma matchOn_once (hq : s.reached q = false) (hm : n.isMultiple = false) :
    matchOn s n rest ⟨true, q, .matching⟩ = matchNodes s rest q := by
  simp only [matchOn, reduceCtorEq, if_false, Bool.not_true, Bool.false_eq_true, hq, hm]

lemma matchOn_multiple (hq : s.reached q = false) (hm : n.isMultiple = true) :
    matchOn s n rest ⟨true, q, .matching⟩ =
      matchRepeats s n rest (s.stream.size - q) q >>= resume s rest := by
  simp only [matchOn, reduceCtorEq, if_false, Bool.not_true, Bool.false_eq_true, hq, hm, if_true]

/-- How matching goes on after a further occurrence of a node, which was tried at a position. -/
def repeatOn (s : Session) (n : Node RuleId) (rest : List (Node RuleId)) (count p : Nat)
    (o : Outcome) : Plan Continuation :=
  if o.phase = .pending then do
    let phase ← collectBehind s n rest
    return .finished ⟨skippable rest, o.stop, phase⟩
  else if !o.matched then return .next o.stop
  else if n.isTerminal && s.reached o.stop then do
    let phase ← collectAtCaret s n rest o.stop
    return .finished ⟨skippable rest, o.stop, phase⟩
  else if o.stop = p then return .next p
  else matchRepeats s n rest count o.stop

lemma matchRepeats_succ (hp : s.stream.atEnd p = false) :
    matchRepeats s n rest (count + 1) p = matchNode s n p >>= repeatOn s n rest count p := by
  rw [matchRepeats, if_neg (ne_true_of_eq_false hp)]
  rfl

lemma repeatOn_pending : repeatOn s n rest count p ⟨b, q, .pending⟩ =
    collectBehind s n rest >>= fun ph => pure (.finished ⟨skippable rest, q, ph⟩) := by
  rw [repeatOn, if_pos rfl]

lemma repeatOn_failed :
    repeatOn s n rest count p ⟨false, q, .matching⟩ = pure (.next q) := by
  simp only [repeatOn, reduceCtorEq, if_false, Bool.not_false, if_true]

lemma repeatOn_atCaret (ht : n.isTerminal = true) (hq : s.reached q = true) :
    repeatOn s n rest count p ⟨true, q, .matching⟩ =
      collectAtCaret s n rest q >>= fun ph => pure (.finished ⟨skippable rest, q, ph⟩) := by
  simp only [repeatOn, reduceCtorEq, if_false, Bool.not_true, Bool.false_eq_true, ht, hq,
    Bool.and_self, if_true]

lemma repeatOn_idle (hc : (n.isTerminal && s.reached p) = false) :
    repeatOn s n rest count p ⟨true, p, .matching⟩ = pure (.next p) := by
  simp only [repeatOn, reduceCtorEq, if_false, Bool.not_true, Bool.false_eq_true, hc, if_true]

lemma repeatOn_more (hc : (n.isTerminal && s.reached q) = false) (hpq : q ≠ p) :
    repeatOn s n rest count p ⟨true, q, .matching⟩ = matchRepeats s n rest count q := by
  simp only [repeatOn, reduceCtorEq, if_false, Bool.not_true, Bool.false_eq_true, hc, hpq]

lemma yields_matchRepeats_succ (hp : s.stream.atEnd p = false) :
    (matchRepeats s n rest (count + 1) p >>= resume s rest).Yields V C o L ↔ ∃ o' L₁ L₂,
      (matchNode s n p).Yields V C o' L₁ ∧
        (repeatOn s n rest count p o' >>= resume s rest).Yields V C o L₂ ∧ L = L₁ ∪ L₂ := by
  rw [matchRepeats_succ hp]
  constructor
  · intro h
    obtain ⟨k, L', L₃, hk, hresume, rfl⟩ := yields_bind.1 h
    obtain ⟨o', L₁, L₂, hn, hrepeat, rfl⟩ := yields_bind.1 hk
    exact ⟨o', L₁, L₂ ∪ L₃, hn, hrepeat.bind hresume, Set.union_assoc _ _ _⟩
  · rintro ⟨o', L₁, L₂, hn, hgo, rfl⟩
    obtain ⟨k, L₃, L₄, hrepeat, hresume, rfl⟩ := yields_bind.1 hgo
    rw [← Set.union_assoc]
    exact (hn.bind hrepeat).bind hresume

/-! ## Bodies -/

lemma yields_matchSequences_nil {start i : Nat} {tally tally' : Tally} :
    (matchSequences s start i tally []).Yields V C tally' L ↔ tally' = tally ∧ L = ∅ :=
  yields_pure

lemma yields_matchSequences_cons {start i : Nat} {tally tally' : Tally} {k : Sequence RuleId}
    {list : List (Sequence RuleId)} :
    (matchSequences s start i tally (k :: list)).Yields V C tally' L ↔ ∃ o L₁ L₂,
      (matchNodes s k.nodes start).Yields V C o L₁ ∧
        (matchSequences s start (i + 1) (tally.add o) list).Yields V C tally' L₂ ∧
          L = L₁ ∪ L₂ := by
  simp only [matchSequences, yields_bind, yields_note]

/-- The index of an alternative matters for the events only. -/
lemma Yields.index {start i : Nat} {tally tally' : Tally} {list : List (Sequence RuleId)}
    (h : (matchSequences s start i tally list).Yields V C tally' L) (j : Nat) :
    (matchSequences s start j tally list).Yields V C tally' L := by
  induction list generalizing i j tally L with
  | nil => exact h
  | cons k rest ih =>
    obtain ⟨o, L₁, L₂, hk, hrest, rfl⟩ := yields_matchSequences_cons.1 h
    exact yields_matchSequences_cons.2 ⟨o, L₁, L₂, hk, ih hrest (j + 1), rfl⟩

/-- No alternative gets past where the best one ends. -/
lemma Yields.tallyBelow {start i q : Nat} {tally tally' : Tally} {list : List (Sequence RuleId)}
    (h : (matchSequences s start i tally list).Yields V C tally' L) (hq : tally'.Below q) :
    tally.Below q := by
  induction list generalizing i tally L with
  | nil =>
    obtain ⟨rfl, -⟩ := yields_matchSequences_nil.1 h
    exact hq
  | cons k rest ih =>
    obtain ⟨o, L₁, L₂, -, hrest, -⟩ := yields_matchSequences_cons.1 h
    exact (ih hrest).of_add.1

lemma Yields.tallyReaches {start i q : Nat} {tally tally' : Tally} {list : List (Sequence RuleId)}
    (h : (matchSequences s start i tally list).Yields V C tally' L) :
    (tally.Reaches q → tally'.Reaches q) ∧ (tally.matched = true → tally'.matched = true) := by
  induction list generalizing i tally L with
  | nil =>
    obtain ⟨rfl, -⟩ := yields_matchSequences_nil.1 h
    exact ⟨id, id⟩
  | cons k rest ih =>
    obtain ⟨o, L₁, L₂, -, hrest, -⟩ := yields_matchSequences_cons.1 h
    refine ⟨fun hq => (ih hrest).1 hq.add, fun hm => (ih hrest).2 ?_⟩
    simp only [Tally.add, hm, Bool.true_or]

/-- **Each alternative is tried**: if it matches, so does the rule, and if it counts, the best one
gets as far. -/
lemma Yields.tried {start i : Nat} {tally tally' : Tally} {list : List (Sequence RuleId)}
    {k : Sequence RuleId} (h : (matchSequences s start i tally list).Yields V C tally' L)
    (hk : k ∈ list) : ∃ o L', (matchNodes s k.nodes start).Yields V C o L' ∧ L' ⊆ L ∧
      (o.matched = true → tally'.matched = true) ∧
      (o.isUsable = true → tally'.Reaches o.stop) := by
  induction list generalizing i tally L with
  | nil => exact absurd hk List.not_mem_nil
  | cons k' rest ih =>
    obtain ⟨o, L₁, L₂, hnodes, hrest, rfl⟩ := yields_matchSequences_cons.1 h
    rcases List.mem_cons.1 hk with rfl | hk
    · refine ⟨o, L₁, hnodes, Set.subset_union_left, fun hm => ?_, fun hu => ?_⟩
      · refine hrest.tallyReaches (q := 0) |>.2 ?_
        simp only [Tally.add, hm, Bool.or_true]
      · exact hrest.tallyReaches.1 (Tally.reaches_add hu)
    · obtain ⟨o', L', hnodes', hL, hrest'⟩ := ih hrest hk
      exact ⟨o', L', hnodes', hL.trans Set.subset_union_right, hrest'⟩

/-- The best outcome is that of an alternative that counts. -/
lemma Yields.best_eq {start i : Nat} {tally tally' : Tally} {list : List (Sequence RuleId)}
    {b : Nat × Phase} (h : (matchSequences s start i tally list).Yields V C tally' L)
    (hb : tally'.best = some b) : tally.best = some b ∨ ∃ k ∈ list, ∃ o L',
      (matchNodes s k.nodes start).Yields V C o L' ∧ o.isUsable = true ∧ b = (o.stop, o.phase) := by
  induction list generalizing i tally L with
  | nil =>
    obtain ⟨rfl, -⟩ := yields_matchSequences_nil.1 h
    exact Or.inl hb
  | cons k rest ih =>
    obtain ⟨o, L₁, L₂, hnodes, hrest, -⟩ := yields_matchSequences_cons.1 h
    rcases ih hrest with hbest | ⟨k', hk', hcounts⟩
    · rcases Tally.best_add_cases hbest with hbest | ⟨hu, rfl⟩
      · exact Or.inl hbest
      · exact Or.inr ⟨k, List.mem_cons_self, o, L₁, hnodes, hu, rfl⟩
    · exact Or.inr ⟨k', List.mem_cons_of_mem k hk', hcounts⟩

lemma yields_matchBody_tokenSet {tokens : OrderedSet TokenId} {start : Nat} :
    (matchBody s start (.tokenSet tokens)).Yields V C o L ↔
      o = s.matchTokenSet tokens start ∧ L = ∅ :=
  yields_pure

lemma yields_matchBody_sequences {list : List (Sequence RuleId)} {start : Nat} :
    (matchBody s start (.sequences list)).Yields V C o L ↔ ∃ tally,
      (matchSequences s start 0 {} list).Yields V C tally L ∧ o = tally.outcome start := by
  simp only [matchBody, yields_bind, yields_pure]
  constructor
  · rintro ⟨tally, L₁, L₂, h, ⟨rfl, rfl⟩, rfl⟩
    exact ⟨tally, by rwa [Set.union_empty], rfl⟩
  · rintro ⟨tally, h, rfl⟩
    exact ⟨tally, L, ∅, h, ⟨rfl, rfl⟩, (Set.union_empty L).symm⟩

end Plan

end GrammarCompletion
